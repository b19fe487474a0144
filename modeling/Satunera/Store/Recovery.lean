import Satunera.Store.Codec
import Satunera.Store.Integrity
import Satunera.Store.Lifecycle
import Satunera.Store.Log

/-!
# The lifecycle over a run, and recovery

* `Moves` : how a committed status may follow another;
* `Followed` : the statuses and the start time of one submission against the log (`followed_after`);
* `Timed` : the order of its times, under a clock that does not run backwards;
* `Recovers` : no submission the recovery scan returns is stuck;
* `lifecycle_recovers` : all of it after every run.
-/

namespace Satunera.Store

open Satunera.Base Satunera.Contracts

variable {F : TextForms}

/-! ## Statuses -/

/-- The place of a status in the lifecycle. -/
def SubmissionStatus.rank : SubmissionStatus → Nat
  | .queued => 0
  | .preparing => 1
  | .building => 2
  | .booting => 3
  | .running => 4
  | .done => 5

/-- Never back to `queued`, out of `queued` only to `preparing`, and backwards only to `preparing`. -/
structure Moves (current next : SubmissionStatus) : Prop where
  not_queued : next ≠ .queued
  of_queued : current = .queued → next = .preparing
  backwards : next.rank < current.rank → next = .preparing

theorem moves_of_canTransitionTo {current next : SubmissionStatus} (h : current.canTransitionTo next = true) :
    Moves current next := by
  refine ⟨?_, ?_, ?_⟩ <;> revert h <;> cases current <;> cases next <;> decide

/-- What the log says of a submission is what its row `o` says. -/
structure Followed (id : SubmissionId) (o : Option SubmissionRecord) (log : List (Call F)) : Prop where
  chain : (statuses id log).IsChain Moves
  first : ∀ s ∈ (statuses id log).head?, s = .queued
  last : o.map SubmissionRecord.status = (statuses id log).getLast?.map SubmissionStatus.asStr
  started : o.bind SubmissionRecord.startedAt = (moves id log).head?.map Clock.text
  unmoved : moves id log = [] ↔ ∀ s ∈ (statuses id log).getLast?, s = .queued

theorem followed_nil (id : SubmissionId) : Followed id none ([] : List (Call F)) := by
  refine ⟨.nil, ?_, rfl, rfl, ⟨fun _ => ?_, fun _ => rfl⟩⟩ <;> intro s hs <;> cases hs

section Step
variable {id : SubmissionId} {log : List (Call F)}

/-- The last committed status is that of the row. -/
theorem Followed.getLast {row : SubmissionRecord} (h : Followed id (some row) log) {current : SubmissionStatus}
    (hst : row.status = current.asStr) : (statuses id log).getLast? = some current := by
  have hlast := h.last
  rw [Option.map_some, hst, eq_comm, Option.map_eq_some_iff] at hlast
  obtain ⟨s, hs, he⟩ := hlast
  rw [hs, SubmissionStatus.asStr_injective he]

/-- One more status keeps the chain. -/
theorem Followed.chain_concat {row : SubmissionRecord} (h : Followed id (some row) log)
    {current next : SubmissionStatus} (hst : row.status = current.asStr) (hcan : current.canTransitionTo next = true) :
    (statuses id log ++ [next]).IsChain Moves := by
  refine List.isChain_append.mpr ⟨h.chain, .singleton _, ?_⟩
  rw [h.getLast hst]
  rintro _ ⟨⟩ _ ⟨⟩
  exact moves_of_canTransitionTo hcan

theorem Followed.head?_concat {row : SubmissionRecord} (h : Followed id (some row) log) {current : SubmissionStatus}
    (hst : row.status = current.asStr) (next : SubmissionStatus) :
    (statuses id log ++ [next]).head? = (statuses id log).head? := by
  have hlast := h.getLast hst
  cases hl : statuses id log with
  | nil =>
    rw [hl] at hlast
    cases hlast
  | cons s ss => rfl

/-- A row that can be finished has been moved before. -/
theorem Followed.exists_startedAt {row : SubmissionRecord} (h : Followed id (some row) log)
    {current : SubmissionStatus} (hst : row.status = current.asStr) (hcan : current.canTransitionTo .done = true) :
    ∃ t, row.startedAt = some t := by
  have hne : moves id log ≠ [] := by
    rw [ne_eq, h.unmoved, h.getLast hst]
    intro hq
    cases (moves_of_canTransitionTo hcan).of_queued (hq current rfl)
  obtain ⟨now, rest, hmoves⟩ := List.exists_cons_of_ne_nil hne
  refine ⟨now.text, ?_⟩
  have hstart := h.started
  rwa [hmoves] at hstart

/-- A call that leaves the submission alone. -/
theorem Followed.untouched {o : Option SubmissionRecord} {c : Call F} (h : Followed id o log)
    (hc : c.status? id = none) : Followed id o (log ++ [c]) := by
  have hs : statuses id (log ++ [c]) = statuses id log := statuses_concat_of_none hc
  have hm : moves id (log ++ [c]) = moves id log := moves_concat_of_none (Call.move?_eq_none hc)
  exact ⟨hs ▸ h.chain, hs ▸ h.first, hs ▸ h.last, hm ▸ h.started, hm ▸ hs ▸ h.unmoved⟩

theorem Followed.created (h : Followed id none log) (now : Clock F) (submission : NewSubmission) :
    Followed id (some (queuedRecord id now submission)) (log ++ [.createSubmission id now submission]) := by
  have hnone : statuses id log = [] := by
    have hlast := h.last
    rwa [Option.map_none, eq_comm, Option.map_eq_none_iff, List.getLast?_eq_none_iff] at hlast
  have hunmoved : moves id log = [] := by
    rw [h.unmoved, hnone]
    intro s hs
    cases hs
  have hs : statuses id (log ++ [.createSubmission id now submission]) = [.queued] := by
    have hconcat : statuses id (log ++ [.createSubmission id now submission]) = statuses id log ++ [.queued] :=
      statuses_concat (if_pos rfl)
    rwa [hnone] at hconcat
  have hm : moves id (log ++ [.createSubmission id now submission]) = [] :=
    (moves_concat_of_none rfl).trans hunmoved
  refine ⟨hs ▸ .singleton _, ?_, ?_, ?_, ?_⟩
  · rw [hs]
    rintro _ ⟨⟩
    rfl
  · rw [hs]
    rfl
  · rw [hm]
    rfl
  · rw [hm, hs]
    apply iff_of_true rfl
    rintro _ ⟨⟩
    rfl

section Moved
variable {row : SubmissionRecord} {current : SubmissionStatus}

theorem Followed.moved (h : Followed id (some row) log) (hst : row.status = current.asStr) (now : Clock F)
    {status : SubmissionStatus} (hcan : current.canTransitionTo status = true) :
    Followed id (some (row.withStatus status.asStr (row.startedAt.getD now.text)))
      (log ++ [.setSubmissionStatus now id status]) := by
  have hs : statuses id (log ++ [.setSubmissionStatus now id status]) = statuses id log ++ [status] :=
    statuses_concat (if_pos rfl)
  have hm : moves id (log ++ [.setSubmissionStatus now id status]) = moves id log ++ [now] :=
    moves_concat (if_pos rfl)
  refine ⟨hs ▸ h.chain_concat hst hcan, ?_, ?_, ?_, ?_⟩
  · rw [hs, h.head?_concat hst]
    exact h.first
  · rw [hs, List.getLast?_concat]
    rfl
  · have hstart := h.started
    rw [Option.bind_some] at hstart
    rw [hm, Option.bind_some]
    show some (row.startedAt.getD now.text) = _
    rw [hstart]
    cases moves id log <;> rfl
  · rw [hm, hs, List.getLast?_concat]
    refine iff_of_false (by simp) fun hq => ?_
    exact (moves_of_canTransitionTo hcan).not_queued (hq status rfl)

theorem Followed.closed (h : Followed id (some row) log) (hst : row.status = current.asStr)
    (hcan : current.canTransitionTo .done = true) (now : Clock F) (verdict : Verdict) :
    Followed id (some (row.withVerdict verdict.asStr now.text)) (log ++ [.finishSubmission now id verdict]) := by
  have hs : statuses id (log ++ [.finishSubmission now id verdict]) = statuses id log ++ [.done] :=
    statuses_concat (if_pos rfl)
  have hm : moves id (log ++ [.finishSubmission now id verdict]) = moves id log := moves_concat_of_none rfl
  refine ⟨hs ▸ h.chain_concat hst hcan, ?_, ?_, ?_, ?_⟩
  · rw [hs, h.head?_concat hst]
    exact h.first
  · rw [hs, List.getLast?_concat]
    rfl
  · rw [hm]
    exact h.started
  · rw [hm, hs, List.getLast?_concat, h.unmoved, h.getLast hst]
    refine iff_of_false (fun hq => ?_) fun hq => ?_
    · cases (moves_of_canTransitionTo hcan).of_queued (hq current rfl)
    · cases hq .done rfl

end Moved

theorem Followed.write {o o' : Option SubmissionRecord} {c : Call F} (h : Followed id o log) (hw : Writes id o c o') :
    Followed id o' (log ++ [c]) := by
  cases hw with
  | untouched hc => exact h.untouched hc
  | created => exact h.created _ _
  | moved hst hcan => exact h.moved hst _ hcan
  | closed hst hcan => exact h.closed hst hcan _ _

end Step

theorem followed_after (steps : List (Step F)) (id : SubmissionId) :
    Followed id ((after Db.empty steps).submissions.find? (F.ulid id.ulid)) (committed Db.empty steps) :=
  row_invariant id (P := Followed id) (followed_nil id) Followed.write steps

/-! ## Times -/

/-- The clock a call reads. -/
def Call.reading : Call F → Option (Clock F)
  | .createUser _ now _ => some now
  | .replaceProblems _ => none
  | .createSubmission _ now _ => some now
  | .setSubmissionStatus now _ _ => some now
  | .finishSubmission now _ _ => some now
  | .recordRun _ now _ => some now

/-- The same for a clock that is read inside the transaction, so after every earlier commit. -/
def Call.lockedReading : Call F → Option (Clock F)
  | .setSubmissionStatus now _ _ => some now
  | .finishSubmission now _ _ => some now
  | _ => none

/-- The clock does not run backwards: a reading inside a transaction is no earlier than those of the commits before. -/
def ClockMonotone (log : List (Call F)) : Prop :=
  log.Pairwise fun c c' => ∀ now ∈ c.reading, ∀ now' ∈ c'.lockedReading, now.time.unixNanos ≤ now'.time.unixNanos

/-- `s` and `t` are the texts of two readings, the first no later than the second. -/
def NoLater (F : TextForms) (s t : String) : Prop :=
  ∃ a b : Clock F, s = a.text ∧ t = b.text ∧ a.time.unixNanos ≤ b.time.unixNanos

/-- The times of a row are readings of the log, in order. -/
structure SubmissionRecord.Timed (r : SubmissionRecord) (log : List (Call F)) : Prop where
  created : ∃ now ∈ log.filterMap Call.reading, r.createdAt = now.text
  started : ∀ t, r.startedAt = some t → (∃ now ∈ log.filterMap Call.reading, t = now.text) ∧ NoLater F r.createdAt t
  finished : ∀ t, r.finishedAt = some t → ∃ t₀, r.startedAt = some t₀ ∧ NoLater F t₀ t

theorem mem_readings_concat {log : List (Call F)} {now : Clock F} (h : now ∈ log.filterMap Call.reading) (c : Call F) :
    now ∈ (log ++ [c]).filterMap Call.reading := by
  rw [List.filterMap_append]
  exact List.mem_append_left _ h

theorem SubmissionRecord.Timed.concat {r : SubmissionRecord} {log : List (Call F)} (h : r.Timed log) (c : Call F) :
    r.Timed (log ++ [c]) where
  created := by
    obtain ⟨now, hnow, he⟩ := h.created
    exact ⟨now, mem_readings_concat hnow c, he⟩
  started t ht := by
    obtain ⟨⟨now, hnow, he⟩, hle⟩ := h.started t ht
    exact ⟨⟨now, mem_readings_concat hnow c, he⟩, hle⟩
  finished := h.finished

/-- A reading inside the last transaction is no earlier than any before. -/
theorem ClockMonotone.noLater {log : List (Call F)} {c : Call F} (h : ClockMonotone (log ++ [c])) {now now' : Clock F}
    (hnow : now ∈ log.filterMap Call.reading) (hc : c.lockedReading = some now') : NoLater F now.text now'.text := by
  obtain ⟨c₀, hc₀, hread⟩ := List.mem_filterMap.mp hnow
  exact ⟨now, now', rfl, rfl, (List.pairwise_append.mp h).2.2 c₀ hc₀ c (List.mem_singleton_self c) now hread now' hc⟩

theorem timed_write {id : SubmissionId} {o o' : Option SubmissionRecord} {log : List (Call F)} {c : Call F}
    (hf : Followed id o log) (h : ∀ r, o = some r → r.Timed log) (hw : Writes id o c o')
    (hmono : ClockMonotone (log ++ [c])) : ∀ r, o' = some r → r.Timed (log ++ [c]) := by
  cases hw with
  | untouched => exact fun r hr => (h r hr).concat c
  | @created now submission =>
    rintro _ ⟨⟩
    refine ⟨⟨now, ?_, rfl⟩, ?_, ?_⟩
    · rw [List.filterMap_append]
      exact List.mem_append_right _ (List.mem_singleton_self now)
    · intro t ht
      cases ht
    · intro t ht
      cases ht
  | @moved now status row current hst hcan =>
    rintro _ ⟨⟩
    have hold := (h row rfl).concat (.setSubmissionStatus now id status)
    cases hstart : row.startedAt with
    | none =>
      refine ⟨hold.created, ?_, fun t ht => ?_⟩
      · rintro t ⟨⟩
        obtain ⟨c, hc, hcreated⟩ := (h row rfl).created
        refine ⟨⟨now, ?_, rfl⟩, hcreated ▸ hmono.noLater hc rfl⟩
        rw [List.filterMap_append]
        exact List.mem_append_right _ (List.mem_singleton_self now)
      · obtain ⟨t₀, ht₀, -⟩ := hold.finished t ht
        rw [hstart] at ht₀
        cases ht₀
    | some t₀ =>
      refine ⟨hold.created, ?_, fun t ht => ?_⟩
      · rintro t ⟨⟩
        exact hold.started t₀ hstart
      · obtain ⟨t₁, ht₁, hle⟩ := hold.finished t ht
        exact ⟨t₁, hstart.symm.trans ht₁, hle⟩
  | @closed now verdict row current hst hcan =>
    rintro _ ⟨⟩
    have hold := (h row rfl).concat (.finishSubmission now id verdict)
    refine ⟨hold.created, hold.started, ?_⟩
    rintro t ⟨⟩
    obtain ⟨t₀, ht₀⟩ := hf.exists_startedAt hst hcan
    obtain ⟨⟨c, hc, rfl⟩, -⟩ := (h row rfl).started t₀ ht₀
    exact ⟨_, ht₀, hmono.noLater hc rfl⟩

theorem timed_after (steps : List (Step F)) (hmono : ClockMonotone (committed Db.empty steps)) (id : SubmissionId) :
    ∀ r, (after Db.empty steps).submissions.find? (F.ulid id.ulid) = some r → r.Timed (committed Db.empty steps) := by
  refine (row_invariant id (P := fun o log => Followed id o log ∧
    (ClockMonotone log → ∀ r, o = some r → r.Timed log)) ⟨followed_nil id, fun _ r hr => by cases hr⟩ ?_ steps).2 hmono
  rintro o o' log c ⟨hf, ht⟩ hw
  refine ⟨hf.write hw, fun hmono => timed_write hf (ht ?_) hw hmono⟩
  exact (List.pairwise_append.mp hmono).1

/-! ## What a run says of a submission -/

structure Lifecycle (F : TextForms) (steps : List (Step F)) (id : SubmissionId) : Prop where
  /-- The committed statuses start at `queued`, follow one another by `Moves`, and end in the one it has. -/
  first : ∀ s ∈ (statuses id (committed Db.empty steps)).head?, s = .queued
  chain : (statuses id (committed Db.empty steps)).IsChain Moves
  last : ∀ s, submission F id (after Db.empty steps) = .ok s →
    (statuses id (committed Db.empty steps)).getLast? = some s.status
  /-- The start time is set exactly when it has left `queued`, by its first move. -/
  started_iff : ∀ s, submission F id (after Db.empty steps) = .ok s → (s.startedAt.isSome ↔ s.status ≠ .queued)
  started : ∀ s, submission F id (after Db.empty steps) = .ok s →
    s.startedAt = (moves id (committed Db.empty steps)).head?.map Clock.time
  /-- Under a clock that does not run backwards its times are in order. -/
  times : ClockMonotone (committed Db.empty steps) → ∀ s, submission F id (after Db.empty steps) = .ok s →
    (∀ t, s.startedAt = some t → s.createdAt.unixNanos ≤ t.unixNanos) ∧
      ∀ t, s.finishedAt = some t → ∃ t₀, s.startedAt = some t₀ ∧ t₀.unixNanos ≤ t.unixNanos

theorem Stamps.eq_time {t : OffsetDateTime} {now : Clock F} (h : Stamps F t now.text) : t = now.time :=
  Except.ok.inj ((F.parse_rfc3339 _ _ h).symm.trans now.parse)

theorem OptStamps.exists_text {t : OffsetDateTime} {o : Option String} (h : OptStamps F (Option.some t) o) :
    ∃ text, o = Option.some text ∧ Stamps F t text := by
  cases h with
  | some h => exact ⟨_, rfl, h⟩

theorem OptStamps.eq_map_time {t : Option OffsetDateTime} {o : Option (Clock F)}
    (h : OptStamps F t (o.map Clock.text)) : t = o.map Clock.time := by
  cases o with
  | none =>
    cases h
    rfl
  | some now =>
    cases h with
    | some h => exact congrArg Option.some h.eq_time

theorem NoLater.of_stamps {s t : String} (h : NoLater F s t) {a b : OffsetDateTime} (ha : Stamps F a s)
    (hb : Stamps F b t) : a.unixNanos ≤ b.unixNanos := by
  obtain ⟨x, y, rfl, rfl, hle⟩ := h
  rwa [ha.eq_time, hb.eq_time]

theorem lifecycle_after (steps : List (Step F)) (id : SubmissionId) : Lifecycle F steps id := by
  have hf := followed_after steps id
  have hrow : ∀ s, submission F id (after Db.empty steps) = .ok s →
      ∃ r, (after Db.empty steps).submissions.find? (F.ulid id.ulid) = some r ∧ r.Encodes F s := by
    intro s hs
    obtain ⟨rfl, r, hr, he⟩ := (written_after steps).submission_eq_ok_iff.mp hs
    exact ⟨r, he.id ▸ Table.find?_of_mem hr, he⟩
  have hstarted : ∀ s, submission F id (after Db.empty steps) = .ok s →
      s.startedAt = (moves id (committed Db.empty steps)).head?.map Clock.time := by
    intro s hs
    obtain ⟨r, hr, he⟩ := hrow s hs
    rw [hr] at hf
    have hst : r.startedAt = _ := hf.started
    exact (hst ▸ he.startedAt).eq_map_time
  refine ⟨hf.first, hf.chain, fun s hs => ?_, fun s hs => ?_, hstarted,
    fun hmono s hs => ⟨fun t ht => ?_, fun t ht => ?_⟩⟩
  · obtain ⟨r, hr, he⟩ := hrow s hs
    rw [hr] at hf
    exact hf.getLast he.status
  · obtain ⟨r, hr, he⟩ := hrow s hs
    rw [hr] at hf
    have hunmoved : moves id (committed Db.empty steps) = [] ↔ s.status = .queued := by
      rw [hf.unmoved, hf.getLast he.status]
      simp
    rw [hstarted s hs, Option.isSome_map, ne_eq, ← hunmoved]
    cases moves id (committed Db.empty steps) <;> simp
  · obtain ⟨r, hr, he⟩ := hrow s hs
    obtain ⟨text, htext, hstamp⟩ := (ht ▸ he.startedAt).exists_text
    exact ((timed_after steps hmono id r hr).started text htext).2.of_stamps he.createdAt hstamp
  · obtain ⟨r, hr, he⟩ := hrow s hs
    obtain ⟨text, htext, hstamp⟩ := (ht ▸ he.finishedAt).exists_text
    obtain ⟨text₀, htext₀, hle⟩ := (timed_after steps hmono id r hr).finished text htext
    have hstart := he.startedAt
    rw [htext₀] at hstart
    generalize s.startedAt = started at hstart
    cases hstart with
    | some hstamp₀ => exact ⟨_, rfl, hle.of_stamps hstamp₀ hstamp⟩

/-! ## Recovery -/

/-- Every submission of the recovery scan can be started over and then finished. -/
def Recovers (F : TextForms) (db : Db) : Prop :=
  ∃ subs, inFlightSubmissions F db = .ok subs ∧ ∀ s ∈ subs, ∀ (now now' : Clock F) (verdict : Verdict), ∃ db₁ db₂,
    (Step.mk (.setSubmissionStatus now s.id .preparing) none).run db = (.ok .unit, db₁) ∧
      (Step.mk (.finishSubmission now' s.id verdict) none).run db₁ = (.ok .unit, db₂)

theorem recovers {db : Db} (hw : db.Written F) (href : References db) : Recovers F db := by
  obtain ⟨subs, hsubs, hmem⟩ := mem_inFlightSubmissions hw
  refine ⟨subs, hsubs, fun s hs now now' verdict => ?_⟩
  obtain ⟨r, hr, hne, hinto⟩ := (hmem s).mp hs
  obtain ⟨s', he⟩ := (hw r hr).encodes
  obtain rfl : s' = s := Except.ok.inj (he.intoSubmission_eq.symm.trans hinto)
  have hrow : db.submissions.find? (F.ulid s'.id.ulid) = some r := he.id ▸ Table.find?_of_mem hr
  have hcan : s'.status.canTransitionTo .preparing = true := by
    have hdone : s'.status ≠ .done := fun hd => hne (by rw [he.status, hd]; rfl)
    cases hst : s'.status <;> first | rfl | exact absurd hst hdone
  have hset := setSubmissionStatus_run_of_allowed hrow he.status hcan now
  have hc : Change db (.setSubmissionStatus now s'.id .preparing) _ := .setSubmissionStatus hrow he.status hcan
  have hst : (r.withStatus "PREPARING" (r.startedAt.getD now.text)).status = SubmissionStatus.preparing.asStr := rfl
  obtain ⟨db₂, hfinish⟩ :=
    finishSubmission_ok (references_change href hc) (Db.find?_withStatus hrow) hst rfl now' verdict
  refine ⟨_, db₂, step_of_run hset, step_of_run ?_⟩
  simp only [Call.prog, Prog.run_bind, hfinish]
  rfl

/-- **Every run keeps the lifecycle of every submission, and none is stuck after a crash.** -/
theorem lifecycle_recovers (F : TextForms) (steps : List (Step F)) :
    (∀ id, Lifecycle F steps id) ∧ Recovers F (after Db.empty steps) :=
  ⟨lifecycle_after steps, recovers (written_after steps) (references_after steps)⟩

end Satunera.Store
