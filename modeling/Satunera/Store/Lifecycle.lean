import Satunera.Store.Reads
import Satunera.Store.TextForms

/-!
# The lifecycle of a submission

A submission ought to carry its verdict and its finish time exactly when it is `DONE`: the crash-recovery scan returns
the submissions that are not `DONE`, and a resubmission is answered by one that has a verdict.

* `Tracked` : every row is so, and is in exactly one of the two places;
* `ClosesWithoutVerdict` : a status update to `DONE`, which leaves the verdict out;
* `tracked_iff` : a run keeps `Tracked` exactly when none of its steps closes without a verdict;
* `not_tracked_closingRun` : a run that does not.
-/

namespace Satunera.Store

open Satunera.Base Satunera.Contracts

variable {F : TextForms}

/-! ## The two places -/

/-- The row is `DONE` exactly when it has a verdict, and then it has a finish time. -/
structure SubmissionRecord.Consistent (r : SubmissionRecord) : Prop where
  done_iff : r.status = "DONE" ↔ r.verdict.isSome
  verdict_iff : r.verdict.isSome ↔ r.finishedAt.isSome

/-- The crash-recovery scan returns the row. -/
def InFlight (F : TextForms) (db : Db) (r : SubmissionRecord) : Prop :=
  ∃ subs, inFlightSubmissions F db = .ok subs ∧ ∃ s ∈ subs, r.intoSubmission F = .ok s

/-- The row has a verdict, and looking for its source finds it or a later row with a verdict for that source. -/
def Found (F : TextForms) (db : Db) (r : SubmissionRecord) : Prop :=
  r.verdict.isSome ∧ ∃ (userId : UserId) (s : Submission), F.ulid userId.ulid = r.userId ∧
    latestVerdictForHash F userId r.sourceHash db = .ok (some s) ∧ s.userId = userId ∧
    s.sourceHash = r.sourceHash ∧ s.verdict.isSome ∧ r.id ≤ F.ulid s.id.ulid

/-- Every submission is consistent and in exactly one of the two places. -/
def Tracked (F : TextForms) (db : Db) : Prop :=
  ∀ r ∈ db.submissions.rows, r.Consistent ∧ Xor (InFlight F db r) (Found F db r)

theorem inFlight_iff {db : Db} (h : db.Written F) {r : SubmissionRecord} (hr : r ∈ db.submissions.rows) :
    InFlight F db r ↔ r.status ≠ "DONE" := by
  obtain ⟨subs, hsubs, hmem⟩ := mem_inFlightSubmissions h
  obtain ⟨s, hs⟩ := (h r hr).decodes
  constructor
  · rintro ⟨subs', hsubs', s', hs', hr'⟩
    obtain rfl : subs = subs' := Except.ok.inj (hsubs.symm.trans hsubs')
    -- The row that was scanned has the same status, though its id may be another spelling.
    obtain ⟨r₀, hr₀, hne, hdec⟩ := (hmem s').mp hs'
    obtain ⟨s₀, hs₀⟩ := (h r₀ hr₀).decodes
    obtain rfl : s₀ = s' := Except.ok.inj (hs₀.ok.symm.trans hdec)
    obtain rfl : s = s₀ := Except.ok.inj (hs.ok.symm.trans hr')
    rw [← hs.status, hs₀.status]
    exact hne
  · intro hne
    exact ⟨subs, hsubs, s, (hmem s).mpr ⟨r, hr, hne, hs.ok⟩, hs.ok⟩

theorem found_iff {db : Db} (h : db.Written F) {r : SubmissionRecord} (hr : r ∈ db.submissions.rows) :
    Found F db r ↔ r.verdict.isSome := by
  refine ⟨fun hf => hf.1, fun hv => ⟨hv, ?_⟩⟩
  obtain ⟨u, hu⟩ := (h r hr).userId
  obtain ⟨hit, s, hlatest, -, hs, huser, hhash, hsome, hle⟩ :=
    latestVerdictForHash_of_mem h hr hv (hu.symm : F.ulid (UserId.mk u).ulid = r.userId)
  exact ⟨⟨u⟩, s, hu.symm, hlatest, huser, hhash, hsome, hs.id ▸ hle⟩

theorem tracked_of_consistent {db : Db} (h : db.Written F) (hc : ∀ r ∈ db.submissions.rows, r.Consistent) :
    Tracked F db := by
  intro r hr
  refine ⟨hc r hr, ?_⟩
  rw [inFlight_iff h hr, found_iff h hr, ← (hc r hr).done_iff]
  by_cases hd : r.status = "DONE"
  · exact Or.inr ⟨hd, fun hne => hne hd⟩
  · exact Or.inl ⟨hd, hd⟩

/-! ## Closing without a verdict -/

/-- `set_submission_status(id, DONE)` on a row whose status allows it, with no failure in its two statements or its
commit. -/
def ClosesWithoutVerdict (db : Db) (st : Step F) : Prop :=
  ∃ now id row current, st.call = .setSubmissionStatus now id .done ∧ (∀ n, st.fault = some n → 2 < n) ∧
    db.submissions.find? (F.ulid id.ulid) = some row ∧ row.status = SubmissionStatus.asStr current ∧
    current.canTransitionTo .done = true

section Allowed
variable {id : SubmissionId} {status current : SubmissionStatus} {db : Db} {row : SubmissionRecord}
  (hrow : db.submissions.find? (F.ulid id.ulid) = some row) (hst : row.status = SubmissionStatus.asStr current)
  (hcan : current.canTransitionTo status = true)
include hrow hst hcan

theorem setSubmissionStatus_run_of_allowed (now : Clock F) :
    (Call.setSubmissionStatus now id status).prog.run exec db =
      (.ok (.ok .unit), db.withStatus (F.ulid id.ulid) status.asStr (row.startedAt.getD now.text)) := by
  simp only [Call.prog, Prog.run_bind, setSubmissionStatus_run, hrow, hst, SubmissionStatus.parse_asStr, hcan,
    if_true]
  rfl

theorem setSubmissionStatus_length (now : Clock F) :
    (Call.setSubmissionStatus now id status).prog.length exec db = 2 := by
  simp only [Call.prog, setSubmissionStatus, fetch, Prog.query, stmt_bind, ret_ok_bind, Prog.length, exec, hrow,
    Option.map_some, okOr, Prog.lift, hst, SubmissionStatus.parse_asStr, hcan, Bool.not_true, Bool.false_eq_true,
    if_false, status_mem_labels, not_true_eq_false, and_false]
  rfl

end Allowed

theorem step_of_closes {db : Db} {st : Step F} (h : ClosesWithoutVerdict db st) :
    ∃ row startedAt, row ∈ db.submissions.rows ∧ row.status ≠ "DONE" ∧
      (st.run db).2 = db.withStatus row.id "DONE" startedAt := by
  obtain ⟨now, id, row, current, hcall, hfault, hrow, hst, hcan⟩ := h
  obtain ⟨call, fault⟩ := st
  obtain rfl : call = _ := hcall
  have hok := atomically_of_ok (setSubmissionStatus_run_of_allowed hrow hst hcan now)
  have hlen := setSubmissionStatus_length hrow hst hcan now
  refine ⟨row, row.startedAt.getD now.text, Table.mem_of_find? hrow, ?_, ?_⟩
  · rw [hst]
    exact fun he => SubmissionStatus.ne_done_of_canTransitionTo hcan (SubmissionStatus.asStr_injective he)
  · rw [Table.key_of_find? hrow]
    cases fault with
    | none => exact congrArg Prod.snd hok
    | some n =>
      have hrun := run_faultAt_of_lt exec .io StoreError.database _ n db (hlen ▸ hfault n rfl)
      simp only [Step.run, Step.prog]
      unfold atomically at hok ⊢
      rw [hrun]
      exact congrArg Prod.snd hok

theorem closes_of_step {db db' : Db} {st : Step F} {r : Reply} (hr : st.run db = (.ok r, db'))
    (hc : Change db st.call db') {now : Clock F} {id : SubmissionId}
    (hcall : st.call = .setSubmissionStatus now id .done) :
    ClosesWithoutVerdict db st := by
  obtain ⟨call, fault⟩ := st
  obtain rfl : call = _ := hcall
  cases hc with
  | @setSubmissionStatus _ _ _ row current hrow hst hcan =>
    refine ⟨now, id, row, current, rfl, fun n hn => ?_, hrow, hst, hcan⟩
    by_contra hle
    obtain rfl : fault = some n := hn
    obtain ⟨e, t', he⟩ := run_faultAt_of_le exec .io StoreError.database
      (Call.setSubmissionStatus now id .done).prog n db (by rw [setSubmissionStatus_length hrow hst hcan now]; omega)
    rw [Step.run, Step.prog, atomically_of_error he] at hr
    cases congrArg Prod.fst hr

/-! ## Runs -/

/-- Every call but a status update to `DONE` keeps the rows consistent. -/
theorem consistent_change {db db' : Db} {c : Call F} (h : ∀ r ∈ db.submissions.rows, r.Consistent)
    (hc : Change db c db') (hdone : ∀ now id, c ≠ .setSubmissionStatus now id .done) :
    ∀ r ∈ db'.submissions.rows, r.Consistent := by
  intro r hr
  cases hc.origin hr with
  | kept hr => exact h r hr
  | queued => exact ⟨by simp [queuedRecord], by simp [queuedRecord]⟩
  | @moved now id status r current startedAt hmem hid hst hcan hstart =>
    have hold := h r hmem
    have hcur : r.status ≠ "DONE" := by
      rw [hst]
      exact fun he => SubmissionStatus.ne_done_of_canTransitionTo hcan (SubmissionStatus.asStr_injective he)
    have hnew : status.asStr ≠ "DONE" := fun he =>
      hdone now id (by rw [(SubmissionStatus.asStr_injective he : _ = SubmissionStatus.done)])
    exact ⟨⟨fun he => absurd he hnew, fun hv => absurd (hold.done_iff.mpr hv) hcur⟩, hold.verdict_iff⟩
  | closed => exact ⟨⟨fun _ => rfl, fun _ => rfl⟩, ⟨fun _ => rfl, fun _ => rfl⟩⟩

theorem consistent_step {db : Db} {st : Step F} (h : ∀ r ∈ db.submissions.rows, r.Consistent)
    (hst : ¬ClosesWithoutVerdict db st) : ∀ r ∈ (st.run db).2.submissions.rows, r.Consistent := by
  rcases step_cases st db with ⟨e, he⟩ | ⟨r, db', hr, hc⟩
  · rw [he]
    exact h
  · rw [hr]
    exact consistent_change h hc fun now id hcall => hst (closes_of_step hr hc hcall)

/-- A step that closes without a verdict leaves a row that is not consistent. -/
theorem not_consistent_of_closes {db : Db} {st : Step F} (h : ∀ r ∈ db.submissions.rows, r.Consistent)
    (hst : ClosesWithoutVerdict db st) : ¬∀ r ∈ (st.run db).2.submissions.rows, r.Consistent := by
  obtain ⟨row, startedAt, hrow, hne, hrun⟩ := step_of_closes hst
  intro hall
  rw [hrun] at hall
  have hdone := (hall _ (Db.mem_withStatus.mpr (Or.inr ⟨row, hrow, rfl, rfl⟩))).done_iff.mp rfl
  exact hne ((h row hrow).done_iff.mpr hdone)

/-- **A run tracks every submission exactly when no step closes one without a verdict.** -/
theorem tracked_iff (F : TextForms) (steps : List (Step F)) :
    (∀ pre, pre <+: steps → Tracked F (after Db.empty pre)) ↔
      ∀ pre st, pre ++ [st] <+: steps → ¬ClosesWithoutVerdict (after Db.empty pre) st := by
  constructor
  · intro h pre st hpre hcl
    have hbefore := h pre ((List.prefix_append pre [st]).trans hpre)
    have hafter := h _ hpre
    rw [after_concat] at hafter
    exact not_consistent_of_closes (fun r hr => (hbefore r hr).1) hcl fun r hr => (hafter r hr).1
  · intro h pre
    suffices hc : pre <+: steps → ∀ r ∈ (after Db.empty pre).submissions.rows, r.Consistent from
      fun hpre => tracked_of_consistent (written_after pre) (hc hpre)
    induction pre using List.reverseRecOn with
    | nil => exact fun _ => nofun
    | append_singleton pre st ih =>
      intro hpre
      rw [after_concat]
      exact consistent_step (ih ((List.prefix_append pre [st]).trans hpre)) (h pre st hpre)

/-! ## A lost submission -/

/-- One user, one problem, one submission, set to `PREPARING` and then to `DONE`. -/
def closingRun : List (Step .crockford) :=
  [⟨.createUser ⟨1⟩ (secondClock 0) ⟨"ada", "ada@example.org", "$argon2id$", .learner⟩, none⟩,
    ⟨.replaceProblems [⟨⟨"mempool-fees"⟩, "9f3c", "Mempool fees", "mempool", "easy", "{}", secondTime 0⟩], none⟩,
    ⟨.createSubmission ⟨2⟩ (secondClock 1) ⟨⟨1⟩, ⟨"mempool-fees"⟩, .py, "ab12", "blobs/source/ab/ab12"⟩, none⟩,
    ⟨.setSubmissionStatus (secondClock 2) ⟨2⟩ .preparing, none⟩,
    ⟨.setSubmissionStatus (secondClock 3) ⟨2⟩ .done, none⟩]

/-- The submission of `closingRun` ends up `DONE` without a verdict, in neither of the two places. -/
theorem not_tracked_closingRun :
    ¬Tracked .crockford (after Db.empty closingRun) ∧ ∃ r ∈ (after Db.empty closingRun).submissions.rows,
      ¬InFlight .crockford (after Db.empty closingRun) r ∧ ¬Found .crockford (after Db.empty closingRun) r := by
  have hrows : (after Db.empty closingRun).submissions.rows.map (fun r => (r.status, r.verdict)) = [("DONE", none)] :=
    rfl
  obtain ⟨r, hr, he⟩ := List.mem_map.mp (hrows ▸ List.mem_singleton_self ("DONE", none))
  obtain ⟨hdone, hnone⟩ := Prod.mk.inj he
  have hw := written_after closingRun
  refine ⟨fun h => ?_, r, hr, ?_, ?_⟩
  · have := (h r hr).1.done_iff.mp hdone
    rw [hnone] at this
    cases this
  · rw [inFlight_iff hw hr]
    exact fun hne => hne hdone
  · rw [found_iff hw hr, hnone]
    exact Bool.false_ne_true

end Satunera.Store
