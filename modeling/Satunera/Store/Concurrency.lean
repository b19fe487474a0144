import Satunera.Base.FirstClaim
import Satunera.Store.Lifecycle

/-!
# Concurrent calls

Calls interleaved at single statements behind the write lock of `BEGIN IMMEDIATE`.

* `Call.target` : the transition a call asks for; `step_of_done` : on a `DONE` row it is refused;
* `done_frozen` : a `DONE` row never changes again; `done_slot` : its finishes claim it;
* `Serialized` : what holds of any interleaving (`serialized_of_reaches`).
-/

namespace Satunera.Store

open Satunera.Base Satunera.Contracts

variable {F : TextForms}

/-! ## A submission that is `DONE` -/

/-- The submission a call moves, and the status it asks for. -/
def Call.target : Call F → Option (SubmissionId × SubmissionStatus)
  | .setSubmissionStatus _ id status => some (id, status)
  | .finishSubmission _ id _ => some (id, .done)
  | _ => none

/-- On a `DONE` row the program of such a call reads the status and ends in an error. -/
theorem Call.prog_of_done {c : Call F} {id : SubmissionId} {status : SubmissionStatus}
    (hc : c.target = some (id, status)) {db : Db} {r : SubmissionRecord}
    (hr : db.submissions.find? (F.ulid id.ulid) = some r) (hd : r.status = "DONE") :
    ∃ s fail next a, c.prog = .stmt s fail next ∧ exec s db = .ok (a, db) ∧
      next a = .ret (.error (.illegalTransition id "DONE" status.asStr)) := by
  have hparse : SubmissionStatus.parse r.status = some .done := SubmissionStatus.parse_eq_some_iff.mpr hd.symm
  cases c with
  | setSubmissionStatus now id' status' =>
    obtain ⟨rfl, rfl⟩ := Prod.mk.inj (Option.some.inj hc)
    refine ⟨_, _, _, some ⟨r.status, r.startedAt⟩, rfl, by simp only [exec, hr]; rfl, ?_⟩
    simp only [Prog.bind, Prog.lift, okOr, ret_ok_bind, hparse]
    rfl
  | finishSubmission now id' verdict =>
    obtain ⟨rfl, rfl⟩ := Prod.mk.inj (Option.some.inj hc)
    refine ⟨_, _, _, some ⟨r.userId, r.problemId, r.status⟩, rfl, by simp only [exec, hr]; rfl, ?_⟩
    simp only [Prog.bind, Prog.lift, okOr, ret_ok_bind, hparse]
    rfl
  | _ => cases hc

/-- **A call that finds its submission `DONE` is refused and changes nothing.** Only a failure of its first statement
keeps it from finding out. -/
theorem step_of_done {st : Step F} {id : SubmissionId} {status : SubmissionStatus}
    (hc : st.call.target = some (id, status)) (hfault : st.fault ≠ some 0) {db : Db} {r : SubmissionRecord}
    (hr : db.submissions.find? (F.ulid id.ulid) = some r) (hd : r.status = "DONE") :
    st.run db = (.error (.illegalTransition id "DONE" status.asStr), db) := by
  obtain ⟨s, fail, next, a, hprog, hexec, hnext⟩ := Call.prog_of_done hc hr hd
  have hrun : st.prog.run exec db = (.error (.illegalTransition id "DONE" status.asStr), db) := by
    unfold Step.prog
    cases hf : st.fault with
    | none => simp only [hprog, Prog.run, hexec, hnext]
    | some n =>
      cases n with
      | zero => exact absurd hf hfault
      | succ n => cases n <;> simp only [hprog, Prog.faultAt, Prog.run, hexec, hnext]
  rw [Step.run, atomically_of_error hrun]
  rfl

/-- A call that finishes a submission leaves its row `DONE`. -/
theorem Change.finish_done {db db' : Db} {now : Clock F} {id : SubmissionId} {verdict : Verdict}
    (hc : Change db (.finishSubmission now id verdict) db') :
    ∃ r, db'.submissions.find? (F.ulid id.ulid) = some r ∧ r.status = "DONE" := by
  cases hc with
  | @finishSubmission _ _ _ row current t hrow hst hcan ht =>
    exact ⟨_, Db.find?_withVerdict hrow, rfl⟩

theorem Change.finish_not_done {db db' : Db} {now : Clock F} {id : SubmissionId} {verdict : Verdict}
    (hc : Change db (.finishSubmission now id verdict) db') {r : SubmissionRecord}
    (hr : db.submissions.find? (F.ulid id.ulid) = some r) : r.status ≠ "DONE" := by
  cases hc with
  | @finishSubmission _ _ _ row current t hrow hst hcan ht =>
    obtain rfl : row = r := Option.some.inj (hrow.symm.trans hr)
    rw [hst]
    exact fun he => SubmissionStatus.ne_done_of_canTransitionTo hcan (SubmissionStatus.asStr_injective he)

/-- A row that may still move is not `DONE`, so it is not the row `r`. -/
theorem id_ne_of_done {db : Db} {r row : SubmissionRecord} {id : String} {current next : SubmissionStatus}
    (hr : r ∈ db.submissions.rows) (hd : r.status = "DONE") (hrow : db.submissions.find? id = some row)
    (hst : row.status = current.asStr) (hcan : current.canTransitionTo next = true) : r.id ≠ id := by
  intro hid
  obtain rfl : r = row :=
    Table.eq_of_key hr (Table.mem_of_find? hrow) (hid.trans (Table.key_of_find? hrow).symm)
  rw [hst] at hd
  exact SubmissionStatus.ne_done_of_canTransitionTo hcan (SubmissionStatus.asStr_injective hd)

theorem Change.done_frozen {db db' : Db} {c : Call F} (hc : Change db c db') {r : SubmissionRecord}
    (hr : r ∈ db.submissions.rows) (hd : r.status = "DONE") : r ∈ db'.submissions.rows := by
  cases hc with
  | createUser | replaceProblems | recordRun => exact hr
  | createSubmission hins => exact (Table.mem_insert? hins).mpr (Or.inl hr)
  | setSubmissionStatus hrow hst hcan =>
    exact Db.mem_withStatus.mpr (Or.inl ⟨hr, id_ne_of_done hr hd hrow hst hcan⟩)
  | finishSubmission hrow hst hcan ht =>
    exact Db.mem_withVerdict.mpr (Or.inl ⟨hr, id_ne_of_done hr hd hrow hst hcan⟩)

/-- **A `DONE` row never changes again.** -/
theorem done_frozen {db : Db} {id : String} {r : SubmissionRecord} (hr : db.submissions.find? id = some r)
    (hd : r.status = "DONE") (steps : List (Step F)) : (after db steps).submissions.find? id = some r := by
  have hmem : r ∈ (after db steps).submissions.rows :=
    after_invariant (P := fun db => r ∈ db.submissions.rows) (fun h hc => hc.done_frozen h hd)
      (Table.mem_of_find? hr) steps
  rw [← Table.key_of_find? hr]
  exact Table.find?_of_mem hmem

/-! ## Interleavings -/

section Interleavings
variable {ι : Type}

/-- What a waiting call reports when it gives up. -/
def busy : StoreError := .database .io

/-- The calls, waiting, running or done. -/
abbrev Calls (ι : Type) := Config Stmt Answer SqlError StoreError (Except StoreError Reply) Db ι

theorem serial_eq_after (calls : ι → Step F) (is : List ι) (t : Db) :
    serial exec (fun i => (calls i).prog) is t = after t (is.map calls) := by
  rw [serial, after, List.foldl_map]
  rfl

/-- What holds of the calls `calls`, started on the tables `t`, at a moment `c` of an interleaving. -/
structure Serialized (calls : ι → Step F) (t : Db) (c : Calls ι) : Prop where
  /-- With the lock free, the tables are those of the calls one after another in lock order. -/
  tables : c.holder = none → c.tables = after t (c.order.map calls)
  /-- When every call has ended, the lock is free. -/
  ended : (∀ i, ∃ r, c.calls i = .done r) → c.holder = none
  /-- A call that had the lock returns what it returns in that order. -/
  result : ∀ pre i post r, c.order = pre ++ i :: post → c.calls i = .done r →
    reply r = ((calls i).run (after t (pre.map calls))).1
  /-- A call that never had the lock is waiting, or gave up. -/
  idle : ∀ i, i ∉ c.order → c.calls i = .waiting ∨ c.calls i = .done (.error busy)
  /-- At most one finish of a submission returns `Ok`. -/
  finish_once : ∀ i j now now' id verdict verdict' r r', (calls i).call = .finishSubmission now id verdict →
    (calls j).call = .finishSubmission now' id verdict' → c.calls i = .done (.ok (.ok r)) →
    c.calls j = .done (.ok (.ok r')) → i = j
  /-- A call that finds its submission `DONE` is refused and changes no row. -/
  done_refused : ∀ pre i post id status row, c.order = pre ++ i :: post → (calls i).call.target = some (id, status) →
    (calls i).fault ≠ some 0 → (after t (pre.map calls)).submissions.find? (F.ulid id.ulid) = some row →
    row.status = "DONE" → (∀ r, c.calls i = .done r → reply r = .error (.illegalTransition id "DONE" status.asStr)) ∧
      after t ((pre ++ [i]).map calls) = after t (pre.map calls)
  /-- A submission whose finish has returned `Ok` keeps its row, whatever comes later. -/
  finished_frozen : ∀ pre i post now id verdict r, c.order = pre ++ i :: post →
    (calls i).call = .finishSubmission now id verdict → c.calls i = .done (.ok (.ok r)) →
    ∃ row, (after t ((pre ++ [i]).map calls)).submissions.find? (F.ulid id.ulid) = some row ∧
      ∀ later : List (Step F), (after t ((pre ++ [i]).map calls ++ later)).submissions.find? (F.ulid id.ulid) = some row

/-- The call returned a value. -/
def Succeeds (r : Except StoreError (Except StoreError Reply)) : Prop := ∃ a, r = .ok (.ok a)

theorem not_succeeds_busy : ¬Succeeds (.error busy) := by
  rintro ⟨a, ha⟩
  cases ha

theorem reply_eq_ok_iff {r : Except StoreError (Except StoreError Reply)} {a : Reply} :
    reply r = .ok a ↔ r = .ok (.ok a) := by
  constructor
  · intro h
    obtain ⟨r', rfl, rfl⟩ := bind_eq_ok_iff.mp h
    rfl
  · rintro rfl
    rfl

theorem succeeds_iff {st : Step F} {db : Db} :
    Succeeds (atomically exec st.prog db).1 ↔ ∃ a, (st.run db).1 = .ok a := by
  unfold Succeeds Step.run
  simp only [reply_eq_ok_iff]

/-- To leave a submission `DONE` is a slot that its finishes claim. -/
theorem done_slot (calls : ι → Step F) (id : SubmissionId) :
    Slot exec (fun i => (calls i).prog)
      (fun db => ∃ row, db.submissions.find? (F.ulid id.ulid) = some row ∧ row.status = "DONE")
      (fun i => ∃ now verdict, (calls i).call = .finishSubmission now id verdict) Succeeds where
  stays i db := fun ⟨row, hrow, hd⟩ => ⟨row, done_frozen hrow hd [calls i], hd⟩
  loses i db := by
    rintro ⟨now, verdict, hcall⟩ ⟨row, hrow, hd⟩ hwins
    obtain ⟨a, ha⟩ := succeeds_iff.mp hwins
    have hc := (outcome_of_step (Prod.ext ha rfl)).change
    rw [hcall] at hc
    exact hc.finish_not_done hrow hd
  takes i db := by
    rintro ⟨now, verdict, hcall⟩ hwins
    obtain ⟨a, ha⟩ := succeeds_iff.mp hwins
    have hc := (outcome_of_step (Prod.ext ha rfl)).change
    rw [hcall] at hc
    exact hc.finish_done

variable [DecidableEq ι] {calls : ι → Step F} {t : Db} {c : Calls ι}

section Reached
variable (h : Reaches exec (fun i => (calls i).prog) busy (Config.start t) c)
include h

theorem reply_eq_run (pre : List ι) (i : ι) (post : List ι) (r : Except StoreError (Except StoreError Reply))
    (ho : c.order = pre ++ i :: post) (hr : c.calls i = .done r) :
    reply r = ((calls i).run (after t (pre.map calls))).1 := by
  rw [done_eq_serial h ho hr, serial_eq_after]
  rfl

/-- A finish that returned `Ok` leaves its row `DONE`, for good. -/
theorem done_of_finish {pre post : List ι} {i : ι} {now : Clock F} {id : SubmissionId} {verdict : Verdict} {r : Reply}
    (ho : c.order = pre ++ i :: post) (hcall : (calls i).call = .finishSubmission now id verdict)
    (hr : c.calls i = .done (.ok (.ok r))) :
    ∃ row, row.status = "DONE" ∧ ∀ later : List (Step F),
      (after t ((pre ++ [i]).map calls ++ later)).submissions.find? (F.ulid id.ulid) = some row := by
  have hres : Except.ok r = ((calls i).run (after t (pre.map calls))).1 := reply_eq_run h pre i post _ ho hr
  rcases step_cases (calls i) (after t (pre.map calls)) with ⟨e, he⟩ | ⟨r', db', hr', hc⟩
  · rw [he] at hres
    cases hres
  · rw [hcall] at hc
    obtain ⟨row, hrow, hd⟩ := hc.finish_done
    refine ⟨row, hd, fun later => ?_⟩
    rw [List.map_append, List.map_singleton, List.append_assoc, after_append, List.singleton_append, after_cons, hr']
    exact done_frozen hrow hd later

end Reached

/-- **Any interleaving is a serial run in lock order, and a submission is finished at most once.** -/
theorem serialized_of_reaches (h : Reaches exec (fun i => (calls i).prog) busy (Config.start t) c) :
    Serialized calls t c := by
  have hcons := consistent_of_reaches h
  refine ⟨fun hfree => ?_, fun hall => ?_, reply_eq_run h, hcons.unstarted, ?_, ?_, ?_⟩
  · rw [tables_eq_serial h hfree, serial_eq_after]
  · cases hh : c.holder with
    | none => rfl
    | some i =>
      obtain ⟨pre, p, copy, -, hrun, -⟩ := hcons.held i hh
      obtain ⟨r, hr⟩ := hall i
      rw [hr] at hrun
      cases hrun
  · intro i j now now' id verdict verdict' r r' hci hcj hri hrj
    exact winner_unique h (done_slot calls id) not_succeeds_busy ⟨now, verdict, hci⟩ ⟨now', verdict', hcj⟩ hri hrj
      ⟨r, rfl⟩ ⟨r', rfl⟩
  · intro pre i post id status row ho htarget hfault hrow hd
    have hstep := step_of_done htarget hfault hrow hd
    refine ⟨fun r hr => by rw [reply_eq_run h pre i post r ho hr, hstep], ?_⟩
    rw [List.map_append, List.map_singleton, after_concat, hstep]
  · intro pre i post now id verdict r ho hcall hr
    obtain ⟨row, -, hrow⟩ := done_of_finish h ho hcall hr
    exact ⟨row, by simpa using hrow [], hrow⟩

end Interleavings

/-- Two workers finish the same submission with different verdicts. -/
def twoFinishes (first : Bool) : Step .crockford :=
  ⟨.finishSubmission (secondClock (.last 59)) ⟨2⟩ (if first then .ac else .wa), none⟩

/-- The one that gets the lock first wins, the other is refused. -/
theorem serialized_twoFinishes : ∃ c : Calls Bool, c.calls true = .done (.ok (.ok .unit)) ∧
    c.calls false = .done (.error (.illegalTransition ⟨2⟩ "DONE" "DONE")) ∧
    Serialized twoFinishes (after Db.empty (closingRun.take 4)) c := by
  have hfirst : Reaches exec (fun i => (twoFinishes i).prog) busy
      (Config.start (after Db.empty (closingRun.take 4))) _ :=
    reaches_alone (i := true) rfl rfl
  have hboth := hfirst.trans (reaches_alone (i := false) rfl rfl)
  exact ⟨_, rfl, rfl, serialized_of_reaches hboth⟩

end Satunera.Store
