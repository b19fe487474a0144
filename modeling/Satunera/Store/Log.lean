import Satunera.Store.Change

/-!
# The log of a run

* `committed` : the calls of a run that returned, in the order of their commits;
* `committed_invariant` : what relates the tables to that log and is kept by every `Change` holds after every run;
* `statuses`, `moves`, `verdicts` : what the log says of one submission;
* `Writes`, `Change.writes` : what a call can do to the row of one submission, and `row_invariant` : what follows for
  every run.
-/

namespace Satunera.Store

open Satunera.Base Satunera.Contracts

variable {F : TextForms}

/-- The call, if the step returned. -/
def Step.committed (st : Step F) (db : Db) : Option (Call F) :=
  match st.run db with
  | (.ok _, _) => some st.call
  | (.error _, _) => none

/-- The calls of a run that returned, in order. -/
def committed (db : Db) : List (Step F) → List (Call F)
  | [] => []
  | st :: steps => (st.committed db).toList ++ committed (st.run db).2 steps

theorem committed_append (db : Db) (steps steps' : List (Step F)) :
    committed db (steps ++ steps') = committed db steps ++ committed (after db steps) steps' := by
  induction steps generalizing db with
  | nil => rfl
  | cons st steps ih => simp [committed, ih]

theorem committed_concat (db : Db) (steps : List (Step F)) (st : Step F) :
    committed db (steps ++ [st]) = committed db steps ++ (st.committed (after db steps)).toList := by
  rw [committed_append, committed, committed, List.append_nil]

/-- What every change keeps of the tables and the log holds after every run. -/
theorem committed_invariant {P : Db → List (Call F) → Prop} (hnil : P Db.empty [])
    (hP : ∀ {db db' log c}, P db log → Change db c db' → P db' (log ++ [c])) (steps : List (Step F)) :
    P (after Db.empty steps) (committed Db.empty steps) := by
  induction steps using List.reverseRecOn with
  | nil => exact hnil
  | append_singleton steps st ih =>
    rw [after_concat, committed_concat]
    unfold Step.committed
    rcases step_cases st (after Db.empty steps) with ⟨e, he⟩ | ⟨r, db', hr, hc⟩
    · rw [he]
      simpa using ih
    · rw [hr]
      exact hP ih hc

/-! ## One submission -/

/-- The status a call that returns leaves submission `id` in, if it writes it. -/
def Call.status? (id : SubmissionId) : Call F → Option SubmissionStatus
  | .createSubmission id' _ _ => if id' = id then some .queued else none
  | .setSubmissionStatus _ id' status => if id' = id then some status else none
  | .finishSubmission _ id' _ => if id' = id then some .done else none
  | _ => none

/-- The clock of a status update of submission `id`. -/
def Call.move? (id : SubmissionId) : Call F → Option (Clock F)
  | .setSubmissionStatus now id' _ => if id' = id then some now else none
  | _ => none

/-- The verdict of a finish of submission `id`. -/
def Call.verdict? (id : SubmissionId) : Call F → Option Verdict
  | .finishSubmission _ id' verdict => if id' = id then some verdict else none
  | _ => none

/-- The statuses a log commits for submission `id`. -/
def statuses (id : SubmissionId) (log : List (Call F)) : List SubmissionStatus := log.filterMap (Call.status? id)

/-- The clocks of its status updates. -/
def moves (id : SubmissionId) (log : List (Call F)) : List (Clock F) := log.filterMap (Call.move? id)

/-- The verdicts of its finishes. -/
def verdicts (id : SubmissionId) (log : List (Call F)) : List Verdict := log.filterMap (Call.verdict? id)

theorem filterMap_concat {α β : Type} (f : α → Option β) (l : List α) (a : α) :
    (l ++ [a]).filterMap f = l.filterMap f ++ (f a).toList := by
  rw [List.filterMap_append]
  cases h : f a <;> simp [h]

section Concat
variable {id : SubmissionId} {log : List (Call F)} {c : Call F}

theorem statuses_concat {s : SubmissionStatus} (h : c.status? id = some s) :
    statuses id (log ++ [c]) = statuses id log ++ [s] := by
  rw [statuses, filterMap_concat, h]
  rfl

theorem statuses_concat_of_none (h : c.status? id = none) : statuses id (log ++ [c]) = statuses id log := by
  rw [statuses, filterMap_concat, h]
  exact List.append_nil _

theorem moves_concat {now : Clock F} (h : c.move? id = some now) : moves id (log ++ [c]) = moves id log ++ [now] := by
  rw [moves, filterMap_concat, h]
  rfl

theorem moves_concat_of_none (h : c.move? id = none) : moves id (log ++ [c]) = moves id log := by
  rw [moves, filterMap_concat, h]
  exact List.append_nil _

end Concat

theorem Call.move?_eq_none {id : SubmissionId} {c : Call F} (h : c.status? id = none) : c.move? id = none := by
  cases c with
  | setSubmissionStatus now id' status =>
    simp only [status?, ite_eq_right_iff, reduceCtorEq, imp_false] at h
    exact if_neg h
  | _ => rfl

theorem Call.verdict?_eq_none {id : SubmissionId} {c : Call F} (h : c.status? id = none) : c.verdict? id = none := by
  cases c with
  | finishSubmission now id' verdict =>
    simp only [status?, ite_eq_right_iff, reduceCtorEq, imp_false] at h
    exact if_neg h
  | _ => rfl

/-- What a call that returns does to the row of submission `id`. -/
inductive Writes (id : SubmissionId) : Option SubmissionRecord → Call F → Option SubmissionRecord → Prop
  | untouched {o c} : c.status? id = none → Writes id o c o
  | created {now submission} :
      Writes id none (.createSubmission id now submission) (some (queuedRecord id now submission))
  | moved {now status row current} : row.status = SubmissionStatus.asStr current →
      current.canTransitionTo status = true →
      Writes id (some row) (.setSubmissionStatus now id status)
        (some (row.withStatus status.asStr (row.startedAt.getD now.text)))
  | closed {now verdict row current} : row.status = SubmissionStatus.asStr current →
      current.canTransitionTo .done = true →
      Writes id (some row) (.finishSubmission now id verdict) (some (row.withVerdict verdict.asStr now.text))

theorem Change.writes {db db' : Db} {c : Call F} (hc : Change db c db') (id : SubmissionId) :
    Writes id (db.submissions.find? (F.ulid id.ulid)) c (db'.submissions.find? (F.ulid id.ulid)) := by
  cases hc with
  | createUser | replaceProblems | recordRun => exact .untouched rfl
  | @createSubmission id' now submission submissions hins =>
    obtain ⟨hnone, -⟩ := Table.insert?_eq_some_iff.mp hins
    rw [Table.find?_insert? hins]
    by_cases hid : id' = id
    · subst hid
      rw [if_pos (show F.ulid id'.ulid = (queuedRecord id' now submission).id from rfl),
        show db.submissions.find? (F.ulid id'.ulid) = none from hnone]
      exact .created
    · rw [if_neg fun h => hid (SubmissionId.eq_of_ulid h.symm)]
      exact .untouched (if_neg hid)
  | @setSubmissionStatus now id' status row current hrow hst hcan =>
    rw [Db.withStatus, Table.find?_modify]
    by_cases hid : id' = id
    · subst hid
      rw [if_pos rfl, hrow]
      exact .moved hst hcan
    · rw [if_neg fun h => hid (SubmissionId.eq_of_ulid h.symm)]
      exact .untouched (if_neg hid)
  | @finishSubmission now id' verdict row current t hrow hst hcan ht =>
    rw [Db.withVerdict, Table.find?_modify]
    by_cases hid : id' = id
    · subst hid
      rw [if_pos rfl, hrow]
      exact .closed hst hcan
    · rw [if_neg fun h => hid (SubmissionId.eq_of_ulid h.symm)]
      exact .untouched (if_neg hid)

/-- What every write of its row keeps of a submission and the log holds after every run. -/
theorem row_invariant (id : SubmissionId) {P : Option SubmissionRecord → List (Call F) → Prop} (hnil : P none [])
    (hP : ∀ {o o' log c}, P o log → Writes id o c o' → P o' (log ++ [c])) (steps : List (Step F)) :
    P ((after Db.empty steps).submissions.find? (F.ulid id.ulid)) (committed Db.empty steps) :=
  committed_invariant (P := fun db log => P (db.submissions.find? (F.ulid id.ulid)) log) hnil
    (fun h hc => hP h (hc.writes id)) steps

end Satunera.Store
