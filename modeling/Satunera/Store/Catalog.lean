import Satunera.Base.Sorting
import Satunera.Store.Codec
import Satunera.Store.Integrity

/-!
# The catalog is swapped as a whole

* `IsCatalog` : what the two reads of the catalog return when it is exactly a list of problems;
* `Swaps` : what `replaceProblems` does, and when;
* `replaceProblems_swaps` : it does so after every run.
-/

namespace Satunera.Store

open Satunera.Base Satunera.Contracts

variable {F : TextForms}

/-- The catalog is the map that sends each listed id to its last occurrence. -/
structure IsCatalog (F : TextForms) (db : Db) (listed : List ProblemRow) : Prop where
  problems : ∃ ps, Store.problems F db = .ok ps ∧ (ps.Pairwise fun p q => p.id.asStr < q.id.asStr) ∧
    ∀ p, p ∈ ps ↔ lastWithId listed p.id = some p
  problem : ∀ id, Store.problem F id db =
    match lastWithId listed id with
    | some p => .ok p
    | none => .error (.notFound "problems" id.asStr)

theorem encodes_problemRecord {p : ProblemRow} {text : String} (h : F.rfc3339 p.updatedAt = .ok text) :
    (problemRecord p text).Encodes F p := ⟨rfl, rfl, rfl, rfl, rfl, rfl, h⟩

section Replaced
variable {listed : List ProblemRow} {t : Table ProblemRecord ProblemRecord.id} (h : Replaced F listed t)
include h

/-- Each row is that of a last occurrence. -/
theorem Replaced.of_mem {r : ProblemRecord} (hr : r ∈ t.rows) :
    ∃ p, r.Encodes F p ∧ lastWithId listed p.id = some p := by
  cases hlast : lastWithId listed ⟨r.id⟩ with
  | none =>
    have := h.dropped r.id (lastWithId_eq_none_iff.mp hlast)
    rw [Table.find?_of_mem hr] at this
    cases this
  | some p =>
    obtain ⟨text, htext, hfind⟩ := h.listed _ _ hlast
    obtain rfl : r = problemRecord p text := Option.some.inj ((Table.find?_of_mem hr).symm.trans hfind)
    exact ⟨p, encodes_problemRecord htext, (lastWithId_eq_some hlast).2.symm ▸ hlast⟩

/-- The last occurrence of each listed id has its row. -/
theorem Replaced.exists_row {p : ProblemRow} (hp : lastWithId listed p.id = some p) :
    ∃ r ∈ t.rows, r.Encodes F p := by
  obtain ⟨text, htext, hfind⟩ := h.listed _ _ hp
  exact ⟨_, Table.mem_of_find? hfind, encodes_problemRecord htext⟩

theorem Replaced.isCatalog {db : Db} (ht : db.problems = t) : IsCatalog F db listed := by
  subst ht
  constructor
  · have hmem : ∀ r ∈ db.problems.rows.insertionSort fun a b => a.id ≤ b.id, _ := fun r hr =>
      h.of_mem ((List.mem_insertionSort _).mp hr)
    obtain ⟨ps, hps, hall⟩ := mapM_of_forall (fun r p he => he.1.intoProblemRow_eq) hmem
    have hids : (db.problems.rows.insertionSort fun a b => a.id ≤ b.id).map ProblemRecord.id =
        ps.map fun p => p.id.asStr := by
      rw [← List.forall₂_eq_eq_eq, List.forall₂_map_left_iff, List.forall₂_map_right_iff]
      exact hall.imp fun r p he => he.1.id
    refine ⟨ps, hps, ?_, fun p => ⟨fun hp => ?_, fun hp => ?_⟩⟩
    · rw [← List.pairwise_map (f := fun p : ProblemRow => p.id.asStr) (R := (· < ·)), ← hids, List.pairwise_map]
      exact pairwise_insertionSort_lt ProblemRecord.id db.problems.nodup
    · obtain ⟨r, -, -, hlast⟩ := exists_of_mem_right hall hp
      exact hlast
    · obtain ⟨r, hr, he⟩ := h.exists_row hp
      obtain ⟨p', hp', he', -⟩ := exists_of_mem_left hall ((List.mem_insertionSort _).mpr hr)
      obtain rfl : p' = p := Except.ok.inj (he'.intoProblemRow_eq.symm.trans he.intoProblemRow_eq)
      exact hp'
  · intro id
    cases hlast : lastWithId listed id with
    | some p =>
      obtain ⟨text, htext, hfind⟩ := h.listed _ _ hlast
      rw [problem, hfind, okOr, ok_bind, (encodes_problemRecord htext).intoProblemRow_eq]
    | none =>
      rw [problem, h.dropped id.asStr (lastWithId_eq_none_iff.mp hlast)]
      rfl

end Replaced

/-! ## The swap -/

/-- What a call of `replaceProblems` with `listed` does on `db`; `fault` is where the engine fails it, if anywhere. -/
structure Swaps (F : TextForms) (db : Db) (listed : List ProblemRow) : Prop where
  /-- It goes through exactly when every problem can be stored and no problem that is left out is referred to. -/
  ok_iff : ((Step.mk (.replaceProblems listed) none : Step F).run db).1 = .ok .unit ↔
    (∀ p ∈ listed, p.difficulty ∈ difficultyLabels) ∧ (∀ p ∈ listed, ∃ text, F.rfc3339 p.updatedAt = .ok text) ∧
      ∀ id : ProblemId, (db.problems.find? id.asStr).isSome → (∀ p ∈ listed, p.id ≠ id) →
        (∀ r ∈ db.submissions.rows, r.problemId ≠ id.asStr) ∧ ∀ r ∈ db.userProgress.rows, r.problemId ≠ id.asStr
  catalog : ∀ fault r db', (Step.mk (.replaceProblems listed) fault : Step F).run db = (.ok r, db') →
    IsCatalog F db' listed
  unchanged : ∀ fault e db', (Step.mk (.replaceProblems listed) fault : Step F).run db = (.error e, db') → db' = db
  frame : ∀ fault r db', (Step.mk (.replaceProblems listed) fault : Step F).run db = (r, db') →
    db'.users = db.users ∧ db'.submissions = db.submissions ∧ db'.runs = db.runs ∧ db'.userProgress = db.userProgress

theorem referencesProblem_eq_false_iff {db : Db} {id : String} :
    db.referencesProblem id = false ↔
      (∀ r ∈ db.submissions.rows, r.problemId ≠ id) ∧ ∀ r ∈ db.userProgress.rows, r.problemId ≠ id := by
  rw [Db.referencesProblem, Bool.or_eq_false_iff, List.any_eq_false, List.any_eq_false]
  simp only [decide_eq_true_eq, ne_eq]

theorem acceptable_iff {db : Db} {listed : List ProblemRow} :
    Acceptable F db listed ↔
      (∀ p ∈ listed, p.difficulty ∈ difficultyLabels) ∧ (∀ p ∈ listed, ∃ text, F.rfc3339 p.updatedAt = .ok text) ∧
        ∀ id : ProblemId, (db.problems.find? id.asStr).isSome → (∀ p ∈ listed, p.id ≠ id) →
          (∀ r ∈ db.submissions.rows, r.problemId ≠ id.asStr) ∧
            ∀ r ∈ db.userProgress.rows, r.problemId ≠ id.asStr := by
  have hlisted : ∀ id : ProblemId, id.asStr ∉ listed.map (fun p => p.id.asStr) ↔ ∀ p ∈ listed, p.id ≠ id := by
    intro id
    rw [← lastWithId_eq_none_iff, lastWithId, List.find?_eq_none]
    simp only [List.mem_reverse, decide_eq_true_eq, ne_eq]
  constructor
  · intro h
    refine ⟨fun p hp => (h.storable p hp).1, fun p hp => (h.storable p hp).2, fun id hid hnot => ?_⟩
    obtain ⟨r, hr⟩ := Option.isSome_iff_exists.mp hid
    have hdrop := h.droppable r (Table.mem_of_find? hr)
    rw [Table.key_of_find? hr] at hdrop
    exact referencesProblem_eq_false_iff.mp (hdrop ((hlisted id).mpr hnot))
  · rintro ⟨hdifficulty, hdate, hdrop⟩
    refine ⟨fun p hp => ⟨hdifficulty p hp, hdate p hp⟩, fun r hr hnot => ?_⟩
    have hfind : (db.problems.find? (ProblemId.mk r.id).asStr).isSome := by
      rw [Table.find?_of_mem hr]
      rfl
    exact referencesProblem_eq_false_iff.mpr (hdrop ⟨r.id⟩ hfind ((hlisted ⟨r.id⟩).mp hnot))

theorem replaceProblems_prog_run (listed : List ProblemRow) (db : Db) :
    (Acceptable F db listed ∧ ∃ t, Replaced F listed t ∧
      (Call.replaceProblems listed : Call F).prog.run exec db = (.ok (.ok .unit), { db with problems := t })) ∨
      ¬Acceptable F db listed ∧ ∃ e db', (Call.replaceProblems listed : Call F).prog.run exec db = (.error e, db') := by
  simp only [Call.prog, Prog.run_bind]
  rcases replaceProblems_run (F := F) listed db with ⟨ha, t, ht, h⟩ | ⟨hbad, e, db', h⟩
  · exact Or.inl ⟨ha, t, ht, by rw [h]; rfl⟩
  · exact Or.inr ⟨hbad, e, db', by rw [h]⟩

/-- A step that goes through has an acceptable list and leaves exactly that list. -/
theorem replaced_of_step {db db' : Db} {listed : List ProblemRow} {fault : Option Nat} {r : Reply}
    (h : (Step.mk (.replaceProblems listed) fault : Step F).run db = (.ok r, db')) :
    Acceptable F db listed ∧ ∃ t, Replaced F listed t ∧ db' = { db with problems := t } := by
  have hrun := run_of_step h
  rcases replaceProblems_prog_run (F := F) listed db with ⟨ha, t, ht, hok⟩ | ⟨-, e, db'', herr⟩
  · rw [hok] at hrun
    exact ⟨ha, t, ht, (congrArg Prod.snd hrun).symm⟩
  · rw [herr] at hrun
    cases congrArg Prod.fst hrun

theorem swaps (db : Db) (listed : List ProblemRow) : Swaps F db listed where
  ok_iff := by
    rw [← acceptable_iff]
    constructor
    · intro h
      exact (replaced_of_step (Prod.ext h rfl)).1
    · intro ha
      rcases replaceProblems_prog_run (F := F) listed db with ⟨-, t, -, hok⟩ | ⟨hbad, -⟩
      · rw [step_of_run hok]
      · exact absurd ha hbad
  catalog fault r db' h := by
    obtain ⟨-, t, ht, rfl⟩ := replaced_of_step h
    exact ht.isCatalog rfl
  unchanged fault e db' h := step_error h
  frame fault r db' h := by
    cases r with
    | error e =>
      rw [step_error h]
      exact ⟨rfl, rfl, rfl, rfl⟩
    | ok r =>
      obtain ⟨-, t, -, rfl⟩ := replaced_of_step h
      exact ⟨rfl, rfl, rfl, rfl⟩

/-- **`replaceProblems` swaps the catalog as a whole or not at all, and no run orphans a submission or a progress
row.** -/
theorem replaceProblems_swaps (F : TextForms) (steps : List (Step F)) (listed : List ProblemRow) :
    Swaps F (after Db.empty steps) listed ∧
      (∀ r ∈ (after Db.empty steps).submissions.rows,
        ((after Db.empty steps).problems.find? r.problemId).isSome) ∧
      ∀ r ∈ (after Db.empty steps).userProgress.rows,
        ((after Db.empty steps).problems.find? r.problemId).isSome := by
  have href := references_after steps
  exact ⟨swaps _ listed, href.submissionProblem, href.progressProblem⟩

end Satunera.Store
