import Satunera.Store.Sqlite

/-!
# What a committed call does to the tables

* `Change db c db'` : everything the call `c` can have done to the tables when it commits, with the checks it passed;
* `Bumped` : the progress bookkeeping, read back;
* `Outcome` : the same with what the call returns; `call_cases`, `step_outcome` : a call fails and leaves the tables, or
  it returns with its `Outcome`;
* `Origin`, `Change.origin` : where each submission row comes from;
* `after`, `after_invariant` : the tables after a run, and what holds of them.

Later modules reason from `Change` and never open the programs again.
-/

namespace Satunera.Store

open Satunera.Base Satunera.Contracts

variable {F : TextForms}

/-! ## Running the programs -/

theorem stmt_bind {α β : Type} (s : Stmt) (fail : SqlError → StoreError) (next : Answer s → Tx α) (f : α → Tx β) :
    (Prog.stmt s fail next : Tx α) >>= f = Prog.stmt s fail fun a => next a >>= f := rfl

theorem ret_ok_bind {α β : Type} (a : α) (f : α → Tx β) : (Prog.ret (.ok a) : Tx α) >>= f = f a := rfl

theorem run_fetch (s : Stmt) (db : Db) :
    (fetch s).run exec db =
      match exec s db with
      | .error e => (.error (.database e), db)
      | .ok (a, db') => (.ok a, db') := by
  rw [fetch, Prog.run_query]
  cases exec s db <;> rfl

@[simp] theorem parseTs_text (entity : String) (now : Clock F) : parseTs F entity now.text = .ok now.time := by
  rw [parseTs, now.parse]

theorem setSubmissionStatus_run (now : Clock F) (id : SubmissionId) (status : SubmissionStatus) (db : Db) :
    (setSubmissionStatus now id status).run exec db =
      match db.submissions.find? (F.ulid id.ulid) with
      | none => (.error (.notFound "submissions" (F.ulid id.ulid)), db)
      | some row =>
        match SubmissionStatus.parse row.status with
        | none => (.error (corrupt "submissions" ("bad status " ++ F.debug row.status)), db)
        | some current =>
          if current.canTransitionTo status then
            (.ok (), db.withStatus (F.ulid id.ulid) status.asStr (row.startedAt.getD now.text))
          else (.error (.illegalTransition id current.asStr status.asStr), db) := by
  simp only [setSubmissionStatus, fetch, Prog.query, stmt_bind, ret_ok_bind, Prog.run, exec, Prog.lift]
  cases hrow : db.submissions.find? (F.ulid id.ulid) with
  | none => rfl
  | some row =>
    simp only [Option.map_some, okOr, ret_ok_bind]
    cases hst : SubmissionStatus.parse row.status with
    | none => rfl
    | some current =>
      simp only [ret_ok_bind]
      cases hcan : current.canTransitionTo status with
      | false => rfl
      | true => cases hs : row.startedAt <;> simp [Prog.run, exec, status_mem_labels]

/-! ## Progress bookkeeping -/

/-- `t'` is `t` with one more attempt at `k`, stamped with `solvedAt` if it had no stamp. -/
structure Bumped (t t' : Table ProgressRecord ProgressRecord.pk) (k : String × String) (solvedAt : Option String) :
    Prop where
  find : t'.find? k = some (((t.find? k).map (ProgressRecord.attempt solvedAt)).getD ⟨k.1, k.2, solvedAt, 1⟩)
  frame : ∀ k' ≠ k, t'.find? k' = t.find? k'

/-- The `UPDATE` when it matches a row. -/
theorem bumped_withAttempt {db : Db} {k : String × String} {solvedAt : Option String}
    (h : (db.userProgress.find? k).isSome) :
    Bumped db.userProgress (db.withAttempt k solvedAt).userProgress k solvedAt := by
  obtain ⟨row, hrow⟩ := Option.isSome_iff_exists.mp h
  refine ⟨?_, fun k' hk => ?_⟩
  · rw [Db.withAttempt, Table.find?_modify, if_pos rfl, hrow]
    rfl
  · rw [Db.withAttempt, Table.find?_modify, if_neg hk]

/-- The `INSERT` after an `UPDATE` that matched nothing. -/
theorem bumped_insert {db : Db} {k : String × String} {solvedAt : Option String}
    {t : Table ProgressRecord ProgressRecord.pk} (h : db.userProgress.find? k = none)
    (ht : (db.withAttempt k solvedAt).userProgress.insert? ⟨k.1, k.2, solvedAt, 1⟩ = some t) :
    Bumped db.userProgress t k solvedAt := by
  have hk : ProgressRecord.pk ⟨k.1, k.2, solvedAt, 1⟩ = k := rfl
  refine ⟨?_, fun k' hne => ?_⟩
  · rw [Table.find?_insert? ht, hk, if_pos rfl, h]
    rfl
  · rw [Table.find?_insert? ht, hk, if_neg hne, Db.withAttempt, Table.find?_modify, if_neg hne]

theorem exec_insertProgress (userId problemId : String) (solvedAt : Option String) (db : Db) :
    (∃ e, exec (.insertProgress userId problemId solvedAt) db = .error e) ∨
      ∃ t, db.userProgress.insert? ⟨userId, problemId, solvedAt, 1⟩ = some t ∧
        exec (.insertProgress userId problemId solvedAt) db = .ok ((), { db with userProgress := t }) := by
  simp only [exec]
  cases hins : db.userProgress.insert? ⟨userId, problemId, solvedAt, 1⟩ with
  | none => exact Or.inl ⟨_, rfl⟩
  | some t =>
    by_cases hfk : (db.users.find? userId).isNone ∨ (db.problems.find? problemId).isNone
    · exact Or.inl ⟨.foreignKey, if_pos hfk⟩
    · exact Or.inr ⟨t, rfl, if_neg hfk⟩

theorem bumpProgress_run_eq (userId problemId : String) (solvedAt : Option String) (db : Db) :
    (bumpProgress userId problemId solvedAt).run exec db =
      if (db.userProgress.find? (userId, problemId)).isSome then
        (.ok (), db.withAttempt (userId, problemId) solvedAt)
      else (fetch (.insertProgress userId problemId solvedAt)).run exec
        (db.withAttempt (userId, problemId) solvedAt) := by
  simp only [bumpProgress, fetch, Prog.query, stmt_bind, ret_ok_bind, Prog.run, exec]
  cases (db.userProgress.find? (userId, problemId)).isSome <;> simp [Prog.run, exec]

theorem bumpProgress_run (userId problemId : String) (solvedAt : Option String) (db : Db) :
    (∃ e db', (bumpProgress userId problemId solvedAt).run exec db = (.error e, db')) ∨
      ∃ t, (bumpProgress userId problemId solvedAt).run exec db = (.ok (), { db with userProgress := t }) ∧
        Bumped db.userProgress t (userId, problemId) solvedAt := by
  rw [bumpProgress_run_eq]
  by_cases h : (db.userProgress.find? (userId, problemId)).isSome
  · rw [if_pos h]
    exact Or.inr ⟨_, rfl, bumped_withAttempt h⟩
  · rw [if_neg h, run_fetch]
    rcases exec_insertProgress userId problemId solvedAt (db.withAttempt (userId, problemId) solvedAt) with
      ⟨e, he⟩ | ⟨t, ht, he⟩
    · rw [he]
      exact Or.inl ⟨_, _, rfl⟩
    · rw [he]
      exact Or.inr ⟨t, rfl, bumped_insert (by simpa using h) ht⟩

/-- The stamp a finished submission offers: the first accepted one keeps it. -/
def solvedStamp (verdict : Verdict) (finishedAt : String) : Option String :=
  if verdict.isAccepted then some finishedAt else none

theorem finishSubmission_run (now : Clock F) (id : SubmissionId) (verdict : Verdict) (db : Db) :
    (finishSubmission now id verdict).run exec db =
      match db.submissions.find? (F.ulid id.ulid) with
      | none => (.error (.notFound "submissions" (F.ulid id.ulid)), db)
      | some row =>
        match SubmissionStatus.parse row.status with
        | none => (.error (corrupt "submissions" ("bad status " ++ F.debug row.status)), db)
        | some current =>
          if current.canTransitionTo .done then
            if verdict.countsAgainstUser then
              (bumpProgress row.userId row.problemId (solvedStamp verdict now.text)).run exec
                (db.withVerdict (F.ulid id.ulid) verdict.asStr now.text)
            else (.ok (), db.withVerdict (F.ulid id.ulid) verdict.asStr now.text)
          else (.error (.illegalTransition id current.asStr SubmissionStatus.done.asStr), db) := by
  simp only [finishSubmission, fetch, Prog.query, stmt_bind, ret_ok_bind, Prog.run, exec, Prog.lift]
  cases hrow : db.submissions.find? (F.ulid id.ulid) with
  | none => rfl
  | some row =>
    simp only [Option.map_some, okOr, ret_ok_bind]
    cases hst : SubmissionStatus.parse row.status with
    | none => rfl
    | some current =>
      simp only [ret_ok_bind]
      cases hcan : current.canTransitionTo .done with
      | false => rfl
      | true => cases verdict <;> simp [Prog.run, exec, Verdict.asStr, verdictLabels, solvedStamp,
          Verdict.countsAgainstUser, Verdict.isInfrastructure, Verdict.isAccepted]

/-! ## The problem catalog -/

/-- Every row of `db.problems` that some other row references is still there. -/
def KeepsReferenced (db : Db) (t : Table ProblemRecord ProblemRecord.id) : Prop :=
  ∀ id, db.referencesProblem id = true → (db.problems.find? id).isSome → (t.find? id).isSome

/-- The row `replaceProblems` stores for a problem. -/
def problemRecord (problem : ProblemRow) (updatedAt : String) : ProblemRecord :=
  ⟨problem.id.asStr, problem.commitSha, problem.title, problem.category, problem.difficulty, problem.manifest,
    updatedAt⟩

/-- What the upsert of a problem asks of it: a difficulty of the `CHECK` list and a date that can be formatted. -/
def ProblemRow.Storable (F : TextForms) (problem : ProblemRow) : Prop :=
  problem.difficulty ∈ difficultyLabels ∧ ∃ text, F.rfc3339 problem.updatedAt = .ok text

/-- The last occurrence of an id. -/
def lastWithId (problems : List ProblemRow) (id : ProblemId) : Option ProblemRow :=
  problems.reverse.find? fun problem => problem.id = id

theorem lastWithId_cons (problem : ProblemRow) (problems : List ProblemRow) (id : ProblemId) :
    lastWithId (problem :: problems) id =
      (lastWithId problems id).or (if problem.id = id then some problem else none) := by
  rw [lastWithId, List.reverse_cons, List.find?_append, List.find?_singleton, ← lastWithId]
  simp only [decide_eq_true_eq]

theorem lastWithId_eq_some {problems : List ProblemRow} {id : ProblemId} {problem : ProblemRow}
    (h : lastWithId problems id = some problem) : problem ∈ problems ∧ problem.id = id :=
  ⟨List.mem_reverse.mp (List.mem_of_find?_eq_some h), by simpa using List.find?_some h⟩

theorem lastWithId_eq_none_iff {problems : List ProblemRow} {id : ProblemId} :
    lastWithId problems id = none ↔ id.asStr ∉ problems.map fun p => p.id.asStr := by
  rw [lastWithId, List.find?_eq_none]
  simp only [List.mem_reverse, decide_eq_true_eq, List.mem_map, not_exists, not_and]
  refine forall₂_congr fun p _ => not_congr ?_
  exact ⟨congrArg ProblemId.asStr, fun h => by cases hp : p.id; cases id; simp_all⟩

/-- `t'` is `t` with the last occurrence of each listed id put in. -/
structure Upserted (F : TextForms) (problems : List ProblemRow) (t t' : Table ProblemRecord ProblemRecord.id) :
    Prop where
  listed : ∀ id problem, lastWithId problems id = some problem → ∃ text, F.rfc3339 problem.updatedAt = .ok text ∧
    t'.find? id.asStr = some (problemRecord problem text)
  kept : ∀ k, k ∉ problems.map (fun p => p.id.asStr) → t'.find? k = t.find? k

theorem upserted_cons {problem : ProblemRow} {problems : List ProblemRow} {text : String}
    {t t' : Table ProblemRecord ProblemRecord.id} (htext : F.rfc3339 problem.updatedAt = .ok text)
    (h : Upserted F problems (t.upsert (problemRecord problem text)) t') : Upserted F (problem :: problems) t t' := by
  refine ⟨fun id p hp => ?_, fun k hk => ?_⟩
  · rw [lastWithId_cons] at hp
    cases hlast : lastWithId problems id with
    | some p' =>
      rw [hlast, Option.some_or] at hp
      obtain rfl : p' = p := Option.some.inj hp
      exact h.listed id p' hlast
    | none =>
      rw [hlast, Option.none_or, Option.ite_none_right_eq_some] at hp
      obtain ⟨rfl, rfl⟩ : problem.id = id ∧ problem = p := ⟨hp.1, Option.some.inj hp.2⟩
      refine ⟨text, htext, ?_⟩
      rw [h.kept _ (lastWithId_eq_none_iff.mp hlast), Table.find?_upsert]
      exact if_pos rfl
  · rw [List.map_cons, List.mem_cons, not_or] at hk
    rw [h.kept k hk.2, Table.find?_upsert]
    exact if_neg hk.1

theorem upsertProblems_run_cons (problem : ProblemRow) (problems : List ProblemRow) (db : Db) :
    (∃ text, problem.Storable F ∧ F.rfc3339 problem.updatedAt = .ok text ∧
      (upsertProblems (F := F) (problem :: problems)).run exec db =
        (upsertProblems (F := F) problems).run exec
          { db with problems := db.problems.upsert (problemRecord problem text) }) ∨
      ¬problem.Storable F ∧ ∃ e db', (upsertProblems (F := F) (problem :: problems)).run exec db = (.error e, db') := by
  simp only [upsertProblems, Prog.lift]
  cases htext : F.rfc3339 problem.updatedAt with
  | error e =>
    refine Or.inr ⟨fun ⟨_, text, h⟩ => ?_, _, _, rfl⟩
    rw [htext] at h
    cases h
  | ok text =>
    simp only [ret_ok_bind, fetch, Prog.query, stmt_bind, Prog.run, exec]
    by_cases hd : problem.difficulty ∈ difficultyLabels
    · simp only [hd, not_true_eq_false, if_false]
      exact Or.inl ⟨text, ⟨hd, text, htext⟩, rfl, rfl⟩
    · simp only [hd, not_false_eq_true, if_true]
      exact Or.inr ⟨fun h => hd h.1, _, _, rfl⟩

/-- The upserts go through exactly when every problem is storable. -/
theorem upsertProblems_run (problems : List ProblemRow) (db : Db) :
    ((∀ p ∈ problems, p.Storable F) ∧ ∃ t, Upserted F problems db.problems t ∧
      (upsertProblems (F := F) problems).run exec db = (.ok (), { db with problems := t })) ∨
      (¬∀ p ∈ problems, p.Storable F) ∧ ∃ e db', (upsertProblems (F := F) problems).run exec db = (.error e, db') := by
  induction problems generalizing db with
  | nil => exact Or.inl ⟨List.forall_mem_nil _, db.problems, ⟨nofun, fun _ _ => rfl⟩, rfl⟩
  | cons problem problems ih =>
    rcases upsertProblems_run_cons problem problems db with ⟨text, hstore, htext, hrun⟩ | ⟨hbad, herr⟩
    · rw [hrun]
      rcases ih { db with problems := db.problems.upsert (problemRecord problem text) } with
        ⟨hall, t, ht, h⟩ | ⟨hbad, herr⟩
      · exact Or.inl ⟨List.forall_mem_cons.mpr ⟨hstore, hall⟩, t, upserted_cons htext ht, h⟩
      · exact Or.inr ⟨fun hall => hbad (List.forall_mem_cons.mp hall).2, herr⟩
    · exact Or.inr ⟨fun hall => hbad (List.forall_mem_cons.mp hall).1, herr⟩

/-- No other row refers to problem `id` of the table. -/
def Db.CanDrop (db : Db) (id : String) : Prop := (db.problems.find? id).isSome → db.referencesProblem id = false

/-- A problem that can be dropped does not keep another from it. -/
theorem Db.CanDrop.erase_iff {db : Db} {id : String} (h : db.CanDrop id) (id' : String) :
    Db.CanDrop { db with problems := db.problems.erase id } id' ↔ db.CanDrop id' := by
  unfold Db.CanDrop
  rw [Table.find?_erase]
  by_cases he : id' = id
  · subst he
    rw [if_pos rfl]
    exact ⟨fun _ => h, fun _ hn => by cases hn⟩
  · rw [if_neg he]
    exact Iff.rfl

/-- The deletes go through exactly when nothing refers to a problem that is dropped. -/
theorem deleteProblems_run (keep ids : List String) (db : Db) :
    ((∀ id ∈ ids, id ∉ keep → db.CanDrop id) ∧ ∃ t, (∀ id, t.find? id =
      if id ∈ ids ∧ id ∉ keep then none else db.problems.find? id) ∧
        (deleteProblems keep ids).run exec db = (.ok (), { db with problems := t })) ∨
      (¬∀ id ∈ ids, id ∉ keep → db.CanDrop id) ∧ ∃ e db', (deleteProblems keep ids).run exec db = (.error e, db') := by
  induction ids generalizing db with
  | nil => exact Or.inl ⟨List.forall_mem_nil _, db.problems, fun id => by simp, rfl⟩
  | cons id ids ih =>
    simp only [deleteProblems]
    by_cases hkeep : id ∈ keep
    · simp only [hkeep, not_true_eq_false, if_false]
      rcases ih db with ⟨hall, t, ht, h⟩ | ⟨hbad, herr⟩
      · refine Or.inl ⟨List.forall_mem_cons.mpr ⟨fun hn => absurd hkeep hn, hall⟩, t, fun id' => ?_, h⟩
        rw [ht id']
        refine if_congr ?_ rfl rfl
        rw [List.mem_cons]
        exact ⟨fun h => ⟨Or.inr h.1, h.2⟩, fun h => ⟨h.1.resolve_left fun he => h.2 (he ▸ hkeep), h.2⟩⟩
      · exact Or.inr ⟨fun hall => hbad (List.forall_mem_cons.mp hall).2, herr⟩
    · simp only [hkeep, not_false_eq_true, if_true, fetch, Prog.query, stmt_bind, ret_ok_bind, Prog.run, exec]
      by_cases href : (db.problems.find? id).isSome ∧ db.referencesProblem id
      · simp only [href, and_self, if_true]
        refine Or.inr ⟨fun hall => ?_, _, _, rfl⟩
        have := hall id (List.mem_cons_self ..) hkeep href.1
        rw [href.2] at this
        cases this
      · simp only [href, if_false]
        have hdrop : db.CanDrop id := fun hid => Bool.eq_false_iff.mpr fun hr => href ⟨hid, hr⟩
        rcases ih { db with problems := db.problems.erase id } with ⟨hall, t, ht, h⟩ | ⟨hbad, herr⟩
        · simp only [hdrop.erase_iff] at hall
          refine Or.inl ⟨List.forall_mem_cons.mpr ⟨fun _ => hdrop, hall⟩, t, fun id' => ?_, h⟩
          rw [ht id', Table.find?_erase]
          by_cases he : id' = id
          · subst he
            simp [hkeep]
          · simp [he]
        · simp only [hdrop.erase_iff] at hbad
          exact Or.inr ⟨fun hall => hbad (List.forall_mem_cons.mp hall).2, herr⟩

/-- What `replaceProblems` asks of its list: every problem storable, and no problem left out that some row refers to. -/
structure Acceptable (F : TextForms) (db : Db) (problems : List ProblemRow) : Prop where
  storable : ∀ p ∈ problems, p.Storable F
  droppable : ∀ r ∈ db.problems.rows, r.id ∉ problems.map (fun p => p.id.asStr) → db.referencesProblem r.id = false

/-- `t` holds the last occurrence of each listed id, and nothing else. -/
structure Replaced (F : TextForms) (problems : List ProblemRow) (t : Table ProblemRecord ProblemRecord.id) : Prop where
  listed : ∀ id problem, lastWithId problems id = some problem → ∃ text, F.rfc3339 problem.updatedAt = .ok text ∧
    t.find? id.asStr = some (problemRecord problem text)
  dropped : ∀ k, k ∉ problems.map (fun p => p.id.asStr) → t.find? k = none

theorem Replaced.keepsReferenced {db : Db} {problems : List ProblemRow} {t : Table ProblemRecord ProblemRecord.id}
    (h : Replaced F problems t) (ha : Acceptable F db problems) : KeepsReferenced db t := by
  intro id href hid
  obtain ⟨r, hr⟩ := Option.isSome_iff_exists.mp hid
  obtain rfl := Table.key_of_find? hr
  cases hlast : lastWithId problems ⟨r.id⟩ with
  | some p =>
    obtain ⟨text, -, hfind⟩ := h.listed _ _ hlast
    rw [hfind]
    rfl
  | none =>
    have := ha.droppable r (Table.mem_of_find? hr) (lastWithId_eq_none_iff.mp hlast)
    rw [this] at href
    cases href

section Deletes
variable {db : Db} {problems : List ProblemRow} {t : Table ProblemRecord ProblemRecord.id}
  (h : Upserted F problems db.problems t)
include h

theorem Upserted.forall_canDrop_iff :
    (∀ id ∈ t.rows.map ProblemRecord.id, id ∉ problems.map (fun p => p.id.asStr) →
      Db.CanDrop { db with problems := t } id) ↔
    ∀ r ∈ db.problems.rows, r.id ∉ problems.map (fun p => p.id.asStr) → db.referencesProblem r.id = false := by
  constructor
  · intro hall r hr hk
    have hfind := h.kept _ hk
    rw [Table.find?_of_mem hr] at hfind
    have hid : r.id ∈ t.rows.map ProblemRecord.id := List.mem_map_of_mem (Table.mem_of_find? hfind)
    exact hall r.id hid hk (Option.isSome_iff_exists.mpr ⟨r, hfind⟩)
  · intro hall id _ hk hsome
    obtain ⟨r, hr⟩ := Option.isSome_iff_exists.mp hsome
    change t.find? id = some r at hr
    rw [h.kept _ hk] at hr
    obtain rfl := Table.key_of_find? hr
    exact hall r (Table.mem_of_find? hr) hk

theorem Upserted.replaced {t' : Table ProblemRecord ProblemRecord.id}
    (ht' : ∀ id, t'.find? id =
      if id ∈ t.rows.map ProblemRecord.id ∧ id ∉ problems.map (fun p => p.id.asStr) then none else t.find? id) :
    Replaced F problems t' := by
  refine ⟨fun id p hp => ?_, fun k hk => ?_⟩
  · rw [ht', if_neg]
    · exact h.listed id p hp
    · rintro ⟨-, hk⟩
      rw [lastWithId_eq_none_iff.mpr hk] at hp
      cases hp
  · rw [ht']
    split
    · rfl
    · rename_i hmem
      rw [Table.find?_eq_none_iff]
      rintro r hr rfl
      exact hmem ⟨List.mem_map_of_mem hr, hk⟩

end Deletes

/-- `replaceProblems` goes through exactly when its list is acceptable. -/
theorem replaceProblems_run (problems : List ProblemRow) (db : Db) :
    (Acceptable F db problems ∧ ∃ t, Replaced F problems t ∧
      (replaceProblems (F := F) problems).run exec db = (.ok (), { db with problems := t })) ∨
      ¬Acceptable F db problems ∧ ∃ e db', (replaceProblems (F := F) problems).run exec db = (.error e, db') := by
  rw [replaceProblems, Prog.run_bind]
  rcases upsertProblems_run (F := F) problems db with ⟨hall, t, ht, h⟩ | ⟨hbad, e, db', h⟩
  · simp only [h, fetch, Prog.query, stmt_bind, ret_ok_bind, Prog.run, exec]
    have hdrop := ht.forall_canDrop_iff
    rcases deleteProblems_run (problems.map fun p => p.id.asStr) (t.rows.map ProblemRecord.id)
      { db with problems := t } with ⟨hall', t', ht', h'⟩ | ⟨hbad, herr⟩
    · exact Or.inl ⟨⟨hall, hdrop.mp hall'⟩, t', ht.replaced ht', h'⟩
    · exact Or.inr ⟨fun ha => hbad (hdrop.mpr ha.droppable), herr⟩
  · rw [h]
    exact Or.inr ⟨fun ha => hbad ha.storable, _, _, rfl⟩

/-! ## Calls -/

/-- The row `createSubmission` inserts. -/
def queuedRecord (id : SubmissionId) (now : Clock F) (submission : NewSubmission) : SubmissionRecord :=
  ⟨F.ulid id.ulid, F.ulid submission.userId.ulid, submission.problemId.asStr, submission.language.asStr,
    submission.sourceHash, submission.sourceUri, "QUEUED", none, now.text, none, none⟩

/-- The value it returns. -/
def queuedSubmission (id : SubmissionId) (now : Clock F) (submission : NewSubmission) : Submission :=
  ⟨id, submission.userId, submission.problemId, submission.language, submission.sourceHash, submission.sourceUri,
    .queued, none, now.time, none, none⟩

/-- The row `createUser` inserts. -/
def userRecord (id : UserId) (now : Clock F) (user : NewUser) : UserRecord :=
  ⟨F.ulid id.ulid, user.handle, user.email, user.passwordHash, user.role.asStr, now.text⟩

/-- The value it returns. -/
def createdUser (id : UserId) (now : Clock F) (user : NewUser) : User :=
  ⟨id, user.handle, user.email, user.passwordHash, user.role, now.time⟩

/-- The row `recordRun` inserts. -/
def runRecord (id : RunId) (now : Clock F) (run : NewRun) : RunRecord :=
  ⟨F.ulid id.ulid, F.ulid run.submissionId.ulid, run.attempt.toNat, run.runnerId, run.fixture,
    run.exitCode.map Int32.toInt, run.verdict.map Verdict.asStr, run.output, run.logUri,
    run.bootMs.map fun ms => (ms.toNat : Int), run.buildMs.map fun ms => (ms.toNat : Int),
    run.runMs.map fun ms => (ms.toNat : Int), now.text⟩

/-- The value it returns. -/
def recordedRun (id : RunId) (now : Clock F) (run : NewRun) : Run :=
  ⟨id, run.submissionId, run.attempt, run.runnerId, run.fixture, run.exitCode, run.verdict, run.output, run.logUri,
    run.bootMs, run.buildMs, run.runMs, now.time⟩

/-- What finishing a submission of `k` with `verdict` does to the progress table. -/
def Progressed (t t' : Table ProgressRecord ProgressRecord.pk) (k : String × String) (verdict : Verdict)
    (finishedAt : String) : Prop :=
  if verdict.countsAgainstUser then Bumped t t' k (solvedStamp verdict finishedAt) else t' = t

/-- What a call that commits does to the tables. -/
inductive Change (db : Db) : Call F → Db → Prop
  | createUser {id now user row users} : row.id = F.ulid id.ulid → db.users.insert? row = some users →
      Change db (.createUser id now user) { db with users }
  | replaceProblems {problems t} : KeepsReferenced db t →
      Change db (.replaceProblems problems) { db with problems := t }
  | createSubmission {id now submission submissions} :
      db.submissions.insert? (queuedRecord id now submission) = some submissions →
      (db.users.find? (F.ulid submission.userId.ulid)).isSome →
      (db.problems.find? submission.problemId.asStr).isSome →
      Change db (.createSubmission id now submission) { db with submissions }
  | setSubmissionStatus {now id status row current} : db.submissions.find? (F.ulid id.ulid) = some row →
      row.status = SubmissionStatus.asStr current → current.canTransitionTo status = true →
      Change db (.setSubmissionStatus now id status)
        (db.withStatus (F.ulid id.ulid) status.asStr (row.startedAt.getD now.text))
  | finishSubmission {now id verdict row current t} : db.submissions.find? (F.ulid id.ulid) = some row →
      row.status = SubmissionStatus.asStr current → current.canTransitionTo .done = true →
      Progressed db.userProgress t (row.userId, row.problemId) verdict now.text →
      Change db (.finishSubmission now id verdict)
        { db.withVerdict (F.ulid id.ulid) verdict.asStr now.text with userProgress := t }
  | recordRun {id now run row runs} : row.submissionId = F.ulid run.submissionId.ulid →
      db.runs.insert? row = some runs → (db.submissions.find? row.submissionId).isSome →
      Change db (.recordRun id now run) { db with runs }

/-- Some user has the handle or the email. -/
def Db.HasUser (db : Db) (handle email : String) : Prop := ∃ r ∈ db.users.rows, r.handle = handle ∨ r.email = email

/-- Some run is the attempt `attempt` of the submission. -/
def Db.HasAttempt (db : Db) (submissionId : String) (attempt : Int) : Prop :=
  ∃ r ∈ db.runs.rows, r.submissionId = submissionId ∧ r.attempt = attempt

theorem exec_insertUser {row : UserRecord} (hrole : row.role ∈ roleLabels) (db : Db) :
    ((db.HasUser row.handle row.email ∨ (db.users.find? row.id).isSome) ∧ exec (.insertUser row) db = .error .unique) ∨
      ∃ users, db.users.insert? row = some users ∧ ¬db.HasUser row.handle row.email ∧
        exec (.insertUser row) db = .ok ((), { db with users }) := by
  have hiff : (db.users.rows.any fun r => decide (r.handle = row.handle ∨ r.email = row.email)) = true ↔
      db.HasUser row.handle row.email := by simp [Db.HasUser]
  simp only [exec, hrole, not_true_eq_false, if_false]
  by_cases hu : db.HasUser row.handle row.email
  · exact Or.inl ⟨Or.inl hu, if_pos (hiff.mpr hu)⟩
  rw [if_neg (mt hiff.mp hu)]
  cases hins : db.users.insert? row with
  | none => exact Or.inl ⟨Or.inr (Table.insert?_eq_none_iff.mp hins), rfl⟩
  | some users => exact Or.inr ⟨users, rfl, hu, rfl⟩

theorem exec_insertSubmission (id : SubmissionId) (now : Clock F) (submission : NewSubmission) (db : Db) :
    let stmt := Stmt.insertSubmission (F.ulid id.ulid) (F.ulid submission.userId.ulid) submission.problemId.asStr
      submission.language.asStr submission.sourceHash submission.sourceUri now.text
    (∃ e, exec stmt db = .error e) ∨
      ∃ submissions, db.submissions.insert? (queuedRecord id now submission) = some submissions ∧
        (db.users.find? (F.ulid submission.userId.ulid)).isSome ∧
        (db.problems.find? submission.problemId.asStr).isSome ∧ exec stmt db = .ok ((), { db with submissions }) := by
  simp only [exec, language_mem_labels, not_true_eq_false, if_false, queuedRecord]
  generalize SubmissionRecord.mk (F.ulid id.ulid) _ _ _ _ _ _ _ _ _ _ = row
  cases hins : db.submissions.insert? row with
  | none => exact Or.inl ⟨_, rfl⟩
  | some submissions =>
    by_cases hfk : (db.users.find? (F.ulid submission.userId.ulid)).isNone ∨
        (db.problems.find? submission.problemId.asStr).isNone
    · exact Or.inl ⟨_, if_pos hfk⟩
    · obtain ⟨hu, hp⟩ := not_or.mp hfk
      exact Or.inr ⟨submissions, rfl, by simpa [Option.isSome_iff_ne_none] using hu,
        by simpa [Option.isSome_iff_ne_none] using hp, if_neg hfk⟩

theorem exec_insertRun {row : RunRecord} (hverdict : ∀ v, row.verdict = some v → v ∈ verdictLabels) (db : Db) :
    ((db.HasAttempt row.submissionId row.attempt ∨ (db.runs.find? row.id).isSome) ∧
        exec (.insertRun row) db = .error .unique) ∨
      (db.submissions.find? row.submissionId = none ∧ exec (.insertRun row) db = .error .foreignKey) ∨
      ∃ runs, db.runs.insert? row = some runs ∧ ¬db.HasAttempt row.submissionId row.attempt ∧
        (db.submissions.find? row.submissionId).isSome ∧ exec (.insertRun row) db = .ok ((), { db with runs }) := by
  have hlabels : ¬∃ v, row.verdict = some v ∧ v ∉ verdictLabels := fun ⟨v, hv, hn⟩ => hn (hverdict v hv)
  have hiff : (db.runs.rows.any fun r => decide (r.submissionId = row.submissionId ∧ r.attempt = row.attempt)) = true ↔
      db.HasAttempt row.submissionId row.attempt := by simp [Db.HasAttempt]
  simp only [exec]
  rw [if_neg hlabels]
  by_cases hu : db.HasAttempt row.submissionId row.attempt
  · exact Or.inl ⟨Or.inl hu, if_pos (hiff.mpr hu)⟩
  rw [if_neg (mt hiff.mp hu)]
  cases hins : db.runs.insert? row with
  | none => exact Or.inl ⟨Or.inr (Table.insert?_eq_none_iff.mp hins), rfl⟩
  | some runs =>
    cases hs : db.submissions.find? row.submissionId with
    | none => exact Or.inr (Or.inl ⟨rfl, rfl⟩)
    | some s => exact Or.inr (Or.inr ⟨runs, rfl, hu, rfl, rfl⟩)

/-- What `createUser` answers when the handle or the email is taken. -/
def userConflict (F : TextForms) (user : NewUser) : StoreError :=
  .conflict "users" ("handle " ++ F.debug user.handle ++ " or email " ++ F.debug user.email ++ " already taken")

/-- What `recordRun` answers when the attempt is recorded. -/
def runConflict (F : TextForms) (run : NewRun) : StoreError :=
  .conflict "runs" ("attempt " ++ toString run.attempt.toNat ++ " for submission " ++ F.ulid run.submissionId.ulid ++
    " already recorded")

theorem createUser_run (id : UserId) (now : Clock F) (user : NewUser) (db : Db) :
    ((db.HasUser user.handle user.email ∨ (db.users.find? (F.ulid id.ulid)).isSome) ∧
        (createUser id now user).run exec db = (.error (userConflict F user), db)) ∨
      ∃ users, db.users.insert? (userRecord id now user) = some users ∧ ¬db.HasUser user.handle user.email ∧
        (createUser id now user).run exec db = (.ok (.ok (createdUser id now user)), { db with users }) := by
  have hrole : (userRecord id now user).role ∈ roleLabels := role_mem_labels user.role
  simp only [createUser, Prog.run, parseTs_text]
  rcases exec_insertUser hrole db with ⟨htaken, h⟩ | ⟨users, hins, hnew, h⟩
  · rw [userRecord] at h
    rw [h]
    exact Or.inl ⟨htaken, rfl⟩
  · rw [userRecord] at h
    rw [h]
    exact Or.inr ⟨users, hins, hnew, rfl⟩

theorem createSubmission_run (id : SubmissionId) (now : Clock F) (submission : NewSubmission) (db : Db) :
    (∃ e db', (createSubmission id now submission).run exec db = (.error e, db')) ∨
      ∃ submissions, db.submissions.insert? (queuedRecord id now submission) = some submissions ∧
        (db.users.find? (F.ulid submission.userId.ulid)).isSome ∧
        (db.problems.find? submission.problemId.asStr).isSome ∧
        (createSubmission id now submission).run exec db =
          (.ok (.ok (queuedSubmission id now submission)), { db with submissions }) := by
  simp only [createSubmission, fetch, Prog.query, stmt_bind, ret_ok_bind, Prog.run, parseTs_text]
  rcases exec_insertSubmission id now submission db with ⟨e, h⟩ | ⟨submissions, hins, hu, hp, h⟩
  · rw [h]
    exact Or.inl ⟨_, _, rfl⟩
  · rw [h]
    exact Or.inr ⟨submissions, hins, hu, hp, rfl⟩

theorem recordRun_run (id : RunId) (now : Clock F) (run : NewRun) (db : Db) :
    ((db.HasAttempt (F.ulid run.submissionId.ulid) run.attempt.toNat ∨ (db.runs.find? (F.ulid id.ulid)).isSome) ∧
        (recordRun id now run).run exec db = (.error (runConflict F run), db)) ∨
      (db.submissions.find? (F.ulid run.submissionId.ulid) = none ∧
        (recordRun id now run).run exec db = (.error (.database .foreignKey), db)) ∨
      ∃ runs, db.runs.insert? (runRecord id now run) = some runs ∧
        ¬db.HasAttempt (F.ulid run.submissionId.ulid) run.attempt.toNat ∧
        (db.submissions.find? (F.ulid run.submissionId.ulid)).isSome ∧
        (recordRun id now run).run exec db = (.ok (.ok (recordedRun id now run)), { db with runs }) := by
  have hverdict : ∀ v, (runRecord id now run).verdict = some v → v ∈ verdictLabels := by
    intro v hv
    obtain ⟨w, -, rfl⟩ := Option.map_eq_some_iff.mp hv
    exact verdict_mem_labels w
  simp only [recordRun, Prog.run, parseTs_text]
  rcases exec_insertRun hverdict db with ⟨htaken, h⟩ | ⟨hs, h⟩ | ⟨runs, hins, hnew, hs, h⟩
  · rw [runRecord] at h
    rw [h]
    exact Or.inl ⟨htaken, rfl⟩
  · rw [runRecord] at h
    rw [h]
    exact Or.inr (Or.inl ⟨hs, rfl⟩)
  · rw [runRecord] at h
    rw [h]
    exact Or.inr (Or.inr ⟨runs, hins, hnew, hs, rfl⟩)

theorem setSubmissionStatus_change (now : Clock F) (id : SubmissionId) (status : SubmissionStatus) (db : Db) :
    (∃ e db', (setSubmissionStatus now id status).run exec db = (.error e, db')) ∨
      ∃ db', (setSubmissionStatus now id status).run exec db = (.ok (), db') ∧
        Change db (.setSubmissionStatus now id status) db' := by
  rw [setSubmissionStatus_run]
  cases hrow : db.submissions.find? (F.ulid id.ulid) with
  | none => exact Or.inl ⟨_, _, rfl⟩
  | some row =>
    cases hst : SubmissionStatus.parse row.status with
    | none =>
      simp only [hst]
      exact Or.inl ⟨_, _, rfl⟩
    | some current =>
      simp only [hst]
      cases hcan : current.canTransitionTo status with
      | false => exact Or.inl ⟨_, _, rfl⟩
      | true => exact Or.inr ⟨_, rfl, .setSubmissionStatus hrow (SubmissionStatus.parse_eq_some_iff.mp hst).symm hcan⟩

theorem finishSubmission_change (now : Clock F) (id : SubmissionId) (verdict : Verdict) (db : Db) :
    (∃ e db', (finishSubmission now id verdict).run exec db = (.error e, db')) ∨
      ∃ db', (finishSubmission now id verdict).run exec db = (.ok (), db') ∧
        Change db (.finishSubmission now id verdict) db' := by
  rw [finishSubmission_run]
  cases hrow : db.submissions.find? (F.ulid id.ulid) with
  | none => exact Or.inl ⟨_, _, rfl⟩
  | some row =>
    cases hst : SubmissionStatus.parse row.status with
    | none =>
      simp only [hst]
      exact Or.inl ⟨_, _, rfl⟩
    | some current =>
      simp only [hst]
      have hst := (SubmissionStatus.parse_eq_some_iff.mp hst).symm
      cases hcan : current.canTransitionTo .done with
      | false => exact Or.inl ⟨_, _, rfl⟩
      | true =>
        by_cases hc : verdict.countsAgainstUser = true
        · simp only [if_true, if_pos hc]
          rcases bumpProgress_run row.userId row.problemId (solvedStamp verdict now.text)
            (db.withVerdict (F.ulid id.ulid) verdict.asStr now.text) with h | ⟨t, h, hb⟩
          · exact Or.inl h
          · exact Or.inr ⟨_, h, .finishSubmission hrow hst hcan (by rw [Progressed, if_pos hc]; exact hb)⟩
        · simp only [if_true, if_neg hc]
          exact Or.inr ⟨_, rfl, .finishSubmission (t := db.userProgress) hrow hst hcan
            (by rw [Progressed, if_neg hc])⟩

/-! ### What it returns -/

/-- What a call that returns `reply` has done: the row it inserted where it returns one, a `Change` otherwise. -/
inductive Outcome (db : Db) : Call F → Reply → Db → Prop
  | createUser {id now user users} : db.users.insert? (userRecord id now user) = some users →
      (∀ r ∈ db.users.rows, r.handle ≠ user.handle ∧ r.email ≠ user.email) →
      Outcome db (.createUser id now user) (.user (createdUser id now user)) { db with users }
  | replaceProblems {problems db'} : Change db (.replaceProblems problems : Call F) db' →
      Outcome db (.replaceProblems problems) .unit db'
  | createSubmission {id now submission submissions} :
      db.submissions.insert? (queuedRecord id now submission) = some submissions →
      (db.users.find? (F.ulid submission.userId.ulid)).isSome →
      (db.problems.find? submission.problemId.asStr).isSome →
      Outcome db (.createSubmission id now submission) (.submission (queuedSubmission id now submission))
        { db with submissions }
  | setSubmissionStatus {now id status db'} : Change db (.setSubmissionStatus now id status) db' →
      Outcome db (.setSubmissionStatus now id status) .unit db'
  | finishSubmission {now id verdict db'} : Change db (.finishSubmission now id verdict) db' →
      Outcome db (.finishSubmission now id verdict) .unit db'
  | recordRun {id now run runs} : db.runs.insert? (runRecord id now run) = some runs →
      (db.submissions.find? (F.ulid run.submissionId.ulid)).isSome →
      Outcome db (.recordRun id now run) (.run (recordedRun id now run)) { db with runs }

theorem Outcome.change {db db' : Db} {c : Call F} {r : Reply} (h : Outcome db c r db') : Change db c db' := by
  cases h with
  | createUser hins => exact .createUser rfl hins
  | createSubmission hins hu hp => exact .createSubmission hins hu hp
  | recordRun hins hs => exact .recordRun rfl hins hs
  | replaceProblems hc | setSubmissionStatus hc | finishSubmission hc => exact hc

/-- **A call fails, or it returns with its `Outcome`.** -/
theorem call_cases (c : Call F) (db : Db) :
    (∃ e db', c.prog.run exec db = (.error e, db')) ∨
      ∃ r db', c.prog.run exec db = (.ok (.ok r), db') ∧ Outcome db c r db' := by
  cases c with
  | createUser id now user =>
    simp only [Call.prog, Prog.run_bind]
    rcases createUser_run id now user db with ⟨-, h⟩ | ⟨users, hins, hnew, h⟩
    · exact Or.inl ⟨_, _, by rw [h]⟩
    · have hfresh : ∀ r ∈ db.users.rows, r.handle ≠ user.handle ∧ r.email ≠ user.email := fun r hr =>
        not_or.mp fun he => hnew ⟨r, hr, he⟩
      exact Or.inr ⟨.user _, _, by rw [h]; rfl, .createUser hins hfresh⟩
  | replaceProblems problems =>
    simp only [Call.prog, Prog.run_bind]
    rcases replaceProblems_run (F := F) problems db with ⟨ha, t, ht, h⟩ | ⟨-, e, db', h⟩
    · exact Or.inr ⟨.unit, _, by rw [h]; rfl, .replaceProblems (.replaceProblems (ht.keepsReferenced ha))⟩
    · exact Or.inl ⟨e, db', by rw [h]⟩
  | createSubmission id now submission =>
    simp only [Call.prog, Prog.run_bind]
    rcases createSubmission_run id now submission db with ⟨e, db', h⟩ | ⟨submissions, hins, hu, hp, h⟩
    · exact Or.inl ⟨e, db', by rw [h]⟩
    · exact Or.inr ⟨.submission _, _, by rw [h]; rfl, .createSubmission hins hu hp⟩
  | setSubmissionStatus now id status =>
    simp only [Call.prog, Prog.run_bind]
    rcases setSubmissionStatus_change now id status db with ⟨e, db', h⟩ | ⟨db', h, hc⟩
    · exact Or.inl ⟨e, db', by rw [h]⟩
    · exact Or.inr ⟨.unit, db', by rw [h]; rfl, .setSubmissionStatus hc⟩
  | finishSubmission now id verdict =>
    simp only [Call.prog, Prog.run_bind]
    rcases finishSubmission_change now id verdict db with ⟨e, db', h⟩ | ⟨db', h, hc⟩
    · exact Or.inl ⟨e, db', by rw [h]⟩
    · exact Or.inr ⟨.unit, db', by rw [h]; rfl, .finishSubmission hc⟩
  | recordRun id now run =>
    simp only [Call.prog, Prog.run_bind]
    rcases recordRun_run id now run db with ⟨-, h⟩ | ⟨-, h⟩ | ⟨runs, hins, -, hs, h⟩
    · exact Or.inl ⟨_, _, by rw [h]⟩
    · exact Or.inl ⟨_, _, by rw [h]⟩
    · exact Or.inr ⟨.run _, _, by rw [h]; rfl, .recordRun hins hs⟩

/-! ## Steps -/

/-- An unfailed call whose program returns commits what the program did. -/
theorem step_of_run {c : Call F} {db db' : Db} {r : Reply} (h : c.prog.run exec db = (.ok (.ok r), db')) :
    (Step.mk c none).run db = (.ok r, db') := by
  rw [Step.run, Step.prog, atomically_of_ok h]
  rfl

/-- An unfailed call whose program fails changes nothing. -/
theorem step_of_run_error {c : Call F} {db db' : Db} {e : StoreError} (h : c.prog.run exec db = (.error e, db')) :
    (Step.mk c none).run db = (.error e, db) := by
  rw [Step.run, Step.prog, atomically_of_error h]
  rfl

/-- **A step fails and changes nothing, or it returns what its program does, with its `Outcome`.** -/
theorem step_outcome (st : Step F) (db : Db) :
    (∃ e, st.run db = (.error e, db)) ∨
      ∃ r db', st.run db = (.ok r, db') ∧ st.call.prog.run exec db = (.ok (.ok r), db') ∧ Outcome db st.call r db' := by
  have hcall :
      (∃ e, (reply (atomically exec st.call.prog db).1, (atomically exec st.call.prog db).2) = (.error e, db)) ∨
      ∃ r db', (reply (atomically exec st.call.prog db).1, (atomically exec st.call.prog db).2) = (.ok r, db') ∧
        st.call.prog.run exec db = (.ok (.ok r), db') ∧ Outcome db st.call r db' := by
    rcases call_cases st.call db with ⟨e, db', h⟩ | ⟨r, db', h, ho⟩
    · rw [atomically_of_error h]
      exact Or.inl ⟨e, rfl⟩
    · rw [atomically_of_ok h]
      exact Or.inr ⟨r, db', rfl, h, ho⟩
  unfold Step.run Step.prog
  cases st.fault with
  | none => exact hcall
  | some n =>
    rcases atomically_faultAt exec .io StoreError.database st.call.prog n db with h | ⟨e, h⟩
    · simp only [h]
      exact hcall
    · simp only [h]
      exact Or.inl ⟨e, rfl⟩

theorem step_cases (st : Step F) (db : Db) :
    (∃ e, st.run db = (.error e, db)) ∨ ∃ r db', st.run db = (.ok r, db') ∧ Change db st.call db' := by
  rcases step_outcome st db with h | ⟨r, db', h, -, ho⟩
  · exact Or.inl h
  · exact Or.inr ⟨r, db', h, ho.change⟩

section Returned
variable {st : Step F} {db db' : Db} {r : Reply} (h : st.run db = (.ok r, db'))
include h

theorem run_of_step : st.call.prog.run exec db = (.ok (.ok r), db') := by
  rcases step_outcome st db with ⟨e, he⟩ | ⟨r', db'', hr, hrun, -⟩
  · rw [he] at h
    cases congrArg Prod.fst h
  · rw [hr] at h
    cases h
    exact hrun

theorem outcome_of_step : Outcome db st.call r db' := by
  rcases step_outcome st db with ⟨e, he⟩ | ⟨r', db'', hr, -, ho⟩
  · rw [he] at h
    cases congrArg Prod.fst h
  · rw [hr] at h
    cases h
    exact ho

end Returned

/-- A step that does not return changes nothing. -/
theorem step_error {st : Step F} {db db' : Db} {e : StoreError} (h : st.run db = (.error e, db')) : db' = db := by
  rcases step_outcome st db with ⟨e', he⟩ | ⟨r, db'', hr, -⟩
  · rw [he] at h
    exact (congrArg Prod.snd h).symm
  · rw [hr] at h
    cases congrArg Prod.fst h

/-! ## Submission rows -/

/-- Where a row of `submissions` after the call `c` comes from. -/
inductive Origin (db : Db) : Call F → SubmissionRecord → Prop
  | kept {c r} : r ∈ db.submissions.rows → Origin db c r
  | queued {id now submission} : Origin db (.createSubmission id now submission) (queuedRecord id now submission)
  | moved {now id status r current} {startedAt : String} : r ∈ db.submissions.rows → r.id = F.ulid id.ulid →
      r.status = SubmissionStatus.asStr current → current.canTransitionTo status = true →
      (startedAt = now.text ∨ r.startedAt = some startedAt) →
      Origin db (.setSubmissionStatus now id status) (r.withStatus status.asStr startedAt)
  | closed {now id verdict r current} : r ∈ db.submissions.rows → r.id = F.ulid id.ulid →
      r.status = SubmissionStatus.asStr current → current.canTransitionTo .done = true →
      Origin db (.finishSubmission now id verdict) (r.withVerdict verdict.asStr now.text)

theorem Change.origin {db db' : Db} {c : Call F} (h : Change db c db') {r : SubmissionRecord}
    (hr : r ∈ db'.submissions.rows) : Origin db c r := by
  cases h with
  | createUser | replaceProblems | recordRun => exact .kept hr
  | createSubmission hins =>
    rcases (Table.mem_insert? hins).mp hr with hr | rfl
    · exact .kept hr
    · exact .queued
  | @setSubmissionStatus now id status row current hrow hst hcan =>
    rcases Db.mem_withStatus.mp hr with ⟨hr, -⟩ | ⟨r, hmem, hid, rfl⟩
    · exact .kept hr
    · obtain rfl : row = r := Table.eq_of_key (Table.mem_of_find? hrow) hmem ((Table.key_of_find? hrow).trans hid.symm)
      refine .moved hmem hid hst hcan ?_
      cases row.startedAt with
      | none => exact Or.inl rfl
      | some t => exact Or.inr rfl
  | @finishSubmission now id verdict row current t hrow hst hcan =>
    rcases Db.mem_withVerdict.mp hr with ⟨hr, -⟩ | ⟨r, hmem, hid, rfl⟩
    · exact .kept hr
    · obtain rfl : row = r := Table.eq_of_key (Table.mem_of_find? hrow) hmem ((Table.key_of_find? hrow).trans hid.symm)
      exact .closed hmem hid hst hcan

/-! ## Runs -/

/-- The tables after a list of steps, one after another. -/
def after (db : Db) (steps : List (Step F)) : Db := steps.foldl (fun db st => (st.run db).2) db

@[simp] theorem after_nil (db : Db) : after db ([] : List (Step F)) = db := rfl

@[simp] theorem after_cons (db : Db) (st : Step F) (steps : List (Step F)) :
    after db (st :: steps) = after (st.run db).2 steps := rfl

theorem after_append (db : Db) (steps steps' : List (Step F)) :
    after db (steps ++ steps') = after (after db steps) steps' := List.foldl_append

theorem after_concat (db : Db) (steps : List (Step F)) (st : Step F) :
    after db (steps ++ [st]) = (st.run (after db steps)).2 := after_append db steps [st]

/-- What every change keeps, every step keeps. -/
theorem step_invariant {P : Db → Prop} (hP : ∀ {db db'} {c : Call F}, P db → Change db c db' → P db') {db : Db}
    (h : P db) (st : Step F) : P (st.run db).2 := by
  rcases step_cases st db with ⟨e, he⟩ | ⟨r, db', hr, hc⟩
  · rw [he]
    exact h
  · rw [hr]
    exact hP h hc

/-- What every change keeps holds after every run. -/
theorem after_invariant {P : Db → Prop} (hP : ∀ {db db'} {c : Call F}, P db → Change db c db' → P db') {db : Db}
    (h : P db) (steps : List (Step F)) : P (after db steps) := by
  induction steps generalizing db with
  | nil => exact h
  | cons st steps ih => exact ih (step_invariant hP h st)

end Satunera.Store
