import Satunera.Base.Table
import Satunera.Base.Transaction
import Satunera.Store.Model

/-!
# The database: tables, constraints and statements

The five tables of the migration, with TEXT columns as strings, INTEGER columns as integers and NULL as `none`, and
the statements the store issues, each with what it answers and does. A statement checks the constraints it can break,
as SQLite does: `CHECK`, then `UNIQUE` and primary keys, then immediate foreign keys.

* `Db`, `Db.empty` : the tables;
* `Stmt`, `Answer`, `exec` : the statements.
-/

namespace Satunera.Store

open Satunera.Base Satunera.Contracts

/-! ## Rows -/

/-- A row of `users`. -/
structure UserRecord where
  id : String
  handle : String
  email : String
  passwordHash : String
  role : String
  createdAt : String

/-- A row of `problems`. -/
structure ProblemRecord where
  id : String
  commitSha : String
  title : String
  category : String
  difficulty : String
  manifest : String
  updatedAt : String

/-- A row of `submissions`. -/
structure SubmissionRecord where
  id : String
  userId : String
  problemId : String
  language : String
  sourceHash : String
  sourceUri : String
  status : String
  verdict : Option String
  createdAt : String
  startedAt : Option String
  finishedAt : Option String
  deriving DecidableEq

/-- A row of `runs`. -/
structure RunRecord where
  id : String
  submissionId : String
  attempt : Int
  runnerId : String
  fixture : String
  exitCode : Option Int
  verdict : Option String
  output : Option String
  logUri : Option String
  bootMs : Option Int
  buildMs : Option Int
  runMs : Option Int
  createdAt : String

/-- A row of `user_progress`. -/
structure ProgressRecord where
  userId : String
  problemId : String
  solvedAt : Option String
  attempts : Int
  deriving DecidableEq

/-- The primary key of `user_progress`. -/
def ProgressRecord.pk (r : ProgressRecord) : String × String := (r.userId, r.problemId)

/-- The tables of the migration, each with its primary key. -/
structure Db where
  users : Table UserRecord UserRecord.id
  problems : Table ProblemRecord ProblemRecord.id
  submissions : Table SubmissionRecord SubmissionRecord.id
  runs : Table RunRecord RunRecord.id
  userProgress : Table ProgressRecord ProgressRecord.pk

/-- The tables right after the migration. -/
def Db.empty : Db := ⟨.empty, .empty, .empty, .empty, .empty⟩

/-! ## `CHECK` lists -/

def roleLabels : List String := ["learner", "author", "admin"]

def difficultyLabels : List String := ["easy", "medium", "hard"]

def languageLabels : List String := ["rust", "py", "cpp"]

def statusLabels : List String := ["QUEUED", "PREPARING", "BUILDING", "BOOTING", "RUNNING", "DONE"]

def verdictLabels : List String := ["AC", "WA", "TLE", "MLE", "RE", "CE", "SE", "IE"]

theorem role_mem_labels (r : Role) : r.asStr ∈ roleLabels := by cases r <;> decide

theorem language_mem_labels (l : Language) : l.asStr ∈ languageLabels := by cases l <;> decide

theorem status_mem_labels (s : SubmissionStatus) : s.asStr ∈ statusLabels := by cases s <;> decide

theorem verdict_mem_labels (v : Verdict) : v.asStr ∈ verdictLabels := by cases v <;> decide

/-! ## Statements -/

/-- The statements of the store that can run inside a write, with their bound parameters. -/
inductive Stmt
  | insertUser (row : UserRecord)
  | upsertProblem (row : ProblemRecord)
  | selectProblemIds
  | deleteProblem (id : String)
  | insertSubmission (id userId problemId language sourceHash sourceUri createdAt : String)
  | selectStatus (id : String)
  | updateStatus (status startedAt id : String)
  | selectForFinish (id : String)
  | updateDone (verdict finishedAt id : String)
  | updateProgress (solvedAt : Option String) (userId problemId : String)
  | insertProgress (userId problemId : String) (solvedAt : Option String)
  | insertRun (row : RunRecord)

/-- `SELECT status, started_at`. -/
structure StatusRow where
  status : String
  startedAt : Option String

/-- `SELECT user_id, problem_id, status`. -/
structure FinishRow where
  userId : String
  problemId : String
  status : String

/-- What a statement answers: rows, or the number of rows it affected, where the store looks at them. -/
@[reducible] def Answer : Stmt → Type
  | .selectProblemIds => List String
  | .selectStatus _ => Option StatusRow
  | .selectForFinish _ => Option FinishRow
  | .updateProgress .. => Nat
  | _ => Unit

/-- Some row references problem `id`. -/
def Db.referencesProblem (db : Db) (id : String) : Bool :=
  db.submissions.rows.any (fun r => r.problemId = id) || db.userProgress.rows.any fun r => r.problemId = id

/-! ### Updates -/

def SubmissionRecord.withStatus (status startedAt : String) (r : SubmissionRecord) : SubmissionRecord :=
  { r with status, startedAt := some startedAt }

def SubmissionRecord.withVerdict (verdict finishedAt : String) (r : SubmissionRecord) : SubmissionRecord :=
  { r with status := "DONE", verdict := some verdict, finishedAt := some finishedAt }

/-- `CASE WHEN solved_at IS NULL THEN ? ELSE solved_at END`, with one more attempt. -/
def ProgressRecord.attempt (solvedAt : Option String) (r : ProgressRecord) : ProgressRecord :=
  { r with
    attempts := r.attempts + 1
    solvedAt := match r.solvedAt with
      | none => solvedAt
      | some t => some t }

@[simp] theorem SubmissionRecord.id_withStatus (status startedAt : String) (r : SubmissionRecord) :
    (r.withStatus status startedAt).id = r.id := rfl

@[simp] theorem SubmissionRecord.id_withVerdict (verdict finishedAt : String) (r : SubmissionRecord) :
    (r.withVerdict verdict finishedAt).id = r.id := rfl

@[simp] theorem ProgressRecord.pk_attempt (solvedAt : Option String) (r : ProgressRecord) :
    (r.attempt solvedAt).pk = r.pk := rfl

/-- `UPDATE submissions SET status = ?, started_at = ? WHERE id = ?`. -/
def Db.withStatus (db : Db) (id status startedAt : String) : Db :=
  { db with
    submissions := db.submissions.modify id (.withStatus status startedAt) fun r h => (r.id_withStatus ..).trans h }

/-- `UPDATE submissions SET status = 'DONE', verdict = ?, finished_at = ? WHERE id = ?`. -/
def Db.withVerdict (db : Db) (id verdict finishedAt : String) : Db :=
  { db with
    submissions := db.submissions.modify id (.withVerdict verdict finishedAt) fun r h => (r.id_withVerdict ..).trans h }

/-- `UPDATE user_progress SET attempts = attempts + 1, solved_at = ... WHERE user_id = ? AND problem_id = ?`. -/
def Db.withAttempt (db : Db) (k : String × String) (solvedAt : Option String) : Db :=
  { db with userProgress := db.userProgress.modify k (.attempt solvedAt) fun r h => (r.pk_attempt ..).trans h }

theorem Db.mem_withStatus {db : Db} {id status startedAt : String} {r' : SubmissionRecord} :
    r' ∈ (db.withStatus id status startedAt).submissions.rows ↔ (r' ∈ db.submissions.rows ∧ r'.id ≠ id) ∨
      ∃ r ∈ db.submissions.rows, r.id = id ∧ r.withStatus status startedAt = r' := by
  rw [Db.withStatus, Table.mem_modify]

theorem Db.mem_withVerdict {db : Db} {id verdict finishedAt : String} {r' : SubmissionRecord} :
    r' ∈ (db.withVerdict id verdict finishedAt).submissions.rows ↔ (r' ∈ db.submissions.rows ∧ r'.id ≠ id) ∨
      ∃ r ∈ db.submissions.rows, r.id = id ∧ r.withVerdict verdict finishedAt = r' := by
  rw [Db.withVerdict, Table.mem_modify]

theorem Db.find?_withStatus {db : Db} {id status startedAt : String} {r : SubmissionRecord}
    (h : db.submissions.find? id = some r) :
    (db.withStatus id status startedAt).submissions.find? id = some (r.withStatus status startedAt) := by
  rw [Db.withStatus, Table.find?_modify, if_pos rfl, h, Option.map_some]

theorem Db.find?_withVerdict {db : Db} {id verdict finishedAt : String} {r : SubmissionRecord}
    (h : db.submissions.find? id = some r) :
    (db.withVerdict id verdict finishedAt).submissions.find? id = some (r.withVerdict verdict finishedAt) := by
  rw [Db.withVerdict, Table.find?_modify, if_pos rfl, h, Option.map_some]

/-! ## What each statement does -/

/-- The tables after a statement, and its answer. -/
def exec : Exec Stmt Answer SqlError Db
  | .insertUser row, db =>
    if row.role ∉ roleLabels then .error .check
    else if db.users.rows.any fun r => r.handle = row.handle ∨ r.email = row.email then .error .unique
    else match db.users.insert? row with
      | none => .error .unique
      | some users => .ok ((), { db with users })
  | .upsertProblem row, db =>
    if row.difficulty ∉ difficultyLabels then .error .check
    else .ok ((), { db with problems := db.problems.upsert row })
  | .selectProblemIds, db => .ok (db.problems.rows.map ProblemRecord.id, db)
  | .deleteProblem id, db =>
    if (db.problems.find? id).isSome ∧ db.referencesProblem id then .error .foreignKey
    else .ok ((), { db with problems := db.problems.erase id })
  | .insertSubmission id userId problemId language sourceHash sourceUri createdAt, db =>
    if language ∉ languageLabels then .error .check
    else match db.submissions.insert? ⟨id, userId, problemId, language, sourceHash, sourceUri, "QUEUED", none,
        createdAt, none, none⟩ with
      | none => .error .unique
      | some submissions =>
        if (db.users.find? userId).isNone ∨ (db.problems.find? problemId).isNone then .error .foreignKey
        else .ok ((), { db with submissions })
  | .selectStatus id, db => .ok ((db.submissions.find? id).map fun r => ⟨r.status, r.startedAt⟩, db)
  | .updateStatus status startedAt id, db =>
    if (db.submissions.find? id).isSome ∧ status ∉ statusLabels then .error .check
    else .ok ((), db.withStatus id status startedAt)
  | .selectForFinish id, db =>
    .ok ((db.submissions.find? id).map fun r => ⟨r.userId, r.problemId, r.status⟩, db)
  | .updateDone verdict finishedAt id, db =>
    if (db.submissions.find? id).isSome ∧ verdict ∉ verdictLabels then .error .check
    else .ok ((), db.withVerdict id verdict finishedAt)
  | .updateProgress solvedAt userId problemId, db =>
    .ok (if (db.userProgress.find? (userId, problemId)).isSome then 1 else 0,
      db.withAttempt (userId, problemId) solvedAt)
  | .insertProgress userId problemId solvedAt, db =>
    match db.userProgress.insert? ⟨userId, problemId, solvedAt, 1⟩ with
    | none => .error .unique
    | some userProgress =>
      if (db.users.find? userId).isNone ∨ (db.problems.find? problemId).isNone then .error .foreignKey
      else .ok ((), { db with userProgress })
  | .insertRun row, db =>
    if ∃ v, row.verdict = some v ∧ v ∉ verdictLabels then .error .check
    else if db.runs.rows.any fun r => r.submissionId = row.submissionId ∧ r.attempt = row.attempt then .error .unique
    else match db.runs.insert? row with
      | none => .error .unique
      | some runs =>
        if (db.submissions.find? row.submissionId).isNone then .error .foreignKey
        else .ok ((), { db with runs })

end Satunera.Store
