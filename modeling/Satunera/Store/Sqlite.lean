import Satunera.Store.Sql

/-!
# The SQLite store

The operations of the store as programs of statements, and its reads as functions of the committed tables. What the
code takes from outside (a fresh id, a reading of the clock) is an argument of the operation.

* `createUser`, `replaceProblems`, `createSubmission`, `setSubmissionStatus`, `finishSubmission`, `recordRun` : the
  writes;
* `user`, `userByHandle`, `problem`, `problems`, `submission`, `latestVerdictForHash`, `submissionsForUser`,
  `inFlightSubmissions`, `runsForSubmission`, `progress` : the reads;
* `Call`, `Step` : one write with its arguments, possibly hit by a failing statement; `Step.run` runs it as one
  transaction.
-/

namespace Satunera.Store

open Satunera.Base Satunera.Contracts

/-- A transaction of the store. -/
abbrev Tx := Prog Stmt Answer SqlError StoreError

/-- A statement whose failure is reported as the database's own. -/
def fetch (s : Stmt) : Tx (Answer s) := Prog.query s .database

section Decoding
variable (F : TextForms)

def corrupt (entity detail : String) : StoreError := .corruptRow entity detail

def parseTs (entity value : String) : Except StoreError OffsetDateTime :=
  match F.parseRfc3339 value with
  | .ok t => .ok t
  | .error e => .error (corrupt entity ("bad timestamp " ++ F.debug value ++ ": " ++ e))

def parseOptTs (entity : String) (value : Option String) : Except StoreError (Option OffsetDateTime) :=
  match value with
  | none => .ok none
  | some v => (parseTs F entity v).map some

def parseOptVerdict (entity : String) (value : Option String) : Except StoreError (Option Verdict) :=
  match value with
  | none => .ok none
  | some v => (okOr (Verdict.parse v) (corrupt entity ("bad verdict " ++ F.debug v))).map some

def SubmissionRecord.intoSubmission (r : SubmissionRecord) : Except StoreError Submission := do
  let id ← okOr (F.parseUlid r.id) (corrupt "submissions" ("bad id " ++ F.debug r.id))
  let userId ← okOr (F.parseUlid r.userId) (corrupt "submissions" ("bad user_id " ++ F.debug r.userId))
  let language ← okOr (Language.parse r.language) (corrupt "submissions" ("bad language " ++ F.debug r.language))
  let status ← okOr (SubmissionStatus.parse r.status) (corrupt "submissions" ("bad status " ++ F.debug r.status))
  let verdict ← parseOptVerdict F "submissions" r.verdict
  let createdAt ← parseTs F "submissions" r.createdAt
  let startedAt ← parseOptTs F "submissions" r.startedAt
  let finishedAt ← parseOptTs F "submissions" r.finishedAt
  return ⟨⟨id⟩, ⟨userId⟩, ⟨r.problemId⟩, language, r.sourceHash, r.sourceUri, status, verdict, createdAt, startedAt,
    finishedAt⟩

def ProblemRecord.intoProblemRow (r : ProblemRecord) : Except StoreError ProblemRow := do
  let updatedAt ← parseTs F "problems" r.updatedAt
  return ⟨⟨r.id⟩, r.commitSha, r.title, r.category, r.difficulty, r.manifest, updatedAt⟩

/-- `u32::try_from`. -/
def tryU32 (n : Int) : Option UInt32 := if 0 ≤ n ∧ n < 4294967296 then some (UInt32.ofNat n.toNat) else none

/-- `i32::try_from`. -/
def tryI32 (n : Int) : Option Int32 := if -2147483648 ≤ n ∧ n < 2147483648 then some (Int32.ofInt n) else none

/-- `.map(T::try_from).transpose().map_err(..)`. -/
def tryOpt {α : Type} (tryFrom : Int → Option α) (value : Option Int) (detail : String) :
    Except StoreError (Option α) :=
  match value with
  | none => .ok none
  | some n => (okOr (tryFrom n) (corrupt "runs" detail)).map some

def RunRecord.intoRun (submissionId : SubmissionId) (r : RunRecord) : Except StoreError Run := do
  let id ← okOr (F.parseUlid r.id) (corrupt "runs" ("bad id " ++ F.debug r.id))
  let attempt ← okOr (tryU32 r.attempt) (corrupt "runs" ("bad attempt " ++ toString r.attempt))
  let exitCode ← tryOpt tryI32 r.exitCode "exit_code out of i32 range"
  let verdict ← parseOptVerdict F "runs" r.verdict
  let bootMs ← tryOpt tryU32 r.bootMs "boot_ms out of range"
  let buildMs ← tryOpt tryU32 r.buildMs "build_ms out of range"
  let runMs ← tryOpt tryU32 r.runMs "run_ms out of range"
  let createdAt ← parseTs F "runs" r.createdAt
  return ⟨⟨id⟩, submissionId, attempt, r.runnerId, r.fixture, exitCode, verdict, r.output, r.logUri, bootMs, buildMs,
    runMs, createdAt⟩

end Decoding

/-! ## Writes -/

section Writes
variable {F : TextForms}

/-- One autocommitted `INSERT`; its reply is computed after the commit. -/
def createUser (id : UserId) (now : Clock F) (user : NewUser) : Tx (Except StoreError User) :=
  .stmt (.insertUser ⟨F.ulid id.ulid, user.handle, user.email, user.passwordHash, user.role.asStr, now.text⟩)
    (fun e => match e with
      | .unique => .conflict "users"
          ("handle " ++ F.debug user.handle ++ " or email " ++ F.debug user.email ++ " already taken")
      | e => .database e)
    fun _ => .ret <| .ok <| (parseTs F "users" now.text).map fun createdAt =>
      ⟨id, user.handle, user.email, user.passwordHash, user.role, createdAt⟩

/-- The upserts of `replaceProblems`, in order. -/
def upsertProblems : List ProblemRow → Tx Unit
  | [] => pure ()
  | problem :: problems => do
    let updatedAt ← Prog.lift (match F.rfc3339 problem.updatedAt with
      | .ok s => .ok s
      | .error e => .error (corrupt "problems" ("unformattable timestamp: " ++ e)))
    fetch (.upsertProblem ⟨problem.id.asStr, problem.commitSha, problem.title, problem.category, problem.difficulty,
      problem.manifest, updatedAt⟩)
    upsertProblems problems

/-- The deletes of `replaceProblems`: every id that is not to be kept. -/
def deleteProblems (keep : List String) : List String → Tx Unit
  | [] => pure ()
  | id :: ids => do
    if id ∉ keep then
      fetch (.deleteProblem id)
    deleteProblems keep ids

def replaceProblems (problems : List ProblemRow) : Tx Unit := do
  upsertProblems (F := F) problems
  let existing ← fetch .selectProblemIds
  deleteProblems (problems.map fun p => p.id.asStr) existing

/-- One autocommitted `INSERT` at `QUEUED`; its reply is computed after the commit. -/
def createSubmission (id : SubmissionId) (now : Clock F) (submission : NewSubmission) :
    Tx (Except StoreError Submission) := do
  fetch (.insertSubmission (F.ulid id.ulid) (F.ulid submission.userId.ulid) submission.problemId.asStr
    submission.language.asStr submission.sourceHash submission.sourceUri now.text)
  return (parseTs F "submissions" now.text).map fun createdAt =>
    ⟨id, submission.userId, submission.problemId, submission.language, submission.sourceHash, submission.sourceUri,
      .queued, none, createdAt, none, none⟩

def setSubmissionStatus (now : Clock F) (id : SubmissionId) (status : SubmissionStatus) : Tx Unit := do
  let idText := F.ulid id.ulid
  let row ← fetch (.selectStatus idText)
  let row ← Prog.lift (okOr row (.notFound "submissions" idText))
  let current ← Prog.lift (okOr (SubmissionStatus.parse row.status)
    (corrupt "submissions" ("bad status " ++ F.debug row.status)))
  if !current.canTransitionTo status then
    Prog.throw (.illegalTransition id current.asStr status.asStr)
  else
    let startedAt := match row.startedAt with
      | some existing => existing
      | none => now.text
    fetch (.updateStatus status.asStr startedAt idText)

/-- Progress bookkeeping: `UPDATE` first, `INSERT` if nothing matched. -/
def bumpProgress (userId problemId : String) (solvedAt : Option String) : Tx Unit := do
  let updated ← fetch (.updateProgress solvedAt userId problemId)
  if updated = 0 then
    fetch (.insertProgress userId problemId solvedAt)

def finishSubmission (now : Clock F) (id : SubmissionId) (verdict : Verdict) : Tx Unit := do
  let idText := F.ulid id.ulid
  let row ← fetch (.selectForFinish idText)
  let row ← Prog.lift (okOr row (.notFound "submissions" idText))
  let current ← Prog.lift (okOr (SubmissionStatus.parse row.status)
    (corrupt "submissions" ("bad status " ++ F.debug row.status)))
  if !current.canTransitionTo .done then
    Prog.throw (.illegalTransition id current.asStr SubmissionStatus.done.asStr)
  else
    fetch (.updateDone verdict.asStr now.text idText)
    let counts := verdict.countsAgainstUser || verdict.isAccepted
    if counts then
      let solvedAt := if verdict.isAccepted then some now.text else none
      bumpProgress row.userId row.problemId solvedAt

/-- One autocommitted `INSERT`; its reply is computed after the commit. -/
def recordRun (id : RunId) (now : Clock F) (run : NewRun) : Tx (Except StoreError Run) :=
  .stmt (.insertRun ⟨F.ulid id.ulid, F.ulid run.submissionId.ulid, run.attempt.toNat, run.runnerId, run.fixture,
      run.exitCode.map Int32.toInt, run.verdict.map Verdict.asStr, run.output, run.logUri,
      run.bootMs.map fun ms => (ms.toNat : Int), run.buildMs.map fun ms => (ms.toNat : Int),
      run.runMs.map fun ms => (ms.toNat : Int), now.text⟩)
    (fun e => match e with
      | .unique => .conflict "runs" ("attempt " ++ toString run.attempt.toNat ++ " for submission " ++
          F.ulid run.submissionId.ulid ++ " already recorded")
      | e => .database e)
    fun _ => .ret <| .ok <| (parseTs F "runs" now.text).map fun createdAt =>
      ⟨id, run.submissionId, run.attempt, run.runnerId, run.fixture, run.exitCode, run.verdict, run.output,
        run.logUri, run.bootMs, run.buildMs, run.runMs, createdAt⟩

end Writes

/-! ## Reads -/

section Reads
variable (F : TextForms)

def user (id : UserId) (db : Db) : Except StoreError User := do
  let row ← okOr (db.users.find? (F.ulid id.ulid)) (.notFound "users" (F.ulid id.ulid))
  let role ← okOr (Role.parse row.role) (corrupt "users" ("bad role " ++ F.debug row.role))
  let createdAt ← parseTs F "users" row.createdAt
  return ⟨id, row.handle, row.email, row.passwordHash, role, createdAt⟩

def userByHandle (handle : String) (db : Db) : Except StoreError User := do
  let row ← okOr (db.users.rows.find? fun r => r.handle = handle) (.notFound "users" handle)
  let id ← okOr (F.parseUlid row.id) (corrupt "users" ("bad id " ++ F.debug row.id))
  let role ← okOr (Role.parse row.role) (corrupt "users" ("bad role " ++ F.debug row.role))
  let createdAt ← parseTs F "users" row.createdAt
  return ⟨⟨id⟩, row.handle, row.email, row.passwordHash, role, createdAt⟩

def problem (id : ProblemId) (db : Db) : Except StoreError ProblemRow := do
  let row ← okOr (db.problems.find? id.asStr) (.notFound "problems" id.asStr)
  row.intoProblemRow F

/-- `ORDER BY id`. -/
def problems (db : Db) : Except StoreError (List ProblemRow) :=
  (db.problems.rows.insertionSort fun a b => a.id ≤ b.id).mapM (ProblemRecord.intoProblemRow F)

def submission (id : SubmissionId) (db : Db) : Except StoreError Submission := do
  let row ← okOr (db.submissions.find? (F.ulid id.ulid)) (.notFound "submissions" (F.ulid id.ulid))
  row.intoSubmission F

/-- `ORDER BY id`. -/
def orderById (rows : List SubmissionRecord) : List SubmissionRecord :=
  rows.insertionSort fun a b => a.id ≤ b.id

/-- `ORDER BY id DESC LIMIT 1`. -/
def lastById (rows : List SubmissionRecord) : Option SubmissionRecord :=
  (rows.insertionSort fun a b => b.id ≤ a.id).head?

def latestVerdictForHash (userId : UserId) (sourceHash : String) (db : Db) : Except StoreError (Option Submission) :=
  match lastById (db.submissions.rows.filter fun r =>
    r.userId = F.ulid userId.ulid ∧ r.sourceHash = sourceHash ∧ r.verdict.isSome) with
  | none => .ok none
  | some row => (row.intoSubmission F).map some

/-- `ORDER BY id DESC LIMIT ?`. -/
def submissionsForUser (userId : UserId) (limit : UInt32) (db : Db) : Except StoreError (List Submission) :=
  (((db.submissions.rows.filter fun r => r.userId = F.ulid userId.ulid).insertionSort fun a b => b.id ≤ a.id).take
    limit.toNat).mapM (SubmissionRecord.intoSubmission F)

def inFlightSubmissions (db : Db) : Except StoreError (List Submission) :=
  (orderById (db.submissions.rows.filter fun r => r.status ≠ "DONE")).mapM (SubmissionRecord.intoSubmission F)

/-- `ORDER BY attempt`. -/
def runsForSubmission (id : SubmissionId) (db : Db) : Except StoreError (List Run) :=
  ((db.runs.rows.filter fun r => r.submissionId = F.ulid id.ulid).insertionSort fun a b => a.attempt ≤ b.attempt).mapM
    (RunRecord.intoRun F id)

def progress (userId : UserId) (problemId : ProblemId) (db : Db) : Except StoreError (Option UserProgress) :=
  match db.userProgress.find? (F.ulid userId.ulid, problemId.asStr) with
  | none => .ok none
  | some row => do
    let solvedAt ← parseOptTs F "user_progress" row.solvedAt
    let attempts ← okOr (tryU32 row.attempts) (corrupt "user_progress" ("bad attempts " ++ toString row.attempts))
    return some ⟨userId, problemId, solvedAt, attempts⟩

end Reads

/-! ## One call -/

/-- What a write returns. -/
inductive Reply
  | user (user : User)
  | submission (submission : Submission)
  | run (run : Run)
  | unit
  deriving DecidableEq

/-- A write with its arguments. -/
inductive Call (F : TextForms)
  | createUser (id : UserId) (now : Clock F) (user : NewUser)
  | replaceProblems (problems : List ProblemRow)
  | createSubmission (id : SubmissionId) (now : Clock F) (submission : NewSubmission)
  | setSubmissionStatus (now : Clock F) (id : SubmissionId) (status : SubmissionStatus)
  | finishSubmission (now : Clock F) (id : SubmissionId) (verdict : Verdict)
  | recordRun (id : RunId) (now : Clock F) (run : NewRun)

section Calls
variable {F : TextForms}

/-- The transaction of a call, and the reply it computes once that has committed. -/
def Call.prog : Call F → Tx (Except StoreError Reply)
  | .createUser id now user => do return (← Store.createUser id now user).map .user
  | .replaceProblems problems => do Store.replaceProblems (F := F) problems; return .ok .unit
  | .createSubmission id now submission => do return (← Store.createSubmission id now submission).map .submission
  | .setSubmissionStatus now id status => do Store.setSubmissionStatus now id status; return .ok .unit
  | .finishSubmission now id verdict => do Store.finishSubmission now id verdict; return .ok .unit
  | .recordRun id now run => do return (← Store.recordRun id now run).map .run

/-- A call, and the statement at which the engine fails it, if any. A process that dies inside a call leaves the
tables as such a failure does. -/
structure Step (F : TextForms) where
  call : Call F
  fault : Option Nat

def Step.prog (st : Step F) : Tx (Except StoreError Reply) :=
  match st.fault with
  | none => st.call.prog
  | some n => st.call.prog.faultAt .io .database n

/-- What the caller sees of a transaction's result. -/
def reply (r : Except StoreError (Except StoreError Reply)) : Except StoreError Reply := r >>= id

/-- The call as one transaction on the tables. -/
def Step.run (st : Step F) (db : Db) : Except StoreError Reply × Db :=
  (reply (atomically exec st.prog db).1, (atomically exec st.prog db).2)

end Calls

end Satunera.Store
