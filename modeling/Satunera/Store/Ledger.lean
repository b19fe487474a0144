import Satunera.Base.Indexed
import Satunera.Base.Simulation
import Satunera.Store.Uniqueness

/-!
# The ledger: what the store is for

The abstract store: typed values under typed keys, with no rows, no text and no statements. Each operation is refused
with an error or returns a value and the next ledger.

* `Ledger`, `Tally` : the state;
* `Ledger.createUser`, `Ledger.replaceProblems`, ... : the operations, `Call.apply` : all of them;
* `Ledger.Moves` : what an operation that is not refused found and did (`Ledger.moves_of_apply`);
* `Query`, `Ledger.Answers` : the reads, and what answers each of them (`Ledger.Answers.unique`);
* `Exchange`, `LedgerStep` : the ledger as a machine whose labels are calls with their replies and reads with their
  answers.
-/

namespace Satunera.Store

open Satunera.Base Satunera.Contracts

/-! ## The state -/

/-- How often a user has tried a problem, and when it was first solved. -/
structure Tally where
  userId : UserId
  problemId : ProblemId
  attempts : Nat
  solvedAt : Option OffsetDateTime

/-- The user and the problem of a tally. -/
def Tally.pair (t : Tally) : UserId × ProblemId := (t.userId, t.problemId)

/-- The attempt a run claims. -/
def Run.claim (run : Run) : SubmissionId × UInt32 := (run.submissionId, run.attempt)

/-- What the judge knows. -/
@[ext] structure Ledger where
  users : Indexed User User.id
  problems : Indexed ProblemRow ProblemRow.id
  submissions : Indexed Submission Submission.id
  runs : Indexed Run Run.claim
  progress : Indexed Tally Tally.pair

namespace Ledger

def empty : Ledger := ⟨.empty, .empty, .empty, .empty, .empty⟩

/-- The handle or the email is taken. -/
def HasUser (a : Ledger) (user : NewUser) : Prop :=
  ∃ u, a.users.Mem u ∧ (u.handle = user.handle ∨ u.email = user.email)

/-- A submission or a tally is about the problem. -/
def References (a : Ledger) (id : ProblemId) : Prop :=
  (∃ s, a.submissions.Mem s ∧ s.problemId = id) ∨ ∃ t, a.progress.Mem t ∧ t.problemId = id

end Ledger

/-- Why a problem cannot be stored, if it cannot. -/
def ProblemRow.refusal (F : TextForms) (problem : ProblemRow) : Option StoreError :=
  match F.rfc3339 problem.updatedAt with
  | .error e => some (corrupt "problems" ("unformattable timestamp: " ++ e))
  | .ok _ => if problem.difficulty ∈ difficultyLabels then none else some (.database .check)

/-- The catalog of a list: the last occurrence of each id. -/
def catalogOf (listed : List ProblemRow) : Indexed ProblemRow ProblemRow.id :=
  ⟨lastWithId listed, fun h => (lastWithId_eq_some h).2⟩

/-- A submission that a status update moves. -/
def Submission.moved (s : Submission) (status : SubmissionStatus) (now : OffsetDateTime) : Submission :=
  { s with status, startedAt := some (s.startedAt.getD now) }

/-- A submission that is finished. -/
def Submission.finished (s : Submission) (verdict : Verdict) (now : OffsetDateTime) : Submission :=
  { s with status := .done, verdict := some verdict, finishedAt := some now }

/-- The time a verdict solves a problem, if it does. -/
def solveTime (verdict : Verdict) (now : OffsetDateTime) : Option OffsetDateTime :=
  if verdict.isAccepted then some now else none

/-- One more attempt. -/
def Tally.attempt (t : Tally) (solvedAt : Option OffsetDateTime) : Tally :=
  { t with attempts := t.attempts + 1, solvedAt := t.solvedAt.or solvedAt }

/-- The tally of a pair after one more attempt. -/
def Ledger.tally (a : Ledger) (pair : UserId × ProblemId) (solvedAt : Option OffsetDateTime) : Tally :=
  ((a.progress.find pair).map fun t => t.attempt solvedAt).getD ⟨pair.1, pair.2, 1, solvedAt⟩

@[simp] theorem Ledger.tally_pair (a : Ledger) (pair : UserId × ProblemId) (solvedAt : Option OffsetDateTime) :
    (a.tally pair solvedAt).pair = pair := by
  unfold Ledger.tally
  cases h : a.progress.find pair with
  | none => rfl
  | some t =>
    have hpair : t.pair = pair := a.progress.key_of_find h
    exact hpair

/-! ## The operations -/

section Operations
variable {F : TextForms} (a : Ledger)

open Classical in
noncomputable def Ledger.createUser (id : UserId) (now : Clock F) (user : NewUser) :
    Except StoreError (User × Ledger) :=
  if a.HasUser user ∨ (a.users.find id).isSome then .error (userConflict F user)
  else .ok (createdUser id now user, { a with users := a.users.put (createdUser id now user) })

open Classical in
/-- The first problem that cannot be stored decides the error; then a problem that is left out but referred to. -/
noncomputable def Ledger.replaceProblems (F : TextForms) (listed : List ProblemRow) : Except StoreError Ledger :=
  match listed.findSome? (ProblemRow.refusal F) with
  | some e => .error e
  | none =>
    if ∃ p, a.problems.Mem p ∧ lastWithId listed p.id = none ∧ a.References p.id then .error (.database .foreignKey)
    else .ok { a with problems := catalogOf listed }

def Ledger.createSubmission (id : SubmissionId) (now : Clock F) (submission : NewSubmission) :
    Except StoreError (Submission × Ledger) :=
  if (a.submissions.find id).isSome then .error (.database .unique)
  else if (a.users.find submission.userId).isNone ∨ (a.problems.find submission.problemId).isNone then
    .error (.database .foreignKey)
  else .ok (queuedSubmission id now submission,
    { a with submissions := a.submissions.put (queuedSubmission id now submission) })

def Ledger.setSubmissionStatus (now : Clock F) (id : SubmissionId) (status : SubmissionStatus) :
    Except StoreError Ledger :=
  match a.submissions.find id with
  | none => .error (.notFound "submissions" (F.ulid id.ulid))
  | some s =>
    if s.status.canTransitionTo status then .ok { a with submissions := a.submissions.put (s.moved status now.time) }
    else .error (.illegalTransition id s.status.asStr status.asStr)

def Ledger.finishSubmission (now : Clock F) (id : SubmissionId) (verdict : Verdict) : Except StoreError Ledger :=
  match a.submissions.find id with
  | none => .error (.notFound "submissions" (F.ulid id.ulid))
  | some s =>
    if s.status.canTransitionTo .done then
      .ok { a with
        submissions := a.submissions.put (s.finished verdict now.time)
        progress := if verdict.countsAgainstUser then
          a.progress.put (a.tally (s.userId, s.problemId) (solveTime verdict now.time)) else a.progress }
    else .error (.illegalTransition id s.status.asStr SubmissionStatus.done.asStr)

open Classical in
noncomputable def Ledger.recordRun (id : RunId) (now : Clock F) (run : NewRun) : Except StoreError (Run × Ledger) :=
  if (a.runs.find (run.submissionId, run.attempt)).isSome ∨ ∃ r, a.runs.Mem r ∧ r.id = id then
    .error (runConflict F run)
  else if (a.submissions.find run.submissionId).isNone then .error (.database .foreignKey)
  else .ok (recordedRun id now run, { a with runs := a.runs.put (recordedRun id now run) })

/-- What a call does to the ledger. -/
noncomputable def Call.apply : Call F → Ledger → Except StoreError (Reply × Ledger)
  | .createUser id now user, a => (a.createUser id now user).map fun (u, a') => (.user u, a')
  | .replaceProblems listed, a => (a.replaceProblems F listed).map fun a' => (.unit, a')
  | .createSubmission id now submission, a => (a.createSubmission id now submission).map fun (s, a') =>
      (.submission s, a')
  | .setSubmissionStatus now id status, a => (a.setSubmissionStatus now id status).map fun a' => (.unit, a')
  | .finishSubmission now id verdict, a => (a.finishSubmission now id verdict).map fun a' => (.unit, a')
  | .recordRun id now run, a => (a.recordRun id now run).map fun (r, a') => (.run r, a')

/-- What a call that is not refused does to the ledger, and what it found there. -/
inductive Ledger.Moves (a : Ledger) : Call F → Reply → Ledger → Prop
  | createUser {id now user} : ¬a.HasUser user → a.users.find id = none →
      Moves a (.createUser id now user) (.user (createdUser id now user))
        { a with users := a.users.put (createdUser id now user) }
  | replaceProblems {listed} : (∀ p ∈ listed, ProblemRow.refusal F p = none) →
      (∀ p, a.problems.Mem p → a.References p.id → ∃ p', lastWithId listed p.id = some p') →
      Moves a (.replaceProblems listed) .unit { a with problems := catalogOf listed }
  | createSubmission {id now submission} : a.submissions.find id = none →
      (a.users.find submission.userId).isSome → (a.problems.find submission.problemId).isSome →
      Moves a (.createSubmission id now submission) (.submission (queuedSubmission id now submission))
        { a with submissions := a.submissions.put (queuedSubmission id now submission) }
  | setSubmissionStatus {now id status s} : a.submissions.find id = some s → s.status.canTransitionTo status = true →
      Moves a (.setSubmissionStatus now id status) .unit
        { a with submissions := a.submissions.put (s.moved status now.time) }
  | finishSubmission {now id verdict s} : a.submissions.find id = some s → s.status.canTransitionTo .done = true →
      Moves a (.finishSubmission now id verdict) .unit
        { a with
          submissions := a.submissions.put (s.finished verdict now.time)
          progress := if verdict.countsAgainstUser then
            a.progress.put (a.tally (s.userId, s.problemId) (solveTime verdict now.time)) else a.progress }
  | recordRun {id now run} : a.runs.find (run.submissionId, run.attempt) = none → (∀ r, a.runs.Mem r → r.id ≠ id) →
      (a.submissions.find run.submissionId).isSome →
      Moves a (.recordRun id now run) (.run (recordedRun id now run))
        { a with runs := a.runs.put (recordedRun id now run) }

/-- A call that is not refused is one of these. -/
theorem Ledger.moves_of_apply {a a' : Ledger} {c : Call F} {r : Reply} (h : c.apply a = .ok (r, a')) :
    a.Moves c r a' := by
  cases c with
  | createUser id now user =>
    simp only [Call.apply, Ledger.createUser] at h
    split at h
    · cases h
    · rename_i hfree
      obtain ⟨hno, hid⟩ := not_or.mp hfree
      cases h
      exact .createUser hno (by simpa using hid)
  | replaceProblems listed =>
    simp only [Call.apply, Ledger.replaceProblems] at h
    split at h
    · cases h
    · rename_i hnone
      split at h
      · cases h
      · rename_i hkept
        cases h
        refine .replaceProblems (List.findSome?_eq_none_iff.mp hnone) fun p hp href => ?_
        by_contra hno
        exact hkept ⟨p, hp, Option.eq_none_iff_forall_ne_some.mpr fun p' h => hno ⟨p', h⟩, href⟩
  | createSubmission id now submission =>
    simp only [Call.apply, Ledger.createSubmission] at h
    split at h
    · cases h
    · rename_i hid
      split at h
      · cases h
      · rename_i hrefs
        obtain ⟨huser, hproblem⟩ := not_or.mp hrefs
        cases h
        exact .createSubmission (by simpa using hid) (by simpa [Option.isSome_iff_ne_none] using huser)
          (by simpa [Option.isSome_iff_ne_none] using hproblem)
  | setSubmissionStatus now id status =>
    simp only [Call.apply, Ledger.setSubmissionStatus] at h
    split at h
    · cases h
    · split at h
      · cases h
        exact .setSubmissionStatus ‹_› ‹_›
      · cases h
  | finishSubmission now id verdict =>
    simp only [Call.apply, Ledger.finishSubmission] at h
    split at h
    · cases h
    · split at h
      · cases h
        exact .finishSubmission ‹_› ‹_›
      · cases h
  | recordRun id now run =>
    simp only [Call.apply, Ledger.recordRun] at h
    split at h
    · cases h
    · rename_i hfree
      split at h
      · cases h
      · rename_i hsub
        obtain ⟨hclaim, hid⟩ := not_or.mp hfree
        cases h
        exact .recordRun (by simpa using hclaim) (fun r hr he => hid ⟨r, hr, he⟩)
          (by simpa [Option.isSome_iff_ne_none] using hsub)

end Operations

/-! ## The reads -/

/-- A read with its arguments. -/
inductive Query
  | user (id : UserId)
  | userByHandle (handle : String)
  | problem (id : ProblemId)
  | problems
  | submission (id : SubmissionId)
  | latestVerdictForHash (userId : UserId) (sourceHash : String)
  | submissionsForUser (userId : UserId) (limit : UInt32)
  | inFlightSubmissions
  | runsForSubmission (id : SubmissionId)
  | progress (userId : UserId) (problemId : ProblemId)

/-- What a read returns. -/
@[reducible] def Query.Answer : Query → Type
  | .user _ => User
  | .userByHandle _ => User
  | .problem _ => ProblemRow
  | .problems => List ProblemRow
  | .submission _ => Submission
  | .latestVerdictForHash .. => Option Submission
  | .submissionsForUser .. => List Submission
  | .inFlightSubmissions => List Submission
  | .runsForSubmission _ => List Run
  | .progress .. => Option UserProgress

/-- The read on the tables. -/
def Query.run (F : TextForms) : (q : Query) → Db → Except StoreError q.Answer
  | .user id, db => Store.user F id db
  | .userByHandle handle, db => Store.userByHandle F handle db
  | .problem id, db => Store.problem F id db
  | .problems, db => Store.problems F db
  | .submission id, db => Store.submission F id db
  | .latestVerdictForHash userId sourceHash, db => Store.latestVerdictForHash F userId sourceHash db
  | .submissionsForUser userId limit, db => Store.submissionsForUser F userId limit db
  | .inFlightSubmissions, db => Store.inFlightSubmissions F db
  | .runsForSubmission id, db => Store.runsForSubmission F id db
  | .progress userId problemId, db => Store.progress F userId problemId db

/-- A tally as a read returns it. -/
def Tally.answer (t : Tally) : Except StoreError (Option UserProgress) :=
  if t.attempts < 4294967296 then .ok (some ⟨t.userId, t.problemId, t.solvedAt, UInt32.ofNat t.attempts⟩)
  else .error (corrupt "user_progress" ("bad attempts " ++ toString (t.attempts : Int)))

/-- The order of the submissions read oldest first. -/
def Submission.Before (s s' : Submission) : Prop := s.id.ulid < s'.id.ulid

/-- `x` is the answer of the ledger to a read. -/
def Ledger.Answers (F : TextForms) (a : Ledger) : (q : Query) → Except StoreError q.Answer → Prop
  | .user id, x => x = okOr (a.users.find id) (.notFound "users" (F.ulid id.ulid))
  | .userByHandle handle, x =>
    (∃ u, (∀ v, v = u ↔ a.users.Mem v ∧ v.handle = handle) ∧ x = .ok u) ∨
      (∀ v, a.users.Mem v → v.handle ≠ handle) ∧ x = .error (.notFound "users" handle)
  | .problem id, x => x = okOr (a.problems.find id) (.notFound "problems" id.asStr)
  | .problems, x => ∃ ps, Listing a.problems.Mem (fun p q => p.id.asStr < q.id.asStr) ps ∧ x = .ok ps
  | .submission id, x => x = okOr (a.submissions.find id) (.notFound "submissions" (F.ulid id.ulid))
  | .latestVerdictForHash userId sourceHash, x =>
    ∃ ss, Listing (fun s => a.submissions.Mem s ∧ s.userId = userId ∧ s.sourceHash = sourceHash ∧ s.verdict.isSome)
      (fun s s' => s'.Before s) ss ∧ x = .ok ss.head?
  | .submissionsForUser userId limit, x =>
    ∃ ss, Listing (fun s => a.submissions.Mem s ∧ s.userId = userId) (fun s s' => s'.Before s) ss ∧
      x = .ok (ss.take limit.toNat)
  | .inFlightSubmissions, x =>
    ∃ ss, Listing (fun s => a.submissions.Mem s ∧ s.status ≠ .done) Submission.Before ss ∧ x = .ok ss
  | .runsForSubmission id, x =>
    ∃ rs, Listing (fun r => a.runs.Mem r ∧ r.submissionId = id) (fun r r' => r.attempt < r'.attempt) rs ∧ x = .ok rs
  | .progress userId problemId, x =>
    x = match a.progress.find (userId, problemId) with
      | none => .ok none
      | some t => t.answer

theorem Submission.Before.asymm {s s' : Submission} (h : s.Before s') : ¬s'.Before s := BitVec.lt_asymm h

/-- A read has at most one answer. -/
theorem Ledger.Answers.unique {F : TextForms} {a : Ledger} {q : Query} {x y : Except StoreError q.Answer}
    (hx : a.Answers F q x) (hy : a.Answers F q y) : x = y := by
  cases q with
  | user | problem | submission | progress => exact hx.trans hy.symm
  | userByHandle handle =>
    rcases hx with ⟨u, hu, rfl⟩ | ⟨hnone, rfl⟩ <;> rcases hy with ⟨v, hv, rfl⟩ | ⟨hnone', rfl⟩
    · rw [(hv u).mpr ((hu u).mp rfl)]
    · exact absurd ((hu u).mp rfl).2 (hnone' u ((hu u).mp rfl).1)
    · exact absurd ((hv v).mp rfl).2 (hnone v ((hv v).mp rfl).1)
    · rfl
  | problems =>
    obtain ⟨ps, hps, rfl⟩ := hx
    obtain ⟨qs, hqs, rfl⟩ := hy
    obtain rfl := hps.unique (fun _ _ h h' => lt_asymm h h') hqs
    rfl
  | latestVerdictForHash | submissionsForUser =>
    obtain ⟨ss, hss, rfl⟩ := hx
    obtain ⟨ss', hss', rfl⟩ := hy
    obtain rfl := hss.unique (fun _ _ h => h.asymm) hss'
    rfl
  | inFlightSubmissions =>
    obtain ⟨ss, hss, rfl⟩ := hx
    obtain ⟨ss', hss', rfl⟩ := hy
    obtain rfl := hss.unique (fun _ _ h => h.asymm) hss'
    rfl
  | runsForSubmission =>
    obtain ⟨rs, hrs, rfl⟩ := hx
    obtain ⟨rs', hrs', rfl⟩ := hy
    obtain rfl := hrs.unique (fun _ _ h => UInt32.lt_asymm h) hrs'
    rfl

/-! ## The ledger as a machine -/

/-- What is seen of the store: a call with its reply, or a read with its answer. -/
inductive Exchange (F : TextForms)
  | call (c : Call F) (reply : Except StoreError Reply)
  | read (q : Query) (answer : Except StoreError q.Answer)

/-- One exchange on the ledger. A call may always fail with an error of the database, and then changes nothing. -/
inductive LedgerStep {F : TextForms} (a : Ledger) : Exchange F → Ledger → Prop
  | performs {c r a'} : c.apply a = .ok (r, a') → LedgerStep a (.call c (.ok r)) a'
  | refuses {c e} : c.apply a = .error e → LedgerStep a (.call c (.error e)) a
  | fails {c} : LedgerStep a (.call c (.error busy)) a
  | reads {q x} : a.Answers F q x → LedgerStep a (.read q x) a

end Satunera.Store
