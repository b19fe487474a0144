import Satunera.Contracts.Id

/-!
# The rows, as Rust sees them

* `TextForms` : the text forms the store takes from its libraries (ULIDs, RFC 3339 timestamps, the debug form of a
  string), with what it relies on;
* `Clock` : a reading of the system clock, whose text form exists;
* `SubmissionStatus.canTransitionTo` : the lifecycle of a submission;
* `User`, `Submission`, `Run`, ... : the typed rows;
* `SqlError`, `StoreError` : what can go wrong.
-/

namespace Satunera.Store

open Satunera.Base Satunera.Contracts

/-! ## Identifiers and timestamps -/

/-- A ULID: 48 bits of milliseconds above 80 random bits. -/
abbrev Ulid := BitVec 128

/-- One row in `users`. -/
structure UserId where
  ulid : Ulid
  deriving DecidableEq

/-- One submitted source. -/
structure SubmissionId where
  ulid : Ulid
  deriving DecidableEq

/-- One attempt at judging a submission. -/
structure RunId where
  ulid : Ulid
  deriving DecidableEq

/-- An instant, in nanoseconds since the epoch, and the offset it is written with. -/
structure OffsetDateTime where
  unixNanos : Int
  offsetSeconds : Int
  deriving DecidableEq

/-- The text forms of the libraries the store is built on. Formatting a timestamp may fail (a year past 9999), with
the library's message; so may parsing one. -/
structure TextForms where
  ulid : Ulid → String
  parseUlid : String → Option Ulid
  rfc3339 : OffsetDateTime → Except String String
  parseRfc3339 : String → Except String OffsetDateTime
  /-- `{:?}` of a string. -/
  debug : String → String
  parse_ulid : ∀ u, parseUlid (ulid u) = some u
  parse_rfc3339 : ∀ t s, rfc3339 t = .ok s → parseRfc3339 s = .ok t
  /-- Text order is numeric order. -/
  ulid_lt_iff : ∀ u v, ulid u < ulid v ↔ u < v
  ulid_alphanumeric : ∀ u, ∀ c ∈ (ulid u).toList, c.isAlphanum = true

namespace TextForms

theorem ulid_injective (F : TextForms) : Function.Injective F.ulid := by
  intro u v h
  have hu := F.parse_ulid u
  rw [h, F.parse_ulid v] at hu
  exact (Option.some.inj hu).symm

end TextForms

theorem UserId.eq_of_ulid {F : TextForms} {id id' : UserId} (h : F.ulid id.ulid = F.ulid id'.ulid) : id = id' := by
  cases id
  cases id'
  exact congrArg _ (F.ulid_injective h)

theorem SubmissionId.eq_of_ulid {F : TextForms} {id id' : SubmissionId} (h : F.ulid id.ulid = F.ulid id'.ulid) :
    id = id' := by
  cases id
  cases id'
  exact congrArg _ (F.ulid_injective h)

theorem RunId.eq_of_ulid {F : TextForms} {id id' : RunId} (h : F.ulid id.ulid = F.ulid id'.ulid) : id = id' := by
  cases id
  cases id'
  exact congrArg _ (F.ulid_injective h)

/-- What `now()` reads: the time and its text. UTC now always formats. -/
structure Clock (F : TextForms) where
  time : OffsetDateTime
  text : String
  formats : F.rfc3339 time = .ok text

theorem Clock.parse {F : TextForms} (now : Clock F) : F.parseRfc3339 now.text = .ok now.time :=
  F.parse_rfc3339 _ _ now.formats

/-! ## Enumerations -/

/-- What a user is allowed to do. -/
inductive Role
  | learner
  | author
  | admin
  deriving DecidableEq

namespace Role

def all : List Role := [.learner, .author, .admin]

def asStr : Role → String
  | .learner => "learner"
  | .author => "author"
  | .admin => "admin"

def parse (value : String) : Option Role := parseLabel all asStr value

end Role

/-- Where a submission is in its lifecycle. -/
inductive SubmissionStatus
  | queued
  | preparing
  | building
  | booting
  | running
  | done
  deriving DecidableEq

namespace SubmissionStatus

def all : List SubmissionStatus := [.queued, .preparing, .building, .booting, .running, .done]

def asStr : SubmissionStatus → String
  | .queued => "QUEUED"
  | .preparing => "PREPARING"
  | .building => "BUILDING"
  | .booting => "BOOTING"
  | .running => "RUNNING"
  | .done => "DONE"

def parse (value : String) : Option SubmissionStatus := parseLabel all asStr value

theorem asStr_injective : Function.Injective asStr := by
  intro a b h
  cases a <;> cases b <;> first | rfl | exact absurd h (by decide)

theorem parse_eq_some_iff {value : String} {s : SubmissionStatus} : parse value = some s ↔ s.asStr = value :=
  parseLabel_eq_some_iff (by intro a; cases a <;> decide) asStr_injective

@[simp] theorem parse_asStr (s : SubmissionStatus) : parse s.asStr = some s := parse_eq_some_iff.mpr rfl

/-- The lifecycle only moves forward, except that a retry re-enters at `preparing`. -/
def canTransitionTo (current next : SubmissionStatus) : Bool :=
  match current, next with
  | .done, _ => false
  | _, .queued => false
  -- Retry path: a failed attempt starts over.
  | .preparing, .preparing | .building, .preparing | .booting, .preparing | .running, .preparing => true
  | .queued, .preparing => true
  | .preparing, .building | .preparing, .booting | .preparing, .running | .preparing, .done => true
  | .building, .booting | .building, .running | .building, .done => true
  | .booting, .running | .booting, .done => true
  | .running, .done => true
  | _, _ => false

@[simp] theorem canTransitionTo_of_done (next : SubmissionStatus) : done.canTransitionTo next = false := rfl

theorem ne_done_of_canTransitionTo {current next : SubmissionStatus} (h : current.canTransitionTo next = true) :
    current ≠ .done := by
  rintro rfl
  simp at h

def isTerminal (s : SubmissionStatus) : Bool := s = .done

/-- From a terminal state no step leads anywhere, from any other one does. -/
theorem isTerminal_iff {s : SubmissionStatus} : s.isTerminal = true ↔ ∀ next, s.canTransitionTo next = false := by
  constructor
  · intro h next
    obtain rfl : s = .done := by simpa [isTerminal] using h
    rfl
  · intro h
    have hpreparing := h .preparing
    cases s <;> first | rfl | cases hpreparing

end SubmissionStatus

/-! ## Typed rows -/

structure User where
  id : UserId
  handle : String
  email : String
  passwordHash : String
  role : Role
  createdAt : OffsetDateTime
  deriving DecidableEq

/-- Insert form of `User`. -/
structure NewUser where
  handle : String
  email : String
  passwordHash : String
  role : Role

/-- One problem of the catalog. -/
structure ProblemRow where
  id : ProblemId
  commitSha : String
  title : String
  category : String
  difficulty : String
  manifest : String
  updatedAt : OffsetDateTime

structure Submission where
  id : SubmissionId
  userId : UserId
  problemId : ProblemId
  language : Language
  sourceHash : String
  sourceUri : String
  status : SubmissionStatus
  verdict : Option Verdict
  createdAt : OffsetDateTime
  startedAt : Option OffsetDateTime
  finishedAt : Option OffsetDateTime
  deriving DecidableEq

/-- Insert form of `Submission`. -/
structure NewSubmission where
  userId : UserId
  problemId : ProblemId
  language : Language
  sourceHash : String
  sourceUri : String

/-- One judging attempt. -/
structure Run where
  id : RunId
  submissionId : SubmissionId
  attempt : UInt32
  runnerId : String
  fixture : String
  exitCode : Option Int32
  verdict : Option Verdict
  output : Option String
  logUri : Option String
  bootMs : Option UInt32
  buildMs : Option UInt32
  runMs : Option UInt32
  createdAt : OffsetDateTime
  deriving DecidableEq

/-- Insert form of `Run`. -/
structure NewRun where
  submissionId : SubmissionId
  attempt : UInt32
  runnerId : String
  fixture : String
  exitCode : Option Int32
  verdict : Option Verdict
  output : Option String
  logUri : Option String
  bootMs : Option UInt32
  buildMs : Option UInt32
  runMs : Option UInt32

structure UserProgress where
  userId : UserId
  problemId : ProblemId
  solvedAt : Option OffsetDateTime
  attempts : UInt32
  deriving DecidableEq

/-! ## Errors -/

/-- What the database engine reports: a violated constraint, or a failure of its own (I/O, a busy lock). -/
inductive SqlError
  | unique
  | check
  | foreignKey
  | io
  deriving DecidableEq

inductive StoreError
  /-- The row does not exist. -/
  | notFound (entity id : String)
  /-- A uniqueness rule was violated. -/
  | conflict (entity detail : String)
  /-- A status transition the lifecycle does not allow. -/
  | illegalTransition (id : SubmissionId) (current next : String)
  /-- A row read back from the database failed to decode. -/
  | corruptRow (entity detail : String)
  | database (error : SqlError)
  deriving DecidableEq

end Satunera.Store
