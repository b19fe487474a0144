import Satunera.Store.Reads

/-!
# Typed values and their rows

Each table has its own encoder in the SQL bindings and its own decoder in the reads. The two are inverse.

* `UserRecord.Encodes`, `ProblemRecord.Encodes`, ... : the row holds the text forms of the typed value;
* `UserRecord.Encodes.user_eq`, `SubmissionRecord.Encodes.intoSubmission_eq`, ... : such a row is read back as the
  value;
* `SubmissionRecord.Written.encodes` : every submission row of the store is one.
-/

namespace Satunera.Store

open Satunera.Base Satunera.Contracts

/-! ## Columns -/

theorem Role.asStr_injective : Function.Injective Role.asStr := by
  intro a b h
  cases a <;> cases b <;> first | rfl | exact absurd h (by decide)

@[simp] theorem Role.parse_asStr (r : Role) : Role.parse r.asStr = some r :=
  (parseLabel_eq_some_iff (by intro a; cases a <;> decide) Role.asStr_injective).mpr rfl

@[simp] theorem parse_language (l : Language) : Language.parse l.asStr = some l := Language.parse_eq_some_iff.mpr rfl

@[simp] theorem parse_verdict (v : Verdict) : Verdict.parse v.asStr = some v := Verdict.parse_eq_some_iff.mpr rfl

@[simp] theorem tryU32_toNat (n : UInt32) : tryU32 n.toNat = some n := by
  have hlt : n.toNat < 4294967296 := n.toNat_lt
  rw [tryU32, if_pos ⟨by omega, by omega⟩, Int.toNat_natCast, UInt32.ofNat_toNat]

@[simp] theorem tryI32_toInt (n : Int32) : tryI32 n.toInt = some n := by
  have hle : -2147483648 ≤ n.toInt := n.le_toInt
  have hlt : n.toInt < 2147483648 := n.toInt_lt
  rw [tryI32, if_pos ⟨hle, hlt⟩, Int32.ofInt_toInt]

theorem tryOpt_map {α : Type} {tryFrom : Int → Option α} {toInt : α → Int} (h : ∀ a, tryFrom (toInt a) = some a)
    (value : Option α) (detail : String) : tryOpt tryFrom (value.map toInt) detail = .ok value := by
  cases value with
  | none => rfl
  | some a =>
    rw [Option.map_some, tryOpt, h]
    rfl

variable {F : TextForms}

theorem parseOptVerdict_map (entity : String) (verdict : Option Verdict) :
    parseOptVerdict F entity (verdict.map Verdict.asStr) = .ok verdict := by
  cases verdict with
  | none => rfl
  | some v =>
    rw [Option.map_some, parseOptVerdict, parse_verdict]
    rfl

/-- `text` is how a timestamp is stored. -/
def Stamps (F : TextForms) (t : OffsetDateTime) (text : String) : Prop := F.rfc3339 t = .ok text

/-- The same for a column that may be NULL. -/
inductive OptStamps (F : TextForms) : Option OffsetDateTime → Option String → Prop
  | null : OptStamps F none none
  | some {t text} (h : Stamps F t text) : OptStamps F (some t) (some text)

theorem Stamps.parseTs_eq {t : OffsetDateTime} {text : String} (h : Stamps F t text) (entity : String) :
    parseTs F entity text = .ok t := by
  rw [parseTs, F.parse_rfc3339 t text h]

theorem OptStamps.parseOptTs_eq {t : Option OffsetDateTime} {text : Option String} (h : OptStamps F t text)
    (entity : String) : parseOptTs F entity text = .ok t := by
  cases h with
  | null => rfl
  | some h =>
    rw [parseOptTs, h.parseTs_eq]
    rfl

theorem exists_optStamps {text : Option String} (h : ∀ s, text = some s → ∃ now : Clock F, s = now.text) :
    ∃ t, OptStamps F t text := by
  cases text with
  | none => exact ⟨none, .null⟩
  | some s =>
    obtain ⟨now, rfl⟩ := h s rfl
    exact ⟨some now.time, .some now.formats⟩

/-! ## Rows -/

structure UserRecord.Encodes (F : TextForms) (r : UserRecord) (u : User) : Prop where
  id : r.id = F.ulid u.id.ulid
  handle : r.handle = u.handle
  email : r.email = u.email
  passwordHash : r.passwordHash = u.passwordHash
  role : r.role = u.role.asStr
  createdAt : Stamps F u.createdAt r.createdAt

structure ProblemRecord.Encodes (F : TextForms) (r : ProblemRecord) (p : ProblemRow) : Prop where
  id : r.id = p.id.asStr
  commitSha : r.commitSha = p.commitSha
  title : r.title = p.title
  category : r.category = p.category
  difficulty : r.difficulty = p.difficulty
  manifest : r.manifest = p.manifest
  updatedAt : Stamps F p.updatedAt r.updatedAt

structure SubmissionRecord.Encodes (F : TextForms) (r : SubmissionRecord) (s : Submission) : Prop where
  id : r.id = F.ulid s.id.ulid
  userId : r.userId = F.ulid s.userId.ulid
  problemId : r.problemId = s.problemId.asStr
  language : r.language = s.language.asStr
  sourceHash : r.sourceHash = s.sourceHash
  sourceUri : r.sourceUri = s.sourceUri
  status : r.status = s.status.asStr
  verdict : r.verdict = s.verdict.map Verdict.asStr
  createdAt : Stamps F s.createdAt r.createdAt
  startedAt : OptStamps F s.startedAt r.startedAt
  finishedAt : OptStamps F s.finishedAt r.finishedAt

structure RunRecord.Encodes (F : TextForms) (r : RunRecord) (run : Run) : Prop where
  id : r.id = F.ulid run.id.ulid
  submissionId : r.submissionId = F.ulid run.submissionId.ulid
  attempt : r.attempt = run.attempt.toNat
  runnerId : r.runnerId = run.runnerId
  fixture : r.fixture = run.fixture
  exitCode : r.exitCode = run.exitCode.map Int32.toInt
  verdict : r.verdict = run.verdict.map Verdict.asStr
  output : r.output = run.output
  logUri : r.logUri = run.logUri
  bootMs : r.bootMs = run.bootMs.map fun ms => (ms.toNat : Int)
  buildMs : r.buildMs = run.buildMs.map fun ms => (ms.toNat : Int)
  runMs : r.runMs = run.runMs.map fun ms => (ms.toNat : Int)
  createdAt : Stamps F run.createdAt r.createdAt

/-! ## Reading a row back -/

theorem ProblemRecord.Encodes.intoProblemRow_eq {r : ProblemRecord} {p : ProblemRow} (h : r.Encodes F p) :
    r.intoProblemRow F = .ok p := by
  obtain ⟨id, commitSha, title, category, difficulty, manifest, updatedAt⟩ := p
  obtain ⟨hid, hsha, htitle, hcategory, hdifficulty, hmanifest, hupdated⟩ := h
  rw [intoProblemRow, hupdated.parseTs_eq, hid, hsha, htitle, hcategory, hdifficulty, hmanifest]
  rfl

theorem SubmissionRecord.Encodes.intoSubmission_eq {r : SubmissionRecord} {s : Submission} (h : r.Encodes F s) :
    r.intoSubmission F = .ok s := by
  obtain ⟨hid, huser, hproblem, hlanguage, hhash, huri, hstatus, hverdict, hcreated, hstarted, hfinished⟩ := h
  rw [intoSubmission, hcreated.parseTs_eq, hstarted.parseOptTs_eq, hfinished.parseOptTs_eq, hid, huser, hlanguage,
    hstatus, hverdict, F.parse_ulid, F.parse_ulid, parse_language, SubmissionStatus.parse_asStr, parseOptVerdict_map,
    hproblem, hhash, huri]
  rfl

theorem RunRecord.Encodes.intoRun_eq {r : RunRecord} {run : Run} (h : r.Encodes F run) :
    r.intoRun F run.submissionId = .ok run := by
  obtain ⟨hid, -, hattempt, hrunner, hfixture, hexit, hverdict, houtput, hlog, hboot, hbuild, hrun, hcreated⟩ := h
  rw [intoRun, hcreated.parseTs_eq, hid, hattempt, hexit, hverdict, hboot, hbuild, hrun, F.parse_ulid, tryU32_toNat,
    tryOpt_map tryI32_toInt, parseOptVerdict_map, tryOpt_map tryU32_toNat, tryOpt_map tryU32_toNat,
    tryOpt_map tryU32_toNat, hrunner, hfixture, houtput, hlog]
  rfl

/-- A row holds one run. -/
theorem RunRecord.Encodes.unique {r : RunRecord} {run run' : Run} (h : r.Encodes F run) (h' : r.Encodes F run') :
    run = run' := by
  have hinto := h'.intoRun_eq
  rw [← SubmissionId.eq_of_ulid (h.submissionId.symm.trans h'.submissionId), h.intoRun_eq] at hinto
  exact Except.ok.inj hinto

theorem UserRecord.Encodes.user_eq {r : UserRecord} {u : User} (h : r.Encodes F u) {db : Db}
    (hr : r ∈ db.users.rows) : user F u.id db = .ok u := by
  have hfind : db.users.find? (F.ulid u.id.ulid) = some r := h.id ▸ Table.find?_of_mem hr
  rw [user, hfind, okOr, ok_bind, h.role, Role.parse_asStr, h.createdAt.parseTs_eq, h.handle, h.email, h.passwordHash]
  rfl

theorem UserRecord.Encodes.userByHandle_eq {r : UserRecord} {u : User} (h : r.Encodes F u) {db : Db}
    (hr : db.users.rows.find? (fun r => r.handle = u.handle) = some r) : userByHandle F u.handle db = .ok u := by
  rw [userByHandle, hr, okOr, ok_bind, h.id, h.role, F.parse_ulid, Role.parse_asStr, h.createdAt.parseTs_eq, h.handle,
    h.email, h.passwordHash]
  rfl

/-- A row the store has written holds a typed submission. -/
theorem SubmissionRecord.Written.encodes {r : SubmissionRecord} (h : r.Written F) : ∃ s, r.Encodes F s := by
  obtain ⟨u, hid⟩ := h.id
  obtain ⟨user, huser⟩ := h.userId
  obtain ⟨l, hl⟩ := h.language
  obtain ⟨st, hst⟩ := h.status
  obtain ⟨created, hcreated⟩ := h.createdAt
  obtain ⟨started, hstarted⟩ := exists_optStamps h.startedAt
  obtain ⟨finished, hfinished⟩ := exists_optStamps h.finishedAt
  have hverdict : ∃ v : Option Verdict, r.verdict = v.map Verdict.asStr := by
    cases hv : r.verdict with
    | none => exact ⟨none, rfl⟩
    | some v =>
      obtain ⟨w, rfl⟩ := h.verdict v hv
      exact ⟨some w, rfl⟩
  obtain ⟨v, hv⟩ := hverdict
  exact ⟨⟨⟨u⟩, ⟨user⟩, ⟨r.problemId⟩, l, r.sourceHash, r.sourceUri, st, v, created.time, started, finished⟩,
    hid, huser, rfl, hl, rfl, rfl, hst, hv, hcreated ▸ created.formats, hstarted, hfinished⟩

/-! ## Submissions -/

theorem SubmissionRecord.Encodes.submission_eq {r : SubmissionRecord} {s : Submission} (h : r.Encodes F s) {db : Db}
    (hr : r ∈ db.submissions.rows) : submission F s.id db = .ok s := by
  have hfind : db.submissions.find? (F.ulid s.id.ulid) = some r := h.id ▸ Table.find?_of_mem hr
  rw [submission, hfind, okOr, ok_bind, h.intoSubmission_eq]

section Written
variable {db : Db} (h : db.Written F)
include h

/-- A submission can be read exactly when its row is there. -/
theorem Db.Written.submission_eq_ok_iff {id : SubmissionId} {s : Submission} :
    submission F id db = .ok s ↔ s.id = id ∧ ∃ r ∈ db.submissions.rows, r.Encodes F s := by
  constructor
  · intro hs
    obtain ⟨r, hfind, hinto⟩ := bind_eq_ok_iff.mp hs
    rw [okOr_eq_ok_iff] at hfind
    obtain ⟨s', hs'⟩ := (h r (Table.mem_of_find? hfind)).encodes
    obtain rfl : s' = s := Except.ok.inj (hs'.intoSubmission_eq.symm.trans hinto)
    exact ⟨SubmissionId.eq_of_ulid (hs'.id.symm.trans (Table.key_of_find? hfind)), r, Table.mem_of_find? hfind, hs'⟩
  · rintro ⟨rfl, r, hr, hs⟩
    exact hs.submission_eq hr

theorem Db.Written.mapM_eq {rows : List SubmissionRecord} (hrows : ∀ r ∈ rows, r ∈ db.submissions.rows) :
    ∃ subs, rows.mapM (SubmissionRecord.intoSubmission F) = .ok subs ∧
      List.Forall₂ (SubmissionRecord.Encodes F) rows subs :=
  mapM_of_forall (E := SubmissionRecord.Encodes F) (fun _ _ he => he.intoSubmission_eq) fun r hr =>
    (h r (hrows r hr)).encodes

end Written

end Satunera.Store
