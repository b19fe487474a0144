import Satunera.Store.Ledger
import Satunera.Store.TextForms

/-!
# The store refines the ledger

* `Stored`, `Represents` : the tables hold a ledger, and keep the constraints of the migration;
* `Call.Refines`, `call_refines` : every call is refused with the ledger's error, or it commits and returns what the
  ledger does;
* `Represents.answers` : every read returns the ledger's answer;
* `StoreStep`, `simulates`, `simulates_back` : the store and the ledger simulate each other;
* `store_refines_ledger` : so they have the same histories, and end in tables that hold the ledger.
-/

namespace Satunera.Store

open Satunera.Base Satunera.Contracts

variable {F : TextForms}

/-! ## Tables that hold a ledger -/

structure ProgressRecord.Encodes (F : TextForms) (r : ProgressRecord) (t : Tally) : Prop where
  userId : r.userId = F.ulid t.userId.ulid
  problemId : r.problemId = t.problemId.asStr
  attempts : r.attempts = t.attempts
  solvedAt : OptStamps F t.solvedAt r.solvedAt

/-- The rows hold exactly the values of the ledger. -/
structure Stored (F : TextForms) (db : Db) (a : Ledger) : Prop where
  users : Holds (UserRecord.Encodes F) db.users a.users
  problems : Holds (ProblemRecord.Encodes F) db.problems a.problems
  submissions : Holds (SubmissionRecord.Encodes F) db.submissions a.submissions
  runs : Holds (RunRecord.Encodes F) db.runs a.runs
  progress : Holds (ProgressRecord.Encodes F) db.userProgress a.progress

/-- The tables hold the ledger and keep the constraints of the migration. -/
structure Represents (F : TextForms) (db : Db) (a : Ledger) : Prop extends Stored F db a where
  references : References db
  unique : db.Unique

theorem represents_empty : Represents F Db.empty Ledger.empty :=
  ⟨⟨holds_empty, holds_empty, holds_empty, holds_empty, holds_empty⟩, references_empty, unique_empty⟩

/-! ### Keys -/

theorem ProblemId.asStr_injective : Function.Injective ProblemId.asStr := by
  rintro ⟨s⟩ ⟨t⟩ h
  exact congrArg ProblemId.mk h

theorem coded_user : Coded (UserRecord.Encodes F) UserRecord.id User.id fun id => F.ulid id.ulid :=
  ⟨fun _ _ h => h.id, fun _ _ => UserId.eq_of_ulid⟩

theorem coded_problem : Coded (ProblemRecord.Encodes F) ProblemRecord.id ProblemRow.id ProblemId.asStr :=
  ⟨fun _ _ h => h.id, ProblemId.asStr_injective⟩

theorem coded_submission :
    Coded (SubmissionRecord.Encodes F) SubmissionRecord.id Submission.id fun id => F.ulid id.ulid :=
  ⟨fun _ _ h => h.id, fun _ _ => SubmissionId.eq_of_ulid⟩

/-- The text form of a user and a problem. -/
def pairText (F : TextForms) (pair : UserId × ProblemId) : String × String := (F.ulid pair.1.ulid, pair.2.asStr)

theorem coded_progress : Coded (ProgressRecord.Encodes F) ProgressRecord.pk Tally.pair (pairText F) := by
  refine ⟨fun r t h => Prod.ext h.userId h.problemId, ?_⟩
  rintro ⟨u, p⟩ ⟨u', p'⟩ h
  obtain ⟨hu, hp⟩ := Prod.mk.inj h
  exact Prod.ext (UserId.eq_of_ulid hu) (ProblemId.asStr_injective hp)

section Stored
variable {db : Db} {a : Ledger} (h : Stored F db a)
include h

theorem Stored.hasUser_iff (user : NewUser) : db.HasUser user.handle user.email ↔ a.HasUser user := by
  constructor
  · rintro ⟨r, hr, htaken⟩
    obtain ⟨u, he, hu⟩ := h.users.mem_of_row r hr
    rw [he.handle, he.email] at htaken
    exact ⟨u, hu, htaken⟩
  · rintro ⟨u, hu, htaken⟩
    obtain ⟨r, hr, he⟩ := h.users.row_of_mem u hu
    rw [← he.handle, ← he.email] at htaken
    exact ⟨r, hr, htaken⟩

theorem Stored.references_iff (id : ProblemId) : db.referencesProblem id.asStr = true ↔ a.References id := by
  rw [Db.referencesProblem, Bool.or_eq_true, List.any_eq_true, List.any_eq_true]
  simp only [decide_eq_true_eq]
  constructor
  · rintro (⟨r, hr, hp⟩ | ⟨r, hr, hp⟩)
    · obtain ⟨s, he, hs⟩ := h.submissions.mem_of_row r hr
      exact Or.inl ⟨s, hs, ProblemId.asStr_injective (he.problemId.symm.trans hp)⟩
    · obtain ⟨t, he, ht⟩ := h.progress.mem_of_row r hr
      exact Or.inr ⟨t, ht, ProblemId.asStr_injective (he.problemId.symm.trans hp)⟩
  · rintro (⟨s, hs, rfl⟩ | ⟨t, ht, rfl⟩)
    · obtain ⟨r, hr, he⟩ := h.submissions.row_of_mem s hs
      exact Or.inl ⟨r, hr, he.problemId⟩
    · obtain ⟨r, hr, he⟩ := h.progress.row_of_mem t ht
      exact Or.inr ⟨r, hr, he.problemId⟩

theorem Stored.hasAttempt_iff (id : SubmissionId) (attempt : UInt32) :
    db.HasAttempt (F.ulid id.ulid) attempt.toNat ↔ (a.runs.find (id, attempt)).isSome := by
  constructor
  · rintro ⟨r, hr, hid, hattempt⟩
    obtain ⟨run, he, hrun⟩ := h.runs.mem_of_row r hr
    have hsub := SubmissionId.eq_of_ulid (he.submissionId.symm.trans hid)
    have hn : run.attempt = attempt := by
      have := he.attempt.symm.trans hattempt
      exact UInt32.toNat_inj.mp (by exact_mod_cast this)
    rw [Indexed.Mem, Run.claim, hsub, hn] at hrun
    rw [hrun]
    rfl
  · intro hsome
    obtain ⟨run, hrun⟩ := Option.isSome_iff_exists.mp hsome
    obtain ⟨hid, hattempt⟩ := Prod.mk.inj (a.runs.key_of_find hrun)
    obtain ⟨r, hr, he⟩ := h.runs.row_of_mem run (Indexed.mem_of_find hrun)
    exact ⟨r, hr, hid ▸ he.submissionId, hattempt ▸ he.attempt⟩

theorem Stored.hasRun_iff (id : RunId) : (db.runs.find? (F.ulid id.ulid)).isSome ↔ ∃ r, a.runs.Mem r ∧ r.id = id := by
  constructor
  · intro hsome
    obtain ⟨r, hr⟩ := Option.isSome_iff_exists.mp hsome
    obtain ⟨run, he, hrun⟩ := h.runs.mem_of_row r (Table.mem_of_find? hr)
    exact ⟨run, hrun, RunId.eq_of_ulid (he.id.symm.trans (Table.key_of_find? hr))⟩
  · rintro ⟨run, hrun, rfl⟩
    obtain ⟨r, hr, he⟩ := h.runs.row_of_mem run hrun
    rw [← he.id, Table.find?_of_mem hr]
    rfl

end Stored

/-! ## The calls -/

/-- The call is refused with the ledger's error, or it returns what the ledger does and leaves the ledger's tables. -/
def Call.Refines (c : Call F) (db : Db) (a : Ledger) : Prop :=
  match c.apply a with
  | .error e => ∃ db', c.prog.run exec db = (.error e, db')
  | .ok (r, a') => ∃ db', c.prog.run exec db = (.ok (.ok r), db') ∧ Stored F db' a'

section Inserts
variable {db : Db} {a : Ledger} (h : Stored F db a) (now : Clock F)
include h

theorem createUser_refines (id : UserId) (user : NewUser) : (Call.createUser id now user).Refines db a := by
  have htaken : (db.HasUser user.handle user.email ∨ (db.users.find? (F.ulid id.ulid)).isSome) ↔
      a.HasUser user ∨ (a.users.find id).isSome := by
    rw [h.hasUser_iff, h.users.isSome_find? coded_user (k := id)]
  simp only [Call.Refines, Call.apply, Ledger.createUser, Call.prog, Prog.run_bind]
  rcases createUser_run id now user db with ⟨hin, hrun⟩ | ⟨users, hins, hnew, hrun⟩
  · rw [if_pos (htaken.mp hin), hrun]
    exact ⟨db, rfl⟩
  · have hfree : a.users.find id = none := by
      rw [← h.users.find?_eq_none_iff coded_user]
      exact (Table.insert?_eq_some_iff.mp hins).1
    have hput := h.users.insert (Table.rows_insert? hins) (encodes_userRecord id now user) hfree
    rw [if_neg, hrun]
    · exact ⟨_, rfl, { h with users := hput }⟩
    · rw [← h.hasUser_iff, hfree]
      rintro (htaken | hsome)
      · exact hnew htaken
      · cases hsome

theorem createSubmission_refines (id : SubmissionId) (submission : NewSubmission) :
    (Call.createSubmission id now submission).Refines db a := by
  have hid := h.submissions.isSome_find? coded_submission (k := id)
  have huser := h.users.find?_eq_none_iff coded_user (k := submission.userId)
  have hproblem := h.problems.find?_eq_none_iff coded_problem (k := submission.problemId)
  simp only [Call.Refines, Call.apply, Ledger.createSubmission, Call.prog, Prog.run_bind, createSubmission, fetch,
    Prog.query, stmt_bind, ret_ok_bind, Prog.run, parseTs_text, exec, language_mem_labels, not_true_eq_false, if_false]
  cases hins : db.submissions.insert? (queuedRecord id now submission) with
  | none =>
    rw [if_pos (hid.mp (Table.insert?_eq_none_iff.mp hins))]
    simp only [queuedRecord] at hins
    simp only [hins]
    exact ⟨_, rfl⟩
  | some submissions =>
    obtain ⟨hnone, -⟩ := Table.insert?_eq_some_iff.mp hins
    have hfree : a.submissions.find id = none := (h.submissions.find?_eq_none_iff coded_submission).mp hnone
    rw [if_neg (by rw [hfree]; exact Bool.false_ne_true)]
    simp only [queuedRecord] at hins
    simp only [hins]
    simp only [Option.isNone_iff_eq_none, huser, hproblem]
    by_cases hfk : a.users.find submission.userId = none ∨ a.problems.find submission.problemId = none
    · rw [if_pos hfk, if_pos hfk]
      exact ⟨_, rfl⟩
    · rw [if_neg hfk, if_neg hfk]
      have hput := h.submissions.insert (Table.rows_insert? hins) (encodes_queuedRecord id now submission) hfree
      exact ⟨_, rfl, { h with submissions := hput }⟩

omit h in
/-- A run whose attempt or id is taken is a conflict, whatever else is wrong with it. -/
theorem recordRun_run_of_taken (id : RunId) (run : NewRun)
    (htaken : db.HasAttempt (F.ulid run.submissionId.ulid) run.attempt.toNat ∨
      (db.runs.find? (F.ulid id.ulid)).isSome) :
    (recordRun id now run).run exec db = (.error (runConflict F run), db) := by
  have hverdict : ¬∃ v, (runRecord id now run).verdict = some v ∧ v ∉ verdictLabels := by
    rintro ⟨v, hv, hn⟩
    obtain ⟨w, -, rfl⟩ := Option.map_eq_some_iff.mp hv
    exact hn (verdict_mem_labels w)
  have hunique : exec (.insertRun (runRecord id now run)) db = .error .unique := by
    simp only [exec]
    rw [if_neg hverdict]
    split
    · rfl
    · rename_i hnew
      have hid : (db.runs.find? (runRecord id now run).id).isSome := by
        refine htaken.resolve_left fun hattempt => hnew ?_
        obtain ⟨r, hr, hsub, hn⟩ := hattempt
        exact List.any_eq_true.mpr ⟨r, hr, decide_eq_true ⟨hsub, hn⟩⟩
      rw [Table.insert?_eq_none_iff.mpr hid]
  rw [runRecord] at hunique
  simp only [recordRun, Prog.run, hunique]
  rfl

theorem recordRun_refines (id : RunId) (run : NewRun) : (Call.recordRun id now run).Refines db a := by
  have htaken : (db.HasAttempt (F.ulid run.submissionId.ulid) run.attempt.toNat ∨
      (db.runs.find? (F.ulid id.ulid)).isSome) ↔
      (a.runs.find (run.submissionId, run.attempt)).isSome ∨ ∃ r, a.runs.Mem r ∧ r.id = id := by
    rw [h.hasAttempt_iff, h.hasRun_iff]
  have hsub := h.submissions.find?_eq_none_iff coded_submission (k := run.submissionId)
  simp only [Call.Refines, Call.apply, Ledger.recordRun, Call.prog, Prog.run_bind]
  by_cases hin : db.HasAttempt (F.ulid run.submissionId.ulid) run.attempt.toNat ∨
      (db.runs.find? (F.ulid id.ulid)).isSome
  · rw [if_pos (htaken.mp hin), recordRun_run_of_taken now id run hin]
    exact ⟨_, rfl⟩
  rw [if_neg (mt htaken.mpr hin)]
  rcases recordRun_run id now run db with ⟨hin', -⟩ | ⟨hnone, hrun⟩ | ⟨runs, hins, -, hs, hrun⟩
  · exact absurd hin' hin
  · rw [if_pos (Option.isNone_iff_eq_none.mpr (hsub.mp hnone)), hrun]
    exact ⟨_, rfl⟩
  · have hfree : a.runs.find (run.submissionId, run.attempt) = none :=
      Option.not_isSome_iff_eq_none.mp fun hsome => hin (htaken.mpr (Or.inl hsome))
    have hput := h.runs.insert (Table.rows_insert? hins) (encodes_runRecord id now run) hfree
    rw [if_neg, hrun]
    · exact ⟨_, rfl, { h with runs := hput }⟩
    · rw [Option.isNone_iff_eq_none, ← hsub]
      intro hnone
      rw [hnone] at hs
      cases hs

end Inserts

/-! ### The catalog -/

theorem refusal_eq_none_iff {problem : ProblemRow} : problem.refusal F = none ↔ problem.Storable F := by
  unfold ProblemRow.refusal ProblemRow.Storable
  cases F.rfc3339 problem.updatedAt with
  | error e => simp
  | ok text => simp

/-- The first problem that cannot be stored decides the error of the upserts. -/
theorem upsertProblems_refused {problems : List ProblemRow} {e : StoreError}
    (h : problems.findSome? (ProblemRow.refusal F) = some e) (db : Db) :
    ∃ db', (upsertProblems (F := F) problems).run exec db = (.error e, db') := by
  induction problems generalizing db with
  | nil => cases h
  | cons problem problems ih =>
    rw [List.findSome?_cons] at h
    simp only [upsertProblems, Prog.lift]
    cases hr : problem.refusal F with
    | some e' =>
      rw [hr] at h
      obtain rfl := Option.some.inj h
      unfold ProblemRow.refusal at hr
      cases htext : F.rfc3339 problem.updatedAt with
      | error msg =>
        simp only [htext] at hr
        obtain rfl := Option.some.inj hr
        exact ⟨db, rfl⟩
      | ok text =>
        simp only [htext] at hr
        split at hr
        · cases hr
        · rename_i hd
          obtain rfl := Option.some.inj hr
          simp only [ret_ok_bind, fetch, Prog.query, stmt_bind, Prog.run, exec, hd, not_false_eq_true, if_true]
          exact ⟨db, rfl⟩
    | none =>
      rw [hr] at h
      obtain ⟨hd, text, htext⟩ := refusal_eq_none_iff.mp hr
      simp only [htext, ret_ok_bind, fetch, Prog.query, stmt_bind, Prog.run, exec, hd, not_true_eq_false, if_false]
      exact ih h _

theorem deleteProblems_refused {keep ids : List String} {db db' : Db} {e : StoreError}
    (h : (deleteProblems keep ids).run exec db = (.error e, db')) : e = .database .foreignKey := by
  induction ids generalizing db with
  | nil => cases congrArg Prod.fst h
  | cons id ids ih =>
    simp only [deleteProblems] at h
    by_cases hkeep : id ∈ keep
    · simp only [hkeep, not_true_eq_false, if_false] at h
      exact ih h
    · simp only [hkeep, not_false_eq_true, if_true, fetch, Prog.query, stmt_bind, ret_ok_bind, Prog.run, exec] at h
      split at h
      · rename_i href
        split at href
        · cases href
          cases congrArg Prod.fst h
          rfl
        · cases href
      · exact ih h

/-- Past the upserts, only a foreign key refuses the list. -/
theorem replaceProblems_refused {problems : List ProblemRow} (hstore : ∀ p ∈ problems, p.Storable F) {db db' : Db}
    {e : StoreError} (h : (replaceProblems (F := F) problems).run exec db = (.error e, db')) :
    e = .database .foreignKey := by
  rw [replaceProblems, Prog.run_bind] at h
  rcases upsertProblems_run (F := F) problems db with ⟨-, t, -, hrun⟩ | ⟨hbad, -⟩
  · simp only [hrun, fetch, Prog.query, stmt_bind, ret_ok_bind, Prog.run, exec] at h
    exact deleteProblems_refused h
  · exact absurd hstore hbad

theorem Replaced.holds {listed : List ProblemRow} {t : Table ProblemRecord ProblemRecord.id}
    (h : Replaced F listed t) : Holds (ProblemRecord.Encodes F) t (catalogOf listed) :=
  ⟨fun _ hr => h.of_mem hr, fun _ hp => h.exists_row hp⟩

theorem replaceProblems_refines {db : Db} {a : Ledger} (h : Stored F db a) (listed : List ProblemRow) :
    (Call.replaceProblems listed : Call F).Refines db a := by
  simp only [Call.Refines, Call.apply, Ledger.replaceProblems]
  cases hfirst : listed.findSome? (ProblemRow.refusal F) with
  | some e =>
    obtain ⟨db', hrun⟩ := upsertProblems_refused hfirst db
    refine ⟨db', ?_⟩
    simp only [Call.prog, replaceProblems, Prog.run_bind, hrun]
  | none =>
    have hstore : ∀ p ∈ listed, p.Storable F := fun p hp =>
      refusal_eq_none_iff.mp (List.findSome?_eq_none_iff.mp hfirst p hp)
    have hiff : Acceptable F db listed ↔
        ¬∃ p, a.problems.Mem p ∧ lastWithId listed p.id = none ∧ a.References p.id := by
      constructor
      · rintro ha ⟨p, hp, hlast, href⟩
        obtain ⟨r, hr, he⟩ := h.problems.row_of_mem p hp
        rw [lastWithId_eq_none_iff, ← he.id] at hlast
        have hdrop := ha.droppable r hr hlast
        rw [he.id, (h.references_iff p.id).mpr href] at hdrop
        cases hdrop
      · intro hnone
        refine ⟨hstore, fun r hr hlast => ?_⟩
        obtain ⟨p, he, hp⟩ := h.problems.mem_of_row r hr
        rw [he.id] at hlast ⊢
        refine Bool.eq_false_iff.mpr fun href => hnone ⟨p, hp, lastWithId_eq_none_iff.mpr hlast, ?_⟩
        exact (h.references_iff p.id).mp href
    rcases replaceProblems_prog_run (F := F) listed db with ⟨ha, t, ht, hrun⟩ | ⟨hbad, e, db', hrun⟩
    · rw [if_neg (hiff.mp ha)]
      exact ⟨_, hrun, { h with problems := ht.holds }⟩
    · rw [if_pos (not_not.mp (mt hiff.mpr hbad))]
      refine ⟨db', ?_⟩
      have hprog := hrun
      simp only [Call.prog, Prog.run_bind] at hrun
      cases hrep : (replaceProblems (F := F) listed).run exec db with
      | mk result db'' =>
        rw [hrep] at hrun
        cases result with
        | ok u => cases congrArg Prod.fst hrun
        | error e' =>
          obtain rfl : e' = e := Except.error.inj (congrArg Prod.fst hrun)
          rw [hprog, replaceProblems_refused hstore hrep]

/-! ### The lifecycle -/

theorem OptStamps.getD {t : Option OffsetDateTime} {text : Option String} (h : OptStamps F t text) (now : Clock F) :
    OptStamps F (Option.some (t.getD now.time)) (Option.some (text.getD now.text)) := by
  cases h with
  | null => exact .some now.formats
  | some h => exact .some h

theorem OptStamps.or {t t' : Option OffsetDateTime} {text text' : Option String} (h : OptStamps F t text)
    (h' : OptStamps F t' text') :
    OptStamps F (t.or t') (text.or text') := by
  cases h with
  | null => exact h'
  | some h => exact .some h

theorem ProgressRecord.solvedAt_attempt (stamp : Option String) (r : ProgressRecord) :
    (r.attempt stamp).solvedAt = r.solvedAt.or stamp := by
  unfold ProgressRecord.attempt
  cases r.solvedAt <;> rfl

theorem SubmissionRecord.Encodes.withStatus {r : SubmissionRecord} {s : Submission} (h : r.Encodes F s) (now : Clock F)
    (status : SubmissionStatus) :
    (r.withStatus status.asStr (r.startedAt.getD now.text)).Encodes F (s.moved status now.time) :=
  { h with status := rfl, startedAt := h.startedAt.getD now }

theorem SubmissionRecord.Encodes.withVerdict {r : SubmissionRecord} {s : Submission} (h : r.Encodes F s)
    (now : Clock F) (verdict : Verdict) :
    (r.withVerdict verdict.asStr now.text).Encodes F (s.finished verdict now.time) :=
  { h with status := rfl, verdict := rfl, finishedAt := .some now.formats }

section Lifecycle
variable {db : Db} {a : Ledger}

theorem setSubmissionStatus_refines (h : Stored F db a) (now : Clock F) (id : SubmissionId)
    (status : SubmissionStatus) : (Call.setSubmissionStatus now id status).Refines db a := by
  simp only [Call.Refines, Call.apply, Ledger.setSubmissionStatus, Call.prog, Prog.run_bind, setSubmissionStatus_run]
  cases hs : a.submissions.find id with
  | none =>
    rw [(h.submissions.find?_eq_none_iff coded_submission).mpr hs]
    exact ⟨db, rfl⟩
  | some s =>
    obtain ⟨r, hr, he⟩ := h.submissions.exists_find? coded_submission hs
    obtain rfl := a.submissions.key_of_find hs
    simp only [hr, he.status, SubmissionStatus.parse_asStr]
    cases hcan : s.status.canTransitionTo status with
    | false => exact ⟨db, rfl⟩
    | true =>
      have hput := h.submissions.put coded_submission (he.withStatus now status) (Db.find?_withStatus hr)
        fun k hk => by rw [Db.withStatus, Table.find?_modify, if_neg hk]
      exact ⟨_, rfl, { h with submissions := hput }⟩

/-- The bumped row holds the tally with one more attempt. -/
theorem Bumped.holds {t t' : Table ProgressRecord ProgressRecord.pk} (h : Stored F db a) (ht : db.userProgress = t)
    {pair : UserId × ProblemId} {stamp : Option String} {solvedAt : Option OffsetDateTime}
    (hstamp : OptStamps F solvedAt stamp) (hb : Bumped t t' (pairText F pair) stamp) :
    Holds (ProgressRecord.Encodes F) t' (a.progress.put (a.tally pair solvedAt)) := by
  subst ht
  have hkey := a.tally_pair pair solvedAt
  have hrow : ProgressRecord.Encodes F
      (((db.userProgress.find? (pairText F pair)).map (ProgressRecord.attempt stamp)).getD
        ⟨(pairText F pair).1, (pairText F pair).2, stamp, 1⟩) (a.tally pair solvedAt) := by
    unfold Ledger.tally
    cases hp : a.progress.find pair with
    | none =>
      rw [(h.progress.find?_eq_none_iff coded_progress).mpr hp]
      exact ⟨rfl, rfl, rfl, hstamp⟩
    | some tally =>
      obtain ⟨r, hr, he⟩ := h.progress.exists_find? coded_progress hp
      rw [hr]
      refine ⟨he.userId, he.problemId, ?_, ?_⟩
      · show r.attempts + 1 = _
        rw [he.attempts]
        rfl
      · show OptStamps F _ (r.attempt stamp).solvedAt
        rw [ProgressRecord.solvedAt_attempt]
        exact he.solvedAt.or hstamp
  refine h.progress.put coded_progress hrow ?_ ?_
  · rw [hkey]
    exact hb.find
  · rw [hkey]
    exact hb.frame

theorem finishSubmission_refines (h : Represents F db a) (now : Clock F) (id : SubmissionId) (verdict : Verdict) :
    (Call.finishSubmission now id verdict).Refines db a := by
  have hstored := h.toStored
  simp only [Call.Refines, Call.apply, Ledger.finishSubmission, Call.prog, Prog.run_bind, finishSubmission_run]
  cases hs : a.submissions.find id with
  | none =>
    rw [(h.submissions.find?_eq_none_iff coded_submission).mpr hs]
    exact ⟨db, rfl⟩
  | some s =>
    obtain ⟨r, hr, he⟩ := h.submissions.exists_find? coded_submission hs
    obtain rfl := a.submissions.key_of_find hs
    simp only [hr, he.status, SubmissionStatus.parse_asStr]
    cases hcan : s.status.canTransitionTo .done with
    | false => exact ⟨db, rfl⟩
    | true =>
      have hput := h.submissions.put coded_submission (he.withVerdict now verdict) (Db.find?_withVerdict hr)
        fun k hk => by rw [Db.withVerdict, Table.find?_modify, if_neg hk]
      by_cases hc : verdict.countsAgainstUser = true
      · have hmem := Table.mem_of_find? hr
        have hpair : (r.userId, r.problemId) = pairText F (s.userId, s.problemId) := Prod.ext he.userId he.problemId
        have hstamp : OptStamps F (solveTime verdict now.time) (solvedStamp verdict now.text) := by
          unfold solveTime solvedStamp
          split
          · exact .some now.formats
          · exact .null
        obtain ⟨db', hok⟩ := @bumpProgress_ok (db.withVerdict (F.ulid s.id.ulid) verdict.asStr now.text) _ _
          (solvedStamp verdict now.text) (h.references.submissionUser r hmem) (h.references.submissionProblem r hmem)
        rcases bumpProgress_run r.userId r.problemId (solvedStamp verdict now.text)
          (db.withVerdict (F.ulid s.id.ulid) verdict.asStr now.text) with ⟨e, db'', herr⟩ | ⟨t, hrun, hb⟩
        · rw [hok] at herr
          cases congrArg Prod.fst herr
        · rw [hpair] at hb
          simp only [if_true, if_pos hc, hrun]
          exact ⟨_, rfl, { hstored with
            submissions := hput
            progress := hb.holds hstored rfl hstamp }⟩
      · simp only [if_true, if_neg hc]
        exact ⟨_, rfl, { hstored with submissions := hput }⟩

end Lifecycle

/-- **Every call is refused as the ledger refuses it, or it commits and returns what the ledger does.** -/
theorem call_refines {db : Db} {a : Ledger} (h : Represents F db a) (c : Call F) : c.Refines db a := by
  cases c with
  | createUser id now user => exact createUser_refines h.toStored now id user
  | replaceProblems listed => exact replaceProblems_refines h.toStored listed
  | createSubmission id now submission => exact createSubmission_refines h.toStored now id submission
  | setSubmissionStatus now id status => exact setSubmissionStatus_refines h.toStored now id status
  | finishSubmission now id verdict => exact finishSubmission_refines h now id verdict
  | recordRun id now run => exact recordRun_refines h.toStored now id run

/-! ### Failures of the engine -/

theorem fetch_failsAs (s : Stmt) : (fetch s).FailsAs SqlError.io busy := ⟨rfl, fun _ => trivial⟩

theorem lift_failsAs {α : Type} (r : Except StoreError α) : (Prog.lift r : Tx α).FailsAs SqlError.io busy := trivial

theorem upsertProblems_failsAs (problems : List ProblemRow) :
    (upsertProblems (F := F) problems).FailsAs SqlError.io busy := by
  induction problems with
  | nil => trivial
  | cons problem problems ih =>
    exact (lift_failsAs _).bind fun _ => (fetch_failsAs _).bind fun _ => ih

theorem deleteProblems_failsAs (keep ids : List String) : (deleteProblems keep ids).FailsAs SqlError.io busy := by
  induction ids with
  | nil => trivial
  | cons id ids ih =>
    unfold deleteProblems
    split
    · exact (fetch_failsAs _).bind fun _ => ih
    · exact ih

theorem bumpProgress_failsAs (userId problemId : String) (solvedAt : Option String) :
    (bumpProgress userId problemId solvedAt).FailsAs SqlError.io busy := by
  refine (fetch_failsAs _).bind fun updated => ?_
  split
  · exact fetch_failsAs _
  · trivial

theorem setSubmissionStatus_failsAs (now : Clock F) (id : SubmissionId) (status : SubmissionStatus) :
    (setSubmissionStatus now id status).FailsAs SqlError.io busy := by
  refine (fetch_failsAs _).bind fun row => (lift_failsAs _).bind fun row => (lift_failsAs _).bind fun current => ?_
  split
  · trivial
  · exact fetch_failsAs _

theorem finishSubmission_failsAs (now : Clock F) (id : SubmissionId) (verdict : Verdict) :
    (finishSubmission now id verdict).FailsAs SqlError.io busy := by
  refine (fetch_failsAs _).bind fun row => (lift_failsAs _).bind fun row => (lift_failsAs _).bind fun current => ?_
  split
  · trivial
  · refine (fetch_failsAs _).bind fun _ => ?_
    dsimp only
    split
    · exact bumpProgress_failsAs _ _ _
    · trivial

/-- Whatever statement of a call the engine fails, the caller sees the same error of the database. -/
theorem Call.prog_failsAs (c : Call F) : c.prog.FailsAs SqlError.io busy := by
  cases c with
  | createUser id now user => exact Prog.FailsAs.bind ⟨rfl, fun _ => trivial⟩ fun _ => trivial
  | replaceProblems listed =>
    refine Prog.FailsAs.bind ?_ fun _ => trivial
    exact (upsertProblems_failsAs listed).bind fun _ => (fetch_failsAs _).bind fun _ => deleteProblems_failsAs _ _
  | createSubmission id now submission =>
    exact Prog.FailsAs.bind ((fetch_failsAs _).bind fun _ => trivial) fun _ => trivial
  | setSubmissionStatus now id status => exact (setSubmissionStatus_failsAs now id status).bind fun _ => trivial
  | finishSubmission now id verdict => exact (finishSubmission_failsAs now id verdict).bind fun _ => trivial
  | recordRun id now run => exact Prog.FailsAs.bind ⟨rfl, fun _ => trivial⟩ fun _ => trivial

theorem step_faulted (st : Step F) (db : Db) :
    st.run db = (Step.mk st.call none).run db ∨ st.run db = (.error busy, db) := by
  obtain ⟨c, fault⟩ := st
  cases fault with
  | none => exact Or.inl rfl
  | some n =>
    simp only [Step.run, Step.prog]
    rcases @atomically_faultAt_of_failsAs _ _ _ _ _ _ exec _ _ _ rfl _ c.prog_failsAs n db with h | h
    · exact Or.inl (by rw [h])
    · exact Or.inr (by rw [h]; rfl)

/-! ### Steps -/

theorem Represents.of_step {db : Db} {a a' : Ledger} (h : Represents F db a) (st : Step F)
    (hs : Stored F (st.run db).2 a') : Represents F (st.run db).2 a' :=
  ⟨hs, step_invariant references_change h.references st, unique_step h.unique st⟩

section Steps
variable {db : Db} {a : Ledger} (h : Represents F db a) {c : Call F}
include h

theorem Represents.refuse {e : StoreError} (happly : c.apply a = .error e) :
    (Step.mk c none).run db = (.error e, db) := by
  have href := call_refines h c
  rw [Call.Refines, happly] at href
  obtain ⟨db', hprog⟩ := href
  exact step_of_run_error hprog

theorem Represents.perform {r : Reply} {a' : Ledger} (happly : c.apply a = .ok (r, a')) :
    ∃ db', (Step.mk c none).run db = (.ok r, db') ∧ Represents F db' a' := by
  have href := call_refines h c
  rw [Call.Refines, happly] at href
  obtain ⟨db', hprog, hs⟩ := href
  have hstep := step_of_run hprog
  have hrep : Represents F ((Step.mk c none).run db).2 a' := h.of_step _ (by rw [hstep]; exact hs)
  rw [hstep] at hrep
  exact ⟨db', hstep, hrep⟩

/-- A step of the store is a step of the ledger. -/
theorem Represents.step (st : Step F) :
    ∃ a', LedgerStep a (.call st.call (st.run db).1) a' ∧ Represents F (st.run db).2 a' := by
  rcases step_faulted st db with hrun | hrun
  · rw [hrun]
    cases happly : st.call.apply a with
    | error e =>
      rw [h.refuse happly]
      exact ⟨a, .refuses happly, h⟩
    | ok p =>
      obtain ⟨db', hstep, hrep⟩ := h.perform happly
      rw [hstep]
      exact ⟨p.2, .performs happly, hrep⟩
  · rw [hrun]
    exact ⟨a, .fails, h⟩

end Steps

/-! ## The reads -/

/-- The order of texts is that of ids. -/
theorem SubmissionRecord.Encodes.before {r r' : SubmissionRecord} {s s' : Submission} (h : r.Encodes F s)
    (h' : r'.Encodes F s') (hlt : r.id < r'.id) : s.Before s' := by
  rw [h.id, h'.id] at hlt
  exact (F.ulid_lt_iff _ _).mp hlt

theorem tryU32_natCast (n : Nat) : tryU32 n = if n < 4294967296 then some (UInt32.ofNat n) else none := by
  rw [tryU32, Int.toNat_natCast]
  refine if_congr ?_ rfl rfl
  omega

/-- A value that is there under a condition, read as a result and passed on. -/
theorem okOr_ite_bind {α β : Type} {x : α} {e : StoreError} {f : α → β} (p : Prop) [Decidable p] :
    (do
      let y ← okOr (if p then some x else none) e
      return some (f y) : Except StoreError (Option β)) = if p then .ok (some (f x)) else .error e := by
  by_cases hp : p
  · rw [if_pos hp, if_pos hp]
    rfl
  · rw [if_neg hp, if_neg hp]
    rfl

/-- The first of the rows decodes to the first of their values. -/
theorem head?_decodes {rows : List SubmissionRecord} {ss : List Submission}
    (h : List.Forall₂ (fun r s => r.intoSubmission F = .ok s) rows ss) :
    (match rows.head? with
      | none => .ok none
      | some row => (row.intoSubmission F).map some) = Except.ok ss.head? := by
  cases h with
  | nil => rfl
  | cons hhead _ =>
    simp only [List.head?_cons, hhead]
    rfl

section Reads
variable {db : Db} {a : Ledger} (h : Represents F db a)
include h

theorem Represents.user_eq (id : UserId) :
    user F id db = okOr (a.users.find id) (.notFound "users" (F.ulid id.ulid)) := by
  cases hu : a.users.find id with
  | none =>
    rw [user, (h.users.find?_eq_none_iff coded_user).mpr hu]
    rfl
  | some u =>
    obtain ⟨r, hr, he⟩ := h.users.exists_find? coded_user hu
    obtain rfl := a.users.key_of_find hu
    exact he.user_eq (Table.mem_of_find? hr)

theorem Represents.problem_eq (id : ProblemId) :
    problem F id db = okOr (a.problems.find id) (.notFound "problems" id.asStr) := by
  cases hp : a.problems.find id with
  | none =>
    rw [problem, (h.problems.find?_eq_none_iff coded_problem).mpr hp]
    rfl
  | some p =>
    obtain ⟨r, hr, he⟩ := h.problems.exists_find? coded_problem hp
    rw [problem, hr, okOr, ok_bind, he.intoProblemRow_eq, okOr]

theorem Represents.submission_eq (id : SubmissionId) :
    submission F id db = okOr (a.submissions.find id) (.notFound "submissions" (F.ulid id.ulid)) := by
  cases hs : a.submissions.find id with
  | none =>
    rw [submission, (h.submissions.find?_eq_none_iff coded_submission).mpr hs]
    rfl
  | some s =>
    obtain ⟨r, hr, he⟩ := h.submissions.exists_find? coded_submission hs
    rw [submission, hr, okOr, ok_bind, he.intoSubmission_eq, okOr]

theorem Represents.progress_eq (userId : UserId) (problemId : ProblemId) :
    progress F userId problemId db =
      match a.progress.find (userId, problemId) with
      | none => .ok none
      | some t => t.answer := by
  have hcode : (F.ulid userId.ulid, problemId.asStr) = pairText F (userId, problemId) := rfl
  rw [progress, hcode]
  cases ht : a.progress.find (userId, problemId) with
  | none => rw [(h.progress.find?_eq_none_iff coded_progress).mpr ht]
  | some t =>
    obtain ⟨r, hr, he⟩ := h.progress.exists_find? coded_progress ht
    obtain ⟨rfl, rfl⟩ := Prod.mk.inj (a.progress.key_of_find ht)
    rw [hr]
    dsimp only
    rw [he.solvedAt.parseOptTs_eq, ok_bind, he.attempts, tryU32_natCast, Tally.answer]
    exact okOr_ite_bind (t.attempts < 4294967296)

theorem Represents.userByHandle_answers (handle : String) :
    a.Answers F (.userByHandle handle) (userByHandle F handle db) := by
  cases hr : db.users.rows.find? fun r => r.handle = handle with
  | none =>
    refine Or.inr ⟨fun v hv hh => ?_, ?_⟩
    · obtain ⟨r, hmem, he⟩ := h.users.row_of_mem v hv
      have := List.find?_eq_none.mp hr r hmem
      rw [he.handle, hh] at this
      simp at this
    · rw [userByHandle, hr]
      rfl
  | some r =>
    have hmem := List.mem_of_find?_eq_some hr
    have hhandle : r.handle = handle := by simpa using List.find?_some hr
    obtain ⟨u, he, hu⟩ := h.users.mem_of_row r hmem
    obtain rfl : u.handle = handle := he.handle.symm.trans hhandle
    refine Or.inl ⟨u, fun v => ⟨?_, ?_⟩, he.userByHandle_eq hr⟩
    · rintro rfl
      exact ⟨hu, rfl⟩
    · rintro ⟨hv, hh⟩
      obtain ⟨r', hmem', he'⟩ := h.users.row_of_mem v hv
      obtain rfl := List.inj_on_of_nodup_map h.unique.handles hmem' hmem (he'.handle.trans (hh.trans he.handle.symm))
      exact hv.unique hu (UserId.eq_of_ulid (he'.id.symm.trans he.id))

theorem Represents.problems_answers : a.Answers F .problems (problems F db) := by
  obtain ⟨ps, hps, hrows⟩ := h.problems.listing (p := fun _ => True) (P := fun _ => True) (fun _ _ _ => Iff.rfl)
    (fun r p he _ => he.intoProblemRow_eq) (fun r => by rw [List.mem_insertionSort, and_iff_left trivial])
    (L := fun p q => p.id.asStr < q.id.asStr) (fun r r' p q he he' hlt => by rwa [he.id, he'.id] at hlt)
    (pairwise_insertionSort_lt ProblemRecord.id db.problems.nodup)
  exact ⟨ps, ⟨hps.sorted, fun p => (hps.mem_iff p).trans (and_iff_left trivial)⟩, mapM_eq_ok_iff.mpr hrows⟩

/-- The rows of the submissions that satisfy a condition, newest first. -/
theorem Represents.newestFirst {p : SubmissionRecord → Bool} {P : Submission → Prop}
    (hp : ∀ r s, SubmissionRecord.Encodes F r s → (p r = true ↔ P s)) :
    ∃ ss, Listing (fun s => a.submissions.Mem s ∧ P s) (fun s s' => s'.Before s) ss ∧
      List.Forall₂ (fun r s => r.intoSubmission F = .ok s)
        ((db.submissions.rows.filter p).insertionSort fun r r' => r'.id ≤ r.id) ss := by
  have hnodup := db.submissions.nodup.sublist (List.filter_sublist (p := p) |>.map SubmissionRecord.id)
  exact h.submissions.listing hp (fun r s he _ => he.intoSubmission_eq)
    (fun r => by rw [List.mem_insertionSort, List.mem_filter]) (fun r r' s s' he he' hlt => he'.before he hlt)
    (pairwise_insertionSort_gt SubmissionRecord.id hnodup)

theorem Represents.latestVerdictForHash_answers (userId : UserId) (sourceHash : String) :
    a.Answers F (.latestVerdictForHash userId sourceHash) (latestVerdictForHash F userId sourceHash db) := by
  obtain ⟨ss, hss, hrows⟩ := h.newestFirst
    (p := fun r => r.userId = F.ulid userId.ulid ∧ r.sourceHash = sourceHash ∧ r.verdict.isSome)
    (P := fun s => s.userId = userId ∧ s.sourceHash = sourceHash ∧ s.verdict.isSome) fun r s he => by
      rw [decide_eq_true_eq, he.userId, he.sourceHash, he.verdict, Option.isSome_map]
      exact and_congr_left fun _ => ⟨UserId.eq_of_ulid, fun hid => hid ▸ rfl⟩
  exact ⟨ss, hss, head?_decodes hrows⟩

theorem Represents.submissionsForUser_answers (userId : UserId) (limit : UInt32) :
    a.Answers F (.submissionsForUser userId limit) (submissionsForUser F userId limit db) := by
  obtain ⟨ss, hss, hrows⟩ := h.newestFirst (p := fun r => r.userId = F.ulid userId.ulid)
    (P := fun s => s.userId = userId) fun r s he => by
      rw [decide_eq_true_eq, he.userId]
      exact ⟨UserId.eq_of_ulid, fun hid => hid ▸ rfl⟩
  exact ⟨ss, hss, mapM_eq_ok_iff.mpr (List.forall₂_take limit.toNat hrows)⟩

theorem Represents.inFlightSubmissions_answers : a.Answers F .inFlightSubmissions (inFlightSubmissions F db) := by
  have hnodup := db.submissions.nodup.sublist
    ((List.filter_sublist (p := fun r => decide (r.status ≠ "DONE"))).map SubmissionRecord.id)
  obtain ⟨ss, hss, hrows⟩ := h.submissions.listing (p := fun r => r.status ≠ "DONE") (P := fun s => s.status ≠ .done)
    (fun r s he => by
      rw [he.status]
      exact not_congr ⟨fun hd => SubmissionStatus.asStr_injective hd, fun hd => hd ▸ rfl⟩)
    (fun r s he _ => he.intoSubmission_eq)
    (fun r => by rw [List.mem_insertionSort, List.mem_filter, decide_eq_true_eq])
    (fun r r' s s' he he' hlt => he.before he' hlt) (pairwise_insertionSort_lt SubmissionRecord.id hnodup)
  exact ⟨ss, hss, mapM_eq_ok_iff.mpr hrows⟩

theorem Represents.runsForSubmission_answers (id : SubmissionId) :
    a.Answers F (.runsForSubmission id) (runsForSubmission F id db) := by
  obtain ⟨rs, hrs, hrows⟩ := h.runs.listing (p := fun r => r.submissionId = F.ulid id.ulid)
    (P := fun run => run.submissionId = id)
    (fun r run he => by
      rw [he.submissionId]
      exact ⟨SubmissionId.eq_of_ulid, fun hid => hid ▸ rfl⟩)
    (f := RunRecord.intoRun F id) (fun r run he hid => hid ▸ he.intoRun_eq)
    (fun r => by rw [List.mem_insertionSort, List.mem_filter, decide_eq_true_eq])
    (L := fun run run' => run.attempt < run'.attempt)
    (fun r r' run run' he he' hlt => by
      rw [he.attempt, he'.attempt] at hlt
      exact UInt32.lt_iff_toNat_lt.mpr (Int.ofNat_lt.mp hlt))
    (pairwise_insertionSort_lt RunRecord.attempt (h.unique.nodup_attempts (F.ulid id.ulid)))
  exact ⟨rs, hrs, mapM_eq_ok_iff.mpr hrows⟩

/-- **Every read returns the ledger's answer.** -/
theorem Represents.answers (q : Query) : a.Answers F q (q.run F db) := by
  cases q with
  | user id => exact h.user_eq id
  | userByHandle handle => exact h.userByHandle_answers handle
  | problem id => exact h.problem_eq id
  | problems => exact h.problems_answers
  | submission id => exact h.submission_eq id
  | latestVerdictForHash userId sourceHash => exact h.latestVerdictForHash_answers userId sourceHash
  | submissionsForUser userId limit => exact h.submissionsForUser_answers userId limit
  | inFlightSubmissions => exact h.inFlightSubmissions_answers
  | runsForSubmission id => exact h.runsForSubmission_answers id
  | progress userId problemId => exact h.progress_eq userId problemId

end Reads

/-! ## Histories -/

/-- One exchange on the tables. A call that does not get its transaction fails and changes nothing. -/
inductive StoreStep (db : Db) : Exchange F → Db → Prop
  | call (st : Step F) : StoreStep db (.call st.call (st.run db).1) (st.run db).2
  | busy (c : Call F) : StoreStep db (.call c (.error busy)) db
  | read (q : Query) : StoreStep db (.read q (q.run F db)) db

/-- The ledger answers every step of the store. -/
theorem simulates : Simulates (StoreStep (F := F)) LedgerStep (Represents F) := by
  intro db a l db' h hstep
  cases hstep with
  | call st => exact h.step st
  | busy c => exact ⟨a, .fails, h⟩
  | read q => exact ⟨a, .reads (h.answers q), h⟩

/-- The store answers every step of the ledger. -/
theorem simulates_back : Simulates (LedgerStep (F := F)) StoreStep fun a db => Represents F db a := by
  intro a db l a' h hstep
  cases hstep with
  | @performs c r a' happly =>
    obtain ⟨db', hstep, hrep⟩ := h.perform happly
    have hcall : StoreStep db (.call c ((Step.mk c none).run db).1) ((Step.mk c none).run db).2 :=
      .call (Step.mk c none)
    rw [hstep] at hcall
    exact ⟨db', hcall, hrep⟩
  | @refuses c e happly =>
    have hcall : StoreStep db (.call c ((Step.mk c none).run db).1) ((Step.mk c none).run db).2 :=
      .call (Step.mk c none)
    rw [h.refuse happly] at hcall
    exact ⟨db, hcall, h⟩
  | @fails c => exact ⟨db, .busy c, h⟩
  | @reads q x hx =>
    obtain rfl := hx.unique (h.answers q)
    exact ⟨db, .read q, h⟩

/-- The exchanges of a run of steps. -/
def exchanges : Db → List (Step F) → List (Exchange F)
  | _, [] => []
  | db, st :: steps => .call st.call (st.run db).1 :: exchanges (st.run db).2 steps

theorem history_exchanges (db : Db) (steps : List (Step F)) :
    History StoreStep db (exchanges db steps) (after db steps) := by
  induction steps generalizing db with
  | nil => exact .nil
  | cons st steps ih => exact (History.single (.call st)).append (ih _)

/-- **What can be seen of the store, calls with their replies and reads with their answers, is what can be seen of the
ledger,** and the tables it leaves hold the ledger it ends in. -/
theorem store_refines_ledger (F : TextForms) (h : List (Exchange F)) :
    (∀ db, History StoreStep Db.empty h db → ∃ a, History LedgerStep Ledger.empty h a ∧ Represents F db a) ∧
      ∀ a, History LedgerStep Ledger.empty h a → ∃ db, History StoreStep Db.empty h db ∧ Represents F db a :=
  ⟨fun _ hs => simulates.history hs represents_empty, fun _ ha => simulates_back.history ha represents_empty⟩

/-- A sign-up, and another one under the same handle. -/
def signUps : List (Step .crockford) :=
  [⟨.createUser ⟨1⟩ (secondClock (.last 59)) ⟨"ada", "ada@example.org", "$argon2id$", .learner⟩, none⟩,
    ⟨.createUser ⟨2⟩ (secondClock (.last 59)) ⟨"ada", "lovelace@example.org", "$argon2id$", .learner⟩, none⟩]

theorem store_refines_ledger_signUps : ∃ first second r e,
    exchanges Db.empty signUps = [.call first (.ok r), .call second (.error e)] ∧
      ∃ a, History LedgerStep Ledger.empty [.call first (.ok r), .call second (.error e)] a ∧
        Represents .crockford (after Db.empty signUps) a := by
  have hseen : exchanges Db.empty signUps = [.call _ (.ok _), .call _ (.error _)] := rfl
  exact ⟨_, _, _, _, hseen, (store_refines_ledger _ _).1 _ (hseen ▸ history_exchanges Db.empty signUps)⟩

/-- Every run of steps leaves tables that hold the ledger of its exchanges. -/
theorem represents_after (steps : List (Step F)) :
    ∃ a, History LedgerStep Ledger.empty (exchanges Db.empty steps) a ∧ Represents F (after Db.empty steps) a :=
  simulates.history (history_exchanges Db.empty steps) represents_empty

end Satunera.Store
