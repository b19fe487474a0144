import Satunera.Store.Catalog
import Satunera.Store.Concurrency
import Satunera.Store.Progress

/-!
# Everything the store writes it can read back

* `Typed` : every row of every table holds a typed value (`typed_after`), so no read finds a corrupt row (`Readable`);
* `Returned` : the values a call returned are read back ever after;
* `Submission.SameSource`, `Step.Moves` : what may change of a submission, and through which calls;
* `reads_back` : all of it after every run.
-/

namespace Satunera.Store

open Satunera.Base Satunera.Contracts

variable {F : TextForms}

/-! ## Typed tables -/

/-- Every row of `users`, `problems` and `runs` holds a typed value, and no two users share a handle. The same of
`submissions` is `Db.Written`. -/
structure Typed (F : TextForms) (db : Db) : Prop where
  users : ∀ r ∈ db.users.rows, ∃ u, r.Encodes F u
  handles : ∀ r ∈ db.users.rows, ∀ r' ∈ db.users.rows, r.handle = r'.handle → r = r'
  problems : ∀ r ∈ db.problems.rows, ∃ p, r.Encodes F p
  runs : ∀ r ∈ db.runs.rows, ∃ run, r.Encodes F run

theorem encodes_userRecord (id : UserId) (now : Clock F) (user : NewUser) :
    (userRecord id now user).Encodes F (createdUser id now user) := ⟨rfl, rfl, rfl, rfl, rfl, now.formats⟩

theorem encodes_queuedRecord (id : SubmissionId) (now : Clock F) (submission : NewSubmission) :
    (queuedRecord id now submission).Encodes F (queuedSubmission id now submission) :=
  ⟨rfl, rfl, rfl, rfl, rfl, rfl, rfl, rfl, now.formats, .null, .null⟩

theorem encodes_runRecord (id : RunId) (now : Clock F) (run : NewRun) :
    (runRecord id now run).Encodes F (recordedRun id now run) :=
  ⟨rfl, rfl, rfl, rfl, rfl, rfl, rfl, rfl, rfl, rfl, rfl, rfl, now.formats⟩

theorem typed_empty : Typed F Db.empty :=
  ⟨List.forall_mem_nil _, List.forall_mem_nil _, List.forall_mem_nil _, List.forall_mem_nil _⟩

theorem typed_step {db : Db} (h : Typed F db) (st : Step F) : Typed F (st.run db).2 := by
  obtain ⟨call, fault⟩ := st
  rcases step_outcome ⟨call, fault⟩ db with ⟨e, he⟩ | ⟨r, db', hr, -, ho⟩
  · rw [he]
    exact h
  · rw [hr]
    cases ho with
    | @createUser id now user users hins hfresh =>
      have hmem := fun r => Table.mem_insert? (x := r) hins
      refine { h with users := fun r hr => ?_, handles := fun r hr r' hr' he => ?_ }
      · rcases (hmem r).mp hr with hr | rfl
        · exact h.users r hr
        · exact ⟨_, encodes_userRecord id now user⟩
      · rcases (hmem r).mp hr with hr | rfl <;> rcases (hmem r').mp hr' with hr' | rfl
        · exact h.handles r hr r' hr' he
        · exact absurd he (hfresh r hr).1
        · exact absurd he.symm (hfresh r' hr').1
        · rfl
    | replaceProblems =>
      obtain ⟨-, t, ht, rfl⟩ := replaced_of_step hr
      refine { h with problems := fun r hr => ?_ }
      obtain ⟨p, hp, -⟩ := ht.of_mem hr
      exact ⟨p, hp⟩
    | createSubmission => exact { h with }
    | setSubmissionStatus hc | finishSubmission hc => cases hc; exact { h with }
    | @recordRun id now run runs hins hs =>
      refine { h with runs := fun r hr => ?_ }
      rcases (Table.mem_insert? hins).mp hr with hr | rfl
      · exact h.runs r hr
      · exact ⟨_, encodes_runRecord id now run⟩

theorem typed_after (steps : List (Step F)) : Typed F (after Db.empty steps) := by
  induction steps using List.reverseRecOn with
  | nil => exact typed_empty
  | append_singleton steps st ih =>
    rw [after_concat]
    exact typed_step ih st

/-! ## No read finds a corrupt row -/

/-- The read does not fail to decode a row. -/
def NotCorrupt {α : Type} (r : Except StoreError α) : Prop := ∀ entity detail, r ≠ .error (.corruptRow entity detail)

theorem notCorrupt_ok {α : Type} {r : Except StoreError α} {a : α} (h : r = .ok a) : NotCorrupt r := by
  rintro entity detail rfl
  cases h

theorem notCorrupt_notFound {α : Type} {r : Except StoreError α} {entity id : String}
    (h : r = .error (.notFound entity id)) : NotCorrupt r := by
  rintro entity detail rfl
  cases h

/-- No read of the store returns `corruptRow`. -/
structure Readable (F : TextForms) (db : Db) : Prop where
  user : ∀ id, NotCorrupt (Store.user F id db)
  userByHandle : ∀ handle, NotCorrupt (Store.userByHandle F handle db)
  problem : ∀ id, NotCorrupt (Store.problem F id db)
  problems : NotCorrupt (Store.problems F db)
  submission : ∀ id, NotCorrupt (Store.submission F id db)
  latestVerdictForHash : ∀ userId sourceHash, NotCorrupt (Store.latestVerdictForHash F userId sourceHash db)
  submissionsForUser : ∀ userId limit, NotCorrupt (Store.submissionsForUser F userId limit db)
  inFlightSubmissions : NotCorrupt (Store.inFlightSubmissions F db)
  runsForSubmission : ∀ id, NotCorrupt (Store.runsForSubmission F id db)
  progress : ∀ userId problemId, NotCorrupt (Store.progress F userId problemId db)

/-- Where the rows of `runs` hold the runs `all`, the read returns those of the submission, in the order of their
attempts. -/
theorem runsForSubmission_of_forall₂ {db : Db} {all : List Run}
    (h : List.Forall₂ (RunRecord.Encodes F) db.runs.rows all) (id : SubmissionId) :
    ∃ runs, runsForSubmission F id db = .ok runs ∧
      List.Forall₂ (RunRecord.Encodes F) ((db.runs.rows.filter fun r => r.submissionId = F.ulid id.ulid).insertionSort
        fun a b => a.attempt ≤ b.attempt) runs ∧
      runs.Perm (all.filter fun run => run.submissionId = id) := by
  have hfilter : List.Forall₂ (RunRecord.Encodes F) (db.runs.rows.filter fun r => r.submissionId = F.ulid id.ulid)
      (all.filter fun run => run.submissionId = id) := by
    refine List.rel_filter (fun r run he => ?_) h
    show decide (r.submissionId = F.ulid id.ulid) = true ↔ decide (run.submissionId = id) = true
    rw [decide_eq_true_eq, decide_eq_true_eq, he.submissionId]
    exact ⟨SubmissionId.eq_of_ulid, fun h => h ▸ rfl⟩
  obtain ⟨runs, hsorted, hperm⟩ :=
    List.perm_comp_forall₂ (List.perm_insertionSort (fun a b => a.attempt ≤ b.attempt) _) hfilter
  have hsub : ∀ r ∈ (db.runs.rows.filter fun r => r.submissionId = F.ulid id.ulid).insertionSort
      fun a b => a.attempt ≤ b.attempt, r.submissionId = F.ulid id.ulid := by
    intro r hr
    simpa using (List.mem_filter.mp ((List.mem_insertionSort _).mp hr)).2
  refine ⟨runs, mapM_eq_ok_iff.mpr (((List.forall₂_and_left _ _).mpr ⟨hsub, hsorted⟩).imp ?_), hsorted, hperm⟩
  rintro r run ⟨hr, he⟩
  obtain rfl : run.submissionId = id := SubmissionId.eq_of_ulid (he.submissionId.symm.trans hr)
  exact he.intoRun_eq

section Tables
variable {db : Db} (h : Typed F db)
include h

theorem Typed.user_notCorrupt (id : UserId) : NotCorrupt (user F id db) := by
  cases hr : db.users.find? (F.ulid id.ulid) with
  | none =>
    have hnone : user F id db = .error (.notFound "users" (F.ulid id.ulid)) := by
      rw [user, hr]
      rfl
    exact notCorrupt_notFound hnone
  | some r =>
    obtain ⟨u, hu⟩ := h.users r (Table.mem_of_find? hr)
    obtain rfl : u.id = id := UserId.eq_of_ulid (hu.id.symm.trans (Table.key_of_find? hr))
    exact notCorrupt_ok (hu.user_eq (Table.mem_of_find? hr))

theorem Typed.userByHandle_notCorrupt (handle : String) : NotCorrupt (userByHandle F handle db) := by
  cases hr : db.users.rows.find? fun r => r.handle = handle with
  | none =>
    have hnone : userByHandle F handle db = .error (.notFound "users" handle) := by
      rw [userByHandle, hr]
      rfl
    exact notCorrupt_notFound hnone
  | some r =>
    obtain ⟨u, hu⟩ := h.users r (List.mem_of_find?_eq_some hr)
    have hhandle : r.handle = handle := by simpa using List.find?_some hr
    obtain rfl : u.handle = handle := hu.handle.symm.trans hhandle
    exact notCorrupt_ok (hu.userByHandle_eq hr)

theorem Typed.problem_notCorrupt (id : ProblemId) : NotCorrupt (problem F id db) := by
  cases hr : db.problems.find? id.asStr with
  | none =>
    have hnone : problem F id db = .error (.notFound "problems" id.asStr) := by
      rw [problem, hr]
      rfl
    exact notCorrupt_notFound hnone
  | some r =>
    obtain ⟨p, hp⟩ := h.problems r (Table.mem_of_find? hr)
    have hsome : problem F id db = .ok p := by rw [problem, hr, okOr, ok_bind, hp.intoProblemRow_eq]
    exact notCorrupt_ok hsome

theorem Typed.problems_notCorrupt : NotCorrupt (Store.problems F db) := by
  have hrows : ∀ r ∈ db.problems.rows.insertionSort fun a b => a.id ≤ b.id, ∃ p, r.Encodes F p := fun r hr =>
    h.problems r ((List.mem_insertionSort _).mp hr)
  obtain ⟨ps, hps, -⟩ := mapM_of_forall (E := ProblemRecord.Encodes F) (fun _ _ he => he.intoProblemRow_eq) hrows
  exact notCorrupt_ok hps

theorem Typed.runsForSubmission_eq (id : SubmissionId) :
    ∃ runs, runsForSubmission F id db = .ok runs ∧
      ∀ r ∈ db.runs.rows, r.submissionId = F.ulid id.ulid → ∃ run ∈ runs, r.Encodes F run := by
  obtain ⟨all, hall⟩ := exists_forall₂ h.runs
  obtain ⟨runs, hruns, hsorted, -⟩ := runsForSubmission_of_forall₂ hall id
  refine ⟨runs, hruns, fun r hr hsub => exists_of_mem_left hsorted ?_⟩
  rw [List.mem_insertionSort, List.mem_filter, decide_eq_true_eq]
  exact ⟨hr, hsub⟩

end Tables

section Submissions
variable {db : Db} (h : db.Written F)
include h

theorem Db.Written.submission_notCorrupt (id : SubmissionId) : NotCorrupt (submission F id db) := by
  cases hr : db.submissions.find? (F.ulid id.ulid) with
  | none =>
    have hnone : submission F id db = .error (.notFound "submissions" (F.ulid id.ulid)) := by
      rw [submission, hr]
      rfl
    exact notCorrupt_notFound hnone
  | some r =>
    obtain ⟨s, hs⟩ := (h r (Table.mem_of_find? hr)).encodes
    obtain rfl : s.id = id := SubmissionId.eq_of_ulid (hs.id.symm.trans (Table.key_of_find? hr))
    exact notCorrupt_ok (hs.submission_eq (Table.mem_of_find? hr))

theorem Db.Written.latestVerdictForHash_notCorrupt (userId : UserId) (sourceHash : String) :
    NotCorrupt (latestVerdictForHash F userId sourceHash db) := by
  unfold latestVerdictForHash
  split
  · exact notCorrupt_ok rfl
  · rename_i r hlast
    have hr := (List.mem_filter.mp (lastById_eq_some hlast).1).1
    obtain ⟨s, hs⟩ := (h r hr).encodes
    rw [hs.intoSubmission_eq]
    exact notCorrupt_ok rfl

theorem Db.Written.submissionsForUser_notCorrupt (userId : UserId) (limit : UInt32) :
    NotCorrupt (submissionsForUser F userId limit db) := by
  obtain ⟨subs, hsubs, -⟩ := h.mapM_eq fun r hr =>
    (List.mem_filter.mp ((List.mem_insertionSort fun a b => b.id ≤ a.id).mp (List.mem_of_mem_take hr))).1
  exact notCorrupt_ok hsubs

theorem Db.Written.inFlightSubmissions_notCorrupt : NotCorrupt (inFlightSubmissions F db) := by
  obtain ⟨subs, hsubs, -⟩ := mem_inFlightSubmissions h
  exact notCorrupt_ok hsubs

end Submissions

/-- A progress row is readable as long as its attempts fit. -/
theorem Recorded.progress_notCorrupt {db : Db} {log : List SubmissionRecord} (h : Recorded db log) (hw : db.Written F)
    (userId : UserId) (problemId : ProblemId)
    (hlt : (attemptsOf (F.ulid userId.ulid, problemId.asStr) log).length < 2 ^ 32) :
    NotCorrupt (progress F userId problemId db) := by
  unfold progress
  split
  · exact notCorrupt_ok rfl
  · rename_i row hrow
    have hstamp : ∀ t, row.solvedAt = some t → ∃ now : Clock F, t = now.text := by
      intro t ht
      obtain ⟨r, hr, hpr⟩ := h.firstAccepted_of_solved _ hrow (ht ▸ rfl)
      exact (hw r (h.of_firstAccepted _ hr).1).finishedAt t (hpr.symm.trans ht)
    obtain ⟨t, ht⟩ := exists_optStamps hstamp
    have hattempts : row.attempts = (attemptsOf (F.ulid userId.ulid, problemId.asStr) log).length := by
      rw [(h.progressExact _).attempts row hrow, (h.attemptsOf_perm _).length_eq]
    have htry : tryU32 row.attempts = some (UInt32.ofNat row.attempts.toNat) :=
      if_pos ⟨by omega, by omega⟩
    rw [ht.parseOptTs_eq, ok_bind, htry]
    exact notCorrupt_ok rfl

theorem readable_after (steps : List (Step F))
    (hlt : ∀ (userId : UserId) (problemId : ProblemId),
      (attemptsOf (F.ulid userId.ulid, problemId.asStr) (finishes Db.empty steps)).length < 2 ^ 32) :
    Readable F (after Db.empty steps) := by
  have ht := typed_after steps
  have hw := written_after steps
  exact {
    user := ht.user_notCorrupt
    userByHandle := ht.userByHandle_notCorrupt
    problem := ht.problem_notCorrupt
    problems := ht.problems_notCorrupt
    submission := hw.submission_notCorrupt
    latestVerdictForHash := hw.latestVerdictForHash_notCorrupt
    submissionsForUser := hw.submissionsForUser_notCorrupt
    inFlightSubmissions := hw.inFlightSubmissions_notCorrupt
    runsForSubmission := fun id => by
      obtain ⟨runs, hruns, -⟩ := ht.runsForSubmission_eq id
      exact notCorrupt_ok hruns
    progress := fun userId problemId =>
      (recorded_after steps).progress_notCorrupt hw userId problemId (hlt userId problemId) }

/-! ## What a call returned stays readable -/

/-- `s'` is `s` but for the columns a status update and a finish write. -/
def Submission.SameSource (s s' : Submission) : Prop :=
  s' = { s with status := s'.status, verdict := s'.verdict, startedAt := s'.startedAt, finishedAt := s'.finishedAt }

theorem SubmissionRecord.Encodes.sameSource {r r' : SubmissionRecord} {s s' : Submission} (h : r.Encodes F s)
    (h' : r'.Encodes F s') (hr : r.SameSource r') : s.SameSource s' := by
  have hid := SubmissionId.eq_of_ulid (h'.id.symm.trans (hr.id.trans h.id))
  have huser := UserId.eq_of_ulid (h'.userId.symm.trans (hr.userId.trans h.userId))
  have hproblem : s'.problemId.asStr = s.problemId.asStr := h'.problemId.symm.trans (hr.problemId.trans h.problemId)
  have hlanguage := Language.asStr_injective (h'.language.symm.trans (hr.language.trans h.language))
  have hhash := h'.sourceHash.symm.trans (hr.sourceHash.trans h.sourceHash)
  have huri := h'.sourceUri.symm.trans (hr.sourceUri.trans h.sourceUri)
  have hcreated : s'.createdAt = s.createdAt := by
    have ht := h'.createdAt.parseTs_eq "submissions"
    rw [hr.createdAt, h.createdAt.parseTs_eq] at ht
    exact (Except.ok.inj ht).symm
  obtain ⟨id, user, ⟨p⟩, l, hash, uri, st, v, c, sa, fa⟩ := s
  obtain ⟨id', user', ⟨p'⟩, l', hash', uri', st', v', c', sa', fa'⟩ := s'
  simp only at hid huser hproblem hlanguage hhash huri hcreated
  subst hid huser hproblem hlanguage hhash huri hcreated
  rfl

/-- The step is a status update or a finish of submission `id`, and it returned. -/
def Step.Moves (st : Step F) (db : Db) (id : SubmissionId) : Prop :=
  (∃ r, (st.run db).1 = .ok r) ∧ ∃ status, st.call.target = some (id, status)

/-- A submission row stays as it is, or it keeps its source and the call moved it. -/
theorem Change.row {db db' : Db} {c : Call F} (hc : Change db c db') {r : SubmissionRecord}
    (hr : r ∈ db.submissions.rows) :
    r ∈ db'.submissions.rows ∨ (∃ r' ∈ db'.submissions.rows, r.SameSource r') ∧
      ∃ id status, c.target = some (id, status) ∧ r.id = F.ulid id.ulid := by
  cases hc with
  | createUser | replaceProblems | recordRun => exact Or.inl hr
  | createSubmission hins => exact Or.inl ((Table.mem_insert? hins).mpr (Or.inl hr))
  | @setSubmissionStatus now id status row current hrow hst hcan =>
    by_cases hid : r.id = F.ulid id.ulid
    · exact Or.inr ⟨⟨_, Db.mem_withStatus.mpr (Or.inr ⟨r, hr, hid, rfl⟩), rfl, rfl, rfl, rfl, rfl, rfl, rfl⟩,
        id, status, rfl, hid⟩
    · exact Or.inl (Db.mem_withStatus.mpr (Or.inl ⟨hr, hid⟩))
  | @finishSubmission now id verdict row current t hrow hst hcan ht =>
    by_cases hid : r.id = F.ulid id.ulid
    · exact Or.inr ⟨⟨_, Db.mem_withVerdict.mpr (Or.inr ⟨r, hr, hid, rfl⟩), rfl, rfl, rfl, rfl, rfl, rfl, rfl⟩,
        id, .done, rfl, hid⟩
    · exact Or.inl (Db.mem_withVerdict.mpr (Or.inl ⟨hr, hid⟩))

/-- A step keeps a submission, and what it changes of it is its status, verdict and times, by moving it. -/
theorem submission_step {db : Db} (h : db.Written F) (st : Step F) {id : SubmissionId} {s : Submission}
    (hs : submission F id db = .ok s) :
    ∃ s', submission F id (st.run db).2 = .ok s' ∧ s.SameSource s' ∧ (s' ≠ s → st.Moves db id) := by
  obtain ⟨rfl, r, hr, he⟩ := h.submission_eq_ok_iff.mp hs
  rcases step_cases st db with ⟨e, herr⟩ | ⟨reply, db', hok, hc⟩
  · rw [herr]
    exact ⟨s, hs, rfl, fun hne => absurd rfl hne⟩
  · rw [hok]
    have hw := written_change h hc
    rcases hc.row hr with hr' | ⟨⟨r', hr', hsame⟩, id, status, htarget, hid⟩
    · exact ⟨s, he.submission_eq hr', rfl, fun hne => absurd rfl hne⟩
    · obtain ⟨s', he'⟩ := (hw r' hr').encodes
      have hss := he.sameSource he' hsame
      obtain rfl : s.id = id := SubmissionId.eq_of_ulid (he.id.symm.trans hid)
      refine ⟨s', ?_, hss, fun _ => ⟨⟨reply, by rw [hok]⟩, status, htarget⟩⟩
      have hid' : s'.id = s.id := by rw [hss]
      rw [← hid']
      exact he'.submission_eq hr'

theorem Submission.SameSource.trans {s s' s'' : Submission} (h : s.SameSource s') (h' : s'.SameSource s'') :
    s.SameSource s'' := by
  unfold SameSource at h'
  rw [h] at h'
  exact h'

/-- The same of a whole run. -/
theorem submission_run {db : Db} (h : db.Written F) (steps : List (Step F)) {id : SubmissionId} {s : Submission}
    (hs : submission F id db = .ok s) :
    ∃ s', submission F id (after db steps) = .ok s' ∧ s.SameSource s' ∧
      ((∀ pre st post, steps = pre ++ st :: post → ¬st.Moves (after db pre) id) → s' = s) := by
  induction steps using List.reverseRecOn with
  | nil => exact ⟨s, hs, rfl, fun _ => rfl⟩
  | append_singleton steps st ih =>
    obtain ⟨s₁, hs₁, hsame₁, hstay₁⟩ := ih
    have hw : (after db steps).Written F := after_invariant written_change h steps
    obtain ⟨s₂, hs₂, hsame₂, hmoved⟩ := submission_step hw st hs₁
    refine ⟨s₂, by rwa [after_concat], hsame₁.trans hsame₂, fun hnot => ?_⟩
    obtain rfl : s₁ = s := hstay₁ fun pre st' post he => hnot pre st' (post ++ [st]) (by rw [he]; simp)
    by_contra hne
    exact hnot steps st [] rfl (hmoved hne)

theorem Change.user_kept {db db' : Db} {c : Call F} (hc : Change db c db') {r : UserRecord} (hr : r ∈ db.users.rows) :
    r ∈ db'.users.rows := by
  cases hc with
  | createUser hid hins => exact (Table.mem_insert? hins).mpr (Or.inl hr)
  | replaceProblems | createSubmission | setSubmissionStatus | finishSubmission | recordRun => exact hr

theorem Change.run_kept {db db' : Db} {c : Call F} (hc : Change db c db') {r : RunRecord} (hr : r ∈ db.runs.rows) :
    r ∈ db'.runs.rows := by
  cases hc with
  | recordRun hid hins => exact (Table.mem_insert? hins).mpr (Or.inl hr)
  | createUser | replaceProblems | createSubmission | setSubmissionStatus | finishSubmission => exact hr

/-- What the step `st` returned after `pre` is what the reads return after `pre`, `st` and `post`. -/
structure Returned (F : TextForms) (pre : List (Step F)) (st : Step F) (post : List (Step F)) : Prop where
  user : ∀ u, (st.run (after Db.empty pre)).1 = .ok (.user u) →
    Store.user F u.id (after Db.empty (pre ++ st :: post)) = .ok u ∧
      userByHandle F u.handle (after Db.empty (pre ++ st :: post)) = .ok u
  run : ∀ r, (st.run (after Db.empty pre)).1 = .ok (.run r) →
    ∃ runs, runsForSubmission F r.submissionId (after Db.empty (pre ++ st :: post)) = .ok runs ∧ r ∈ runs
  submission : ∀ s, (st.run (after Db.empty pre)).1 = .ok (.submission s) →
    ∃ s', Store.submission F s.id (after Db.empty (pre ++ st :: post)) = .ok s' ∧ s.SameSource s' ∧
      ((∀ mid st' rest, post = mid ++ st' :: rest → ¬st'.Moves (after Db.empty (pre ++ st :: mid)) s.id) → s' = s)

theorem Outcome.exists_user {db db' : Db} {c : Call F} {u : User} (h : Outcome db c (.user u) db') :
    ∃ r ∈ db'.users.rows, r.Encodes F u := by
  cases h with
  | @createUser id now user users hins =>
    exact ⟨_, (Table.mem_insert? hins).mpr (Or.inr rfl), encodes_userRecord id now user⟩

theorem Outcome.exists_run {db db' : Db} {c : Call F} {run : Run} (h : Outcome db c (.run run) db') :
    ∃ r ∈ db'.runs.rows, r.Encodes F run := by
  cases h with
  | @recordRun id now run runs hins =>
    exact ⟨_, (Table.mem_insert? hins).mpr (Or.inr rfl), encodes_runRecord id now run⟩

theorem Outcome.exists_submission {db db' : Db} {c : Call F} {s : Submission} (h : Outcome db c (.submission s) db') :
    ∃ r ∈ db'.submissions.rows, r.Encodes F s := by
  cases h with
  | @createSubmission id now submission submissions hins =>
    exact ⟨_, (Table.mem_insert? hins).mpr (Or.inr rfl), encodes_queuedRecord id now submission⟩

/-- A user row is found by its handle. -/
theorem Typed.find_handle {db : Db} (h : Typed F db) {r : UserRecord} (hr : r ∈ db.users.rows) {u : User}
    (hu : r.Encodes F u) : db.users.rows.find? (fun r => r.handle = u.handle) = some r := by
  cases hfind : db.users.rows.find? fun r => r.handle = u.handle with
  | none =>
    have := List.find?_eq_none.mp hfind r hr
    exact absurd (decide_eq_true hu.handle) this
  | some r' =>
    have hhandle : r'.handle = u.handle := by simpa using List.find?_some hfind
    rw [h.handles r' (List.mem_of_find?_eq_some hfind) r hr (hhandle.trans hu.handle.symm)]

theorem returned (pre : List (Step F)) (st : Step F) (post : List (Step F)) : Returned F pre st post := by
  have hafter : ∀ later, after Db.empty (pre ++ st :: later) = after (st.run (after Db.empty pre)).2 later := by
    intro later
    rw [after_append, after_cons]
  have ht := typed_after (pre ++ st :: post)
  constructor
  · intro u hu
    obtain ⟨r, hr, he⟩ := (outcome_of_step (Prod.ext hu rfl)).exists_user
    have hr' : r ∈ (after Db.empty (pre ++ st :: post)).users.rows := by
      rw [hafter]
      exact after_invariant (P := fun db => r ∈ db.users.rows) (fun hr hc => hc.user_kept hr) hr post
    exact ⟨he.user_eq hr', he.userByHandle_eq (ht.find_handle hr' he)⟩
  · intro run hrun
    obtain ⟨r, hr, he⟩ := (outcome_of_step (Prod.ext hrun rfl)).exists_run
    have hr' : r ∈ (after Db.empty (pre ++ st :: post)).runs.rows := by
      rw [hafter]
      exact after_invariant (P := fun db => r ∈ db.runs.rows) (fun hr hc => hc.run_kept hr) hr post
    obtain ⟨runs, hruns, hall⟩ := ht.runsForSubmission_eq run.submissionId
    obtain ⟨run', hrun', he'⟩ := hall r hr' he.submissionId
    exact ⟨runs, hruns, he'.unique he ▸ hrun'⟩
  · intro s hs
    obtain ⟨r, hr, he⟩ := (outcome_of_step (Prod.ext hs rfl)).exists_submission
    have hw : (st.run (after Db.empty pre)).2.Written F := step_invariant written_change (written_after pre) st
    obtain ⟨s', hs', hsame, hstay⟩ := submission_run hw post (he.submission_eq hr)
    refine ⟨s', by rw [hafter]; exact hs', hsame, fun hnot => hstay fun mid st' rest hpost => ?_⟩
    rw [← hafter]
    exact hnot mid st' rest hpost

/-! ## One value for one submission -/

/-- Every read that lists submissions returns what reading each by its id returns. -/
structure OneValue (F : TextForms) (db : Db) : Prop where
  inFlightSubmissions : ∀ subs, Store.inFlightSubmissions F db = .ok subs → ∀ s ∈ subs, submission F s.id db = .ok s
  submissionsForUser : ∀ userId limit subs, Store.submissionsForUser F userId limit db = .ok subs →
    ∀ s ∈ subs, submission F s.id db = .ok s
  latestVerdictForHash : ∀ userId sourceHash s, Store.latestVerdictForHash F userId sourceHash db = .ok (some s) →
    submission F s.id db = .ok s

theorem Db.Written.oneValue {db : Db} (h : db.Written F) : OneValue F db := by
  have hlist : ∀ rows : List SubmissionRecord, (∀ r ∈ rows, r ∈ db.submissions.rows) → ∀ subs,
      rows.mapM (SubmissionRecord.intoSubmission F) = .ok subs → ∀ s ∈ subs, submission F s.id db = .ok s := by
    intro rows hrows subs hsubs s hs
    obtain ⟨subs', hsubs', hall⟩ := h.mapM_eq hrows
    obtain rfl : subs' = subs := Except.ok.inj (hsubs'.symm.trans hsubs)
    obtain ⟨r, hr, he⟩ := exists_of_mem_right hall hs
    exact he.submission_eq (hrows r hr)
  refine ⟨hlist _ fun r hr => ?_, fun userId limit => hlist _ fun r hr => ?_, fun userId hash s hs => ?_⟩
  · rw [orderById, List.mem_insertionSort] at hr
    exact (List.mem_filter.mp hr).1
  · exact (List.mem_filter.mp ((List.mem_insertionSort _).mp (List.mem_of_mem_take hr))).1
  · unfold latestVerdictForHash at hs
    split at hs
    · cases hs
    · rename_i r hlast
      have hr := (List.mem_filter.mp (lastById_eq_some hlast).1).1
      obtain ⟨s', hs', he⟩ := map_eq_ok_iff.mp hs
      obtain rfl : s' = s := Option.some.inj he
      obtain ⟨s'', hs''⟩ := (h r hr).encodes
      obtain rfl : s'' = s' := Except.ok.inj (hs''.intoSubmission_eq.symm.trans hs')
      exact hs''.submission_eq hr

/-- **Everything the store writes it can read back.** -/
theorem reads_back (F : TextForms) (steps : List (Step F)) :
    ((∀ (userId : UserId) (problemId : ProblemId),
        (attemptsOf (F.ulid userId.ulid, problemId.asStr) (finishes Db.empty steps)).length < 2 ^ 32) →
      Readable F (after Db.empty steps)) ∧
    (∀ pre st post, steps = pre ++ st :: post → Returned F pre st post) ∧
    (∀ st id s, submission F id (after Db.empty steps) = .ok s →
      ∃ s', submission F id (after Db.empty (steps ++ [st])) = .ok s' ∧ s.SameSource s' ∧
        (s' ≠ s → st.Moves (after Db.empty steps) id)) ∧
    OneValue F (after Db.empty steps) := by
  have hw := written_after steps
  refine ⟨readable_after steps, fun pre st post _ => returned pre st post, fun st id s hs => ?_, hw.oneValue⟩
  rw [after_concat]
  exact submission_step hw st hs

end Satunera.Store
