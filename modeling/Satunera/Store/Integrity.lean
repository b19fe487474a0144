import Satunera.Store.Change

/-!
# Referential integrity

* `References` : every row refers to rows that are there (`references_after`);
* `bumpProgress_ok`, `finishSubmission_ok` : so the progress bookkeeping never fails, and no finish that the lifecycle
  allows is refused.
-/

namespace Satunera.Store

open Satunera.Base Satunera.Contracts

variable {F : TextForms}

/-- What every foreign key of the migration points to is there. -/
structure References (db : Db) : Prop where
  submissionUser : ∀ r ∈ db.submissions.rows, (db.users.find? r.userId).isSome
  submissionProblem : ∀ r ∈ db.submissions.rows, (db.problems.find? r.problemId).isSome
  runSubmission : ∀ r ∈ db.runs.rows, (db.submissions.find? r.submissionId).isSome
  progressUser : ∀ r ∈ db.userProgress.rows, (db.users.find? r.userId).isSome
  progressProblem : ∀ r ∈ db.userProgress.rows, (db.problems.find? r.problemId).isSome

theorem references_empty : References Db.empty :=
  ⟨List.forall_mem_nil _, List.forall_mem_nil _, List.forall_mem_nil _, List.forall_mem_nil _, List.forall_mem_nil _⟩

/-- The columns of a submission that no call ever writes again. -/
structure SubmissionRecord.SameSource (r r' : SubmissionRecord) : Prop where
  id : r'.id = r.id
  userId : r'.userId = r.userId
  problemId : r'.problemId = r.problemId
  language : r'.language = r.language
  sourceHash : r'.sourceHash = r.sourceHash
  sourceUri : r'.sourceUri = r.sourceUri
  createdAt : r'.createdAt = r.createdAt

theorem SubmissionRecord.SameSource.refl (r : SubmissionRecord) : r.SameSource r := ⟨rfl, rfl, rfl, rfl, rfl, rfl, rfl⟩

/-- A submission row is new, or it was there but for its status. -/
theorem Origin.sameSource {db : Db} {c : Call F} {r : SubmissionRecord} (h : Origin db c r) :
    (∃ r₀ ∈ db.submissions.rows, r₀.SameSource r) ∨
      ∃ id now submission, c = .createSubmission id now submission ∧ r = queuedRecord id now submission := by
  cases h with
  | kept hr => exact Or.inl ⟨r, hr, .refl r⟩
  | queued => exact Or.inr ⟨_, _, _, rfl, rfl⟩
  | moved hr | closed hr => exact Or.inl ⟨_, hr, rfl, rfl, rfl, rfl, rfl, rfl, rfl⟩

/-- The progress rows after a finish belong to the pair it finished, or were there. -/
theorem Progressed.mem {t t' : Table ProgressRecord ProgressRecord.pk} {k : String × String} {verdict : Verdict}
    {finishedAt : String} (h : Progressed t t' k verdict finishedAt) {p : ProgressRecord} (hp : p ∈ t'.rows) :
    p.pk = k ∨ p ∈ t.rows := by
  unfold Progressed at h
  split at h
  · by_cases hk : p.pk = k
    · exact Or.inl hk
    · have hfind := h.frame p.pk hk
      rw [Table.find?_of_mem hp] at hfind
      exact Or.inr (Table.mem_of_find? hfind.symm)
  · exact Or.inr (h ▸ hp)

/-- Every submission row after a call that creates none. -/
theorem References.update {db db' : Db} {c : Call F} (h : References db) (hc : Change db c db')
    (hnew : ∀ id now submission, c ≠ .createSubmission id now submission) :
    ∀ r ∈ db'.submissions.rows, (db.users.find? r.userId).isSome ∧ (db.problems.find? r.problemId).isSome := by
  intro r hr
  rcases (hc.origin hr).sameSource with ⟨r₀, hr₀, hsame⟩ | ⟨id, now, submission, rfl, -⟩
  · rw [hsame.userId, hsame.problemId]
    exact ⟨h.submissionUser r₀ hr₀, h.submissionProblem r₀ hr₀⟩
  · exact absurd rfl (hnew id now submission)

theorem references_change {db db' : Db} {c : Call F} (h : References db) (hc : Change db c db') : References db' := by
  cases hc with
  | createUser hid hins =>
    have hmono : ∀ k, (db.users.find? k).isSome → _ := fun k => Table.isSome_find?_insert? hins
    exact { h with
      submissionUser := fun r hr => hmono _ (h.submissionUser r hr)
      progressUser := fun r hr => hmono _ (h.progressUser r hr) }
  | @replaceProblems problems t hk =>
    refine { h with submissionProblem := fun r hr => ?_, progressProblem := fun r hr => ?_ }
    · refine hk _ ?_ (h.submissionProblem r hr)
      exact Bool.or_eq_true_iff.mpr (Or.inl (List.any_eq_true.mpr ⟨r, hr, decide_eq_true rfl⟩))
    · refine hk _ ?_ (h.progressProblem r hr)
      exact Bool.or_eq_true_iff.mpr (Or.inr (List.any_eq_true.mpr ⟨r, hr, decide_eq_true rfl⟩))
  | createSubmission hins hu hp =>
    refine { h with submissionUser := ?_, submissionProblem := ?_, runSubmission := fun r hr => ?_ }
    · intro r hr
      rcases (Table.mem_insert? hins).mp hr with hr | rfl
      · exact h.submissionUser r hr
      · exact hu
    · intro r hr
      rcases (Table.mem_insert? hins).mp hr with hr | rfl
      · exact h.submissionProblem r hr
      · exact hp
    · exact Table.isSome_find?_insert? hins (h.runSubmission r hr)
  | @setSubmissionStatus now id status row current hrow hst hcan =>
    have hc : Change db (.setSubmissionStatus now id status) _ := .setSubmissionStatus hrow hst hcan
    have hsub := h.update hc fun _ _ _ hn => by cases hn
    refine { h with submissionUser := fun r hr => (hsub r hr).1, submissionProblem := fun r hr => (hsub r hr).2,
                    runSubmission := fun r hr => ?_ }
    rw [Db.withStatus, Table.isSome_find?_modify]
    exact h.runSubmission r hr
  | @finishSubmission now id verdict row current t hrow hst hcan ht =>
    have hsub := h.update (.finishSubmission hrow hst hcan ht) fun _ _ _ hn => by cases hn
    have hmem := Table.mem_of_find? hrow
    refine ⟨fun r hr => (hsub r hr).1, fun r hr => (hsub r hr).2, fun r hr => ?_, fun p hp => ?_, fun p hp => ?_⟩
    · rw [Db.withVerdict, Table.isSome_find?_modify]
      exact h.runSubmission r hr
    · rcases ht.mem hp with hk | hp
      · rw [(Prod.mk.inj hk).1]
        exact h.submissionUser row hmem
      · exact h.progressUser p hp
    · rcases ht.mem hp with hk | hp
      · rw [(Prod.mk.inj hk).2]
        exact h.submissionProblem row hmem
      · exact h.progressProblem p hp
  | recordRun hid hins hs =>
    refine { h with runSubmission := ?_ }
    intro r hr
    rcases (Table.mem_insert? hins).mp hr with hr | rfl
    · exact h.runSubmission r hr
    · exact hs

theorem references_after (steps : List (Step F)) : References (after Db.empty steps) :=
  after_invariant references_change references_empty steps

/-! ## The progress bookkeeping never fails -/

theorem exec_insertProgress_ok {db : Db} {userId problemId : String} (solvedAt : Option String)
    (hp : db.userProgress.find? (userId, problemId) = none) (hu : (db.users.find? userId).isSome)
    (hq : (db.problems.find? problemId).isSome) :
    ∃ t, exec (.insertProgress userId problemId solvedAt) db = .ok ((), { db with userProgress := t }) := by
  simp only [exec]
  cases hins : db.userProgress.insert? ⟨userId, problemId, solvedAt, 1⟩ with
  | none =>
    have hsome := Table.insert?_eq_none_iff.mp hins
    change (db.userProgress.find? (userId, problemId)).isSome = true at hsome
    rw [hp] at hsome
    cases hsome
  | some t =>
    refine ⟨t, if_neg ?_⟩
    rw [Option.isNone_iff_eq_none, Option.isNone_iff_eq_none]
    rintro (h | h)
    · rw [h] at hu
      cases hu
    · rw [h] at hq
      cases hq

theorem bumpProgress_ok {db : Db} {userId problemId : String} (solvedAt : Option String)
    (hu : (db.users.find? userId).isSome) (hp : (db.problems.find? problemId).isSome) :
    ∃ db', (bumpProgress userId problemId solvedAt).run exec db = (.ok (), db') := by
  rw [bumpProgress_run_eq]
  by_cases h : (db.userProgress.find? (userId, problemId)).isSome
  · exact ⟨_, if_pos h⟩
  · rw [if_neg h, run_fetch]
    have hnone : (db.withAttempt (userId, problemId) solvedAt).userProgress.find? (userId, problemId) = none := by
      rw [Db.withAttempt, Table.find?_modify, if_pos rfl, Option.not_isSome_iff_eq_none.mp h, Option.map_none]
    obtain ⟨t, ht⟩ := exec_insertProgress_ok solvedAt hnone hu hp
    rw [ht]
    exact ⟨_, rfl⟩

/-- A finish that the lifecycle allows is never refused. -/
theorem finishSubmission_ok {db : Db} (h : References db) {id : SubmissionId} {row : SubmissionRecord}
    {current : SubmissionStatus} (hrow : db.submissions.find? (F.ulid id.ulid) = some row)
    (hst : row.status = current.asStr) (hcan : current.canTransitionTo .done = true) (now : Clock F)
    (verdict : Verdict) :
    ∃ db', (finishSubmission now id verdict).run exec db = (.ok (), db') := by
  rw [finishSubmission_run, hrow]
  simp only [hst, SubmissionStatus.parse_asStr, if_pos hcan]
  split
  · have hmem := Table.mem_of_find? hrow
    exact bumpProgress_ok _ (h.submissionUser row hmem) (h.submissionProblem row hmem)
  · exact ⟨_, rfl⟩

end Satunera.Store
