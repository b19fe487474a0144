import Satunera.Store.Change

/-!
# Progress is a summary of the history

`finish_submission` keeps one row of `user_progress` for each user and problem, by an `UPDATE` that counts and stamps
and an `INSERT` where there was no row. Against it stands `summarize`, which reads the same row off the list of all
finished submissions.

* `finishes` : the rows of the submissions a run finished, in the order in which they were finished;
* `summarize` : the progress row of a history; `summarize_concat` is its one step;
* `Recorded` : the invariant; the history holds the rows with a verdict and the table holds its summary
  (`recorded_after`);
* `progress_exact` : attempts, stamp, and what stays fixed.
-/

namespace Satunera.Store

open Satunera.Base Satunera.Contracts

variable {F : TextForms}

/-! ## Summaries -/

/-- The progress key of a submission. -/
def SubmissionRecord.pair (r : SubmissionRecord) : String × String := (r.userId, r.problemId)

/-- The verdict is neither `SE` nor `IE`. -/
def SubmissionRecord.counts (r : SubmissionRecord) : Bool := r.verdict.any fun v => v ≠ "SE" ∧ v ≠ "IE"

def SubmissionRecord.accepted (r : SubmissionRecord) : Bool := r.verdict = some "AC"

@[simp] theorem SubmissionRecord.pair_withVerdict (verdict finishedAt : String) (r : SubmissionRecord) :
    (r.withVerdict verdict finishedAt).pair = r.pair := rfl

@[simp] theorem SubmissionRecord.counts_withVerdict (verdict : Verdict) (finishedAt : String) (r : SubmissionRecord) :
    (r.withVerdict verdict.asStr finishedAt).counts = verdict.countsAgainstUser := by
  cases verdict <;> rfl

@[simp] theorem SubmissionRecord.accepted_withVerdict (verdict : Verdict) (finishedAt : String) (r : SubmissionRecord) :
    (r.withVerdict verdict.asStr finishedAt).accepted = verdict.isAccepted := by
  cases verdict <;> rfl

theorem SubmissionRecord.counts_of_accepted {r : SubmissionRecord} (h : r.accepted = true) : r.counts = true := by
  rw [accepted, decide_eq_true_eq] at h
  rw [counts, h]
  rfl

/-- The submissions of `k` that count as attempts. -/
def attemptsOf (k : String × String) (log : List SubmissionRecord) : List SubmissionRecord :=
  log.filter fun r => r.pair = k ∧ r.counts

/-- The first accepted submission of `k`. -/
def firstAccepted (k : String × String) (log : List SubmissionRecord) : Option SubmissionRecord :=
  log.find? fun r => r.pair = k ∧ r.accepted

/-- The progress row of `k` after the history `log`. -/
def summarize (log : List SubmissionRecord) (k : String × String) : Option ProgressRecord :=
  if attemptsOf k log = [] then none
  else some ⟨k.1, k.2, (firstAccepted k log).bind SubmissionRecord.finishedAt, (attemptsOf k log).length⟩

theorem firstAccepted_eq_none_of_attemptsOf {k : String × String} {log : List SubmissionRecord}
    (h : attemptsOf k log = []) : firstAccepted k log = none := by
  rw [firstAccepted, List.find?_eq_none]
  intro r hr hk
  rw [decide_eq_true_eq] at hk
  have : r ∈ attemptsOf k log :=
    List.mem_filter.mpr ⟨hr, by simpa using ⟨hk.1, SubmissionRecord.counts_of_accepted hk.2⟩⟩
  rw [h] at this
  cases this

theorem attemptsOf_concat (k : String × String) (log : List SubmissionRecord) (r : SubmissionRecord) :
    attemptsOf k (log ++ [r]) = attemptsOf k log ++ if r.pair = k ∧ r.counts then [r] else [] := by
  rw [attemptsOf, List.filter_append, attemptsOf]
  by_cases h : r.pair = k ∧ r.counts <;> simp [h]

theorem firstAccepted_concat (k : String × String) (log : List SubmissionRecord) (r : SubmissionRecord) :
    firstAccepted k (log ++ [r]) = (firstAccepted k log).or (if r.pair = k ∧ r.accepted then some r else none) := by
  rw [firstAccepted, List.find?_append, firstAccepted]
  by_cases h : r.pair = k ∧ r.accepted <;> simp [h]

/-- A submission of another pair, or one that does not count, changes nothing. -/
theorem summarize_concat_of_not {log : List SubmissionRecord} {r : SubmissionRecord} {k : String × String}
    (h : ¬(r.pair = k ∧ r.counts = true)) : summarize (log ++ [r]) k = summarize log k := by
  have ha : ¬(r.pair = k ∧ r.accepted = true) := fun ha => h ⟨ha.1, SubmissionRecord.counts_of_accepted ha.2⟩
  rw [summarize, summarize, attemptsOf_concat, firstAccepted_concat, if_neg h, if_neg ha, List.append_nil,
    Option.or_none]

/-- One that counts does to the summary what the statements do to the row. -/
theorem summarize_concat {log : List SubmissionRecord} {r : SubmissionRecord} {k : String × String}
    {stamp : Option String} (hfin : ∀ s ∈ log, s.finishedAt.isSome) (hk : r.pair = k) (hc : r.counts = true)
    (hstamp : stamp = if r.accepted then r.finishedAt else none) :
    summarize (log ++ [r]) k =
      some (((summarize log k).map (ProgressRecord.attempt stamp)).getD ⟨k.1, k.2, stamp, 1⟩) := by
  have hatt : attemptsOf k (log ++ [r]) = attemptsOf k log ++ [r] := by rw [attemptsOf_concat, if_pos ⟨hk, hc⟩]
  rw [summarize, summarize, hatt, firstAccepted_concat, if_neg (by simp), hstamp]
  by_cases hold : attemptsOf k log = []
  · rw [if_pos hold, hold, firstAccepted_eq_none_of_attemptsOf hold]
    by_cases ha : r.accepted = true <;> simp [hk, ha]
  · rw [if_neg hold]
    cases hfirst : firstAccepted k log with
    | none => by_cases ha : r.accepted = true <;> simp [hk, ha, ProgressRecord.attempt]
    | some s =>
      obtain ⟨t, ht⟩ := Option.isSome_iff_exists.mp (hfin s (List.mem_of_find?_eq_some hfirst))
      simp [ht, ProgressRecord.attempt]

/-! ## The history of a run -/

/-- The submission row a call that returned has finished. -/
def Call.finished (c : Call F) (db' : Db) : Option SubmissionRecord :=
  match c with
  | .finishSubmission _ id _ => db'.submissions.find? (F.ulid id.ulid)
  | _ => none

/-- The submission row a step finished. -/
def Step.finished (st : Step F) (db : Db) : Option SubmissionRecord :=
  match st.run db with
  | (.ok _, db') => st.call.finished db'
  | (.error _, _) => none

/-- The submission rows a run finished, in the order of its commits. -/
def finishes (db : Db) : List (Step F) → List SubmissionRecord
  | [] => []
  | st :: steps => (st.finished db).toList ++ finishes (st.run db).2 steps

theorem finishes_append (db : Db) (steps steps' : List (Step F)) :
    finishes db (steps ++ steps') = finishes db steps ++ finishes (after db steps) steps' := by
  induction steps generalizing db with
  | nil => rfl
  | cons st steps ih => simp [finishes, ih]

/-- `log` is the history of `db`: it holds the rows with a verdict, once each, and the progress table is its summary. -/
structure Recorded (db : Db) (log : List SubmissionRecord) : Prop where
  nodup : log.Nodup
  mem_iff : ∀ r, r ∈ log ↔ r ∈ db.submissions.rows ∧ r.verdict.isSome
  finished : ∀ r ∈ log, r.finishedAt.isSome
  done : ∀ r ∈ db.submissions.rows, r.verdict.isSome → r.status = "DONE"
  summary : ∀ k, db.userProgress.find? k = summarize log k

theorem recorded_empty : Recorded Db.empty [] where
  nodup := List.nodup_nil
  mem_iff _ := ⟨nofun, fun h => nomatch h.1⟩
  finished := nofun
  done := nofun
  summary _ := rfl

/-- A change that touches neither the progress table nor a row with a verdict keeps the history. -/
theorem Recorded.frame {db db' : Db} {log : List SubmissionRecord} (h : Recorded db log)
    (hp : db'.userProgress = db.userProgress)
    (hrows : ∀ r, r ∈ db'.submissions.rows ∧ r.verdict.isSome ↔ r ∈ db.submissions.rows ∧ r.verdict.isSome) :
    Recorded db' log where
  nodup := h.nodup
  mem_iff r := (h.mem_iff r).trans (hrows r).symm
  finished := h.finished
  done r hr hv := h.done r ((hrows r).mp ⟨hr, hv⟩).1 hv
  summary k := by rw [hp, h.summary k]

/-- A row that may still move has no verdict. -/
theorem Recorded.verdict_none {db : Db} {log : List SubmissionRecord} (h : Recorded db log) {r : SubmissionRecord}
    (hr : r ∈ db.submissions.rows) {current next : SubmissionStatus} (hst : r.status = current.asStr)
    (hcan : current.canTransitionTo next = true) : r.verdict = none := by
  rw [← Option.not_isSome_iff_eq_none]
  intro hv
  have hd := h.done r hr hv
  rw [hst] at hd
  exact SubmissionStatus.ne_done_of_canTransitionTo hcan (SubmissionStatus.asStr_injective hd)

/-- A status update touches no row with a verdict. -/
theorem Recorded.withStatus {db : Db} {log : List SubmissionRecord} (h : Recorded db log) {row : SubmissionRecord}
    (hrow : row ∈ db.submissions.rows) (hv : row.verdict = none) (status startedAt : String) :
    Recorded (db.withStatus row.id status startedAt) log := by
  refine h.frame rfl fun r => ?_
  rw [Db.mem_withStatus]
  constructor
  · rintro ⟨⟨hr, -⟩ | ⟨r', hr', hid, rfl⟩, hsome⟩
    · exact ⟨hr, hsome⟩
    · obtain rfl : r' = row := Table.eq_of_key hr' hrow hid
      change r'.verdict.isSome = true at hsome
      rw [hv] at hsome
      cases hsome
  · rintro ⟨hr, hsome⟩
    refine ⟨Or.inl ⟨hr, fun hid => ?_⟩, hsome⟩
    rw [Table.eq_of_key hr hrow hid, hv] at hsome
    cases hsome

/-- The statements of a finish keep the table the summary of the history. -/
theorem progressed_summary {t t' : Table ProgressRecord ProgressRecord.pk} {log : List SubmissionRecord}
    {row : SubmissionRecord} {verdict : Verdict} {finishedAt : String} (hfin : ∀ r ∈ log, r.finishedAt.isSome)
    (ht : ∀ k, t.find? k = summarize log k) (h : Progressed t t' row.pair verdict finishedAt) (k : String × String) :
    t'.find? k = summarize (log ++ [row.withVerdict verdict.asStr finishedAt]) k := by
  unfold Progressed at h
  by_cases hc : verdict.countsAgainstUser = true
  · rw [if_pos hc] at h
    by_cases hk : row.pair = k
    · subst hk
      rw [h.find, ht]
      refine (summarize_concat (r := row.withVerdict verdict.asStr finishedAt) hfin rfl ?_ ?_).symm
      · rw [SubmissionRecord.counts_withVerdict, hc]
      · rw [SubmissionRecord.accepted_withVerdict]
        rfl
    · rw [h.frame k (Ne.symm hk), ht, summarize_concat_of_not]
      exact fun h' => hk h'.1
  · rw [if_neg hc] at h
    rw [h, ht, summarize_concat_of_not]
    exact fun h' => hc (by simpa using h'.2)

/-- Finishing a row without a verdict adds it to the history. -/
theorem Recorded.withVerdict {db : Db} {log : List SubmissionRecord} (h : Recorded db log) {row : SubmissionRecord}
    (hrow : row ∈ db.submissions.rows) (hv : row.verdict = none) {verdict : Verdict} {finishedAt : String}
    {t : Table ProgressRecord ProgressRecord.pk}
    (ht : Progressed db.userProgress t row.pair verdict finishedAt) :
    Recorded { db.withVerdict row.id verdict.asStr finishedAt with userProgress := t }
      (log ++ [row.withVerdict verdict.asStr finishedAt]) := by
  have hlog : ∀ r ∈ log, r.id ≠ row.id := by
    intro r hr hid
    obtain ⟨hr, hsome⟩ := (h.mem_iff r).mp hr
    rw [Table.eq_of_key hr hrow hid, hv] at hsome
    cases hsome
  refine ⟨?_, fun r => ?_, fun r hr => ?_, fun r hr hsome => ?_, fun k => ?_⟩
  · refine List.nodup_append.mpr ⟨h.nodup, List.nodup_singleton _, ?_⟩
    rintro r hr r' hr' rfl
    exact hlog r hr (by rw [List.mem_singleton.mp hr']; rfl)
  · show _ ↔ r ∈ (db.withVerdict row.id verdict.asStr finishedAt).submissions.rows ∧ _
    rw [List.mem_append, List.mem_singleton, Db.mem_withVerdict]
    constructor
    · rintro (hr | rfl)
      · obtain ⟨hr', hsome⟩ := (h.mem_iff r).mp hr
        exact ⟨Or.inl ⟨hr', hlog r hr⟩, hsome⟩
      · exact ⟨Or.inr ⟨row, hrow, rfl, rfl⟩, rfl⟩
    · rintro ⟨⟨hr, -⟩ | ⟨r', hr', hid, rfl⟩, hsome⟩
      · exact Or.inl ((h.mem_iff r).mpr ⟨hr, hsome⟩)
      · rw [Table.eq_of_key hr' hrow hid]
        exact Or.inr rfl
  · rcases List.mem_append.mp hr with hr | hr
    · exact h.finished r hr
    · rw [List.mem_singleton.mp hr]
      rfl
  · rcases Db.mem_withVerdict.mp hr with ⟨hr, -⟩ | ⟨r', -, -, rfl⟩
    · exact h.done r hr hsome
    · rfl
  · exact progressed_summary h.finished h.summary ht k

theorem recorded_change {db db' : Db} {log : List SubmissionRecord} {c : Call F} (h : Recorded db log)
    (hc : Change db c db') : Recorded db' (log ++ (c.finished db').toList) := by
  cases hc with
  | createUser | replaceProblems | recordRun =>
    simp only [Call.finished, Option.toList_none, List.append_nil]
    exact h.frame rfl fun _ => Iff.rfl
  | createSubmission hins =>
    simp only [Call.finished, Option.toList_none, List.append_nil]
    refine h.frame rfl fun r => ?_
    rw [Table.mem_insert? hins]
    constructor
    · rintro ⟨hr | rfl, hsome⟩
      · exact ⟨hr, hsome⟩
      · cases hsome
    · exact fun ⟨hr, hsome⟩ => ⟨Or.inl hr, hsome⟩
  | setSubmissionStatus hrow hst hcan =>
    have hmem := Table.mem_of_find? hrow
    simp only [Call.finished, Option.toList_none, List.append_nil, ← Table.key_of_find? hrow]
    exact h.withStatus hmem (h.verdict_none hmem hst hcan) _ _
  | @finishSubmission now id verdict row current t hrow hst hcan ht =>
    have hmem := Table.mem_of_find? hrow
    have hnew := h.withVerdict hmem (h.verdict_none hmem hst hcan) ht
    have hfind : (Call.finishSubmission now id verdict).finished
        { db.withVerdict (F.ulid id.ulid) verdict.asStr now.text with userProgress := t } =
        some (row.withVerdict verdict.asStr now.text) := Db.find?_withVerdict hrow
    rw [hfind, ← Table.key_of_find? hrow]
    exact hnew

theorem recorded_step {db : Db} {log : List SubmissionRecord} (h : Recorded db log) (st : Step F) :
    Recorded (st.run db).2 (log ++ (st.finished db).toList) := by
  unfold Step.finished
  rcases step_cases st db with ⟨e, he⟩ | ⟨r, db', hr, hc⟩
  · rw [he]
    simpa using h
  · rw [hr]
    exact recorded_change h hc

theorem recorded_run (steps : List (Step F)) (db : Db) (log : List SubmissionRecord) (h : Recorded db log) :
    Recorded (after db steps) (log ++ finishes db steps) := by
  induction steps generalizing db log with
  | nil => simpa [finishes] using h
  | cons st steps ih =>
    rw [finishes, ← List.append_assoc]
    exact ih _ _ (recorded_step h st)

/-- **After every run the progress table is the summary of what the run finished.** -/
theorem recorded_after (steps : List (Step F)) : Recorded (after Db.empty steps) (finishes Db.empty steps) :=
  recorded_run steps Db.empty [] recorded_empty

/-! ## What the progress table says -/

/-- The progress row of `k` against the submissions of `db`; `log` is the order in which they were finished. -/
structure ProgressExact (db : Db) (log : List SubmissionRecord) (k : String × String) : Prop where
  exists_iff : (db.userProgress.find? k).isSome ↔ ∃ r ∈ db.submissions.rows, r.pair = k ∧ r.counts
  attempts : ∀ p, db.userProgress.find? k = some p → p.attempts = (attemptsOf k db.submissions.rows).length
  solved_iff : (∃ p, db.userProgress.find? k = some p ∧ p.solvedAt.isSome) ↔
    ∃ r ∈ db.submissions.rows, r.pair = k ∧ r.accepted
  solved_first : ∀ p, db.userProgress.find? k = some p → p.solvedAt.isSome →
    ∃ r ∈ db.submissions.rows, firstAccepted k log = some r ∧ p.solvedAt = r.finishedAt

section Recorded
variable {db : Db} {log : List SubmissionRecord} (h : Recorded db log) (k : String × String)
include h

theorem Recorded.attemptsOf_perm : (attemptsOf k log).Perm (attemptsOf k db.submissions.rows) := by
  have hrows : db.submissions.rows.Nodup := db.submissions.nodup.of_map _
  refine (List.perm_ext_iff_of_nodup (h.nodup.filter _) (hrows.filter _)).mpr fun r => ?_
  rw [List.mem_filter, List.mem_filter, h.mem_iff, and_assoc, and_congr_right_iff]
  intro _
  refine ⟨And.right, fun hk => ⟨?_, hk⟩⟩
  simp only [SubmissionRecord.counts] at hk
  cases hv : r.verdict with
  | none => simp [hv] at hk
  | some v => rfl

theorem Recorded.firstAccepted_isSome_iff :
    (firstAccepted k log).isSome ↔ ∃ r ∈ db.submissions.rows, r.pair = k ∧ r.accepted := by
  rw [firstAccepted, List.find?_isSome]
  simp only [decide_eq_true_eq]
  constructor
  · rintro ⟨r, hr, hk⟩
    exact ⟨r, ((h.mem_iff r).mp hr).1, hk⟩
  · rintro ⟨r, hr, hk, ha⟩
    refine ⟨r, (h.mem_iff r).mpr ⟨hr, ?_⟩, hk, ha⟩
    rw [SubmissionRecord.accepted, decide_eq_true_eq] at ha
    rw [ha]
    rfl

/-- The first accepted submission is a row of the table, and it stamps the progress row. -/
theorem Recorded.of_firstAccepted {r : SubmissionRecord} (hr : firstAccepted k log = some r) :
    r ∈ db.submissions.rows ∧ r.finishedAt.isSome ∧
      ∃ p, db.userProgress.find? k = some p ∧ p.solvedAt = r.finishedAt := by
  have hmem : r ∈ log := List.mem_of_find?_eq_some hr
  have hne : attemptsOf k log ≠ [] := by
    intro hnil
    rw [firstAccepted_eq_none_of_attemptsOf hnil] at hr
    cases hr
  refine ⟨((h.mem_iff r).mp hmem).1, h.finished r hmem, _, (h.summary k).trans (if_neg hne), ?_⟩
  simp [hr]

theorem Recorded.firstAccepted_of_solved {p : ProgressRecord} (hp : db.userProgress.find? k = some p)
    (hs : p.solvedAt.isSome) : ∃ r, firstAccepted k log = some r ∧ p.solvedAt = r.finishedAt := by
  rw [h.summary k, summarize] at hp
  split at hp
  · cases hp
  · cases hp
    cases hr : firstAccepted k log with
    | none =>
      rw [hr] at hs
      cases hs
    | some r => exact ⟨r, rfl, rfl⟩

theorem Recorded.progressExact : ProgressExact db log k where
  exists_iff := by
    have hne : (∃ r ∈ db.submissions.rows, r.pair = k ∧ r.counts) ↔ attemptsOf k db.submissions.rows ≠ [] := by
      rw [attemptsOf, ne_eq, List.filter_eq_nil_iff]
      simp
    rw [hne, h.summary k, summarize, ← List.length_pos_iff_ne_nil, ← (h.attemptsOf_perm k).length_eq,
      List.length_pos_iff_ne_nil]
    by_cases hnil : attemptsOf k log = []
    · simp [hnil]
    · simp [hnil]
  attempts p hp := by
    rw [h.summary k, summarize] at hp
    split at hp
    · cases hp
    · cases hp
      simp only [(h.attemptsOf_perm k).length_eq]
  solved_iff := by
    rw [← h.firstAccepted_isSome_iff k, Option.isSome_iff_exists]
    constructor
    · rintro ⟨p, hp, hs⟩
      obtain ⟨r, hr, -⟩ := h.firstAccepted_of_solved k hp hs
      exact ⟨r, hr⟩
    · rintro ⟨r, hr⟩
      obtain ⟨-, hfin, p, hp, hps⟩ := h.of_firstAccepted k hr
      exact ⟨p, hp, hps ▸ hfin⟩
  solved_first p hp hs := by
    obtain ⟨r, hr, hpr⟩ := h.firstAccepted_of_solved k hp hs
    exact ⟨r, (h.of_firstAccepted k hr).1, hr, hpr⟩

end Recorded

/-- Once stamped, a progress row keeps its stamp. -/
theorem solvedAt_stable (steps more : List (Step F)) (k : String × String) {p : ProgressRecord} {t : String}
    (hp : (after Db.empty steps).userProgress.find? k = some p) (ht : p.solvedAt = some t) :
    ∃ p', (after Db.empty (steps ++ more)).userProgress.find? k = some p' ∧ p'.solvedAt = some t := by
  obtain ⟨r, hr, hpr⟩ := (recorded_after steps).firstAccepted_of_solved k hp (by rw [ht]; rfl)
  have hr' : firstAccepted k (finishes Db.empty (steps ++ more)) = some r := by
    rw [finishes_append, firstAccepted, List.find?_append]
    rw [firstAccepted] at hr
    rw [hr]
    rfl
  obtain ⟨-, -, p', hp', hps⟩ := (recorded_after (steps ++ more)).of_firstAccepted k hr'
  exact ⟨p', hp', by rw [hps, ← hpr, ht]⟩

/-- A finish touches the progress row of its own submission only. -/
theorem finish_frame (st : Step F) (db : Db) {now : Clock F} {id : SubmissionId} {verdict : Verdict}
    (hcall : st.call = .finishSubmission now id verdict) {k : String × String}
    (hk : ∀ r, db.submissions.find? (F.ulid id.ulid) = some r → r.pair ≠ k) :
    (st.run db).2.userProgress.find? k = db.userProgress.find? k := by
  rcases step_cases st db with ⟨e, he⟩ | ⟨r, db', hr, hc⟩
  · rw [he]
  · rw [hr]
    rw [hcall] at hc
    cases hc with
    | @finishSubmission _ _ _ row current t hrow hst hcan ht =>
      show t.find? k = _
      unfold Progressed at ht
      split at ht
      · exact ht.frame k (Ne.symm (hk row hrow))
      · rw [ht]

/-- **After every run each progress row is exact, keeps its stamp, and is untouched by other finishes.** -/
theorem progress_exact (F : TextForms) (steps : List (Step F)) (k : String × String) :
    ProgressExact (after Db.empty steps) (finishes Db.empty steps) k ∧
      (∀ more p t, (after Db.empty steps).userProgress.find? k = some p → p.solvedAt = some t →
        ∃ p', (after Db.empty (steps ++ more)).userProgress.find? k = some p' ∧ p'.solvedAt = some t) ∧
      ∀ (st : Step F) now id verdict, st.call = .finishSubmission now id verdict →
        (∀ r, (after Db.empty steps).submissions.find? (F.ulid id.ulid) = some r → r.pair ≠ k) →
        (st.run (after Db.empty steps)).2.userProgress.find? k = (after Db.empty steps).userProgress.find? k :=
  ⟨(recorded_after steps).progressExact k, fun more _ _ => solvedAt_stable steps more k,
    fun st _ _ _ hcall => finish_frame st _ hcall⟩

end Satunera.Store
