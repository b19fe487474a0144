import Satunera.Store.Codec
import Satunera.Store.Concurrency
import Satunera.Store.Log
import Satunera.Store.Progress

/-!
# The dedupe lookup against the history

* `Judged` : the verdict of a row is that of the one finish that returned for it (`judged_after`);
* `Hit` : the rows the lookup chooses from; `latestVerdictForHash_congr` : it depends on nothing else;
* `Hit.change`, `Hit.of_change` : they stay, and only a finish of a submission with this user and hash adds one;
* `Deduped`, `latestVerdictForHash_deduped` : what the lookup answers after every run.
-/

namespace Satunera.Store

open Satunera.Base Satunera.Contracts

variable {F : TextForms}

/-! ## Verdicts come from finishes -/

/-- The verdict of the row `o` of submission `id` is that of the one finish in the log, if there is one. -/
structure Judged (id : SubmissionId) (o : Option SubmissionRecord) (log : List (Call F)) : Prop where
  verdict : o.bind SubmissionRecord.verdict = (verdicts id log).head?.map Verdict.asStr
  once : (verdicts id log).length ≤ 1
  done : verdicts id log ≠ [] → ∃ r, o = some r ∧ r.status = "DONE"

theorem judged_nil (id : SubmissionId) : Judged id none ([] : List (Call F)) :=
  ⟨rfl, Nat.zero_le 1, fun h => absurd rfl h⟩

/-- A row that may still move has not been finished. -/
theorem Judged.verdicts_eq_nil {id : SubmissionId} {row : SubmissionRecord} {log : List (Call F)}
    (h : Judged id (some row) log) {current next : SubmissionStatus} (hst : row.status = current.asStr)
    (hcan : current.canTransitionTo next = true) : verdicts id log = [] := by
  by_contra hne
  obtain ⟨r, hr, hd⟩ := h.done hne
  obtain rfl : row = r := Option.some.inj hr
  rw [hst] at hd
  exact SubmissionStatus.ne_done_of_canTransitionTo hcan (SubmissionStatus.asStr_injective hd)

theorem Judged.write {id : SubmissionId} {o o' : Option SubmissionRecord} {log : List (Call F)} {c : Call F}
    (h : Judged id o log) (hw : Writes id o c o') : Judged id o' (log ++ [c]) := by
  have hlog : verdicts id (log ++ [c]) = verdicts id log ++ (c.verdict? id).toList := filterMap_concat _ log c
  cases hw with
  | untouched hc =>
    rw [Call.verdict?_eq_none hc, Option.toList_none, List.append_nil] at hlog
    exact ⟨hlog ▸ h.verdict, hlog ▸ h.once, hlog ▸ h.done⟩
  | @created now submission =>
    have hnil : verdicts id log = [] := by
      by_contra hne
      obtain ⟨r, hr, -⟩ := h.done hne
      cases hr
    rw [hnil] at hlog
    exact ⟨by rw [hlog]; rfl, by rw [hlog]; exact Nat.zero_le 1, fun hne => absurd hlog hne⟩
  | @moved now status row current hst hcan =>
    have hnil := h.verdicts_eq_nil hst hcan
    have hverdict := h.verdict
    rw [hnil] at hlog hverdict
    exact ⟨by rw [hlog]; exact hverdict, by rw [hlog]; exact Nat.zero_le 1, fun hne => absurd hlog hne⟩
  | @closed now verdict row current hst hcan =>
    rw [h.verdicts_eq_nil hst hcan, Call.verdict?, if_pos rfl] at hlog
    exact ⟨by rw [hlog]; rfl, by rw [hlog]; exact le_refl 1, fun _ => ⟨_, rfl, rfl⟩⟩

theorem judged_after (steps : List (Step F)) (id : SubmissionId) :
    Judged id ((after Db.empty steps).submissions.find? (F.ulid id.ulid)) (committed Db.empty steps) :=
  row_invariant id (P := Judged id) (judged_nil id) Judged.write steps

/-- One submission read back, and the finishes of its row. -/
theorem verdicts_of_submission {steps : List (Step F)} {r : SubmissionRecord}
    (hr : r ∈ (after Db.empty steps).submissions.rows) {s : Submission} (he : r.Encodes F s) :
    s.verdict = (verdicts s.id (committed Db.empty steps)).head? ∧
      (verdicts s.id (committed Db.empty steps)).length ≤ 1 := by
  have h := judged_after steps s.id
  rw [← he.id, Table.find?_of_mem hr] at h
  refine ⟨?_, h.once⟩
  have hverdict := h.verdict
  rw [Option.bind_some, he.verdict] at hverdict
  exact Option.map_injective Verdict.asStr_injective hverdict

/-! ## What the lookup chooses from -/

/-- A row of the user and the hash that carries a verdict. -/
structure Hit (F : TextForms) (userId : UserId) (sourceHash : String) (db : Db) (r : SubmissionRecord) : Prop where
  mem : r ∈ db.submissions.rows
  userId : r.userId = F.ulid userId.ulid
  sourceHash : r.sourceHash = sourceHash
  verdict : r.verdict.isSome

section Lookup
variable {userId : UserId} {sourceHash : String} {db db' : Db}

/-- The rows of the lookup. -/
def hits (F : TextForms) (userId : UserId) (sourceHash : String) (db : Db) : List SubmissionRecord :=
  db.submissions.rows.filter fun r => r.userId = F.ulid userId.ulid ∧ r.sourceHash = sourceHash ∧ r.verdict.isSome

theorem mem_hits {r : SubmissionRecord} : r ∈ hits F userId sourceHash db ↔ Hit F userId sourceHash db r := by
  rw [hits, List.mem_filter, decide_eq_true_eq]
  exact ⟨fun ⟨hm, hu, hh, hv⟩ => ⟨hm, hu, hh, hv⟩, fun ⟨hm, hu, hh, hv⟩ => ⟨hm, hu, hh, hv⟩⟩

/-- The lookup returns the hit with the greatest id. -/
theorem lastById_hits_congr (h : ∀ r, Hit F userId sourceHash db r ↔ Hit F userId sourceHash db' r) :
    lastById (hits F userId sourceHash db) = lastById (hits F userId sourceHash db') := by
  cases hl : lastById (hits F userId sourceHash db) with
  | none =>
    have hnil := lastById_eq_none_iff.mp hl
    refine (lastById_eq_none_iff.mpr (List.eq_nil_iff_forall_not_mem.mpr fun r hr => ?_)).symm
    have hmem := mem_hits.mpr ((h r).mpr (mem_hits.mp hr))
    rw [hnil] at hmem
    cases hmem
  | some r =>
    obtain ⟨hr, hle⟩ := lastById_eq_some hl
    have hr' := mem_hits.mpr ((h r).mp (mem_hits.mp hr))
    cases hl' : lastById (hits F userId sourceHash db') with
    | none =>
      rw [lastById_eq_none_iff.mp hl'] at hr'
      cases hr'
    | some r' =>
      obtain ⟨hmem, hle'⟩ := lastById_eq_some hl'
      have hhit := (h r').mpr (mem_hits.mp hmem)
      have hid := le_antisymm (hle' r hr') (hle r' (mem_hits.mpr hhit))
      rw [Table.eq_of_key (mem_hits.mp hr).mem hhit.mem hid]

theorem latestVerdictForHash_congr (h : ∀ r, Hit F userId sourceHash db r ↔ Hit F userId sourceHash db' r) :
    latestVerdictForHash F userId sourceHash db = latestVerdictForHash F userId sourceHash db' := by
  have hlast := lastById_hits_congr h
  unfold hits at hlast
  rw [latestVerdictForHash, hlast, latestVerdictForHash]

/-- The lookup finds nothing exactly when there is no hit. -/
theorem latestVerdictForHash_eq_none_iff (h : db.Written F) :
    latestVerdictForHash F userId sourceHash db = .ok none ↔ ∀ r, ¬Hit F userId sourceHash db r := by
  have hiff : lastById (hits F userId sourceHash db) = none ↔ ∀ r, ¬Hit F userId sourceHash db r := by
    rw [lastById_eq_none_iff, List.eq_nil_iff_forall_not_mem]
    exact forall_congr' fun r => not_congr mem_hits
  rw [← hiff, hits, latestVerdictForHash]
  split
  · rename_i hlast
    exact iff_of_true rfl hlast
  · rename_i r hlast
    obtain ⟨s, hs⟩ := (h r (List.mem_filter.mp (lastById_eq_some hlast).1).1).encodes
    rw [hs.intoSubmission_eq, hlast]
    refine iff_of_false ?_ ?_ <;> intro he <;> cases he

theorem latestVerdictForHash_total (h : db.Written F) (userId : UserId) (sourceHash : String) :
    ∃ o, latestVerdictForHash F userId sourceHash db = .ok o := by
  unfold latestVerdictForHash
  split
  · exact ⟨none, rfl⟩
  · rename_i r hlast
    obtain ⟨s, hs⟩ := (h r (List.mem_filter.mp (lastById_eq_some hlast).1).1).encodes
    exact ⟨some s, by rw [hs.intoSubmission_eq]; rfl⟩

/-- What it finds is the hit with the greatest id. -/
theorem latestVerdictForHash_eq_some (h : db.Written F) {s : Submission}
    (hs : latestVerdictForHash F userId sourceHash db = .ok (some s)) :
    ∃ r, Hit F userId sourceHash db r ∧ r.Encodes F s ∧ ∀ r', Hit F userId sourceHash db r' → r'.id ≤ r.id := by
  rw [latestVerdictForHash] at hs
  split at hs
  · cases hs
  · rename_i r hlast
    obtain ⟨hr, hle⟩ := lastById_eq_some hlast
    have hhit : Hit F userId sourceHash db r := mem_hits.mp hr
    obtain ⟨s', hs'⟩ := (h r hhit.mem).encodes
    rw [hs'.intoSubmission_eq] at hs
    obtain rfl : s' = s := Option.some.inj (Except.ok.inj hs)
    exact ⟨r, hhit, hs', fun r' hr' => hle r' (mem_hits.mpr hr')⟩

/-! ## What changes them -/

/-- Every row with a verdict is `DONE`. -/
def VerdictsDone (db : Db) : Prop := ∀ r ∈ db.submissions.rows, r.verdict.isSome → r.status = "DONE"

theorem Hit.change {c : Call F} {r : SubmissionRecord} (h : Hit F userId sourceHash db r) (hd : VerdictsDone db)
    (hc : Change db c db') : Hit F userId sourceHash db' r :=
  { h with mem := hc.done_frozen h.mem (hd r h.mem h.verdict) }

/-- A new hit is the row of a finish. -/
theorem Hit.of_change {c : Call F} {r : SubmissionRecord} (h : Hit F userId sourceHash db' r) (hd : VerdictsDone db)
    (hc : Change db c db') : Hit F userId sourceHash db r ∨
      ∃ now id verdict, c = .finishSubmission now id verdict ∧
        ∃ r₀ ∈ db.submissions.rows, r₀.id = F.ulid id.ulid ∧ r₀.userId = F.ulid userId.ulid ∧
          r₀.sourceHash = sourceHash := by
  obtain ⟨hr, hu, hh, hv⟩ := h
  cases hc.origin hr with
  | kept hr => exact Or.inl ⟨hr, hu, hh, hv⟩
  | queued => cases hv
  | @moved now id status r current startedAt hmem hid hst hcan hstart =>
    have hdone := hd r hmem hv
    rw [hst] at hdone
    exact absurd (SubmissionStatus.asStr_injective hdone) (SubmissionStatus.ne_done_of_canTransitionTo hcan)
  | @closed now id verdict r current hmem hid hst hcan =>
    exact Or.inr ⟨now, id, verdict, rfl, r, hmem, hid, hu, hh⟩

end Lookup

/-! ## The lookup over a run -/

/-- A hit is a submission of this user and hash that was finished. -/
theorem hit_iff_of_encodes {steps : List (Step F)} {userId : UserId} {sourceHash : String} {r : SubmissionRecord}
    (hr : r ∈ (after Db.empty steps).submissions.rows) {s : Submission} (he : r.Encodes F s) :
    Hit F userId sourceHash (after Db.empty steps) r ↔
      s.userId = userId ∧ s.sourceHash = sourceHash ∧ verdicts s.id (committed Db.empty steps) ≠ [] := by
  have hverdict : r.verdict.isSome ↔ verdicts s.id (committed Db.empty steps) ≠ [] := by
    rw [he.verdict, Option.isSome_map, (verdicts_of_submission hr he).1]
    cases verdicts s.id (committed Db.empty steps) <;> simp
  constructor
  · intro h
    exact ⟨UserId.eq_of_ulid (he.userId.symm.trans h.userId), he.sourceHash.symm.trans h.sourceHash,
      hverdict.mp h.verdict⟩
  · rintro ⟨rfl, rfl, hne⟩
    exact ⟨hr, he.userId, he.sourceHash, hverdict.mpr hne⟩

/-- What the lookup for `userId` and `sourceHash` answers after the run `steps`. -/
structure Deduped (F : TextForms) (steps : List (Step F)) (userId : UserId) (sourceHash : String) : Prop where
  /-- Nothing, exactly when no submission of this user and hash was ever finished. -/
  none_iff : latestVerdictForHash F userId sourceHash (after Db.empty steps) = .ok none ↔
    ∀ id s, submission F id (after Db.empty steps) = .ok s → s.userId = userId → s.sourceHash = sourceHash →
      verdicts id (committed Db.empty steps) = []
  /-- Otherwise the greatest of those that were, with the verdict of its one finish. -/
  found : latestVerdictForHash F userId sourceHash (after Db.empty steps) ≠ .ok none →
    ∃ s, latestVerdictForHash F userId sourceHash (after Db.empty steps) = .ok (some s) ∧
      submission F s.id (after Db.empty steps) = .ok s ∧ s.userId = userId ∧ s.sourceHash = sourceHash ∧
      s.status = .done ∧ (∃ verdict, verdicts s.id (committed Db.empty steps) = [verdict] ∧ s.verdict = some verdict) ∧
      ∀ id s', submission F id (after Db.empty steps) = .ok s' → s'.userId = userId → s'.sourceHash = sourceHash →
        verdicts id (committed Db.empty steps) ≠ [] → id.ulid ≤ s.id.ulid
  /-- An answer is never lost. -/
  kept : latestVerdictForHash F userId sourceHash (after Db.empty steps) ≠ .ok none →
    ∀ more, latestVerdictForHash F userId sourceHash (after Db.empty (steps ++ more)) ≠ .ok none
  /-- It changes only by a finish of a submission of this user and hash. -/
  frame : ∀ st, latestVerdictForHash F userId sourceHash (after Db.empty (steps ++ [st])) ≠
      latestVerdictForHash F userId sourceHash (after Db.empty steps) →
    ∃ now id verdict s, st.call = .finishSubmission now id verdict ∧
      submission F id (after Db.empty steps) = .ok s ∧ s.userId = userId ∧ s.sourceHash = sourceHash

section AfterRun
variable {steps : List (Step F)} {userId : UserId} {sourceHash : String}

/-- What is read back is encoded by a row. -/
theorem exists_row_of_submission {id : SubmissionId} {s : Submission}
    (hs : submission F id (after Db.empty steps) = .ok s) :
    ∃ r ∈ (after Db.empty steps).submissions.rows, r.Encodes F s ∧ s.id = id := by
  obtain ⟨hid, r, hr, he⟩ := (written_after steps).submission_eq_ok_iff.mp hs
  exact ⟨r, hr, he, hid⟩

theorem verdictsDone_after (steps : List (Step F)) : VerdictsDone (after Db.empty steps) := (recorded_after steps).done

theorem exists_hit (hne : latestVerdictForHash F userId sourceHash (after Db.empty steps) ≠ .ok none) :
    ∃ r, Hit F userId sourceHash (after Db.empty steps) r := by
  rw [ne_eq, latestVerdictForHash_eq_none_iff (written_after steps), not_forall] at hne
  exact hne.imp fun r hr => not_not.mp hr

theorem deduped_none_iff : latestVerdictForHash F userId sourceHash (after Db.empty steps) = .ok none ↔
    ∀ id s, submission F id (after Db.empty steps) = .ok s → s.userId = userId → s.sourceHash = sourceHash →
      verdicts id (committed Db.empty steps) = [] := by
  rw [latestVerdictForHash_eq_none_iff (written_after steps)]
  constructor
  · intro hnone id s hs huser hhash
    obtain ⟨r, hr, he, rfl⟩ := exists_row_of_submission hs
    by_contra hne
    exact hnone r ((hit_iff_of_encodes hr he).mpr ⟨huser, hhash, hne⟩)
  · intro hall r hhit
    obtain ⟨s, he⟩ := (written_after steps r hhit.mem).encodes
    obtain ⟨huser, hhash, hne⟩ := (hit_iff_of_encodes hhit.mem he).mp hhit
    exact hne (hall s.id s (he.submission_eq hhit.mem) huser hhash)

/-- A submission that was finished was finished once, with the verdict it has. -/
theorem exists_verdict {r : SubmissionRecord} (hr : r ∈ (after Db.empty steps).submissions.rows) {s : Submission}
    (he : r.Encodes F s) (hfin : verdicts s.id (committed Db.empty steps) ≠ []) :
    ∃ verdict, verdicts s.id (committed Db.empty steps) = [verdict] ∧ s.verdict = some verdict := by
  obtain ⟨hverdict, hlen⟩ := verdicts_of_submission hr he
  cases hl : verdicts s.id (committed Db.empty steps) with
  | nil => exact absurd hl hfin
  | cons v vs =>
    rw [hl] at hlen hverdict
    have hvs : vs = [] := List.length_eq_zero_iff.mp (by simpa using hlen)
    exact ⟨v, by rw [hvs], hverdict⟩

/-- What is found is the greatest of the submissions of this user and hash that were finished. -/
theorem deduped_found {s : Submission}
    (ho : latestVerdictForHash F userId sourceHash (after Db.empty steps) = .ok (some s)) :
    submission F s.id (after Db.empty steps) = .ok s ∧ s.userId = userId ∧ s.sourceHash = sourceHash ∧
      s.status = .done ∧ (∃ verdict, verdicts s.id (committed Db.empty steps) = [verdict] ∧ s.verdict = some verdict) ∧
      ∀ id s', submission F id (after Db.empty steps) = .ok s' → s'.userId = userId → s'.sourceHash = sourceHash →
        verdicts id (committed Db.empty steps) ≠ [] → id.ulid ≤ s.id.ulid := by
  obtain ⟨r, hhit, he, hmax⟩ := latestVerdictForHash_eq_some (written_after steps) ho
  obtain ⟨huser, hhash, hfin⟩ := (hit_iff_of_encodes hhit.mem he).mp hhit
  refine ⟨he.submission_eq hhit.mem, huser, hhash, ?_, exists_verdict hhit.mem he hfin,
    fun id s' hs' huser' hhash' hfin' => ?_⟩
  · exact SubmissionStatus.asStr_injective (he.status.symm.trans (verdictsDone_after steps r hhit.mem hhit.verdict))
  · obtain ⟨r', hr', he', rfl⟩ := exists_row_of_submission hs'
    have hle := hmax r' ((hit_iff_of_encodes hr' he').mpr ⟨huser', hhash', hfin'⟩)
    rw [he.id, he'.id] at hle
    exact BitVec.not_lt.mp fun hlt => absurd hle (not_le_of_gt ((F.ulid_lt_iff _ _).mpr hlt))

theorem deduped_kept (hne : latestVerdictForHash F userId sourceHash (after Db.empty steps) ≠ .ok none)
    (more : List (Step F)) :
    latestVerdictForHash F userId sourceHash (after Db.empty (steps ++ more)) ≠ .ok none := by
  intro hnone
  obtain ⟨r, hhit⟩ := exists_hit hne
  refine (latestVerdictForHash_eq_none_iff (written_after (steps ++ more))).mp hnone r { hhit with mem := ?_ }
  rw [after_append]
  have hdone := verdictsDone_after steps r hhit.mem hhit.verdict
  exact Table.mem_of_find? (done_frozen (Table.find?_of_mem hhit.mem) hdone more)

theorem deduped_frame {st : Step F} (hne : latestVerdictForHash F userId sourceHash (after Db.empty (steps ++ [st])) ≠
      latestVerdictForHash F userId sourceHash (after Db.empty steps)) :
    ∃ now id verdict s, st.call = .finishSubmission now id verdict ∧
      submission F id (after Db.empty steps) = .ok s ∧ s.userId = userId ∧ s.sourceHash = sourceHash := by
  have hd := verdictsDone_after steps
  rw [after_concat] at hne
  rcases step_cases st (after Db.empty steps) with ⟨e, he⟩ | ⟨reply, db', hok, hc⟩
  · rw [he] at hne
    exact absurd rfl hne
  · rw [hok] at hne
    by_contra hnot
    refine hne (latestVerdictForHash_congr fun r => ⟨fun hhit => ?_, fun hhit => hhit.change hd hc⟩)
    rcases hhit.of_change hd hc with hhit | ⟨now, id, verdict, hcall, r₀, hr₀, hid, huser, hhash⟩
    · exact hhit
    · obtain ⟨s, he⟩ := (written_after steps r₀ hr₀).encodes
      obtain rfl : s.id = id := SubmissionId.eq_of_ulid (he.id.symm.trans hid)
      exact absurd ⟨now, s.id, verdict, s, hcall, he.submission_eq hr₀,
        UserId.eq_of_ulid (he.userId.symm.trans huser), he.sourceHash.symm.trans hhash⟩ hnot

end AfterRun

/-- **The dedupe lookup is sound and complete over every run.** -/
theorem latestVerdictForHash_deduped (F : TextForms) (steps : List (Step F)) (userId : UserId) (sourceHash : String) :
    Deduped F steps userId sourceHash where
  none_iff := deduped_none_iff
  found hne := by
    obtain ⟨o, ho⟩ := latestVerdictForHash_total (written_after steps) userId sourceHash
    cases o with
    | none => exact absurd ho hne
    | some s => exact ⟨s, ho, deduped_found ho⟩
  kept := deduped_kept
  frame _ := deduped_frame

end Satunera.Store
