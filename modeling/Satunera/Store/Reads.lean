import Satunera.Store.Change

/-!
# Reading back what was written

* `SubmissionRecord.Written` : every column holds the text of a typed value, so the row decodes (`Written.decodes`);
* `written_after` : every submission row of every run is written so;
* `mem_inFlightSubmissions` : `inFlightSubmissions` returns the rows that are not `DONE`;
* `latestVerdictForHash_of_mem` : `latestVerdictForHash` finds a row as late as any that carries a verdict.
-/

namespace Satunera.Store

open Satunera.Base Satunera.Contracts

variable {F : TextForms}

/-! ## Decoding -/

/-- The row holds the text forms of typed values. -/
structure SubmissionRecord.Written (F : TextForms) (r : SubmissionRecord) : Prop where
  id : ∃ u, r.id = F.ulid u
  userId : ∃ u, r.userId = F.ulid u
  language : ∃ l, r.language = Language.asStr l
  status : ∃ s, r.status = SubmissionStatus.asStr s
  verdict : ∀ v, r.verdict = some v → ∃ w, v = Verdict.asStr w
  createdAt : ∃ now : Clock F, r.createdAt = now.text
  startedAt : ∀ t, r.startedAt = some t → ∃ now : Clock F, t = now.text
  finishedAt : ∀ t, r.finishedAt = some t → ∃ now : Clock F, t = now.text

/-- `s` is the typed form of `r`. -/
structure Decodes (F : TextForms) (r : SubmissionRecord) (s : Submission) : Prop where
  ok : r.intoSubmission F = .ok s
  id : F.ulid s.id.ulid = r.id
  userId : F.ulid s.userId.ulid = r.userId
  sourceHash : s.sourceHash = r.sourceHash
  status : s.status.asStr = r.status
  verdict : s.verdict.map Verdict.asStr = r.verdict

theorem parseOptTs_written {t : Option String} (h : ∀ s, t = some s → ∃ now : Clock F, s = now.text) (entity : String) :
    ∃ o, parseOptTs F entity t = .ok o := by
  cases t with
  | none => exact ⟨none, rfl⟩
  | some s =>
    obtain ⟨now, rfl⟩ := h s rfl
    exact ⟨some now.time, by rw [parseOptTs, parseTs_text]; rfl⟩

theorem parseOptVerdict_written {v : Option String} (h : ∀ s, v = some s → ∃ w, s = Verdict.asStr w)
    (entity : String) : ∃ o, parseOptVerdict F entity v = .ok o ∧ o.map Verdict.asStr = v := by
  cases v with
  | none => exact ⟨none, rfl, rfl⟩
  | some s =>
    obtain ⟨w, rfl⟩ := h s rfl
    exact ⟨some w, by rw [parseOptVerdict, Verdict.parse_eq_some_iff.mpr rfl]; rfl, rfl⟩

theorem SubmissionRecord.Written.decodes {r : SubmissionRecord} (h : r.Written F) : ∃ s, Decodes F r s := by
  obtain ⟨u, hu⟩ := h.id
  obtain ⟨user, huser⟩ := h.userId
  obtain ⟨l, hl⟩ := h.language
  obtain ⟨st, hst⟩ := h.status
  obtain ⟨v, hv, hv'⟩ := parseOptVerdict_written (F := F) h.verdict "submissions"
  obtain ⟨created, hcreated⟩ := h.createdAt
  obtain ⟨started, hstarted⟩ := parseOptTs_written h.startedAt "submissions"
  obtain ⟨finished, hfinished⟩ := parseOptTs_written h.finishedAt "submissions"
  refine ⟨⟨⟨u⟩, ⟨user⟩, ⟨r.problemId⟩, l, r.sourceHash, r.sourceUri, st, v, created.time, started, finished⟩,
    ?_, hu.symm, huser.symm, rfl, hst.symm, hv'⟩
  rw [intoSubmission, hu, huser, hl, hst, hcreated, F.parse_ulid, F.parse_ulid, Language.parse_eq_some_iff.mpr rfl,
    SubmissionStatus.parse_asStr, hv, parseTs_text, hstarted, hfinished]
  rfl

/-- Every submission row is written by the store. -/
def Db.Written (F : TextForms) (db : Db) : Prop := ∀ r ∈ db.submissions.rows, r.Written F

theorem written_change {db db' : Db} {c : Call F} (h : db.Written F) (hc : Change db c db') : db'.Written F := by
  intro r hr
  cases hc.origin hr with
  | kept hr => exact h r hr
  | @queued id now submission =>
    exact ⟨⟨_, rfl⟩, ⟨_, rfl⟩, ⟨_, rfl⟩, ⟨.queued, rfl⟩, nofun, ⟨now, rfl⟩, nofun, nofun⟩
  | @moved now id status r current startedAt hmem hid hst hcan hstart =>
    refine { h r hmem with status := ⟨status, rfl⟩, startedAt := ?_ }
    rintro t ⟨⟩
    rcases hstart with rfl | hstart
    · exact ⟨now, rfl⟩
    · exact (h r hmem).startedAt _ hstart
  | @closed now id verdict r current hmem hid hst hcan =>
    refine { h r hmem with status := ⟨.done, rfl⟩, verdict := ?_, finishedAt := ?_ }
    · rintro v ⟨⟩
      exact ⟨verdict, rfl⟩
    · rintro t ⟨⟩
      exact ⟨now, rfl⟩

theorem written_empty : Db.empty.Written F := nofun

theorem written_after (steps : List (Step F)) : (after Db.empty steps).Written F :=
  after_invariant written_change written_empty steps

/-! ## Listing -/

/-- A list whose elements all decode is decoded as a whole. -/
theorem mapM_ok {α β ε : Type} {f : α → Except ε β} {l : List α} (h : ∀ a ∈ l, ∃ b, f a = .ok b) :
    ∃ bs, l.mapM f = .ok bs ∧ ∀ b, b ∈ bs ↔ ∃ a ∈ l, f a = .ok b := by
  induction l with
  | nil => exact ⟨[], rfl, by simp⟩
  | cons a l ih =>
    obtain ⟨b, hb⟩ := h a (List.mem_cons_self ..)
    obtain ⟨bs, hbs, hmem⟩ := ih fun a' ha' => h a' (List.mem_cons_of_mem _ ha')
    refine ⟨b :: bs, by rw [List.mapM_cons, hb, hbs]; rfl, fun b' => ?_⟩
    rw [List.mem_cons, hmem]
    constructor
    · rintro (rfl | ⟨a', ha', he⟩)
      · exact ⟨a, List.mem_cons_self .., hb⟩
      · exact ⟨a', List.mem_cons_of_mem _ ha', he⟩
    · rintro ⟨a', ha', he⟩
      rcases List.mem_cons.mp ha' with rfl | ha'
      · exact Or.inl (Except.ok.inj (he.symm.trans hb))
      · exact Or.inr ⟨a', ha', he⟩

/-- `inFlightSubmissions` returns the submissions that are not `DONE`, and only those. -/
theorem mem_inFlightSubmissions {db : Db} (h : db.Written F) :
    ∃ subs, inFlightSubmissions F db = .ok subs ∧
      ∀ s, s ∈ subs ↔ ∃ r ∈ db.submissions.rows, r.status ≠ "DONE" ∧ r.intoSubmission F = .ok s := by
  have hdec : ∀ r ∈ orderById (db.submissions.rows.filter fun r => r.status ≠ "DONE"),
      ∃ s, r.intoSubmission F = .ok s := by
    intro r hr
    rw [orderById, List.mem_insertionSort, List.mem_filter] at hr
    obtain ⟨s, hs⟩ := (h r hr.1).decodes
    exact ⟨s, hs.ok⟩
  obtain ⟨subs, hsubs, hmem⟩ := mapM_ok hdec
  refine ⟨subs, hsubs, fun s => ?_⟩
  rw [hmem]
  simp only [orderById, List.mem_insertionSort, List.mem_filter, decide_eq_true_eq, and_assoc]

/-! ## The latest verdict -/

theorem lastById_eq_none_iff {rows : List SubmissionRecord} : lastById rows = none ↔ rows = [] := by
  rw [lastById, List.head?_eq_none_iff, ← List.length_eq_zero_iff, List.length_insertionSort, List.length_eq_zero_iff]

theorem lastById_eq_some {rows : List SubmissionRecord} {r : SubmissionRecord} (h : lastById rows = some r) :
    r ∈ rows ∧ ∀ r' ∈ rows, r'.id ≤ r.id := by
  obtain ⟨rest, hrest⟩ := List.head?_eq_some_iff.mp h
  have hmem : ∀ r', r' ∈ rows ↔ r' ∈ r :: rest := by
    intro r'
    rw [← hrest, List.mem_insertionSort]
  have hsorted : (r :: rest).Pairwise fun a b => b.id ≤ a.id := by
    rw [← hrest]
    have : Std.Total fun a b : SubmissionRecord => b.id ≤ a.id := ⟨fun a b => le_total b.id a.id⟩
    have : IsTrans SubmissionRecord fun a b => b.id ≤ a.id := ⟨fun _ _ _ hab hbc => hbc.trans hab⟩
    exact List.pairwise_insertionSort _ rows
  refine ⟨(hmem r).mpr (List.mem_cons_self ..), fun r' hr' => ?_⟩
  rcases List.mem_cons.mp ((hmem r').mp hr') with rfl | hr'
  · exact le_refl _
  · exact (List.pairwise_cons.mp hsorted).1 r' hr'

/-- With a row that carries a verdict there is a hit, and the hit is the latest such row. -/
theorem latestVerdictForHash_of_mem {db : Db} (h : db.Written F) {r : SubmissionRecord} (hr : r ∈ db.submissions.rows)
    (hv : r.verdict.isSome) {userId : UserId} (hu : F.ulid userId.ulid = r.userId) :
    ∃ hit s, latestVerdictForHash F userId r.sourceHash db = .ok (some s) ∧ hit ∈ db.submissions.rows ∧
      Decodes F hit s ∧ s.userId = userId ∧ s.sourceHash = r.sourceHash ∧ s.verdict.isSome ∧ r.id ≤ hit.id := by
  unfold latestVerdictForHash
  have hmem : r ∈ db.submissions.rows.filter fun x =>
      x.userId = F.ulid userId.ulid ∧ x.sourceHash = r.sourceHash ∧ x.verdict.isSome := by
    simp [hr, hu, hv]
  cases hlast : lastById (db.submissions.rows.filter fun x =>
      x.userId = F.ulid userId.ulid ∧ x.sourceHash = r.sourceHash ∧ x.verdict.isSome) with
  | none =>
    rw [lastById_eq_none_iff.mp hlast] at hmem
    cases hmem
  | some hit =>
    obtain ⟨hhit, hle⟩ := lastById_eq_some hlast
    simp only [List.mem_filter, decide_eq_true_eq] at hhit
    obtain ⟨hin, huser, hhash, hsome⟩ := hhit
    obtain ⟨s, hs⟩ := (h hit hin).decodes
    refine ⟨hit, s, by simp only [hs.ok]; rfl, hin, hs, ?_, hs.sourceHash.trans hhash, ?_, hle r hmem⟩
    · have := F.ulid_injective (hs.userId.trans huser)
      cases huid : s.userId
      cases userId
      simp_all
    · rw [← hs.verdict, Option.isSome_map] at hsome
      exact hsome

end Satunera.Store
