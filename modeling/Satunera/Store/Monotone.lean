import Satunera.Store.Linearizable
import Satunera.Store.Readback

/-!
# Reads never go back

Whatever is called concurrently between two reads, the later one does not contradict the earlier: what was found is
found again, moved on at most in the ways a submission may move.

* `Submission.Becomes` : how a submission may move on;
* `Grows` : everything a ledger knows, a later one knows (`Grows.step`);
* `Query.Later` : what the later of two answers to a read owes the earlier, next to nothing for the catalog and for the
  scan of the open submissions (`later_of_grows`);
* `reads_never_go_back` : along every interleaving.
-/

namespace Satunera.Store

open Satunera.Base Satunera.Contracts

variable {F : TextForms}

/-! ## Growth -/

/-- How a submission may move on. -/
structure Submission.Becomes (s s' : Submission) : Prop where
  source : s.SameSource s'
  status : Relation.ReflTransGen (fun c d => SubmissionStatus.canTransitionTo c d = true) s.status s'.status
  startedAt : ∀ t, s.startedAt = some t → s'.startedAt = some t
  done : s.status = .done → s' = s

theorem Submission.Becomes.refl (s : Submission) : s.Becomes s := ⟨rfl, .refl, fun _ h => h, fun _ => rfl⟩

theorem Submission.Becomes.trans {s s' s'' : Submission} (h : s.Becomes s') (h' : s'.Becomes s'') : s.Becomes s'' where
  source := by
    have hs := h'.source
    rw [Submission.SameSource, h.source] at hs
    exact hs
  status := h.status.trans h'.status
  startedAt t ht := h'.startedAt t (h.startedAt t ht)
  done hd := by
    obtain rfl := h.done hd
    exact h'.done hd

theorem Submission.Becomes.id_eq {s s' : Submission} (h : s.Becomes s') : s'.id = s.id := by rw [h.source]

theorem Submission.becomes_moved {s : Submission} {status : SubmissionStatus}
    (h : s.status.canTransitionTo status = true)
    (now : OffsetDateTime) : s.Becomes (s.moved status now) where
  source := rfl
  status := .single h
  startedAt t ht := by
    show some (s.startedAt.getD now) = some t
    rw [ht, Option.getD_some]
  done hd := absurd hd (SubmissionStatus.ne_done_of_canTransitionTo h)

theorem Submission.becomes_finished {s : Submission} (h : s.status.canTransitionTo .done = true) (verdict : Verdict)
    (now : OffsetDateTime) : s.Becomes (s.finished verdict now) where
  source := rfl
  status := .single h
  startedAt _ ht := ht
  done hd := absurd hd (SubmissionStatus.ne_done_of_canTransitionTo h)

/-- How a tally may move on. -/
structure Tally.Becomes (t t' : Tally) : Prop where
  attempts : t.attempts ≤ t'.attempts
  solvedAt : ∀ time, t.solvedAt = some time → t'.solvedAt = some time

/-- What `a` knows, `b` knows. -/
structure Grows (a b : Ledger) : Prop where
  users : ∀ u, a.users.Mem u → b.users.Mem u
  submissions : ∀ s, a.submissions.Mem s → ∃ s', b.submissions.Mem s' ∧ s.Becomes s'
  runs : ∀ r, a.runs.Mem r → b.runs.Mem r
  progress : ∀ pair t, a.progress.find pair = some t → ∃ t', b.progress.find pair = some t' ∧ t.Becomes t'

theorem Grows.refl (a : Ledger) : Grows a a :=
  ⟨fun _ h => h, fun s h => ⟨s, h, .refl s⟩, fun _ h => h, fun _ t h => ⟨t, h, le_rfl, fun _ ht => ht⟩⟩

theorem Grows.trans {a b c : Ledger} (h : Grows a b) (h' : Grows b c) : Grows a c where
  users u hu := h'.users u (h.users u hu)
  submissions s hs := by
    obtain ⟨s', hs', hb⟩ := h.submissions s hs
    obtain ⟨s'', hs'', hb'⟩ := h'.submissions s' hs'
    exact ⟨s'', hs'', hb.trans hb'⟩
  runs r hr := h'.runs r (h.runs r hr)
  progress pair t ht := by
    obtain ⟨t', ht', hb⟩ := h.progress pair t ht
    obtain ⟨t'', ht'', hb'⟩ := h'.progress pair t' ht'
    exact ⟨t'', ht'', hb.attempts.trans hb'.attempts, fun time h => hb'.solvedAt time (hb.solvedAt time h)⟩

/-- A submission that moves on leaves the others. -/
theorem submissions_grow {m : Indexed Submission Submission.id} {s₀ s₁ : Submission} (h₀ : m.Mem s₀)
    (h : s₀.Becomes s₁) : ∀ s, m.Mem s → ∃ s', (m.put s₁).Mem s' ∧ s.Becomes s' := by
  intro s hs
  by_cases hid : s.id = s₁.id
  · obtain rfl : s = s₀ := hs.unique h₀ (hid.trans h.id_eq)
    exact ⟨s₁, Indexed.mem_put.mpr (Or.inl rfl), h⟩
  · exact ⟨s, Indexed.mem_put.mpr (Or.inr ⟨hs, hid⟩), .refl s⟩

/-- One more attempt moves a tally on, and no other. -/
theorem progress_grows (a : Ledger) (pair : UserId × ProblemId) (solvedAt : Option OffsetDateTime) :
    ∀ k t, a.progress.find k = some t →
      ∃ t', (a.progress.put (a.tally pair solvedAt)).find k = some t' ∧ t.Becomes t' := by
  intro k t ht
  rw [Indexed.find_put, Ledger.tally_pair]
  split
  · subst k
    refine ⟨_, rfl, ?_, fun time hsolved => ?_⟩
    · rw [Ledger.tally, ht]
      exact Nat.le_succ _
    · rw [Ledger.tally, ht]
      show t.solvedAt.or solvedAt = some time
      rw [hsolved, Option.some_or]
  · exact ⟨t, ht, le_rfl, fun _ h => h⟩

theorem Grows.moves {a a' : Ledger} {call : Call F} {r : Reply} (h : a.Moves call r a') : Grows a a' := by
  have hfresh : ∀ {α κ : Type} [DecidableEq κ] {key : α → κ} {m : Indexed α key} {x : α}, m.find (key x) = none →
      ∀ y, m.Mem y → (m.put x).Mem y := by
    intro α κ _ key m x hx y hy
    refine Indexed.mem_put.mpr (Or.inr ⟨hy, fun he => ?_⟩)
    rw [Indexed.Mem, he, hx] at hy
    cases hy
  have hrefl := Grows.refl a
  cases h with
  | replaceProblems => exact ⟨hrefl.users, hrefl.submissions, hrefl.runs, hrefl.progress⟩
  | createUser _ hid => exact ⟨hfresh hid, hrefl.submissions, hrefl.runs, hrefl.progress⟩
  | createSubmission hid =>
    exact ⟨hrefl.users, fun s hs => ⟨s, hfresh hid s hs, .refl s⟩, hrefl.runs, hrefl.progress⟩
  | @setSubmissionStatus now _ _ s hs hcan =>
    exact ⟨hrefl.users, submissions_grow (Indexed.mem_of_find hs) (Submission.becomes_moved hcan now.time), hrefl.runs,
      hrefl.progress⟩
  | @finishSubmission now _ verdict s hs hcan =>
    refine ⟨hrefl.users, submissions_grow (Indexed.mem_of_find hs) (Submission.becomes_finished hcan verdict now.time),
      hrefl.runs, ?_⟩
    dsimp only
    split
    · exact progress_grows a _ _
    · exact hrefl.progress
  | recordRun hclaim => exact ⟨hrefl.users, hrefl.submissions, hfresh hclaim, hrefl.progress⟩

theorem Grows.step {a a' : Ledger} {x : Exchange F} (h : LedgerStep a x a') : Grows a a' := by
  cases h with
  | performs happly => exact .moves (Ledger.moves_of_apply happly)
  | refuses | fails | reads => exact .refl a

/-! ## Answers -/

/-- A submission with a verdict is `DONE`. -/
def DoneWhenJudged (a : Ledger) : Prop := ∀ s, a.submissions.Mem s → s.verdict.isSome → s.status = .done

theorem DoneWhenJudged.step {a a' : Ledger} (h : DoneWhenJudged a) {x : Exchange F} (hstep : LedgerStep a x a') :
    DoneWhenJudged a' := by
  cases hstep with
  | refuses | fails | reads => exact h
  | performs happly =>
    cases Ledger.moves_of_apply happly with
    | createUser | replaceProblems | recordRun => exact h
    | createSubmission =>
      intro s hs hv
      rcases Indexed.mem_put.mp hs with rfl | ⟨hs, -⟩
      · cases hv
      · exact h s hs hv
    | @setSubmissionStatus _ _ _ s₀ hs₀ hcan =>
      intro s hs hv
      rcases Indexed.mem_put.mp hs with rfl | ⟨hs, -⟩
      · exact absurd (h s₀ (Indexed.mem_of_find hs₀) hv) (SubmissionStatus.ne_done_of_canTransitionTo hcan)
      · exact h s hs hv
    | finishSubmission =>
      intro s hs hv
      rcases Indexed.mem_put.mp hs with rfl | ⟨hs, -⟩
      · rfl
      · exact h s hs hv

/-- What the answer `y` to a read owes an earlier answer `x`. The catalog can be swapped, so its reads owe nothing; of
two scans of the open submissions only what both list is compared; and a tally past `u32` cannot be read any more. -/
def Query.Later : (q : Query) → Except StoreError q.Answer → Except StoreError q.Answer → Prop
  | .user _, x, y | .userByHandle _, x, y => ∀ u, x = .ok u → y = .ok u
  | .problem _, _, _ | .problems, _, _ => True
  | .submission _, x, y => ∀ s, x = .ok s → ∃ s', y = .ok s' ∧ s.Becomes s'
  | .latestVerdictForHash .., x, y => ∀ s, x = .ok (some s) →
      ∃ s', y = .ok (some s') ∧ s'.status = .done ∧ (s' = s ∨ s.Before s')
  | .submissionsForUser _ limit, x, y => ∀ ss, x = .ok ss → ∃ ss', y = .ok ss' ∧ ss.length ≤ ss'.length ∧
      ∀ s ∈ ss, (∃ s' ∈ ss', s.Becomes s') ∨ ss'.length = limit.toNat ∧ ∀ s' ∈ ss', s.Before s'
  | .inFlightSubmissions, x, y => ∀ ss, x = .ok ss →
      ∃ ss', y = .ok ss' ∧ ∀ s ∈ ss, ∀ s' ∈ ss', s'.id = s.id → s.Becomes s'
  | .runsForSubmission _, x, y => ∀ rs, x = .ok rs → ∃ rs', y = .ok rs' ∧ rs.Sublist rs'
  | .progress .., x, y => ∀ p, x = .ok (some p) →
      (∃ p', y = .ok (some p') ∧ p.attempts ≤ p'.attempts ∧ ∀ t, p.solvedAt = some t → p'.solvedAt = some t) ∨
        ∃ attempts : Nat, 4294967296 ≤ attempts ∧
          y = .error (corrupt "user_progress" ("bad attempts " ++ toString (attempts : Int)))

section Later
variable {a b : Ledger} (h : Grows a b)
include h

/-- The submission that `s` has become, if it is listed at all. -/
theorem Grows.becomes {s s' : Submission} (hs : a.submissions.Mem s) (hs' : b.submissions.Mem s') (hid : s'.id = s.id) :
    s.Becomes s' := by
  obtain ⟨s'', hs'', hb⟩ := h.submissions s hs
  obtain rfl : s'' = s' := hs''.unique hs' (hb.id_eq.trans hid.symm)
  exact hb

theorem later_user {id : UserId} {x y : Except StoreError User} (hx : a.Answers F (.user id) x)
    (hy : b.Answers F (.user id) y) : Query.Later (.user id) x y := by
  rintro u rfl
  have hu := okOr_eq_ok_iff.mp (Eq.symm hx)
  have hmem := h.users u (Indexed.mem_of_find hu)
  rw [Indexed.Mem, a.users.key_of_find hu] at hmem
  exact Eq.trans hy (okOr_eq_ok_iff.mpr hmem)

theorem later_userByHandle {handle : String} {x y : Except StoreError User}
    (hx : a.Answers F (.userByHandle handle) x) (hy : b.Answers F (.userByHandle handle) y) :
    Query.Later (.userByHandle handle) x y := by
  rintro u rfl
  rcases hx with ⟨v, hv, he⟩ | ⟨-, he⟩
  · obtain rfl := Except.ok.inj he
    obtain ⟨hu, hhandle⟩ := (hv u).mp rfl
    have hub := h.users u hu
    rcases hy with ⟨w, hw, rfl⟩ | ⟨hnone, -⟩
    · rw [(hw u).mpr ⟨hub, hhandle⟩]
    · exact absurd hhandle (hnone u hub)
  · cases he

theorem later_submission {id : SubmissionId} {x y : Except StoreError Submission}
    (hx : a.Answers F (.submission id) x) (hy : b.Answers F (.submission id) y) : Query.Later (.submission id) x y := by
  rintro s rfl
  have hs := okOr_eq_ok_iff.mp (Eq.symm hx)
  obtain ⟨s', hs', hb⟩ := h.submissions s (Indexed.mem_of_find hs)
  rw [Indexed.Mem, hb.id_eq, a.submissions.key_of_find hs] at hs'
  exact ⟨s', Eq.trans hy (okOr_eq_ok_iff.mpr hs'), hb⟩

theorem later_latestVerdictForHash (hj : DoneWhenJudged a) (hj' : DoneWhenJudged b)
    {userId : UserId} {sourceHash : String}
    {x y : Except StoreError (Option Submission)} (hx : a.Answers F (.latestVerdictForHash userId sourceHash) x)
    (hy : b.Answers F (.latestVerdictForHash userId sourceHash) y) :
    Query.Later (.latestVerdictForHash userId sourceHash) x y := by
  rintro s rfl
  obtain ⟨ss, hss, he⟩ := hx
  obtain ⟨ss', hss', rfl⟩ := hy
  have hhead : ss.head? = some s := (Except.ok.inj he).symm
  obtain ⟨hs, huser, hhash, hv⟩ := (hss.mem_iff s).mp (List.mem_of_head? hhead)
  -- It has a verdict, so it is `DONE` and nothing moves it on.
  have hsb : b.submissions.Mem s := by
    obtain ⟨s', hs', hb⟩ := h.submissions s hs
    rwa [hb.done (hj s hs hv)] at hs'
  obtain ⟨s', hs', hbefore⟩ := hss'.head? ⟨hsb, huser, hhash, hv⟩
  obtain ⟨hmem, -, -, hv'⟩ := (hss'.mem_iff s').mp (List.mem_of_head? hs')
  exact ⟨s', congrArg Except.ok hs', hj' s' hmem hv', hbefore⟩

theorem later_submissionsForUser {userId : UserId} {limit : UInt32} {x y : Except StoreError (List Submission)}
    (hx : a.Answers F (.submissionsForUser userId limit) x) (hy : b.Answers F (.submissionsForUser userId limit) y) :
    Query.Later (.submissionsForUser userId limit) x y := by
  rintro ss₀ rfl
  obtain ⟨ss, hss, he⟩ := hx
  obtain ⟨ss', hss', rfl⟩ := hy
  obtain rfl := Except.ok.inj he
  have hasymm : ∀ s s' : Submission, s'.Before s → ¬s.Before s' := fun _ _ h => h.asymm
  have hbecomes : ∀ s ∈ ss, ∃ s', (b.submissions.Mem s' ∧ s'.userId = userId) ∧ s.Becomes s' := by
    intro s hs
    obtain ⟨hs, huser⟩ := (hss.mem_iff s).mp hs
    obtain ⟨s', hs', hb⟩ := h.submissions s hs
    refine ⟨s', ⟨hs', ?_⟩, hb⟩
    rw [hb.source, huser]
  refine ⟨_, rfl, ?_, fun s hs => ?_⟩
  · have hids : ss.map Submission.id ⊆ ss'.map Submission.id := by
      intro id hid
      obtain ⟨s, hs, rfl⟩ := List.mem_map.mp hid
      obtain ⟨s', hs', hb⟩ := hbecomes s hs
      exact List.mem_map.mpr ⟨s', (hss'.mem_iff s').mpr hs', hb.id_eq⟩
    have hnodup : (ss.map Submission.id).Nodup := by
      refine List.pairwise_map.mpr (hss.sorted.imp ?_)
      intro s s' hlt hid
      rw [Submission.Before, hid] at hlt
      exact BitVec.lt_irrefl _ hlt
    have hlength := (hnodup.subperm hids).length_le
    rw [List.length_map, List.length_map] at hlength
    rw [List.length_take, List.length_take]
    exact min_le_min_left _ hlength
  · obtain ⟨s', hs', hb⟩ := hbecomes s (List.mem_of_mem_take hs)
    rcases hss'.mem_take_or limit.toNat hs' with hmem | ⟨hlength, hnewer⟩
    · exact Or.inl ⟨s', hmem, hb⟩
    · refine Or.inr ⟨hlength, fun s'' hs'' => ?_⟩
      have hlt := hnewer s'' hs''
      rwa [Submission.Before, hb.id_eq] at hlt

theorem later_inFlightSubmissions {x y : Except StoreError (List Submission)}
    (hx : a.Answers F .inFlightSubmissions x) (hy : b.Answers F .inFlightSubmissions y) :
    Query.Later .inFlightSubmissions x y := by
  rintro ss₀ rfl
  obtain ⟨ss, hss, he⟩ := hx
  obtain ⟨ss', hss', rfl⟩ := hy
  obtain rfl := Except.ok.inj he
  exact ⟨ss', rfl, fun s hs s' hs' hid => h.becomes ((hss.mem_iff s).mp hs).1 ((hss'.mem_iff s').mp hs').1 hid⟩

theorem later_runsForSubmission {id : SubmissionId} {x y : Except StoreError (List Run)}
    (hx : a.Answers F (.runsForSubmission id) x) (hy : b.Answers F (.runsForSubmission id) y) :
    Query.Later (.runsForSubmission id) x y := by
  rintro rs₀ rfl
  obtain ⟨rs, hrs, he⟩ := hx
  obtain ⟨rs', hrs', rfl⟩ := hy
  obtain rfl := Except.ok.inj he
  exact ⟨rs', rfl, hrs.sublist (fun _ _ h => UInt32.lt_asymm h) hrs' fun r hr => ⟨h.runs r hr.1, hr.2⟩⟩

theorem later_progress {userId : UserId} {problemId : ProblemId} {x y : Except StoreError (Option UserProgress)}
    (hx : a.Answers F (.progress userId problemId) x) (hy : b.Answers F (.progress userId problemId) y) :
    Query.Later (.progress userId problemId) x y := by
  rintro p rfl
  simp only [Ledger.Answers] at hx hy
  cases ht : a.progress.find (userId, problemId) with
  | none =>
    rw [ht] at hx
    cases hx
  | some t =>
    rw [ht] at hx
    obtain ⟨t', ht', hb⟩ := h.progress _ t ht
    rw [ht'] at hy
    simp only [Tally.answer] at hx hy
    split at hx
    · rename_i hlt
      obtain rfl := Option.some.inj (Except.ok.inj hx)
      split at hy
      · rename_i hlt'
        refine Or.inl ⟨_, hy, ?_, hb.solvedAt⟩
        rw [UInt32.le_iff_toNat_le, UInt32.toNat_ofNat_of_lt' hlt, UInt32.toNat_ofNat_of_lt' hlt']
        exact hb.attempts
      · exact Or.inr ⟨t'.attempts, Nat.le_of_not_lt ‹_›, hy⟩
    · cases hx

/-- **The answers of a ledger do not go back.** -/
theorem later_of_grows (hj : DoneWhenJudged a) (hj' : DoneWhenJudged b) {q : Query} {x y : Except StoreError q.Answer}
    (hx : a.Answers F q x) (hy : b.Answers F q y) : q.Later x y := by
  cases q with
  | user id => exact later_user h hx hy
  | userByHandle handle => exact later_userByHandle h hx hy
  | problem | problems => trivial
  | submission id => exact later_submission h hx hy
  | latestVerdictForHash userId sourceHash => exact later_latestVerdictForHash h hj hj' hx hy
  | submissionsForUser userId limit => exact later_submissionsForUser h hx hy
  | inFlightSubmissions => exact later_inFlightSubmissions h hx hy
  | runsForSubmission id => exact later_runsForSubmission h hx hy
  | progress userId problemId => exact later_progress h hx hy

end Later

/-! ## Along an interleaving -/

theorem Grows.history {a b : Ledger} {h : List (Exchange F)} (hh : History LedgerStep a h b) : Grows a b :=
  hh.invariant (A := fun _ => True) (fun _ _ _ _ hgrows hstep => hgrows.trans (.step hstep)) (fun _ _ => trivial)
    (.refl a)

theorem DoneWhenJudged.history {a b : Ledger} (hj : DoneWhenJudged a) {h : List (Exchange F)}
    (hh : History LedgerStep a h b) : DoneWhenJudged b :=
  hh.invariant (A := fun _ => True) (fun _ _ _ _ hj hstep => hj.step hstep) (fun _ _ => trivial) hj

theorem doneWhenJudged_empty : DoneWhenJudged Ledger.empty := fun s hs => absurd hs (Indexed.not_mem_empty s)

/-- **Reads never go back:** of two equal reads in an interleaving after any run, the later owes the earlier its
answer. -/
theorem reads_never_go_back {ι : Type} [DecidableEq ι] (steps : List (Step F)) (calls : ι → Step F)
    {h₁ h₂ h₃ : List (Option (Seen ι))} {q : Query} {x y : Except StoreError q.Answer} {c : Calls ι}
    (hc : Interleaving calls (after Db.empty steps) (h₁ ++ some (.read q x) :: (h₂ ++ some (.read q y) :: h₃)) c) :
    q.Later x y := by
  obtain ⟨a₀, hpast, hrep⟩ := represents_after steps
  obtain ⟨a', hh, -⟩ := (linearized_of_watched hrep hc).history
  simp only [List.reduceOption_append, List.reduceOption_cons_of_some, List.map_append, List.map_cons, exchange,
    history_append_iff, history_cons_iff] at hh
  obtain ⟨a, ha, a₁, hfirst, b, hb, b₁, hsecond, -⟩ := hh
  have hj : DoneWhenJudged a := (doneWhenJudged_empty.history hpast).history ha
  cases hfirst with
  | reads hx =>
    cases hsecond with
    | reads hy => exact later_of_grows (.history hb) hj (hj.history hb) hx hy

/-- A submission read before and after one of two workers has finished it. -/
theorem reads_twoFinishes : ∃ x y, (.submission ⟨2⟩ : Query).Later x y ∧
    ∃ h c, Interleaving twoFinishes (after Db.empty (closingRun.take 4))
      (some (.read (.submission ⟨2⟩) x) :: (h ++ [some (.read (.submission ⟨2⟩) y)])) c := by
  have hfirst : Reaches exec (fun i => (twoFinishes i).prog) busy
      (Config.start (after Db.empty (closingRun.take 4))) _ := reaches_alone (i := true) rfl rfl
  obtain ⟨h, hh⟩ := exists_watched (Query.run _) hfirst
  have hread := ((History.single (.read (.submission ⟨2⟩))).append hh).snoc (.read (.submission ⟨2⟩))
  exact ⟨_, _, @reads_never_go_back _ _ _ (closingRun.take 4) twoFinishes [] h [] _ _ _ _ hread, h, _, hread⟩

end Satunera.Store
