import Satunera.Base.Simulation

/-!
# Machines made of parts

Every step of a machine concerns one part of its state: it is answered from that part and leaves the others.

* `Parts` : what makes it so, with `Same c s t` for states that agree on part `c`;
* `Parts.part_of_history` : the steps of one part alone are a run, and leave that part as the whole run does;
* `Parts.history_iff` : steps are a run exactly when the steps of each part are;
* `Parts.reorder` : steps of different parts can be taken in any order.
-/

namespace Satunera.Base

/-- The steps `A` of a machine each concern one part of the state, on which `Same` compares two states. A state that
does not agree with itself is not one the machine gets to. -/
structure Parts {Λ σ C : Type} (M : Machine Λ σ) (A : Λ → Prop) (part : Λ → C) (Same : C → σ → σ → Prop) : Prop where
  symm {c s t} : Same c s t → Same c t s
  trans {c s t u} : Same c s t → Same c t u → Same c s u
  /-- A step leaves the other parts. -/
  frame {c s l s'} : A l → part l ≠ c → Same c s s → M s l s' → Same c s' s
  /-- Whether there is a step depends on its part alone. -/
  answers {s t l s'} : A l → Same (part l) s t → M s l s' → ∃ t', M t l t'
  /-- So does what the step makes of that part. -/
  follows {s t l s' t'} : A l → Same (part l) s t → M s l s' → M t l t' → Same (part l) s' t'

namespace Parts
variable {Λ σ C : Type} {M : Machine Λ σ} {A : Λ → Prop} {part : Λ → C} {Same : C → σ → σ → Prop}
  (hp : Parts M A part Same) {s : σ}
include hp

theorem refl_left {c : C} {t u : σ} (h : Same c t u) : Same c t t := hp.trans h (hp.symm h)

variable [DecidableEq C]

/-- **The steps of one part are a run of their own**, and it ends in the same part. -/
theorem part_of_history {c : C} (hs : Same c s s) {h : List Λ} (hA : ∀ l ∈ h, A l) {t : σ} (hh : History M s h t) :
    ∃ u, History M s (h.filter fun l => part l = c) u ∧ Same c t u := by
  induction hh with
  | nil => exact ⟨s, .nil, hs⟩
  | @snoc h t l t' _ hl ih =>
    obtain ⟨u, hu, hsame⟩ := ih fun l hl => hA l (List.mem_append_left _ hl)
    have hAl : A l := hA l (by simp)
    by_cases hc : part l = c
    · subst hc
      obtain ⟨u', hu'⟩ := hp.answers hAl hsame hl
      exact ⟨u', by simpa using hu.snoc hu', hp.follows hAl hsame hl hu'⟩
    · exact ⟨u, by simpa [hc] using hu, hp.trans (hp.frame hAl hc (hp.refl_left hsame) hl) hsame⟩

/-- Runs of the parts make a run of the whole, which ends in the parts they end in. -/
theorem history_of_parts (hs : ∀ c, Same c s s) {h : List Λ} (hA : ∀ l ∈ h, A l)
    (hparts : ∀ c, ∃ u, History M s (h.filter fun l => part l = c) u) :
    ∃ t, History M s h t ∧ ∀ c u, History M s (h.filter fun l => part l = c) u → Same c t u := by
  induction h using List.reverseRecOn with
  | nil =>
    refine ⟨s, .nil, fun c u hu => ?_⟩
    obtain rfl := history_nil_iff.mp hu
    exact hs c
  | append_singleton h l ih =>
    have hAl : A l := hA l (by simp)
    have hother : ∀ {c}, part l ≠ c → (h ++ [l]).filter (fun l => part l = c) = h.filter fun l => part l = c := by
      intro c hc
      simp [hc]
    have hown : (h ++ [l]).filter (fun k => part k = part l) = h.filter (fun k => part k = part l) ++ [l] := by simp
    obtain ⟨t, ht, hsame⟩ := ih (fun l hl => hA l (List.mem_append_left _ hl)) fun c => by
      obtain ⟨u, hu⟩ := hparts c
      by_cases hc : part l = c
      · subst hc
        rw [hown, history_snoc_iff] at hu
        obtain ⟨v, hv, -⟩ := hu
        exact ⟨v, hv⟩
      · exact ⟨u, by rwa [hother hc] at hu⟩
    obtain ⟨u, hu⟩ := hparts (part l)
    rw [hown, history_snoc_iff] at hu
    obtain ⟨v, hv, hvu⟩ := hu
    obtain ⟨t', ht'⟩ := hp.answers hAl (hp.symm (hsame _ v hv)) hvu
    refine ⟨t', ht.snoc ht', fun c w hw => ?_⟩
    by_cases hc : part l = c
    · subst hc
      rw [hown, history_snoc_iff] at hw
      obtain ⟨v', hv', hvw⟩ := hw
      exact hp.follows hAl (hsame _ v' hv') ht' hvw
    · rw [hother hc] at hw
      exact hp.trans (hp.frame hAl hc (hp.refl_left (hsame c w hw)) ht') (hsame c w hw)

/-- **Steps are a run exactly when the steps of each part are.** -/
theorem history_iff (hs : ∀ c, Same c s s) {h : List Λ} (hA : ∀ l ∈ h, A l) :
    (∃ t, History M s h t) ↔ ∀ c, ∃ t, History M s (h.filter fun l => part l = c) t := by
  constructor
  · rintro ⟨t, ht⟩ c
    obtain ⟨u, hu, -⟩ := hp.part_of_history (hs c) hA ht
    exact ⟨u, hu⟩
  · intro hparts
    obtain ⟨t, ht, -⟩ := hp.history_of_parts hs hA hparts
    exact ⟨t, ht⟩

/-- **Steps of different parts can be taken in any order**, and every part ends the same. -/
theorem reorder (hs : ∀ c, Same c s s) {h h' : List Λ} (hA : ∀ l ∈ h, A l)
    (hsame : ∀ c, h.filter (fun l => part l = c) = h'.filter fun l => part l = c) {t : σ} (ht : History M s h t) :
    ∃ t', History M s h' t' ∧ ∀ c, Same c t t' := by
  have hA' : ∀ l ∈ h', A l := by
    intro l hl
    have hmem : l ∈ h'.filter fun k => part k = part l := List.mem_filter.mpr ⟨hl, decide_eq_true rfl⟩
    rw [← hsame] at hmem
    exact hA l (List.mem_of_mem_filter hmem)
  obtain ⟨t', ht', hparts⟩ := hp.history_of_parts hs hA' fun c => by
    obtain ⟨u, hu, -⟩ := hp.part_of_history (hs c) hA ht
    exact ⟨u, hsame c ▸ hu⟩
  refine ⟨t', ht', fun c => ?_⟩
  obtain ⟨u, hu, htu⟩ := hp.part_of_history (hs c) hA ht
  exact hp.trans htu (hp.symm (hparts c u (hsame c ▸ hu)))

end Parts

end Satunera.Base
