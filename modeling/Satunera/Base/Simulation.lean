import Mathlib

/-!
# Machines and their histories

A machine is a relation that takes a state to a state under a label; the label is all that is seen of a step.

* `History` : the labels of a run, oldest first (`history_nil_iff`, `history_snoc_iff`, `history_append_iff`,
  `history_cons_iff`);
* `Simulates` : every step of one machine can be answered by the other under the same label, and the states stay
  related (`Simulates.history`); machines that simulate each other have the same histories (`history_iff`);
* `History.map` : a machine run under other labels;
* `History.invariant` : what every step with a label in `A` keeps, every run of such steps keeps.
-/

namespace Satunera.Base

/-- A state, a label and the state after. -/
abbrev Machine (Λ σ : Type) := σ → Λ → σ → Prop

/-- The labels of a run from `s` to `t`. -/
inductive History {Λ σ : Type} (M : Machine Λ σ) (s : σ) : List Λ → σ → Prop
  | nil : History M s [] s
  | snoc {h t l u} : History M s h t → M t l u → History M s (h ++ [l]) u

section Runs
variable {Λ Λ' σ τ : Type} {M : Machine Λ σ} {N : Machine Λ τ}

theorem History.single {s t : σ} {l : Λ} (h : M s l t) : History M s [l] t := .snoc .nil h

theorem History.append {s t u : σ} {h h' : List Λ} (hs : History M s h t) (ht : History M t h' u) :
    History M s (h ++ h') u := by
  induction ht with
  | nil => rwa [List.append_nil]
  | snoc _ hl ih =>
    rw [← List.append_assoc]
    exact ih.snoc hl

@[simp] theorem history_nil_iff {s t : σ} : History M s [] t ↔ t = s := by
  refine ⟨fun h => ?_, fun h => h ▸ .nil⟩
  generalize hg : ([] : List Λ) = g at h
  cases h with
  | nil => rfl
  | snoc => simp at hg

theorem history_snoc_iff {s u : σ} {h : List Λ} {l : Λ} :
    History M s (h ++ [l]) u ↔ ∃ t, History M s h t ∧ M t l u := by
  refine ⟨fun hs => ?_, fun ⟨t, ht, hl⟩ => ht.snoc hl⟩
  generalize hg : h ++ [l] = g at hs
  cases hs with
  | nil => simp at hg
  | @snoc h' t l' _ ht hl =>
    obtain ⟨rfl, hll⟩ := List.append_inj' hg rfl
    obtain rfl : l = l' := by simpa using hll
    exact ⟨t, ht, hl⟩

theorem history_append_iff {s u : σ} {h h' : List Λ} :
    History M s (h ++ h') u ↔ ∃ t, History M s h t ∧ History M t h' u := by
  refine ⟨fun hs => ?_, fun ⟨t, ht, hu⟩ => ht.append hu⟩
  induction h' using List.reverseRecOn generalizing u with
  | nil => exact ⟨u, by rwa [List.append_nil] at hs, .nil⟩
  | append_singleton h' l ih =>
    rw [← List.append_assoc] at hs
    obtain ⟨v, hv, hl⟩ := history_snoc_iff.mp hs
    obtain ⟨t, ht, hvt⟩ := ih hv
    exact ⟨t, ht, hvt.snoc hl⟩

theorem history_cons_iff {s u : σ} {h : List Λ} {l : Λ} : History M s (l :: h) u ↔ ∃ t, M s l t ∧ History M t h u := by
  have hsplit : l :: h = [l] ++ h := rfl
  rw [hsplit, history_append_iff]
  refine exists_congr fun t => and_congr_left fun _ => ⟨fun hl => ?_, History.single⟩
  rw [← List.nil_append [l], history_snoc_iff] at hl
  obtain ⟨s', hs', hl⟩ := hl
  rwa [history_nil_iff.mp hs'] at hl

theorem History.map {N : Machine Λ' σ} {f : Λ → Λ'} (hf : ∀ s l t, M s l t → N s (f l) t) {s t : σ} {h : List Λ}
    (hs : History M s h t) : History N s (h.map f) t := by
  induction hs with
  | nil => exact .nil
  | snoc _ hl ih =>
    rw [List.map_append]
    exact ih.snoc (hf _ _ _ hl)

/-- What every step keeps, every run keeps. -/
theorem History.invariant {P : σ → Prop} {A : Λ → Prop} (hP : ∀ s l t, A l → P s → M s l t → P t) {s t : σ}
    {h : List Λ} (hs : History M s h t) (hA : ∀ l ∈ h, A l) (hp : P s) : P t := by
  induction hs with
  | nil => exact hp
  | snoc _ hl ih => exact hP _ _ _ (hA _ (by simp)) (ih fun l hl => hA l (List.mem_append_left _ hl)) hl

/-! ## Simulation -/

/-- `N` answers every step of `M` under the same label, along `R`. -/
def Simulates (M : Machine Λ σ) (N : Machine Λ τ) (R : σ → τ → Prop) : Prop :=
  ∀ s t l s', R s t → M s l s' → ∃ t', N t l t' ∧ R s' t'

/-- **What a machine does, a machine that simulates it does.** -/
theorem Simulates.history {R : σ → τ → Prop} (hsim : Simulates M N R) {s s' : σ} {t : τ} {h : List Λ}
    (hs : History M s h s') (hst : R s t) : ∃ t', History N t h t' ∧ R s' t' := by
  induction hs with
  | nil => exact ⟨t, .nil, hst⟩
  | snoc _ hl ih =>
    obtain ⟨u, hu, hr⟩ := ih
    obtain ⟨t', ht, hr'⟩ := hsim _ _ _ _ hr hl
    exact ⟨t', hu.snoc ht, hr'⟩

/-- **Machines that simulate each other have the same histories.** -/
theorem history_iff {R : σ → τ → Prop} (hsim : Simulates M N R) (hsim' : Simulates N M fun t s => R s t) {s : σ} {t : τ}
    (hst : R s t) (h : List Λ) : (∃ s', History M s h s') ↔ ∃ t', History N t h t' := by
  constructor
  · rintro ⟨s', hs⟩
    obtain ⟨t', ht, -⟩ := hsim.history hs hst
    exact ⟨t', ht⟩
  · rintro ⟨t', ht⟩
    obtain ⟨s', hs, -⟩ := hsim'.history ht hst
    exact ⟨s', hs⟩

end Runs

end Satunera.Base
