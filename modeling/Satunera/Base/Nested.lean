import Mathlib

/-!
# Listings below a start

What is kept at or below a location is listed by name. Two such listings never overlap by halves.

* `NestedOrApart` : one list holds the other, or they share nothing;
* `ListsBelow` : the names, in order, of what is kept at a start or below it;
* `ListsBelow.sublist`, `ListsBelow.disjoint` : starts one below the other, and starts apart;
* `ListsBelow.nestedOrApart` : any two starts.
-/

namespace Satunera.Base

/-- One list holds the other, in order, or they have nothing in common. -/
def NestedOrApart {β : Type} (xs ys : List β) : Prop := xs.Sublist ys ∨ ys.Sublist xs ∨ xs.Disjoint ys

theorem NestedOrApart.nil_left {β : Type} (ys : List β) : NestedOrApart [] ys := Or.inl (List.nil_sublist ys)

theorem NestedOrApart.nil_right {β : Type} (xs : List β) : NestedOrApart xs [] := Or.inr (Or.inl (List.nil_sublist xs))

/-- The names, in order, of what is kept at a start or below it. -/
structure ListsBelow {α β : Type} [LT β] (kept : List α → Prop) (name : List α → β) (start : List α) (out : List β) :
    Prop where
  sorted : out.Pairwise (· < ·)
  mem_iff : ∀ b, b ∈ out ↔ ∃ l, start <+: l ∧ kept l ∧ name l = b

namespace ListsBelow
variable {α β : Type} [LinearOrder β] {kept : List α → Prop} {name : List α → β} {start start' : List α}
  {out out' : List β}

theorem sublist (h : ListsBelow kept name start out) (h' : ListsBelow kept name start' out')
    (hbelow : start' <+: start) : out.Sublist out' := by
  have hsub : out ⊆ out' := by
    intro b hb
    obtain ⟨l, hl, hkept, hname⟩ := (h.mem_iff b).mp hb
    exact (h'.mem_iff b).mpr ⟨l, hbelow.trans hl, hkept, hname⟩
  have hnodup : out.Nodup := h.sorted.imp ne_of_lt
  exact List.sublist_of_subperm_of_pairwise (List.subperm_of_subset hnodup hsub) h.sorted h'.sorted

/-- Where names tell what is kept apart, so do starts of which neither is below the other. -/
theorem disjoint (hinj : ∀ l l', kept l → kept l' → name l = name l' → l = l') (h : ListsBelow kept name start out)
    (h' : ListsBelow kept name start' out') (hne : ¬ start <+: start') (hne' : ¬ start' <+: start) :
    out.Disjoint out' := by
  intro b hb hb'
  obtain ⟨l, hl, hkept, hname⟩ := (h.mem_iff b).mp hb
  obtain ⟨l', hl', hkept', hname'⟩ := (h'.mem_iff b).mp hb'
  obtain rfl := hinj l l' hkept hkept' (hname.trans hname'.symm)
  rcases List.prefix_or_prefix_of_prefix hl hl' with hbelow | hbelow
  · exact hne hbelow
  · exact hne' hbelow

/-- Two listings are nested or apart. -/
theorem nestedOrApart (hinj : ∀ l l', kept l → kept l' → name l = name l' → l = l')
    (h : ListsBelow kept name start out) (h' : ListsBelow kept name start' out') : NestedOrApart out out' := by
  by_cases hbelow : start' <+: start
  · exact Or.inl (h.sublist h' hbelow)
  · by_cases hbelow' : start <+: start'
    · exact Or.inr (Or.inl (h'.sublist h hbelow'))
    · exact Or.inr (Or.inr (h.disjoint hinj h' hbelow' hbelow))

end ListsBelow

end Satunera.Base
