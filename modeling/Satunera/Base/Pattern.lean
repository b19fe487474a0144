import Mathlib

/-!
# Patterns of words

The regular expressions behind identifiers: letters of a class, one or more of them, words with a separator between.

* `charClass_rmatch_iff`, `oneOrMore_charClass_rmatch_iff`, `separated_rmatch_iff` : what they match.
-/

namespace Satunera.Base

open RegularExpression

section Pattern
variable {α : Type} [DecidableEq α]

/-- One letter of `cs`. -/
def charClass (cs : List α) : RegularExpression α := cs.foldr (fun c r => char c + r) 0

/-- One or more of `r`. -/
def oneOrMore (r : RegularExpression α) : RegularExpression α := r * r.star

/-- One or more of `r`, with `sep` between them. -/
def separated (sep : α) (r : RegularExpression α) : RegularExpression α := r * (char sep * r).star

theorem charClass_rmatch_iff {cs x : List α} : (charClass cs).rmatch x = true ↔ ∃ c ∈ cs, x = [c] := by
  induction cs with
  | nil => simp [charClass]
  | cons c cs ih =>
    show (char c + charClass cs).rmatch x = true ↔ _
    rw [add_rmatch_iff, char_rmatch_iff, ih]
    simp

theorem oneOrMore_charClass_rmatch_iff {cs x : List α} :
    (oneOrMore (charClass cs)).rmatch x = true ↔ x ≠ [] ∧ ∀ c ∈ x, c ∈ cs := by
  rw [oneOrMore, mul_rmatch_iff]
  simp only [charClass_rmatch_iff, star_rmatch_iff]
  constructor
  · rintro ⟨_, _, rfl, ⟨c, hc, rfl⟩, S, rfl, hS⟩
    refine ⟨by simp, fun d hd => ?_⟩
    rcases List.mem_append.mp hd with hd | hd
    · rwa [List.mem_singleton.mp hd]
    · obtain ⟨t, ht, hdt⟩ := List.mem_flatten.mp hd
      obtain ⟨-, e, he, rfl⟩ := hS t ht
      rwa [List.mem_singleton.mp hdt]
  · rintro ⟨hne, hall⟩
    cases x with
    | nil => exact absurd rfl hne
    | cons c x =>
      refine ⟨[c], x, rfl, ⟨c, hall c (List.mem_cons_self ..), rfl⟩, x.map fun d => [d], ?_, ?_⟩
      · rw [← List.flatMap_def, List.flatMap_singleton']
      · intro t ht
        obtain ⟨d, hd, rfl⟩ := List.mem_map.mp ht
        exact ⟨by simp, d, hall d (List.mem_cons_of_mem _ hd), rfl⟩

omit [DecidableEq α] in
theorem intercalate_cons (sep : α) (g : List α) (gs : List (List α)) :
    [sep].intercalate (g :: gs) = g ++ (gs.map (sep :: ·)).flatten := by
  induction gs generalizing g with
  | nil => simp [List.intercalate]
  | cons h gs ih =>
    have : [sep].intercalate (g :: h :: gs) = g ++ sep :: [sep].intercalate (h :: gs) := by
      simp [List.intercalate, List.intersperse]
    rw [this, ih]
    simp

theorem separated_rmatch_iff {sep : α} {r : RegularExpression α} {x : List α} :
    (separated sep r).rmatch x = true ↔
      ∃ groups, groups ≠ [] ∧ (∀ g ∈ groups, r.rmatch g = true) ∧ x = [sep].intercalate groups := by
  rw [separated, mul_rmatch_iff]
  simp only [star_rmatch_iff, mul_rmatch_iff, char_rmatch_iff]
  constructor
  · rintro ⟨g, _, rfl, hg, S, rfl, hS⟩
    have hmap : ∃ gs : List (List α), S = gs.map (sep :: ·) ∧ ∀ h ∈ gs, r.rmatch h = true := by
      clear hg
      induction S with
      | nil => exact ⟨[], rfl, nofun⟩
      | cons t S ih =>
        obtain ⟨-, _, h, rfl, rfl, hh⟩ := hS t (List.mem_cons_self ..)
        obtain ⟨gs, rfl, hgs⟩ := ih fun t' ht' => hS t' (List.mem_cons_of_mem _ ht')
        exact ⟨h :: gs, rfl, List.forall_mem_cons.mpr ⟨hh, hgs⟩⟩
    obtain ⟨gs, rfl, hgs⟩ := hmap
    exact ⟨g :: gs, by simp, List.forall_mem_cons.mpr ⟨hg, hgs⟩, (intercalate_cons sep g gs).symm⟩
  · rintro ⟨groups, hne, hall, rfl⟩
    cases groups with
    | nil => exact absurd rfl hne
    | cons g gs =>
      obtain ⟨hg, hgs⟩ := List.forall_mem_cons.mp hall
      refine ⟨g, _, intercalate_cons sep g gs, hg, gs.map (sep :: ·), rfl, fun t ht => ?_⟩
      obtain ⟨h, hh, rfl⟩ := List.mem_map.mp ht
      exact ⟨by simp, [sep], h, rfl, rfl, hgs h hh⟩

end Pattern

end Satunera.Base
