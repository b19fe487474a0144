import Mathlib

/-!
# Byte offsets into a text

Rust's `str::char_indices` and `&s[..index]` on lists of characters. Slicing a text inside a character panics.

* `utf8Size` : the number of bytes of a text;
* `charIndices` : the characters with the offsets at which they start (`getElem?_charIndices`);
* `sliceTo` : the text up to an offset (`sliceTo_eq_some_iff`).
-/

namespace Satunera.Base

def utf8Size (cs : List Char) : Nat := (cs.map Char.utf8Size).sum

/-- `str::char_indices` of a text that starts at offset `i`. -/
def charIndices (i : Nat) : List Char → List (Nat × Char)
  | [] => []
  | c :: cs => (i, c) :: charIndices (i + c.utf8Size) cs

/-- `&s[..index]`; nothing where it panics. -/
def sliceTo (index : Nat) : List Char → Option (List Char)
  | [] => if index = 0 then some [] else none
  | c :: cs =>
    if index = 0 then some []
    else if c.utf8Size ≤ index then (sliceTo (index - c.utf8Size) cs).map (c :: ·)
    else none

variable {cs : List Char} {c : Char}

@[simp] theorem utf8Size_cons : utf8Size (c :: cs) = c.utf8Size + utf8Size cs := rfl

/-- Character number `n` starts where the `n` before it end. -/
theorem getElem?_charIndices (i n : Nat) :
    (charIndices i cs)[n]? = cs[n]?.map fun c => (i + utf8Size (cs.take n), c) := by
  induction cs generalizing i n with
  | nil => rfl
  | cons c cs ih =>
    cases n with
    | zero => rfl
    | succ n =>
      rw [charIndices, List.getElem?_cons_succ, ih, List.getElem?_cons_succ, List.take_succ_cons, utf8Size_cons,
        Nat.add_assoc]

/-- A text can be cut exactly between two characters. -/
theorem sliceTo_eq_some_iff {index : Nat} {a : List Char} :
    sliceTo index cs = some a ↔ ∃ b, cs = a ++ b ∧ utf8Size a = index := by
  induction cs generalizing index a with
  | nil =>
    unfold sliceTo
    constructor
    · intro h
      split at h
      · rename_i hzero
        cases h
        exact ⟨[], rfl, hzero.symm⟩
      · cases h
    · rintro ⟨b, hb, rfl⟩
      obtain ⟨rfl, -⟩ := List.nil_eq_append_iff.mp hb
      rfl
  | cons c cs ih =>
    have hpos := Char.utf8Size_pos c
    unfold sliceTo
    constructor
    · intro h
      split at h
      · rename_i hzero
        cases h
        exact ⟨c :: cs, rfl, hzero.symm⟩
      · split at h
        · rename_i hle
          obtain ⟨a', ha', rfl⟩ := Option.map_eq_some_iff.mp h
          obtain ⟨b, rfl, hsize⟩ := ih.mp ha'
          exact ⟨b, rfl, by rw [utf8Size_cons, hsize, Nat.add_sub_of_le hle]⟩
        · cases h
    · rintro ⟨b, hb, rfl⟩
      cases a with
      | nil => rfl
      | cons c' a =>
        obtain ⟨rfl, rfl⟩ := List.cons.inj hb
        rw [utf8Size_cons, if_neg (by omega), if_pos (Nat.le_add_right _ _), Nat.add_sub_cancel_left,
          ih.mpr ⟨b, rfl, rfl⟩]
        rfl

end Satunera.Base
