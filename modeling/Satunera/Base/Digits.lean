import Mathlib

/-!
# Fixed-width numerals

* `digits` : the `n` digits of a number, most significant first;
* `digits_lt_iff` : with digits in increasing order, text order is numeric order;
* `ofDigits`, `ofDigits_digits` : reading the number back.
-/

namespace Satunera.Base

section Digits
variable (base : Nat) (digit : Nat → Char)

/-- The `n` digits of `x` in base `base`, most significant first. -/
def digits : Nat → Nat → List Char
  | 0, _ => []
  | n + 1, x => digit (x / base ^ n) :: digits n (x % base ^ n)

/-- The number written by a list of digits. -/
def ofDigits (value : Char → Option Nat) : List Char → Option Nat
  | [] => some 0
  | c :: cs => do
    let v ← value c
    let rest ← ofDigits value cs
    return v * base ^ cs.length + rest

variable {base digit}

@[simp] theorem length_digits (n x : Nat) : (digits base digit n x).length = n := by
  induction n generalizing x with
  | zero => rfl
  | succ n ih => simp [digits, ih]

theorem mem_digits {n x : Nat} (hx : x < base ^ n) {c : Char} (h : c ∈ digits base digit n x) :
    ∃ i < base, c = digit i := by
  induction n generalizing x with
  | zero => cases h
  | succ n ih =>
    have hpos : 0 < base ^ n := Nat.pos_of_ne_zero fun h0 => by rw [pow_succ, h0, zero_mul] at hx; cases hx
    rcases List.mem_cons.mp h with rfl | h
    · exact ⟨_, Nat.div_lt_of_lt_mul (by rwa [pow_succ] at hx), rfl⟩
    · exact ih (Nat.mod_lt _ hpos) h

theorem digits_lt_iff (hdigit : ∀ i < base, ∀ j < base, (digit i < digit j ↔ i < j)) {n x y : Nat}
    (hx : x < base ^ n) (hy : y < base ^ n) : digits base digit n x < digits base digit n y ↔ x < y := by
  induction n generalizing x y with
  | zero =>
    rw [pow_zero, Nat.lt_one_iff] at hx hy
    simp [digits, hx, hy]
  | succ n ih =>
    have hpos : 0 < base ^ n := Nat.pos_of_ne_zero fun h0 => by rw [pow_succ, h0, zero_mul] at hx; cases hx
    rw [pow_succ] at hx hy
    have hqx : x / base ^ n < base := Nat.div_lt_of_lt_mul hx
    have hqy : y / base ^ n < base := Nat.div_lt_of_lt_mul hy
    have hdx := Nat.div_add_mod x (base ^ n)
    have hdy := Nat.div_add_mod y (base ^ n)
    have hrx := Nat.mod_lt x hpos
    have hry := Nat.mod_lt y hpos
    simp only [digits, List.cons_lt_cons_iff]
    rw [hdigit _ hqx _ hqy]
    rcases lt_trichotomy (x / base ^ n) (y / base ^ n) with h | h | h
    · have : x < y := by
        calc x < base ^ n * (x / base ^ n + 1) := by rw [mul_add, mul_one]; omega
          _ ≤ base ^ n * (y / base ^ n) := Nat.mul_le_mul_left _ h
          _ ≤ y := Nat.mul_div_le _ _
      exact ⟨fun _ => this, fun _ => Or.inl h⟩
    · rw [h] at hdx
      simp only [h, lt_irrefl, true_and, false_or]
      rw [ih hrx hry]
      omega
    · have hyx : y < x := by
        calc y < base ^ n * (y / base ^ n + 1) := by rw [mul_add, mul_one]; omega
          _ ≤ base ^ n * (x / base ^ n) := Nat.mul_le_mul_left _ h
          _ ≤ x := Nat.mul_div_le _ _
      refine ⟨?_, fun hlt => absurd hyx (by omega)⟩
      rintro (h' | ⟨h', -⟩)
      · omega
      · have := (hdigit _ hqy _ hqx).mpr h
        rw [h'] at this
        exact absurd this (lt_irrefl _)

theorem ofDigits_digits {value : Char → Option Nat} (hvalue : ∀ i < base, value (digit i) = some i) {n x : Nat}
    (hx : x < base ^ n) : ofDigits base value (digits base digit n x) = some x := by
  induction n generalizing x with
  | zero =>
    rw [pow_zero, Nat.lt_one_iff] at hx
    rw [hx]
    rfl
  | succ n ih =>
    have hpos : 0 < base ^ n := Nat.pos_of_ne_zero fun h0 => by rw [pow_succ, h0, zero_mul] at hx; cases hx
    rw [pow_succ] at hx
    have hq : x / base ^ n < base := Nat.div_lt_of_lt_mul hx
    simp only [digits, ofDigits, hvalue _ hq, ih (Nat.mod_lt _ hpos), length_digits]
    exact congrArg some (by rw [mul_comm]; exact Nat.div_add_mod x (base ^ n))

end Digits

end Satunera.Base
