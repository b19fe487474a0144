import Mathlib

/-!
# JSON documents

A parsed document, with numbers as the parser keeps them and objects as sorted lists of members.

* `JsonNumber` : an unsigned or negative 64-bit integer, or a float (`JsonNumber.value`);
* `Json`, `Json.get?` : documents and the member of an object;
* `Json.equal` : equality by value, numbers of different kinds included;
* `Json.Canonical` : keys sorted without repetition and no float, as a serializer writes it.
-/

namespace Satunera.Base

/-- A number token: an integer of 64 bits where it fits, otherwise a float, which is a rational. -/
inductive JsonNumber
  | posInt (n : UInt64)
  /-- The integer `-(n + 1)`. -/
  | negInt (n : Fin (2 ^ 63))
  | float (q : ℚ)

namespace JsonNumber

def value : JsonNumber → ℚ
  | posInt n => n.toNat
  | negInt n => -(n + 1)
  | float q => q

/-- The number has no fractional part. -/
def isInteger (n : JsonNumber) : Bool := n.value.den = 1

@[simp] theorem value_posInt (n : UInt64) : (posInt n).value = n.toNat := rfl

@[simp] theorem isInteger_posInt (n : UInt64) : (posInt n).isInteger = true := by simp [isInteger]

end JsonNumber

/-- A document. -/
inductive Json
  | null
  | bool (b : Bool)
  | num (n : JsonNumber)
  | str (s : String)
  | arr (items : List Json)
  | obj (fields : List (String × Json))

namespace Json

/-- The member of an object's members with key `key`. -/
def find (key : String) (fields : List (String × Json)) : Option Json :=
  (fields.find? fun f => f.1 = key).map Prod.snd

/-- The member `key`, if the document is an object that has it. -/
def get? (key : String) : Json → Option Json
  | obj fields => find key fields
  | _ => none

def asBool : Json → Option Bool
  | bool b => some b
  | _ => none

def asStr : Json → Option String
  | str s => some s
  | _ => none

/-- Only tokens that are unsigned integers of 64 bits. -/
def asU64 : Json → Option UInt64
  | num (.posInt n) => some n
  | _ => none

def asObject : Json → Option (List (String × Json))
  | obj fields => some fields
  | _ => none

@[simp] theorem find_nil (key : String) : find key [] = none := rfl

theorem find_cons (key : String) (f : String × Json) (fields : List (String × Json)) :
    find key (f :: fields) = if f.1 = key then some f.2 else find key fields := by
  rw [find, List.find?_cons]
  by_cases h : f.1 = key <;> simp [h, find]

/-! ## Equality by value -/

mutual

/-- Equal as values. -/
def equal : Json → Json → Bool
  | null, null => true
  | bool a, bool b => a == b
  | num m, num n => m.value == n.value
  | str s, str t => s == t
  | arr xs, arr ys => equalItems xs ys
  | obj fs, obj gs => equalFields fs gs
  | _, _ => false

def equalItems : List Json → List Json → Bool
  | [], [] => true
  | x :: xs, y :: ys => equal x y && equalItems xs ys
  | _, _ => false

def equalFields : List (String × Json) → List (String × Json) → Bool
  | [], [] => true
  | (k, x) :: fs, (l, y) :: gs => k == l && equal x y && equalFields fs gs
  | _, _ => false

end

theorem equal_bool {b : Bool} {v : Json} : equal (bool b) v = true ↔ v = bool b := by
  cases v <;> simp only [equal, beq_iff_eq, bool.injEq, reduceCtorEq, Bool.false_eq_true]
  exact eq_comm

theorem equal_str {s : String} {v : Json} : equal (str s) v = true ↔ v = str s := by
  cases v <;> simp only [equal, beq_iff_eq, str.injEq, reduceCtorEq, Bool.false_eq_true]
  exact eq_comm

theorem equal_num {m : JsonNumber} {v : Json} : equal (num m) v = true ↔ ∃ n, v = num n ∧ n.value = m.value := by
  cases v <;> simp only [equal, beq_iff_eq, num.injEq, reduceCtorEq, Bool.false_eq_true, false_and, exists_false]
  exact ⟨fun h => ⟨_, rfl, h.symm⟩, fun ⟨_, hn, h⟩ => hn ▸ h.symm⟩

/-! ## What a serializer writes -/

mutual

/-- Keys in order, without repetition, and no float. -/
def Canonical : Json → Prop
  | null | bool _ | str _ | num (.posInt _) | num (.negInt _) => True
  | num (.float _) => False
  | arr xs => CanonicalItems xs
  | obj fs => (fs.map Prod.fst).Pairwise (· < ·) ∧ CanonicalFields fs

def CanonicalItems : List Json → Prop
  | [] => True
  | x :: xs => Canonical x ∧ CanonicalItems xs

def CanonicalFields : List (String × Json) → Prop
  | [] => True
  | (_, x) :: fs => Canonical x ∧ CanonicalFields fs

end

theorem canonicalItems_iff {xs : List Json} : CanonicalItems xs ↔ ∀ x ∈ xs, Canonical x := by
  induction xs with
  | nil => simp [CanonicalItems]
  | cons x xs ih => simp [CanonicalItems, ih]

end Json

end Satunera.Base
