import Satunera.Base.Json

/-!
# JSON Schema

The keywords of draft 2020-12 that the schemas use, as data, and their meaning.

* `Schema`, `Schema.valid` : keywords and the documents they accept; a keyword about one kind of value accepts every
  other kind;
* `valid_string_iff`, `valid_integer_iff`, ... : schemas that fix the type of a value;
* `Schema.object` : an object with required and optional members and no others (`valid_object_iff`).
-/

namespace Satunera.Base

inductive JsonType
  | object
  | array
  | string
  | boolean
  | integer
  deriving DecidableEq

/-- `integer` admits any number without a fractional part. -/
def JsonType.admits : JsonType → Json → Bool
  | object, .obj _ => true
  | array, .arr _ => true
  | string, .str _ => true
  | boolean, .bool _ => true
  | integer, .num n => n.isInteger
  | _, _ => false

/-- A keyword, or several together. -/
inductive Schema
  | type (t : JsonType)
  | const (v : Json)
  | enum (vs : List Json)
  | minLength (n : Nat)
  | maxLength (n : Nat)
  | pattern (p : RegularExpression Char)
  | minimum (q : ℚ)
  | maximum (q : ℚ)
  | minItems (n : Nat)
  | uniqueItems
  | items (s : Schema)
  | required (keys : List String)
  /-- One entry of `properties`. -/
  | property (key : String) (s : Schema)
  /-- `additionalProperties: false` beside `properties` with these keys. -/
  | noOther (keys : List String)
  | ifThen (condition consequence : Schema)
  | allOf (ss : List Schema)

namespace Schema

/-- No two elements are equal as values. -/
def allDistinct : List Json → Bool
  | [] => true
  | v :: vs => vs.all (fun w => !v.equal w) && allDistinct vs

mutual

/-- The document satisfies the schema. -/
def valid : Schema → Json → Bool
  | type t, d => t.admits d
  | const v, d => v.equal d
  | enum vs, d => vs.any fun v => v.equal d
  | minLength n, .str s => n ≤ s.length
  | maxLength n, .str s => s.length ≤ n
  | pattern p, .str s => p.rmatch s.toList
  | minimum q, .num n => q ≤ n.value
  | maximum q, .num n => n.value ≤ q
  | minItems n, .arr xs => n ≤ xs.length
  | uniqueItems, .arr xs => allDistinct xs
  | items s, .arr xs => xs.all fun x => s.valid x
  | required keys, .obj fields => keys.all fun key => (Json.find key fields).isSome
  | property key s, .obj fields =>
    match Json.find key fields with
    | some v => s.valid v
    | none => true
  | noOther keys, .obj fields => fields.all fun f => keys.contains f.1
  | ifThen c s, d => !c.valid d || s.valid d
  | allOf ss, d => allValid ss d
  | _, _ => true

def allValid : List Schema → Json → Bool
  | [], _ => true
  | s :: ss, d => s.valid d && allValid ss d

end

theorem allValid_iff {ss : List Schema} {d : Json} : allValid ss d = true ↔ ∀ s ∈ ss, s.valid d = true := by
  induction ss with
  | nil => exact ⟨fun _ => nofun, fun _ => rfl⟩
  | cons s ss ih =>
    show (s.valid d && allValid ss d) = true ↔ _
    rw [Bool.and_eq_true, ih, List.forall_mem_cons]

@[simp] theorem valid_allOf_iff {ss : List Schema} {d : Json} :
    (allOf ss).valid d = true ↔ ∀ s ∈ ss, s.valid d = true := allValid_iff

/-! ## Keywords -/

section Keywords
variable {s : String} {xs : List Json} {fields : List (String × Json)} {d : Json}

theorem valid_type {t : JsonType} : (type t).valid d = t.admits d := rfl

@[simp] theorem valid_minLength_str {n : Nat} : (minLength n).valid (.str s) = true ↔ n ≤ s.length :=
  decide_eq_true_iff

@[simp] theorem valid_maxLength_str {n : Nat} : (maxLength n).valid (.str s) = true ↔ s.length ≤ n :=
  decide_eq_true_iff

@[simp] theorem valid_pattern_str {p : RegularExpression Char} : (pattern p).valid (.str s) = p.rmatch s.toList := rfl

@[simp] theorem valid_minimum_num {q : ℚ} {n : JsonNumber} : (minimum q).valid (.num n) = true ↔ q ≤ n.value :=
  decide_eq_true_iff

@[simp] theorem valid_maximum_num {q : ℚ} {n : JsonNumber} : (maximum q).valid (.num n) = true ↔ n.value ≤ q :=
  decide_eq_true_iff

@[simp] theorem valid_minItems_arr {n : Nat} : (minItems n).valid (.arr xs) = true ↔ n ≤ xs.length :=
  decide_eq_true_iff

@[simp] theorem valid_uniqueItems_arr : uniqueItems.valid (.arr xs) = allDistinct xs := rfl

@[simp] theorem valid_items_arr {k : Schema} : (items k).valid (.arr xs) = true ↔ ∀ x ∈ xs, k.valid x = true :=
  List.all_eq_true

@[simp] theorem valid_required_obj {keys : List String} :
    (required keys).valid (.obj fields) = true ↔ ∀ key ∈ keys, (Json.find key fields).isSome :=
  List.all_eq_true

@[simp] theorem valid_property_obj {key : String} {k : Schema} :
    (property key k).valid (.obj fields) = true ↔ ∀ v, Json.find key fields = some v → k.valid v = true := by
  show (match Json.find key fields with
    | some v => k.valid v
    | none => true) = true ↔ _
  cases Json.find key fields <;> simp

@[simp] theorem valid_noOther_obj {keys : List String} :
    (noOther keys).valid (.obj fields) = true ↔ ∀ f ∈ fields, f.1 ∈ keys := by
  show (fields.all fun f => keys.contains f.1) = true ↔ _
  simp

@[simp] theorem valid_const {v : Json} : (const v).valid d = v.equal d := rfl

@[simp] theorem valid_enum {vs : List Json} : (enum vs).valid d = true ↔ ∃ v ∈ vs, v.equal d = true :=
  List.any_eq_true

@[simp] theorem valid_ifThen {c t : Schema} :
    (ifThen c t).valid d = true ↔ (c.valid d = true → t.valid d = true) := by
  show (!c.valid d || t.valid d) = true ↔ _
  cases c.valid d <;> simp

end Keywords

/-! ## Typed values -/

section Typed
variable {ss : List Schema} {v : Json}

theorem valid_boolean_iff : (type .boolean).valid v = true ↔ ∃ b, v = .bool b := by
  rw [valid_type]
  cases v <;> simp [JsonType.admits]

theorem valid_string_iff : (allOf (type .string :: ss)).valid v = true ↔
    ∃ s, v = .str s ∧ ∀ k ∈ ss, k.valid (.str s) = true := by
  rw [valid_allOf_iff, List.forall_mem_cons, valid_type]
  cases v <;> simp [JsonType.admits]

theorem valid_integer_iff : (allOf (type .integer :: ss)).valid v = true ↔
    ∃ n, v = .num n ∧ n.isInteger = true ∧ ∀ k ∈ ss, k.valid (.num n) = true := by
  rw [valid_allOf_iff, List.forall_mem_cons, valid_type]
  cases v <;> simp [JsonType.admits]

theorem valid_array_iff : (allOf (type .array :: ss)).valid v = true ↔
    ∃ xs, v = .arr xs ∧ ∀ k ∈ ss, k.valid (.arr xs) = true := by
  rw [valid_allOf_iff, List.forall_mem_cons, valid_type]
  cases v <;> simp [JsonType.admits]

end Typed

/-! ## Objects -/

/-- An object with the members `properties` and no others, of which `keys` are required. -/
def object (keys : List String) (properties : List (String × Schema)) : Schema :=
  allOf (type .object :: required keys :: noOther (properties.map Prod.fst) ::
    properties.map fun p => property p.1 p.2)

theorem valid_object_iff {keys : List String} {properties : List (String × Schema)} {d : Json} :
    (object keys properties).valid d = true ↔ ∃ fields, d = .obj fields ∧
      (∀ key ∈ keys, (Json.find key fields).isSome) ∧ (∀ f ∈ fields, f.1 ∈ properties.map Prod.fst) ∧
      ∀ p ∈ properties, ∀ v, Json.find p.1 fields = some v → p.2.valid v = true := by
  rw [object, valid_allOf_iff]
  simp only [List.forall_mem_cons, List.forall_mem_map, valid_type]
  cases d with
  | obj fields => simp only [JsonType.admits, valid_required_obj, valid_noOther_obj, valid_property_obj, true_and,
      Json.obj.injEq, exists_eq_left']
  | _ => simp [JsonType.admits]

end Schema

end Satunera.Base
