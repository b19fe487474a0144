import Satunera.Base.Json
import Satunera.Base.Label

/-!
# Reading typed values from documents

The deserializers that serde derives, as functions on documents. Of several errors the first one in the document is
reported, and a missing field only when all that is there was read.

* `deBool`, `deU32`, `deString`, `deVec`, `deOption`, `deEnum` : values;
* `Visitor` : the fields of a struct, `Visitor.visitMap`, `Visitor.visitSeq` : reading them from an object or from a
  sequence;
* `deStruct`, `deOpenStruct` : structs (`deStruct_obj_eq_ok_iff`).
-/

namespace Satunera.Base

inductive DeError
  | invalidType (expected : String)
  | invalidValue (expected : String)
  | invalidLength (length : Nat)
  | unknownVariant (variant : String) (expected : List String)
  | unknownField (field : String) (expected : List String)
  | missingField (field : String)
  deriving DecidableEq

section Values
variable {α : Type}

def deBool : Json → Except DeError Bool
  | .bool b => .ok b
  | _ => .error (.invalidType "a boolean")

/-- Only integer tokens, and only those that fit. -/
def deU32 : Json → Except DeError UInt32
  | .num (.posInt n) => if n.toNat ≤ 4294967295 then .ok n.toUInt32 else .error (.invalidValue "u32")
  | .num (.negInt _) => .error (.invalidValue "u32")
  | _ => .error (.invalidType "u32")

def deString : Json → Except DeError String
  | .str s => .ok s
  | _ => .error (.invalidType "a string")

def deVec (de : Json → Except DeError α) : Json → Except DeError (List α)
  | .arr items => items.mapM de
  | _ => .error (.invalidType "a sequence")

def deOption (de : Json → Except DeError α) : Json → Except DeError (Option α)
  | .null => .ok none
  | v => (de v).map some

/-- A fieldless enumeration: its label, or an object with the label as its only key and `null` under it. -/
def deEnum (labels : List String) (parse : String → Option α) : Json → Except DeError α
  | .str s => okOr (parse s) (.unknownVariant s labels)
  | .obj [(key, v)] => do
    let a ← okOr (parse key) (.unknownVariant key labels)
    match v with
    | .null => .ok a
    | _ => .error (.invalidType "unit")
  | .obj _ => .error (.invalidValue "map with a single key")
  | _ => .error (.invalidType "string or map")

end Values

/-! ## Structs -/

/-- Where a struct is read from. -/
inductive Members
  | map (fields : List (String × Json))
  | seq (items : List Json)

section Structs
variable {α : Type}

/-- Field number `i`, called `key`; `default` is its `#[serde(default)]`. -/
def Members.read (m : Members) (i : Nat) (key : String) (de : Json → Except DeError α) (default : Option α) :
    Except DeError α :=
  match m with
  | map fields =>
    match Json.find key fields with
    | some v => de v
    | none => okOr default (.missingField key)
  | seq items =>
    match items[i]? with
    | some v => de v
    | none => okOr default (.invalidLength i)

/-- The fields of a struct in declaration order. -/
structure Visitor (α : Type) where
  /-- What reading the value of each field says. -/
  entries : List (String × (Json → Except DeError Unit))
  build : Members → Except DeError α
  /-- A struct is built only of values that can be read. -/
  covers : ∀ fields a, build (.map fields) = .ok a →
    ∀ e ∈ entries, ∀ v, Json.find e.1 fields = some v → e.2 v = .ok ()

namespace Visitor
variable {β : Type} {fields : List (String × Json)}

/-- A struct without fields. -/
def of (a : α) : Visitor α := ⟨[], fun _ => pure a, fun _ _ _ => List.forall_mem_nil _⟩

/-- One field more. -/
def field (vis : Visitor (β → α)) (key : String) (de : Json → Except DeError β) (default : Option β) : Visitor α where
  entries := vis.entries ++ [(key, fun v => (de v).map fun _ => ())]
  build m := do
    let f ← vis.build m
    let b ← m.read vis.entries.length key de default
    return f b
  covers fields a ha e he v hv := by
    obtain ⟨f, hf, hb⟩ := bind_eq_ok_iff.mp ha
    obtain ⟨b, hb, -⟩ := bind_eq_ok_iff.mp hb
    rcases List.mem_append.mp he with he | he
    · exact vis.covers fields f hf e he v hv
    · obtain rfl := List.mem_singleton.mp he
      rw [Members.read, hv] at hb
      exact map_eq_ok_iff.mpr ⟨b, hb, rfl⟩

theorem build_of (a : α) (m : Members) : (of a).build m = pure a := rfl

/-- Fields are read one after the other. -/
theorem build_field (vis : Visitor (β → α)) (key : String) (de : Json → Except DeError β) (default : Option β)
    (m : Members) : (vis.field key de default).build m =
      vis.build m >>= fun f => m.read vis.entries.length key de default >>= fun b => pure (f b) := rfl

/-- Read what stands under the keys of an object, in their order; `unknown` is said to a key that is no field's. -/
def visitMap (vis : Visitor α) (unknown : String → Except DeError Unit) (fields : List (String × Json)) :
    Except DeError α := do
  forM fields fun f =>
    match vis.entries.lookup f.1, Json.find f.1 fields with
    | some visit, some v => visit v
    | some _, none => .ok ()
    | none, _ => unknown f.1
  vis.build (.map fields)

/-- Read the fields one after the other; no item may be left. -/
def visitSeq (vis : Visitor α) (items : List Json) : Except DeError α := do
  let a ← vis.build (.seq items)
  if vis.entries.length < items.length then .error (.invalidLength items.length) else return a

end Visitor

/-- A struct that refuses unknown fields. -/
def deStruct (expected : String) (vis : Visitor α) : Json → Except DeError α
  | .obj fields => vis.visitMap (fun key => .error (.unknownField key (vis.entries.map Prod.fst))) fields
  | .arr items => vis.visitSeq items
  | _ => .error (.invalidType expected)

/-- A struct that ignores unknown fields. -/
def deOpenStruct (expected : String) (vis : Visitor α) : Json → Except DeError α
  | .obj fields => vis.visitMap (fun _ => .ok ()) fields
  | .arr items => vis.visitSeq items
  | _ => .error (.invalidType expected)

theorem forM_eq_ok_iff {ε β : Type} {xs : List β} {f : β → Except ε Unit} {u : Unit} :
    forM xs f = .ok u ↔ ∀ x ∈ xs, f x = .ok () := by
  induction xs with
  | nil => exact ⟨fun _ => List.forall_mem_nil _, fun _ => rfl⟩
  | cons x xs ih =>
    rw [List.forM_cons, bind_eq_ok_iff, List.forall_mem_cons, ← ih]
    exact ⟨fun ⟨_, h⟩ => h, fun h => ⟨(), h⟩⟩

/-- A struct is read exactly when it is built and no key is refused. -/
theorem Visitor.visitMap_eq_ok_iff {vis : Visitor α} {unknown : String → Except DeError Unit}
    {fields : List (String × Json)} {a : α} : vis.visitMap unknown fields = .ok a ↔
      (∀ f ∈ fields, f.1 ∉ vis.entries.map Prod.fst → unknown f.1 = .ok ()) ∧ vis.build (.map fields) = .ok a := by
  have hlookup : ∀ key, vis.entries.lookup key = none ↔ key ∉ vis.entries.map Prod.fst := by
    intro key
    rw [List.lookup_eq_none_iff]
    refine ⟨fun h hmem => ?_, fun h p hp => bne_iff_ne.mpr fun he => h (he ▸ List.mem_map_of_mem hp)⟩
    obtain ⟨p, hp, rfl⟩ := List.mem_map.mp hmem
    exact bne_iff_ne.mp (h p hp) rfl
  rw [visitMap, bind_eq_ok_iff]
  simp only [forM_eq_ok_iff]
  refine ⟨fun ⟨_, hall, hbuild⟩ => ⟨fun f hf hkey => ?_, hbuild⟩, fun ⟨hall, hbuild⟩ => ⟨(), fun f hf => ?_, hbuild⟩⟩
  · have h := hall f hf
    rwa [(hlookup f.1).mpr hkey] at h
  · cases he : vis.entries.lookup f.1 with
    | none => exact hall f hf ((hlookup f.1).mp he)
    | some visit =>
      cases hv : Json.find f.1 fields with
      | none => rfl
      | some v =>
        obtain ⟨before, after, hentries, -⟩ := List.lookup_eq_some_iff.mp he
        exact vis.covers fields a hbuild (f.1, visit) (by simp [hentries]) v hv

theorem deStruct_obj_eq_ok_iff {expected : String} {vis : Visitor α} {fields : List (String × Json)} {a : α} :
    deStruct expected vis (.obj fields) = .ok a ↔
      (∀ f ∈ fields, f.1 ∈ vis.entries.map Prod.fst) ∧ vis.build (.map fields) = .ok a := by
  rw [deStruct, Visitor.visitMap_eq_ok_iff]
  refine and_congr_left fun _ => forall₂_congr fun f _ => ?_
  rw [imp_iff_not_or, not_not, or_iff_left fun h => by cases h]

/-- A required field is there and decodes. -/
theorem read_map_none_eq_ok_iff {fields : List (String × Json)} {i : Nat} {key : String}
    {de : Json → Except DeError α} {a : α} :
    (Members.map fields).read i key de none = .ok a ↔ ∃ v, Json.find key fields = some v ∧ de v = .ok a := by
  simp only [Members.read]
  cases Json.find key fields <;> simp [okOr]

/-- A field with a default decodes, or is absent. -/
theorem read_map_some_eq_ok_iff {fields : List (String × Json)} {i : Nat} {key : String}
    {de : Json → Except DeError α} {default a : α} :
    (Members.map fields).read i key de (some default) = .ok a ↔
      (∃ v, Json.find key fields = some v ∧ de v = .ok a) ∨ Json.find key fields = none ∧ default = a := by
  simp only [Members.read]
  cases Json.find key fields <;> simp [okOr]

end Structs

end Satunera.Base
