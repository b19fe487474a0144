import Satunera.Base.JsonMap
import Satunera.Base.SchemaModel

/-!
# Documents with their defaults

A struct is read from a document that leaves members out, and written with all of them.

* `Json.Ordered` : documents as the parser keeps them; an object is its members by key (`SortedKeys.ext`);
* `completeBlock` : writing out what was left out of a block;
* `Restores` : what is read is written as the document, completed;
* `Restores.enum`, `Restores.vec`, ... : values;
* `Restores.object` : a struct is restored when its fields are, one by one (`Restores.find_of_read`);
* `Reflects` : the schema accepts no more documents once they are completed (`Reflects.object`).
-/

namespace Satunera.Base

namespace Json

/-! ## Ordered documents -/

mutual

/-- Every object has its keys in order, without repetition. -/
def Ordered : Json → Prop
  | null | bool _ | num _ | str _ => True
  | arr xs => OrderedItems xs
  | obj fs => SortedKeys fs ∧ OrderedFields fs

def OrderedItems : List Json → Prop
  | [] => True
  | x :: xs => Ordered x ∧ OrderedItems xs

def OrderedFields : List (String × Json) → Prop
  | [] => True
  | (_, x) :: fs => Ordered x ∧ OrderedFields fs

end

theorem orderedItems_iff {xs : List Json} : OrderedItems xs ↔ ∀ x ∈ xs, x.Ordered := by
  induction xs with
  | nil => simp [OrderedItems]
  | cons x xs ih => simp [OrderedItems, ih]

section Members
variable {fields : List (String × Json)} {k : String} {v : Json}

theorem mem_of_find (h : find k fields = some v) : (k, v) ∈ fields := by
  obtain ⟨f, hf, rfl⟩ := Option.map_eq_some_iff.mp h
  have hk := List.find?_some hf
  rw [decide_eq_true_eq] at hk
  exact hk ▸ List.mem_of_find?_eq_some hf

theorem OrderedFields.find (h : OrderedFields fields) (hv : find k fields = some v) : v.Ordered := by
  induction fields with
  | nil => cases hv
  | cons f fields ih =>
    rw [find_cons] at hv
    split at hv
    · obtain rfl := Option.some.inj hv
      exact h.1
    · exact ih h.2 hv

theorem SortedKeys.find_iff (h : SortedKeys fields) : Json.find k fields = some v ↔ (k, v) ∈ fields := by
  refine ⟨mem_of_find, fun hmem => ?_⟩
  induction fields with
  | nil => cases hmem
  | cons f fields ih =>
    obtain ⟨hhead, htail⟩ := List.pairwise_cons.mp h
    rw [find_cons]
    rcases List.mem_cons.mp hmem with rfl | hmem
    · rw [if_pos rfl]
    · have hlt : f.1 < k := hhead k (List.mem_map_of_mem hmem)
      rw [if_neg hlt.ne, ih htail hmem]

/-- An ordered object is its members by key. -/
theorem SortedKeys.ext {other : List (String × Json)} (h : SortedKeys fields) (h' : SortedKeys other)
    (hfind : ∀ k, Json.find k fields = Json.find k other) : fields = other := by
  have hlt : fields.Pairwise fun f g => f.1 < g.1 := List.pairwise_map.mp h
  have hlt' : other.Pairwise fun f g => f.1 < g.1 := List.pairwise_map.mp h'
  have hperm : fields.Perm other := by
    rw [List.perm_ext_iff_of_nodup (hlt.imp fun h heq => h.ne (congrArg _ heq))
      (hlt'.imp fun h heq => h.ne (congrArg _ heq))]
    rintro ⟨k, v⟩
    rw [← h.find_iff, ← h'.find_iff, hfind]
  exact hperm.eq_of_pairwise (fun _ _ _ _ hab hba => absurd hba hab.asymm) hlt hlt'

/-- What is written wins over what was there. -/
theorem find_extend_or {extra : List (String × Json)} (h : (extra.map Prod.fst).Nodup) :
    find k (extend fields extra) = (find k extra).or (find k fields) := by
  induction extra generalizing fields with
  | nil => rfl
  | cons f extra ih =>
    obtain ⟨hf, hextra⟩ := List.nodup_cons.mp h
    show find k (extend (insert f.1 f.2 fields) extra) = _
    rw [ih hextra, find_insert, find_cons]
    by_cases hk : k = f.1
    · rw [if_pos hk, if_pos hk.symm, hk, find_eq_none hf]
      rfl
    · rw [if_neg hk, if_neg (Ne.symm hk)]

theorem SortedKeys.nodup (h : SortedKeys fields) : (fields.map Prod.fst).Nodup := h.imp ne_of_lt

end Members

/-! ## Completing -/

/-- Change the members of an object. -/
def mapFields (f : List (String × Json) → List (String × Json)) : Json → Json
  | obj fields => obj (f fields)
  | d => d

/-- The members of a block, over their defaults. -/
def complete (defaults : List (String × Json)) : Json → Json := mapFields (extend defaults)

/-- Complete the block under a key; an absent block is empty. -/
def completeBlock (key : String) (defaults fields : List (String × Json)) : List (String × Json) :=
  insert key (complete defaults ((find key fields).getD (obj []))) fields

theorem find_completeBlock {key k : String} {defaults fields : List (String × Json)} :
    find k (completeBlock key defaults fields) =
      if k = key then some (complete defaults ((find key fields).getD (obj []))) else find k fields := find_insert

/-- A change of the members of an object that keeps their order and adds only keys among `names`. -/
structure Completes (names : List String) (f : List (String × Json) → List (String × Json)) : Prop where
  sorted : ∀ fields, SortedKeys fields → SortedKeys (f fields)
  known : ∀ fields, (∀ k ∈ fields.map Prod.fst, k ∈ names) → ∀ k ∈ (f fields).map Prod.fst, k ∈ names

namespace Completes
variable {names : List String} {f g : List (String × Json) → List (String × Json)}
  {defaults : List (String × Json)} {key : String}

theorem unchanged : Completes names id := ⟨fun _ h => h, fun _ h => h⟩

theorem comp (hf : Completes names f) (hg : Completes names g) : Completes names fun fields => f (g fields) :=
  ⟨fun _ h => hf.sorted _ (hg.sorted _ h), fun _ h => hf.known _ (hg.known _ h)⟩

theorem extend (hsorted : SortedKeys defaults) (hnames : ∀ k ∈ defaults.map Prod.fst, k ∈ names) :
    Completes names (Json.extend defaults) where
  sorted _ _ := hsorted.extend
  known fields h k hk := by
    rcases mem_keys_extend.mp hk with hk | hk
    · exact hnames k hk
    · exact h k hk

theorem block (hkey : key ∈ names) : Completes names (completeBlock key defaults) where
  sorted _ h := h.insert
  known fields h k hk := by
    rcases mem_keys_insert.mp hk with rfl | hk
    · exact hkey
    · exact h k hk

end Completes

end Json

/-! ## Values -/

/-- What is read from a document that the schema accepts is written as the document, completed. -/
def Restores {α : Type} (schema : Schema) (de : Json → Except DeError α) (ser : α → Json) (complete : Json → Json) :
    Prop := ∀ d a, d.Ordered → schema.valid d = true → de d = .ok a → ser a = complete d

namespace Restores

section Values
variable {α β : Type} {schema : Schema} {de : Json → Except DeError α} {ser : α → Json}

theorem bool : Restores schema deBool .bool id := by
  intro d b _ _ hb
  cases d with
  | bool b' => exact congrArg Json.bool (Except.ok.inj hb).symm
  | _ => cases hb

theorem string : Restores schema deString .str id := by
  intro d s _ _ hs
  cases d with
  | str s' => exact congrArg Json.str (Except.ok.inj hs).symm
  | _ => cases hs

theorem u32 : Restores schema deU32 serU32 id := by
  intro d n _ _ hn
  obtain ⟨k, rfl, hk⟩ := toNat_of_deU32 hn
  have hkn : n.toUInt64 = k := UInt64.toNat_inj.mp (by rw [UInt32.toNat_toUInt64, hk])
  rw [serU32, hkn, id_eq]

theorem enum {asStr : α → String} {parse : String → Option α} (all : List α)
    (hparse : ∀ s a, parse s = Option.some a ↔ asStr a = s) :
    Restores (.enum (all.map fun a => .str (asStr a))) (deEnum (all.map asStr) parse) (fun a => .str (asStr a)) id :=
  fun _ _ _ hd ha => (Fits.eq_of_deEnum all hparse hd ha).symm

theorem wrap (h : Restores schema de ser id) (mk : α → β) (get : β → α) (hmk : ∀ a, get (mk a) = a) :
    Restores schema (fun d => (de d).map mk) (fun b => ser (get b)) id := by
  intro d b hordered hd hb
  obtain ⟨a, ha, rfl⟩ := map_eq_ok_iff.mp hb
  show ser (get (mk a)) = d
  rw [hmk]
  exact h d a hordered hd ha

theorem vec (h : Restores schema de ser id) {ss : List Schema} :
    Restores (.allOf (.type .array :: .items schema :: ss)) (deVec de) (fun as => .arr (as.map ser)) id := by
  intro d as hordered hd has
  obtain ⟨xs, rfl, hxs⟩ := Schema.valid_array_iff.mp hd
  have hitems := Schema.valid_items_arr.mp (List.forall_mem_cons.mp hxs).1
  have hall : List.Forall₂ (fun x a => de x = .ok a) xs as := mapM_eq_ok_iff.mp has
  have hmap : as.map ser = xs := by
    rw [Json.Ordered, Json.orderedItems_iff] at hordered
    clear hd hxs has
    induction hall with
    | nil => rfl
    | cons hx _ ih =>
      obtain ⟨hx', hxs'⟩ := List.forall_mem_cons.mp hitems
      obtain ⟨ho, hos⟩ := List.forall_mem_cons.mp hordered
      rw [List.map_cons, h _ _ ho hx' hx, ih hos hxs', id_eq]
  exact congrArg Json.arr hmap

end Values

/-! ## Structs -/

section Fields
variable {α : Type} {schema : Schema} {de : Json → Except DeError α} {ser : α → Json} {i : Nat} {key : String}
  {fields : List (String × Json)}

/-- What is read of a required field is written as it stands. -/
theorem find_of_read (h : Restores schema de ser id) (hordered : Json.OrderedFields fields)
    (hvalid : ∀ v, Json.find key fields = some v → schema.valid v = true) {a : α}
    (ha : (Members.map fields).read i key de none = .ok a) : Json.find key fields = some (ser a) := by
  obtain ⟨v, hv, hva⟩ := read_map_none_eq_ok_iff.mp ha
  rw [hv, h v a (hordered.find hv) (hvalid v hv) hva, id_eq]

/-- What is read of a field with a default is written as it stands, or as the default. -/
theorem find_of_read_default (h : Restores schema de ser id) (defaults : List (String × Json))
    (hordered : Json.OrderedFields fields)
    (hvalid : ∀ v, Json.find key fields = some v → schema.valid v = true) {a b : α}
    (hb : Json.find key defaults = some (ser b)) (ha : (Members.map fields).read i key de (some b) = .ok a) :
    (Json.find key fields).or (Json.find key defaults) = some (ser a) := by
  rcases read_map_some_eq_ok_iff.mp ha with ⟨v, hv, hva⟩ | ⟨hnone, rfl⟩
  · rw [hv, h v a (hordered.find hv) (hvalid v hv) hva]
    rfl
  · rw [hnone, hb]
    rfl

/-- An optional field that is not `null` is written where it stands. -/
theorem find_of_read_option (h : Restores schema de ser id) (hnull : schema.valid .null = false)
    (hordered : Json.OrderedFields fields) (hvalid : ∀ v, Json.find key fields = some v → schema.valid v = true)
    {o : Option α} (ho : (Members.map fields).read i key (deOption de) (some none) = .ok o) :
    Json.find key fields = o.map ser := by
  rcases read_map_some_eq_ok_iff.mp ho with ⟨v, hv, hvo⟩ | ⟨hnone, rfl⟩
  · have hsome : deOption de v = (de v).map some := by
      cases v with
      | null => exact absurd (hvalid _ hv) (by rw [hnull]; exact Bool.false_ne_true)
      | _ => rfl
    rw [hsome] at hvo
    obtain ⟨a, ha, rfl⟩ := map_eq_ok_iff.mp hvo
    rw [hv, Option.map_some, h v a (hordered.find hv) (hvalid v hv) ha, id_eq]
  · rw [hnone, Option.map_none]

/-- What is read of a block is written as the block, completed. -/
theorem complete_of_read {defaults : List (String × Json)} (h : Restores schema de ser (Json.complete defaults))
    (hordered : Json.OrderedFields fields)
    (hvalid : ∀ v, Json.find key fields = some v → schema.valid v = true) {a b : α}
    (hb : ser b = .obj defaults) (ha : (Members.map fields).read i key de (some b) = .ok a) :
    Json.complete defaults ((Json.find key fields).getD (.obj [])) = ser a := by
  rcases read_map_some_eq_ok_iff.mp ha with ⟨v, hv, hva⟩ | ⟨hnone, rfl⟩
  · rw [hv, Option.getD_some, h v a (hordered.find hv) (hvalid v hv) hva]
  · rw [hnone, hb]
    rfl

end Fields

/-- A struct whose fields are the properties of the schema, written in the order `names` of their keys. -/
theorem object {α : Type} {keys names : List String} {properties : List (String × Schema)} {expected : String}
    {vis : Visitor α} {toFields : α → List (String × Json)} {f : List (String × Json) → List (String × Json)}
    (hf : Json.Completes (properties.map Prod.fst) f)
    (hsorted : names.Pairwise (· < ·)) (hnames : ∀ k ∈ names, k ∈ properties.map Prod.fst)
    (hkeys : ∀ a, ((toFields a).map Prod.fst).Sublist names)
    (hfind : ∀ fields a, Json.SortedKeys fields → Json.OrderedFields fields →
      (∀ p ∈ properties, ∀ v, Json.find p.1 fields = some v → p.2.valid v = true) → vis.build (.map fields) = .ok a →
        ∀ k ∈ properties.map Prod.fst, Json.find k (toFields a) = Json.find k (f fields)) :
    Restores (.object keys properties) (deStruct expected vis) (fun a => .obj (toFields a)) (Json.mapFields f) := by
  intro d a hordered hd ha
  obtain ⟨fields, rfl, -, hknown, hproperties⟩ := Schema.valid_object_iff.mp hd
  obtain ⟨hfields, hordered⟩ := hordered
  have hwritten : Json.SortedKeys (toFields a) := hsorted.sublist (hkeys a)
  refine congrArg Json.obj (hwritten.ext (hf.sorted _ hfields) fun k => ?_)
  by_cases hk : k ∈ properties.map Prod.fst
  · exact hfind fields a hfields hordered hproperties (deStruct_obj_eq_ok_iff.mp ha).2 k hk
  · have hnone : k ∉ (f fields).map Prod.fst := fun hmem => hk (hf.known fields (fun l hl => by
      obtain ⟨m, hm, rfl⟩ := List.mem_map.mp hl
      exact hknown m hm) k hmem)
    rw [Json.find_eq_none fun hmem => hk (hnames k ((hkeys a).subset hmem)), Json.find_eq_none hnone]

/-- Nothing to complete. -/
theorem of_unchanged {α : Type} {schema : Schema} {de : Json → Except DeError α} {ser : α → Json}
    (h : Restores schema de ser (Json.mapFields id)) : Restores schema de ser id := by
  intro d a hordered hd ha
  rw [h d a hordered hd ha]
  cases d <;> rfl

end Restores

/-! ## Validity -/

/-- The schema accepts the documents that it accepts once they are completed. -/
def Reflects (schema : Schema) (complete : Json → Json) : Prop :=
  ∀ d, d.Ordered → schema.valid (complete d) = true → schema.valid d = true

namespace Reflects
variable {keys : List String} {properties : List (String × Schema)}

/-- Settings that may be left out. -/
theorem complete {defaults : List (String × Json)} : Reflects (.object [] properties) (Json.complete defaults) := by
  intro d hordered hd
  obtain ⟨completed, hcompleted, -, hknown, hproperties⟩ := Schema.valid_object_iff.mp hd
  cases d with
  | obj fields =>
    obtain rfl := Json.obj.inj hcompleted
    refine Schema.valid_object_iff.mpr ⟨fields, rfl, List.forall_mem_nil _, fun f hf => ?_, fun p hp v hv => ?_⟩
    · have hmem : f.1 ∈ (Json.extend defaults fields).map Prod.fst :=
        Json.mem_keys_extend.mpr (Or.inr (List.mem_map_of_mem hf))
      obtain ⟨g, hg, hfg⟩ := List.mem_map.mp hmem
      exact hfg ▸ hknown g hg
    · refine hproperties p hp v ?_
      rw [Json.find_extend_or hordered.1.nodup, hv, Option.some_or]
  | _ => cases hcompleted

/-- Blocks that may be left out. -/
theorem object {f : List (String × Json) → List (String × Json)}
    (hkeys : ∀ key ∈ keys, ∀ fields, Json.find key (f fields) = Json.find key fields)
    (hknown : ∀ fields, ∀ k ∈ fields.map Prod.fst, k ∈ (f fields).map Prod.fst)
    (hproperties : ∀ p ∈ properties, (∀ fields, Json.find p.1 (f fields) = Json.find p.1 fields) ∨
      ∃ defaults, Reflects p.2 (Json.complete defaults) ∧
        ∀ fields, Json.find p.1 (f fields) = some (Json.complete defaults ((Json.find p.1 fields).getD (.obj [])))) :
    Reflects (.object keys properties) (Json.mapFields f) := by
  intro d hordered hd
  obtain ⟨completed, hcompleted, hrequired, hknown', hproperties'⟩ := Schema.valid_object_iff.mp hd
  cases d with
  | obj fields =>
    obtain rfl := Json.obj.inj hcompleted
    refine Schema.valid_object_iff.mpr ⟨fields, rfl, fun key hkey => ?_, fun m hm => ?_, fun p hp v hv => ?_⟩
    · rw [← hkeys key hkey]
      exact hrequired key hkey
    · obtain ⟨g, hg, hmg⟩ := List.mem_map.mp (hknown fields m.1 (List.mem_map_of_mem hm))
      exact hmg ▸ hknown' g hg
    · rcases hproperties p hp with hsame | ⟨defaults, hreflects, hblock⟩
      · exact hproperties' p hp v ((hsame fields).trans hv)
      · refine hreflects v (hordered.2.find hv) (hproperties' p hp _ ?_)
        rw [hblock, hv, Option.getD_some]
  | _ => cases hcompleted

end Reflects

end Satunera.Base
