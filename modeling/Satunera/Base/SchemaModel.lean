import Satunera.Base.JsonSchema
import Satunera.Base.Serde

/-!
# A schema and a typed model of the same documents

* `Reads` : of the documents the schema accepts, the model reads those that are `readable`, as well-formed values;
* `Fits` : serializing and reading are inverse besides, and the schema accepts exactly the well-formed values;
* `Fits.bool`, `Fits.string`, `Fits.enum`, `Fits.vec`, `Fits.uniqueVec` : values, enumerations and lists;
* `Fits.object` : a struct fits when its fields do, one by one (`Reads.wf_of_read`, `Reads.exists_read_iff`).
-/

namespace Satunera.Base

/-- What the model `de` reads of the documents that `schema` accepts. -/
structure Reads {α : Type} (schema : Schema) (de : Json → Except DeError α) (wf : α → Prop)
    (readable : Json → Prop) : Prop where
  wf_of_de : ∀ d a, schema.valid d = true → de d = .ok a → wf a
  de_iff : ∀ d, schema.valid d = true → ((∃ a, de d = .ok a) ↔ readable d)

/-- The schema `schema` and the model (`de`, `ser`) describe the same documents: the values are those that are `wf`,
and of the documents the schema accepts the model reads those that are `readable`. -/
structure Fits {α : Type} (schema : Schema) (de : Json → Except DeError α) (ser : α → Json) (wf : α → Prop)
    (readable : Json → Prop) : Prop extends Reads schema de wf readable where
  de_ser : ∀ a, de (ser a) = .ok a
  valid_ser : ∀ a, schema.valid (ser a) = true ↔ wf a

/-- Any document will do. -/
def anyDocument : Json → Prop := fun _ => True

/-- An unsigned integer token, as opposed to a number that happens to be an integer. -/
def IntegerToken (d : Json) : Prop := ∃ n : UInt64, d = .num (.posInt n)

def serU32 (n : UInt32) : Json := .num (.posInt n.toUInt64)

theorem deU32_serU32 (n : UInt32) : deU32 (serU32 n) = .ok n := by
  have := n.toNat_lt
  simp only [serU32, deU32, UInt32.toNat_toUInt64]
  rw [if_pos (by omega), UInt32.toUInt32_toUInt64]

theorem deU32_of_le {n : UInt64} (h : n.toNat ≤ 4294967295) : deU32 (.num (.posInt n)) = .ok n.toUInt32 := by
  rw [deU32, if_pos h]

theorem toNat_of_deU32 {v : Json} {n : UInt32} (h : deU32 v = .ok n) :
    ∃ k : UInt64, v = .num (.posInt k) ∧ k.toNat = n.toNat := by
  cases v with
  | num m =>
    cases m with
    | posInt k =>
      simp only [deU32] at h
      split at h
      · cases h
        refine ⟨k, rfl, ?_⟩
        rw [UInt64.toNat_toUInt32, Nat.mod_eq_of_lt (by omega)]
      · cases h
    | negInt k => cases h
    | float q => cases h
  | _ => cases h

namespace Fits

section Values
variable {α β : Type}

theorem bool : Fits (.type .boolean) deBool .bool (fun _ => True) anyDocument where
  de_ser _ := rfl
  valid_ser _ := ⟨fun _ => trivial, fun _ => rfl⟩
  wf_of_de _ _ _ _ := trivial
  de_iff d hd := by
    obtain ⟨b, rfl⟩ := Schema.valid_boolean_iff.mp hd
    exact ⟨fun _ => trivial, fun _ => ⟨b, rfl⟩⟩

/-- A boolean that has to be `b`. -/
theorem constBool (b : Bool) : Fits (.const (.bool b)) deBool .bool (fun c => c = b) anyDocument where
  de_ser _ := rfl
  valid_ser c := by rw [Schema.valid_const, Json.equal_bool, Json.bool.injEq]
  wf_of_de d c hd hc := by
    rw [Schema.valid_const, Json.equal_bool] at hd
    rw [hd] at hc
    exact (Except.ok.inj hc).symm
  de_iff d hd := by
    rw [Schema.valid_const, Json.equal_bool] at hd
    exact ⟨fun _ => trivial, fun _ => ⟨b, by rw [hd]; rfl⟩⟩

/-- A string with more keywords. -/
theorem string (ss : List Schema) : Fits (.allOf (.type .string :: ss)) deString .str
    (fun s => ∀ k ∈ ss, k.valid (.str s) = true) anyDocument where
  de_ser _ := rfl
  valid_ser s := by
    rw [Schema.valid_string_iff]
    exact ⟨fun ⟨_, hs, h⟩ => Json.str.inj hs ▸ h, fun h => ⟨s, rfl, h⟩⟩
  wf_of_de d s hd hs := by
    obtain ⟨s', rfl, h⟩ := Schema.valid_string_iff.mp hd
    exact Except.ok.inj hs ▸ h
  de_iff d hd := by
    obtain ⟨s, rfl, -⟩ := Schema.valid_string_iff.mp hd
    exact ⟨fun _ => trivial, fun _ => ⟨s, rfl⟩⟩

variable {schema : Schema} {de : Json → Except DeError α} {ser : α → Json} {wf : α → Prop} {readable : Json → Prop}

/-- Another way to say what is well-formed. -/
theorem of_wf_iff (h : Fits schema de ser wf readable) {wf' : α → Prop} (hwf : ∀ a, wf a ↔ wf' a) :
    Fits schema de ser wf' readable where
  wf_of_de d a hd ha := (hwf a).mp (h.wf_of_de d a hd ha)
  de_iff := h.de_iff
  de_ser := h.de_ser
  valid_ser a := (h.valid_ser a).trans (hwf a)

/-- Another way to say what is readable of the documents the schema accepts. -/
theorem of_readable_iff (h : Fits schema de ser wf readable) {readable' : Json → Prop}
    (hreadable : ∀ d, schema.valid d = true → (readable d ↔ readable' d)) : Fits schema de ser wf readable' where
  wf_of_de := h.wf_of_de
  de_iff d hd := (h.de_iff d hd).trans (hreadable d hd)
  de_ser := h.de_ser
  valid_ser := h.valid_ser

/-- A value wrapped in a type of its own. -/
theorem wrap (h : Fits schema de ser wf readable) (mk : α → β) (get : β → α) (hmk : ∀ a, get (mk a) = a)
    (hget : ∀ b, mk (get b) = b) :
    Fits schema (fun d => (de d).map mk) (fun b => ser (get b)) (fun b => wf (get b)) readable where
  de_ser b := by rw [h.de_ser, Except.map, hget]
  valid_ser b := h.valid_ser _
  wf_of_de d b hd hb := by
    obtain ⟨a, ha, rfl⟩ := map_eq_ok_iff.mp hb
    rw [hmk]
    exact h.wf_of_de d a hd ha
  de_iff d hd := by
    rw [← h.de_iff d hd]
    constructor
    · rintro ⟨b, hb⟩
      obtain ⟨a, ha, -⟩ := map_eq_ok_iff.mp hb
      exact ⟨a, ha⟩
    · rintro ⟨a, ha⟩
      exact ⟨mk a, by rw [ha, Except.map]⟩

section Enumerations
variable {all : List α} {asStr : α → String} {parse : String → Option α}

theorem valid_enum_labels_iff {d : Json} :
    (Schema.enum (all.map fun a => .str (asStr a))).valid d = true ↔ ∃ a ∈ all, d = .str (asStr a) := by
  simp only [Schema.valid_enum, List.mem_map, exists_exists_and_eq_and, Json.equal_str]

theorem deEnum_label (hparse : ∀ s a, parse s = Option.some a ↔ asStr a = s) (a : α) :
    deEnum (all.map asStr) parse (.str (asStr a)) = .ok a := by
  rw [deEnum, (hparse _ _).mpr rfl, okOr]

/-- A fieldless enumeration and the list of its labels. -/
theorem enum (hall : ∀ a, a ∈ all) (hparse : ∀ s a, parse s = Option.some a ↔ asStr a = s) :
    Fits (.enum (all.map fun a => .str (asStr a))) (deEnum (all.map asStr) parse) (fun a => .str (asStr a))
      (fun _ => True) anyDocument where
  wf_of_de _ _ _ _ := trivial
  de_iff d hd := by
    obtain ⟨a, -, rfl⟩ := valid_enum_labels_iff.mp hd
    exact ⟨fun _ => trivial, fun _ => ⟨a, deEnum_label hparse a⟩⟩
  de_ser := deEnum_label hparse
  valid_ser a := ⟨fun _ => trivial, fun _ => valid_enum_labels_iff.mpr ⟨a, hall a, rfl⟩⟩

/-- The schema leaves only the label itself. -/
theorem eq_of_deEnum (all : List α) (hparse : ∀ s a, parse s = Option.some a ↔ asStr a = s) {d : Json} {a : α}
    (hd : (Schema.enum (all.map fun a => .str (asStr a))).valid d = true)
    (ha : deEnum (all.map asStr) parse d = .ok a) : d = .str (asStr a) := by
  obtain ⟨b, -, rfl⟩ := valid_enum_labels_iff.mp hd
  rw [deEnum_label hparse] at ha
  cases ha
  rfl

end Enumerations

end Values

/-! ## Numbers -/

/-- The number `k`, written as any number of that value. -/
theorem constU32 (k : UInt32) : Fits (.const (serU32 k)) deU32 serU32 (fun n => n = k) IntegerToken where
  de_ser := deU32_serU32
  valid_ser n := by
    rw [Schema.valid_const, serU32, serU32, Json.equal_num]
    constructor
    · rintro ⟨m, hm, hval⟩
      cases hm
      rw [JsonNumber.value_posInt, JsonNumber.value_posInt, Nat.cast_inj, UInt32.toNat_toUInt64,
        UInt32.toNat_toUInt64] at hval
      exact UInt32.toNat_inj.mp hval
    · rintro rfl
      exact ⟨_, rfl, rfl⟩
  wf_of_de d n hd hn := by
    obtain ⟨j, rfl, hj⟩ := toNat_of_deU32 hn
    rw [Schema.valid_const, serU32, Json.equal_num] at hd
    obtain ⟨m, hm, hval⟩ := hd
    cases hm
    rw [JsonNumber.value_posInt, JsonNumber.value_posInt, Nat.cast_inj, UInt32.toNat_toUInt64] at hval
    exact UInt32.toNat_inj.mp (hj.symm.trans hval)
  de_iff d hd := by
    constructor
    · rintro ⟨n, hn⟩
      obtain ⟨j, rfl, -⟩ := toNat_of_deU32 hn
      exact ⟨j, rfl⟩
    · rintro ⟨j, rfl⟩
      rw [Schema.valid_const, serU32, Json.equal_num] at hd
      obtain ⟨m, hm, hval⟩ := hd
      cases hm
      rw [JsonNumber.value_posInt, JsonNumber.value_posInt, Nat.cast_inj, UInt32.toNat_toUInt64] at hval
      have := k.toNat_lt
      exact ⟨_, deU32_of_le (by omega)⟩

/-- An integer from `lo` to `hi`. -/
theorem rangeU32 (lo hi : Nat) (hhi : hi ≤ 4294967295) :
    Fits (.allOf [.type .integer, .minimum lo, .maximum hi]) deU32 serU32 (fun n => lo ≤ n.toNat ∧ n.toNat ≤ hi)
      IntegerToken := by
  have hvalid : ∀ n : UInt64,
      (Schema.allOf [.type .integer, .minimum lo, .maximum hi]).valid (.num (.posInt n)) = true ↔
        lo ≤ n.toNat ∧ n.toNat ≤ hi := by
    intro n
    rw [Schema.valid_integer_iff]
    simp
  refine ⟨⟨fun d n hd hn => ?_, fun d hd => ?_⟩, deU32_serU32, fun n => ?_⟩
  · obtain ⟨j, rfl, hj⟩ := toNat_of_deU32 hn
    rw [← hj]
    exact (hvalid j).mp hd
  · constructor
    · rintro ⟨n, hn⟩
      obtain ⟨j, rfl, -⟩ := toNat_of_deU32 hn
      exact ⟨j, rfl⟩
    · rintro ⟨j, rfl⟩
      exact ⟨_, deU32_of_le (((hvalid j).mp hd).2.trans hhi)⟩
  · rw [serU32, hvalid, UInt32.toNat_toUInt64]

/-! ## Lists -/

section Lists
variable {α : Type} {schema : Schema} {de : Json → Except DeError α} {ser : α → Json} {wf : α → Prop}
  {readable : Json → Prop}

theorem mapM_map_ser (h : ∀ a, de (ser a) = .ok a) (as : List α) : (as.map ser).mapM de = .ok as := by
  rw [mapM_eq_ok_iff, List.forall₂_map_left_iff, List.forall₂_same]
  exact fun a _ => h a

theorem forall_mem_of_mapM {p : Json → Prop} {q : α → Prop} (h : ∀ x a, p x → de x = .ok a → q a) {xs : List Json}
    {as : List α} (hxs : ∀ x ∈ xs, p x) (has : xs.mapM de = .ok as) : ∀ a ∈ as, q a := by
  rw [mapM_eq_ok_iff] at has
  induction has with
  | nil => nofun
  | cons ha _ ih =>
    obtain ⟨hx, hxs⟩ := List.forall_mem_cons.mp hxs
    exact List.forall_mem_cons.mpr ⟨h _ _ hx ha, ih hxs⟩

/-- A list with more keywords, which say `extra` of the values. -/
theorem list (h : Fits schema de ser wf readable) {ss : List Schema} {extra : List α → Prop}
    (hser : ∀ as, (∀ k ∈ ss, k.valid (.arr (as.map ser)) = true) ↔ extra as)
    (hde : ∀ xs as, (∀ x ∈ xs, schema.valid x = true) → (∀ k ∈ ss, k.valid (.arr xs) = true) → xs.mapM de = .ok as →
      extra as) :
    Fits (.allOf (.type .array :: .items schema :: ss)) (deVec de) (fun as => .arr (as.map ser))
      (fun as => (∀ a ∈ as, wf a) ∧ extra as) (fun d => ∀ xs, d = .arr xs → ∀ x ∈ xs, readable x) where
  wf_of_de d as hd has := by
    obtain ⟨xs, rfl, hxs⟩ := Schema.valid_array_iff.mp hd
    obtain ⟨hitems, hss⟩ := List.forall_mem_cons.mp hxs
    rw [Schema.valid_items_arr] at hitems
    exact ⟨forall_mem_of_mapM h.wf_of_de hitems has, hde xs as hitems hss has⟩
  de_iff d hd := by
    obtain ⟨xs, rfl, hxs⟩ := Schema.valid_array_iff.mp hd
    have hitems := Schema.valid_items_arr.mp (List.forall_mem_cons.mp hxs).1
    show (∃ as, xs.mapM de = .ok as) ↔ _
    rw [exists_mapM_iff]
    constructor
    · rintro hall _ ⟨⟩ x hx
      exact (h.de_iff x (hitems x hx)).mp (hall x hx)
    · intro hall x hx
      exact (h.de_iff x (hitems x hx)).mpr (hall xs rfl x hx)
  de_ser as := mapM_map_ser h.de_ser as
  valid_ser as := by
    rw [Schema.valid_array_iff]
    simp only [Json.arr.injEq, exists_eq_left', List.forall_mem_cons, Schema.valid_items_arr, List.forall_mem_map,
      h.valid_ser, hser]

/-- A list of at least `n` elements. -/
theorem vec (h : Fits schema de ser wf readable) (n : Nat) :
    Fits (.allOf [.type .array, .items schema, .minItems n]) (deVec de) (fun as => .arr (as.map ser))
      (fun as => (∀ a ∈ as, wf a) ∧ n ≤ as.length) (fun d => ∀ xs, d = .arr xs → ∀ x ∈ xs, readable x) := by
  refine h.list (fun as => ?_) fun xs as _ hxs has => ?_
  · rw [List.forall_mem_singleton, Schema.valid_minItems_arr, List.length_map]
  · rw [List.forall_mem_singleton, Schema.valid_minItems_arr] at hxs
    rwa [← (mapM_eq_ok_iff.mp has).length_eq]

end Lists

section Labels
variable {α : Type} {schema : Schema} {de : Json → Except DeError α} {toStr : α → String} {wf : α → Prop}
  {readable : Json → Prop}

theorem allDistinct_strs_iff (hinj : Function.Injective toStr) {as : List α} :
    Schema.allDistinct (as.map fun a => .str (toStr a)) = true ↔ as.Nodup := by
  induction as with
  | nil => simp [Schema.allDistinct]
  | cons a as ih =>
    simp only [List.map_cons, Schema.allDistinct, Bool.and_eq_true, ih, List.nodup_cons, List.all_eq_true,
      List.forall_mem_map, Bool.not_eq_true', Bool.eq_false_iff, ne_eq, Json.equal_str, Json.str.injEq]
    exact and_congr_left' ⟨fun h ha => h a ha rfl, fun h b hb heq => h (hinj heq ▸ hb)⟩

/-- A list of at least `n` labels without repetition. -/
theorem uniqueVec (h : Fits schema de (fun a => .str (toStr a)) wf readable) (n : Nat)
    (hinj : Function.Injective toStr) (hde : ∀ d a, schema.valid d = true → de d = .ok a → d = .str (toStr a)) :
    Fits (.allOf [.type .array, .items schema, .minItems n, .uniqueItems]) (deVec de)
      (fun as => .arr (as.map fun a => .str (toStr a))) (fun as => (∀ a ∈ as, wf a) ∧ n ≤ as.length ∧ as.Nodup)
      (fun d => ∀ xs, d = .arr xs → ∀ x ∈ xs, readable x) := by
  have hser : ∀ as : List α, (∀ k ∈ [.minItems n, .uniqueItems],
      Schema.valid k (.arr (as.map fun a => .str (toStr a))) = true) ↔ n ≤ as.length ∧ as.Nodup := by
    intro as
    rw [List.forall_mem_cons, List.forall_mem_singleton, Schema.valid_minItems_arr, Schema.valid_uniqueItems_arr,
      List.length_map, allDistinct_strs_iff hinj]
  refine h.list hser fun xs as hitems hxs has => ?_
  have hmap : xs = as.map fun a => .str (toStr a) := by
    rw [← List.forall₂_eq_eq_eq, List.forall₂_map_right_iff]
    rw [mapM_eq_ok_iff] at has
    exact ((List.forall₂_and_left _ _).mpr ⟨hitems, has⟩).imp fun x a hxa => hde x a hxa.1 hxa.2
  rw [hmap] at hxs
  exact (hser as).mp hxs

end Labels

end Fits

/-! ## Structs -/

section Structs
variable {α : Type} {schema : Schema} {de : Json → Except DeError α} {wf : α → Prop} {readable : Json → Prop}
  {fields : List (String × Json)} {i : Nat} {key : String}

namespace Reads

/-- What a struct reads for a required field is well-formed. -/
theorem wf_of_read (h : Reads schema de wf readable)
    (hvalid : ∀ v, Json.find key fields = some v → schema.valid v = true) {a : α}
    (ha : (Members.map fields).read i key de none = .ok a) : wf a := by
  obtain ⟨v, hv, hva⟩ := read_map_none_eq_ok_iff.mp ha
  exact h.wf_of_de v a (hvalid v hv) hva

/-- What it reads for a field with a default is well-formed if the default is. -/
theorem wf_of_read_default (h : Reads schema de wf readable)
    (hvalid : ∀ v, Json.find key fields = some v → schema.valid v = true) {a b : α} (hb : wf b)
    (ha : (Members.map fields).read i key de (some b) = .ok a) : wf a := by
  rcases read_map_some_eq_ok_iff.mp ha with ⟨v, hv, hva⟩ | ⟨-, rfl⟩
  · exact h.wf_of_de v a (hvalid v hv) hva
  · exact hb

/-- A required field is read exactly when its value is readable. -/
theorem exists_read_iff (h : Reads schema de wf readable)
    (hvalid : ∀ v, Json.find key fields = some v → schema.valid v = true) (hrequired : (Json.find key fields).isSome) :
    (∃ a, (Members.map fields).read i key de none = .ok a) ↔ ∀ v, Json.find key fields = some v → readable v := by
  obtain ⟨v, hv⟩ := Option.isSome_iff_exists.mp hrequired
  simp only [Members.read, hv, h.de_iff v (hvalid v hv), Option.some.injEq, forall_eq']

/-- A field with a default is read exactly when it is absent or its value is readable. -/
theorem exists_read_default_iff (h : Reads schema de wf readable)
    (hvalid : ∀ v, Json.find key fields = some v → schema.valid v = true) {b : α} :
    (∃ a, (Members.map fields).read i key de (some b) = .ok a) ↔ ∀ v, Json.find key fields = some v → readable v := by
  simp only [Members.read]
  cases hv : Json.find key fields with
  | some v => simp only [h.de_iff v (hvalid v hv), Option.some.injEq, forall_eq']
  | none => simp [okOr]

/-- An optional field that is not `null`. -/
theorem option (h : Reads schema de wf readable) (hnull : schema.valid .null = false) :
    Reads schema (deOption de) (fun o => ∀ a ∈ o, wf a) readable := by
  have hde : ∀ d, schema.valid d = true → deOption de d = (de d).map some := by
    intro d hd
    cases d with
    | null => rw [hnull] at hd; cases hd
    | _ => rfl
  refine ⟨fun d o hd ho => ?_, fun d hd => ?_⟩
  · rw [hde d hd] at ho
    obtain ⟨a, ha, rfl⟩ := map_eq_ok_iff.mp ho
    rintro _ ⟨⟩
    exact h.wf_of_de d a hd ha
  · rw [hde d hd, ← h.de_iff d hd]
    simp only [map_eq_ok_iff]
    exact ⟨fun ⟨_, a, ha, _⟩ => ⟨a, ha⟩, fun ⟨a, ha⟩ => ⟨_, a, ha, rfl⟩⟩

end Reads

theorem exists_bind_ok_iff {β ε : Type} {x : Except ε α} {f : α → Except ε β} :
    (∃ b, x >>= f = .ok b) ↔ ∃ a, x = .ok a ∧ ∃ b, f a = .ok b := by
  simp only [bind_eq_ok_iff]
  exact ⟨fun ⟨b, a, ha, hb⟩ => ⟨a, ha, b, hb⟩, fun ⟨a, ha, b, hb⟩ => ⟨b, a, ha, hb⟩⟩

theorem exists_pure_ok_iff {ε : Type} {a : α} : (∃ b, (pure a : Except ε α) = .ok b) ↔ True :=
  ⟨fun _ => trivial, fun _ => ⟨a, rfl⟩⟩

/-- A struct whose fields are the properties of the schema. -/
theorem Fits.object {keys : List String} {properties : List (String × Schema)} {expected : String} {vis : Visitor α}
    {toFields : α → List (String × Json)} (hnames : vis.entries.map Prod.fst = properties.map Prod.fst)
    (hser : ∀ a, vis.build (.map (toFields a)) = .ok a)
    (hkeys : ∀ a, (∀ key ∈ keys, (Json.find key (toFields a)).isSome) ∧
      ∀ f ∈ toFields a, f.1 ∈ properties.map Prod.fst)
    (hvalid : ∀ a, (∀ p ∈ properties, ∀ v, Json.find p.1 (toFields a) = some v → p.2.valid v = true) ↔ wf a)
    (hread : ∀ fields, (∀ key ∈ keys, (Json.find key fields).isSome) →
      (∀ p ∈ properties, ∀ v, Json.find p.1 fields = some v → p.2.valid v = true) →
      (∀ a, vis.build (.map fields) = .ok a → wf a) ∧
        ((∃ a, vis.build (.map fields) = .ok a) ↔ readable (.obj fields))) :
    Fits (.object keys properties) (deStruct expected vis) (fun a => .obj (toFields a)) wf readable where
  wf_of_de d a hd ha := by
    obtain ⟨fields, rfl, hrequired, -, hproperties⟩ := Schema.valid_object_iff.mp hd
    exact (hread fields hrequired hproperties).1 a (deStruct_obj_eq_ok_iff.mp ha).2
  de_iff d hd := by
    obtain ⟨fields, rfl, hrequired, hknown, hproperties⟩ := Schema.valid_object_iff.mp hd
    rw [← (hread fields hrequired hproperties).2]
    simp only [deStruct_obj_eq_ok_iff, hnames, and_iff_right hknown]
  de_ser a := deStruct_obj_eq_ok_iff.mpr ⟨hnames ▸ (hkeys a).2, hser a⟩
  valid_ser a := by
    rw [Schema.valid_object_iff, ← hvalid a]
    simp only [Json.obj.injEq, exists_eq_left', and_iff_right (hkeys a).1, and_iff_right (hkeys a).2]

end Structs

end Satunera.Base
