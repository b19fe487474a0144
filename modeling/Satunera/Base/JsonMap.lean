import Satunera.Base.Json

/-!
# The members of an object

The parser keeps an object as an ordered map: its members in the order of their keys, a repeated key once with its last
value.

* `SortedKeys` : members as the map keeps them;
* `insert`, `extend` : one member more, and several (`find_insert`, `find_extend`, `mem_keys_extend`,
  `SortedKeys.extend`);
* `ofMembers` : the map of the members of a text, in the order of the text (`find_ofMembers`).
-/

namespace Satunera.Base.Json

/-- Keys in order, without repetition. -/
def SortedKeys (fields : List (String × Json)) : Prop := (fields.map Prod.fst).Pairwise (· < ·)

/-- The member goes to its place, over an older one with its key. -/
def insert (key : String) (v : Json) : List (String × Json) → List (String × Json)
  | [] => [(key, v)]
  | f :: fields =>
    if key < f.1 then (key, v) :: f :: fields
    else if key = f.1 then (key, v) :: fields
    else f :: insert key v fields

def extend (fields extra : List (String × Json)) : List (String × Json) :=
  extra.foldl (fun acc f => insert f.1 f.2 acc) fields

def ofMembers (members : List (String × Json)) : List (String × Json) := extend [] members

variable {fields extra : List (String × Json)} {key k : String} {v : Json}

/-! ## One member -/

theorem find_insert : find k (insert key v fields) = if k = key then some v else find k fields := by
  induction fields with
  | nil => simp only [insert, find_cons, eq_comm]
  | cons f fields ih =>
    unfold insert
    by_cases hlt : key < f.1
    · rw [if_pos hlt, find_cons]
      simp only [eq_comm]
    · rw [if_neg hlt]
      by_cases heq : key = f.1
      · rw [if_pos heq, find_cons, find_cons, heq]
        by_cases hk : f.1 = k
        · rw [if_pos hk, if_pos hk.symm]
        · rw [if_neg hk, if_neg (Ne.symm hk), if_neg hk]
      · rw [if_neg heq, find_cons, ih, find_cons]
        by_cases hk : f.1 = k
        · rw [if_pos hk, if_pos hk, if_neg fun h => heq (h.symm.trans hk.symm)]
        · rw [if_neg hk, if_neg hk]

theorem mem_keys_insert : k ∈ (insert key v fields).map Prod.fst ↔ k = key ∨ k ∈ fields.map Prod.fst := by
  induction fields with
  | nil => simp [insert]
  | cons f fields ih =>
    unfold insert
    by_cases hlt : key < f.1
    · rw [if_pos hlt, List.map_cons, List.mem_cons]
    · rw [if_neg hlt]
      by_cases heq : key = f.1
      · rw [if_pos heq, List.map_cons, List.map_cons, List.mem_cons, List.mem_cons, heq, or_self_left]
      · rw [if_neg heq, List.map_cons, List.map_cons, List.mem_cons, List.mem_cons, ih, or_left_comm]

theorem SortedKeys.insert (h : SortedKeys fields) : SortedKeys (insert key v fields) := by
  induction fields with
  | nil => exact List.pairwise_singleton ..
  | cons f fields ih =>
    obtain ⟨hhead, htail⟩ := List.pairwise_cons.mp h
    unfold Json.insert
    by_cases hlt : key < f.1
    · rw [if_pos hlt]
      refine List.pairwise_cons.mpr ⟨fun l hl => ?_, h⟩
      rcases List.mem_cons.mp hl with rfl | hl
      · exact hlt
      · exact hlt.trans (hhead l hl)
    · rw [if_neg hlt]
      by_cases heq : key = f.1
      · rw [if_pos heq]
        exact List.pairwise_cons.mpr ⟨fun l hl => heq ▸ hhead l hl, htail⟩
      · rw [if_neg heq]
        refine List.pairwise_cons.mpr ⟨fun l hl => ?_, ih htail⟩
        rcases mem_keys_insert.mp hl with rfl | hl
        · exact lt_of_le_of_ne (not_lt.mp hlt) (Ne.symm heq)
        · exact hhead l hl

/-! ## Several members -/

/-- A key that is not among the new members keeps its value. -/
theorem find_extend (h : k ∉ extra.map Prod.fst) : find k (extend fields extra) = find k fields := by
  induction extra generalizing fields with
  | nil => rfl
  | cons f extra ih =>
    obtain ⟨hf, hextra⟩ := not_or.mp (List.mem_cons.not.mp h)
    show find k (extend (insert f.1 f.2 fields) extra) = _
    rw [ih hextra, find_insert, if_neg hf]

theorem mem_keys_extend :
    k ∈ (extend fields extra).map Prod.fst ↔ k ∈ fields.map Prod.fst ∨ k ∈ extra.map Prod.fst := by
  induction extra generalizing fields with
  | nil => simp [extend]
  | cons f extra ih =>
    show k ∈ (extend (insert f.1 f.2 fields) extra).map Prod.fst ↔ _
    rw [ih, mem_keys_insert, List.map_cons, List.mem_cons]
    tauto

theorem SortedKeys.extend (h : SortedKeys fields) : SortedKeys (extend fields extra) := by
  induction extra generalizing fields with
  | nil => exact h
  | cons f extra ih => exact ih h.insert

/-! ## The members of a text -/

theorem find_append (a b : List (String × Json)) : find k (a ++ b) = (find k a).or (find k b) := by
  rw [find, List.find?_append, Option.map_or, find, find]

theorem find_eq_none (h : k ∉ fields.map Prod.fst) : find k fields = none := by
  rw [find, Option.map_eq_none_iff, List.find?_eq_none]
  intro f hf hk
  exact h (List.mem_map.mpr ⟨f, hf, by simpa using hk⟩)

/-- Without repeated keys the order of the text does not matter. -/
theorem find_ofMembers {members : List (String × Json)} (h : (members.map Prod.fst).Nodup) :
    find k (ofMembers members) = find k members := by
  induction members using List.reverseRecOn with
  | nil => rfl
  | append_singleton members f ih =>
    rw [List.map_append, List.nodup_append] at h
    obtain ⟨hmembers, -, hdisjoint⟩ := h
    have hlast : ofMembers (members ++ [f]) = insert f.1 f.2 (ofMembers members) := List.foldl_append ..
    rw [hlast, find_insert, find_append, ih hmembers, find_cons, find_nil]
    by_cases hk : k = f.1
    · have hnone : find k members = none := find_eq_none fun hmem => hdisjoint k hmem f.1 (by simp) hk
      rw [if_pos hk, hnone, if_pos hk.symm, Option.none_or]
    · rw [if_neg hk, if_neg (Ne.symm hk), Option.or_none]

theorem sortedKeys_ofMembers (members : List (String × Json)) : SortedKeys (ofMembers members) :=
  SortedKeys.extend .nil

theorem mem_keys_ofMembers {members : List (String × Json)} :
    k ∈ (ofMembers members).map Prod.fst ↔ k ∈ members.map Prod.fst := by
  rw [ofMembers, mem_keys_extend, List.map_nil, or_iff_right List.not_mem_nil]

end Satunera.Base.Json
