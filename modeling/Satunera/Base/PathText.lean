import Mathlib

/-!
# Paths as texts

* `splitSlash`, `joinSlash` : a path and its segments (`splitSlash_joinSlash`, `joinSlash_injective`);
* `joinSlash_prefix_iff` : the paths below a path, as prefixes of segments.
-/

namespace Satunera.Base

def splitSlash (s : String) : List String := (s.toList.splitOn '/').map String.ofList

def joinSlash (segments : List String) : String := String.ofList (['/'].intercalate (segments.map String.toList))

theorem splitSlash_joinSlash {segments : List String} (hne : segments ≠ []) (h : ∀ s ∈ segments, '/' ∉ s.toList) :
    splitSlash (joinSlash segments) = segments := by
  rw [splitSlash, joinSlash, String.toList_ofList, List.splitOn_intercalate _ (by simpa using h) (by simpa using hne),
    List.map_map]
  exact (List.map_congr_left fun s _ => String.ofList_toList).trans (List.map_id _)

theorem joinSlash_injective {p q : List String} (hp : ∀ s ∈ p, s ≠ "" ∧ '/' ∉ s.toList)
    (hq : ∀ s ∈ q, s ≠ "" ∧ '/' ∉ s.toList) (h : joinSlash p = joinSlash q) : p = q := by
  have hempty : ∀ r : List String, (∀ s ∈ r, s ≠ "" ∧ '/' ∉ s.toList) → joinSlash r = "" → r = [] := by
    intro r hr hjoin
    by_contra hne
    have hsplit := splitSlash_joinSlash hne fun s hs => (hr s hs).2
    rw [hjoin] at hsplit
    exact (hr "" (hsplit ▸ List.mem_singleton_self _)).1 rfl
  by_cases hpe : p = []
  · rw [hpe, hempty q hq (by rw [← h, hpe]; rfl)]
  by_cases hqe : q = []
  · rw [hqe, hempty p hp (by rw [h, hqe]; rfl)]
  rw [← splitSlash_joinSlash hpe fun s hs => (hp s hs).2, h, splitSlash_joinSlash hqe fun s hs => (hq s hs).2]

theorem mem_splitSlash {s segment : String} (h : segment ∈ splitSlash s) {c : Char} (hc : c ∈ segment.toList) :
    c ∈ s.toList ∧ c ≠ '/' := by
  obtain ⟨cs, hcs, rfl⟩ := List.mem_map.mp h
  rw [String.toList_ofList] at hc
  clear h
  generalize s.toList = rest at hcs ⊢
  induction rest generalizing cs with
  | nil =>
    obtain rfl : cs = [] := by simpa using hcs
    cases hc
  | cons d rest ih =>
    rw [List.splitOn_cons_eq_if_modifyHead] at hcs
    split at hcs
    · rcases List.mem_cons.mp hcs with rfl | hcs
      · cases hc
      · exact (ih cs hc hcs).imp_left (List.mem_cons_of_mem d)
    · rename_i hd
      obtain ⟨first, others, hsplit⟩ := List.exists_cons_of_ne_nil (List.splitOn_ne_nil '/' rest)
      rw [hsplit] at hcs ih
      rcases List.mem_cons.mp hcs with rfl | hcs
      · rcases List.mem_cons.mp hc with rfl | hc
        · exact ⟨List.mem_cons_self, by simpa using hd⟩
        · exact (ih first hc List.mem_cons_self).imp_left (List.mem_cons_of_mem d)
      · exact (ih cs hc (List.mem_cons_of_mem first hcs)).imp_left (List.mem_cons_of_mem d)

theorem toList_joinSlash_cons {segment : String} {segments : List String} (h : segments ≠ []) :
    (joinSlash (segment :: segments)).toList = segment.toList ++ '/' :: (joinSlash segments).toList := by
  rw [joinSlash, joinSlash, String.toList_ofList, String.toList_ofList, List.map_cons,
    List.intercalate_cons_of_ne_nil (by simpa using h), List.append_assoc]
  rfl

theorem toList_joinSlash_singleton (segment : String) : (joinSlash [segment]).toList = segment.toList := by
  rw [joinSlash, String.toList_ofList, List.map_singleton, List.intercalate_singleton]

theorem mem_joinSlash {segments : List String} {c : Char} (h : c ∈ (joinSlash segments).toList) :
    c = '/' ∨ ∃ s ∈ segments, c ∈ s.toList := by
  induction segments with
  | nil => cases h
  | cons s segments ih =>
    by_cases hne : segments = []
    · subst hne
      rw [toList_joinSlash_singleton] at h
      exact .inr ⟨s, List.mem_cons_self, h⟩
    · rw [toList_joinSlash_cons hne, List.mem_append, List.mem_cons] at h
      rcases h with h | h | h
      · exact .inr ⟨s, List.mem_cons_self, h⟩
      · exact .inl h
      · exact (ih h).imp_right fun ⟨s', hs', hc⟩ => ⟨s', List.mem_cons_of_mem s hs', hc⟩

theorem mem_toList_joinSlash {segments : List String} {s : String} (hs : s ∈ segments) {c : Char} (hc : c ∈ s.toList) :
    c ∈ (joinSlash segments).toList := by
  induction segments with
  | nil => cases hs
  | cons s' segments ih =>
    by_cases hne : segments = []
    · subst hne
      rw [List.mem_singleton] at hs
      rwa [toList_joinSlash_singleton, ← hs]
    · rw [toList_joinSlash_cons hne, List.mem_append, List.mem_cons]
      rcases List.mem_cons.mp hs with rfl | hs
      · exact Or.inl hc
      · exact Or.inr (Or.inr (ih hs))

theorem toList_joinSlash_append {p q : List String} (hp : p ≠ []) (hq : q ≠ []) :
    (joinSlash (p ++ q)).toList = (joinSlash p).toList ++ '/' :: (joinSlash q).toList := by
  induction p with
  | nil => exact absurd rfl hp
  | cons s p ih =>
    by_cases hne : p = []
    · rw [hne, List.singleton_append, toList_joinSlash_cons hq, toList_joinSlash_singleton]
    · rw [List.cons_append, toList_joinSlash_cons (by simp [hne]), ih hne, toList_joinSlash_cons hne, List.append_assoc,
        List.cons_append]

/-- The paths below a path are those that go on from it. -/
theorem joinSlash_prefix_iff {p q : List String} (hne : p ≠ []) (hp : ∀ s ∈ p, s ≠ "" ∧ '/' ∉ s.toList)
    (hq : ∀ s ∈ q, s ≠ "" ∧ '/' ∉ s.toList) :
    (joinSlash q = joinSlash p ∨ (joinSlash p).toList ++ ['/'] <+: (joinSlash q).toList) ↔ p <+: q := by
  constructor
  · rintro (heq | ⟨rest, hrest⟩)
    · rw [joinSlash_injective hq hp heq]
    · have hqne : q ≠ [] := by
        rintro rfl
        simp [joinSlash] at hrest
      refine ⟨(rest.splitOn '/').map String.ofList, ?_⟩
      calc p ++ (rest.splitOn '/').map String.ofList
          = splitSlash (joinSlash p) ++ (rest.splitOn '/').map String.ofList := by
            rw [splitSlash_joinSlash hne fun s hs => (hp s hs).2]
        _ = splitSlash (joinSlash q) := by
            rw [splitSlash, splitSlash, ← hrest, List.append_assoc, List.singleton_append,
              List.splitOn_append_cons_self, List.map_append]
        _ = q := splitSlash_joinSlash hqne fun s hs => (hq s hs).2
  · rintro ⟨rest, rfl⟩
    by_cases hrest : rest = []
    · exact .inl (by rw [hrest, List.append_nil])
    · refine .inr ⟨(joinSlash rest).toList, ?_⟩
      rw [toList_joinSlash_append hne hrest, List.append_assoc, List.singleton_append]

end Satunera.Base
