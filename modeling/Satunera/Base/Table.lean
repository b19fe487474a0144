import Mathlib

/-!
# Tables with a primary key

A `Table` is a list of rows whose keys are pairwise distinct, so a row that would break the primary key cannot be
built.

* `find?` : the row of a key (`find?_eq_some_iff`, `find?_eq_none_iff`);
* `insert?` : add a row, refused when its key is taken (`insert?_eq_some_iff`, `find?_insert?`);
* `modify` : rewrite the row of a key (`find?_modify`, `mem_modify`);
* `erase` : drop the row of a key (`find?_erase`);
* `upsert` : rewrite the row of a key or add it (`find?_upsert`).
-/

namespace Satunera.Base

/-- Rows with pairwise distinct keys. -/
structure Table (ρ : Type) {κ : Type} (key : ρ → κ) where
  rows : List ρ
  nodup : (rows.map key).Nodup

namespace Table
variable {ρ κ : Type} {key : ρ → κ}

/-- The table without rows. -/
def empty : Table ρ key := ⟨[], List.nodup_nil⟩

theorem eq_of_key {t : Table ρ key} {r r' : ρ} (h : r ∈ t.rows) (h' : r' ∈ t.rows) (he : key r = key r') : r = r' :=
  List.inj_on_of_nodup_map t.nodup h h' he

@[ext] theorem ext {t t' : Table ρ key} (h : t.rows = t'.rows) : t = t' := by
  cases t; cases t'; cases h; rfl

variable [DecidableEq κ]

/-- The row with key `k`. -/
def find? (t : Table ρ key) (k : κ) : Option ρ := t.rows.find? fun r => decide (key r = k)

theorem find?_eq_some_iff {t : Table ρ key} {k : κ} {r : ρ} : t.find? k = some r ↔ r ∈ t.rows ∧ key r = k := by
  constructor
  · intro h
    exact ⟨List.mem_of_find?_eq_some h, by simpa using List.find?_some h⟩
  · rintro ⟨hr, rfl⟩
    cases h : t.find? (key r) with
    | none =>
      have := List.find?_eq_none.mp h r hr
      simp at this
    | some r' =>
      have hk : key r' = key r := by simpa using List.find?_some h
      rw [eq_of_key (List.mem_of_find?_eq_some h) hr hk]

theorem find?_eq_none_iff {t : Table ρ key} {k : κ} : t.find? k = none ↔ ∀ r ∈ t.rows, key r ≠ k := by
  unfold find?
  simp

theorem find?_of_mem {t : Table ρ key} {r : ρ} (h : r ∈ t.rows) : t.find? (key r) = some r :=
  find?_eq_some_iff.mpr ⟨h, rfl⟩

theorem mem_of_find? {t : Table ρ key} {k : κ} {r : ρ} (h : t.find? k = some r) : r ∈ t.rows :=
  (find?_eq_some_iff.mp h).1

theorem key_of_find? {t : Table ρ key} {k : κ} {r : ρ} (h : t.find? k = some r) : key r = k :=
  (find?_eq_some_iff.mp h).2

/-! ## Adding a row -/

/-- Add a row; refused when its key is taken. -/
def insert? (t : Table ρ key) (r : ρ) : Option (Table ρ key) :=
  if h : key r ∈ t.rows.map key then none
  else some ⟨t.rows ++ [r], by
    rw [List.map_append, List.map_singleton]
    exact List.Nodup.append t.nodup (List.nodup_singleton _) (by simpa using h)⟩

theorem insert?_eq_some_iff {t t' : Table ρ key} {r : ρ} :
    t.insert? r = some t' ↔ t.find? (key r) = none ∧ t'.rows = t.rows ++ [r] := by
  unfold insert?
  rw [find?_eq_none_iff]
  split
  · rename_i h
    obtain ⟨r', hr', he⟩ := List.mem_map.mp h
    exact ⟨fun hc => absurd hc.symm (Option.some_ne_none t'), fun hc => absurd he (hc.1 r' hr')⟩
  · rename_i h
    rw [Option.some.injEq]
    constructor
    · rintro rfl
      exact ⟨fun r' hr' he => h (List.mem_map.mpr ⟨r', hr', he⟩), rfl⟩
    · rintro ⟨-, hrows⟩
      exact ext hrows.symm

theorem insert?_eq_none_iff {t : Table ρ key} {r : ρ} : t.insert? r = none ↔ (t.find? (key r)).isSome := by
  unfold insert?
  rw [Option.isSome_iff_ne_none, ne_eq, find?_eq_none_iff]
  split
  · rename_i h
    simpa using h
  · rename_i h
    simpa using h

theorem rows_insert? {t t' : Table ρ key} {r : ρ} (h : t.insert? r = some t') : t'.rows = t.rows ++ [r] :=
  (insert?_eq_some_iff.mp h).2

theorem mem_insert? {t t' : Table ρ key} {r x : ρ} (h : t.insert? r = some t') :
    x ∈ t'.rows ↔ x ∈ t.rows ∨ x = r := by
  rw [rows_insert? h]
  simp

/-- A column without repetitions stays so when the new row has a new value in it. -/
theorem nodup_map_insert? {β : Type} {f : ρ → β} {t t' : Table ρ key} {r : ρ} (h : t.insert? r = some t')
    (hn : (t.rows.map f).Nodup) (hnew : ∀ x ∈ t.rows, f x ≠ f r) : (t'.rows.map f).Nodup := by
  rw [rows_insert? h, List.map_append, List.map_singleton]
  exact hn.append (List.nodup_singleton _) (by simpa using hnew)

theorem find?_insert? {t t' : Table ρ key} {r : ρ} (h : t.insert? r = some t') (k : κ) :
    t'.find? k = if k = key r then some r else t.find? k := by
  split
  · subst k
    exact find?_of_mem ((mem_insert? h).mpr (Or.inr rfl))
  · rename_i hk
    ext x
    rw [find?_eq_some_iff, find?_eq_some_iff, mem_insert? h]
    constructor
    · rintro ⟨hx | rfl, he⟩
      · exact ⟨hx, he⟩
      · exact absurd he.symm hk
    · rintro ⟨hx, he⟩
      exact ⟨Or.inl hx, he⟩

theorem isSome_find?_insert? {t t' : Table ρ key} {r : ρ} (h : t.insert? r = some t') {k : κ}
    (hk : (t.find? k).isSome) : (t'.find? k).isSome := by
  rw [find?_insert? h]
  split
  · rfl
  · exact hk

/-! ## Rewriting a row -/

theorem map_key_modify (rows : List ρ) (k : κ) (f : ρ → ρ) (hf : ∀ r, key r = k → key (f r) = k) :
    (rows.map fun r => if key r = k then f r else r).map key = rows.map key := by
  rw [List.map_map]
  refine List.map_congr_left fun r _ => ?_
  by_cases h : key r = k
  · simp [h, hf r h]
  · simp [h]

/-- Rewrite the row of key `k` by a function that keeps its key. -/
def modify (t : Table ρ key) (k : κ) (f : ρ → ρ) (hf : ∀ r, key r = k → key (f r) = k) : Table ρ key :=
  ⟨t.rows.map fun r => if key r = k then f r else r, by rw [map_key_modify t.rows k f hf]; exact t.nodup⟩

variable {k : κ} {f : ρ → ρ} {hf : ∀ r, key r = k → key (f r) = k}

theorem mem_modify {t : Table ρ key} {x : ρ} :
    x ∈ (t.modify k f hf).rows ↔ (x ∈ t.rows ∧ key x ≠ k) ∨ ∃ r ∈ t.rows, key r = k ∧ f r = x := by
  unfold modify
  simp only [List.mem_map]
  constructor
  · rintro ⟨r, hr, rfl⟩
    by_cases h : key r = k
    · rw [if_pos h]
      exact Or.inr ⟨r, hr, h, rfl⟩
    · rw [if_neg h]
      exact Or.inl ⟨hr, h⟩
  · rintro (⟨hx, hk⟩ | ⟨r, hr, hk, rfl⟩)
    · exact ⟨x, hx, if_neg hk⟩
    · exact ⟨r, hr, if_pos hk⟩

theorem find?_modify (t : Table ρ key) (k' : κ) :
    (t.modify k f hf).find? k' = if k' = k then (t.find? k).map f else t.find? k' := by
  ext x
  rw [find?_eq_some_iff, mem_modify]
  split
  · subst k'
    rw [Option.map_eq_some_iff]
    constructor
    · rintro ⟨⟨-, hk⟩ | ⟨r, hr, hk, rfl⟩, he⟩
      · exact absurd he hk
      · exact ⟨r, find?_eq_some_iff.mpr ⟨hr, hk⟩, rfl⟩
    · rintro ⟨r, hr, rfl⟩
      obtain ⟨hr, hk⟩ := find?_eq_some_iff.mp hr
      exact ⟨Or.inr ⟨r, hr, hk, rfl⟩, hf r hk⟩
  · rename_i hne
    rw [find?_eq_some_iff]
    constructor
    · rintro ⟨⟨hx, -⟩ | ⟨r, hr, hk, rfl⟩, he⟩
      · exact ⟨hx, he⟩
      · exact absurd (he.symm.trans (hf r hk)) hne
    · rintro ⟨hx, he⟩
      exact ⟨Or.inl ⟨hx, fun hk => hne (he.symm.trans hk)⟩, he⟩

@[simp] theorem isSome_find?_modify (t : Table ρ key) (k' : κ) :
    ((t.modify k f hf).find? k').isSome = (t.find? k').isSome := by
  rw [find?_modify]
  split
  · subst k'
    exact Option.isSome_map
  · rfl

/-! ## Dropping a row -/

/-- Drop the row of key `k`. -/
def erase (t : Table ρ key) (k : κ) : Table ρ key :=
  ⟨t.rows.filter fun r => decide (key r ≠ k), t.nodup.sublist (List.filter_sublist.map key)⟩

theorem mem_erase {t : Table ρ key} {x : ρ} : x ∈ (t.erase k).rows ↔ x ∈ t.rows ∧ key x ≠ k := by
  unfold erase
  simp

theorem find?_erase (t : Table ρ key) (k' : κ) : (t.erase k).find? k' = if k' = k then none else t.find? k' := by
  ext x
  rw [find?_eq_some_iff, mem_erase]
  split
  · subst k'
    simp
  · rename_i hne
    rw [find?_eq_some_iff]
    constructor
    · rintro ⟨⟨hx, -⟩, he⟩
      exact ⟨hx, he⟩
    · rintro ⟨hx, he⟩
      exact ⟨⟨hx, fun hk => hne (he.symm.trans hk)⟩, he⟩

/-! ## Rewriting or adding a row -/

/-- Put `r` in the place of the row with its key, or add it. -/
def upsert (t : Table ρ key) (r : ρ) : Table ρ key :=
  match t.insert? r with
  | some t' => t'
  | none => t.modify (key r) (fun _ => r) (fun _ _ => rfl)

theorem find?_upsert (t : Table ρ key) (r : ρ) (k' : κ) :
    (t.upsert r).find? k' = if k' = key r then some r else t.find? k' := by
  unfold upsert
  cases h : t.insert? r with
  | some t' => exact find?_insert? h k'
  | none =>
    obtain ⟨r', hr'⟩ := Option.isSome_iff_exists.mp (insert?_eq_none_iff.mp h)
    simp only [find?_modify, hr', Option.map_some]

end Table

end Satunera.Base
