import Satunera.Base.Label
import Satunera.Base.Table

/-!
# Partial maps whose values carry their key

The abstract counterpart of a table: what is stored under each key, with no order and no text form.

* `Indexed` : a partial map from keys to values that carry their key, with `empty` and `put`;
* `Listing` : the list of the values that satisfy a condition, in a strict order, of which there is at most one
  (`Listing.unique`); listings of more values extend it (`Listing.sublist`);
* `Holds` : the rows of a table hold exactly the values of a map, along an encoding. Adding a row keeps it
  (`Holds.insert`), and so does any write that puts one row under its key (`Holds.put`); it is read off by key
  (`Holds.find?_eq_none_iff`, `Holds.of_find?`, `Holds.exists_find?`) or by sorting the rows that satisfy a condition
  (`Holds.listing`).
-/

namespace Satunera.Base

/-- A partial map from keys to values that carry their key. -/
@[ext] structure Indexed (α : Type) {κ : Type} (key : α → κ) where
  find : κ → Option α
  key_of_find : ∀ {k a}, find k = some a → key a = k

namespace Indexed
variable {α κ : Type} {key : α → κ}

/-- The map without values. -/
def empty : Indexed α key := ⟨fun _ => none, nofun⟩

/-- The value is stored. -/
def Mem (m : Indexed α key) (a : α) : Prop := m.find (key a) = some a

theorem mem_of_find {m : Indexed α key} {k : κ} {a : α} (h : m.find k = some a) : m.Mem a := by
  rw [Mem, m.key_of_find h, h]

theorem not_mem_empty (a : α) : ¬(empty : Indexed α key).Mem a := nofun

theorem Mem.unique {m : Indexed α key} {a b : α} (ha : m.Mem a) (hb : m.Mem b) (h : key a = key b) : a = b := by
  rw [Mem, h, hb] at ha
  exact (Option.some.inj ha).symm

variable [DecidableEq κ]

/-- Store a value under its key. -/
def put (m : Indexed α key) (a : α) : Indexed α key where
  find := Function.update m.find (key a) (some a)
  key_of_find {k b} h := by
    by_cases hk : k = key a
    · subst hk
      rw [Function.update_self] at h
      rw [Option.some.inj h]
    · rw [Function.update_of_ne hk] at h
      exact m.key_of_find h

@[simp] theorem find_put_self (m : Indexed α key) (a : α) : (m.put a).find (key a) = some a :=
  Function.update_self ..

theorem find_put_of_ne (m : Indexed α key) {a : α} {k : κ} (h : k ≠ key a) : (m.put a).find k = m.find k :=
  Function.update_of_ne h ..

theorem find_put (m : Indexed α key) (a : α) (k : κ) :
    (m.put a).find k = if k = key a then some a else m.find k := by
  split
  · subst k
    exact m.find_put_self a
  · exact m.find_put_of_ne ‹_›

theorem find_put_congr {m m' : Indexed α key} {k : κ} (h : m.find k = m'.find k) (a : α) :
    (m.put a).find k = (m'.put a).find k := by
  rw [find_put, find_put, h]

theorem mem_put {m : Indexed α key} {a b : α} : (m.put a).Mem b ↔ b = a ∨ m.Mem b ∧ key b ≠ key a := by
  rw [Mem, find_put]
  split
  · rename_i h
    constructor
    · intro he
      exact Or.inl (Option.some.inj he).symm
    · rintro (rfl | ⟨-, hne⟩)
      · rfl
      · exact absurd h hne
  · rename_i h
    constructor
    · exact fun hb => Or.inr ⟨hb, h⟩
    · rintro (rfl | ⟨hb, -⟩)
      · exact absurd rfl h
      · exact hb

end Indexed

/-! ## Listings -/

/-- The values that satisfy `P`, in the strict order `lt`. -/
structure Listing {α : Type} (P : α → Prop) (lt : α → α → Prop) (xs : List α) : Prop where
  sorted : xs.Pairwise lt
  mem_iff : ∀ a, a ∈ xs ↔ P a

section Listing
variable {α : Type} {P Q : α → Prop} {lt : α → α → Prop} {xs ys : List α}

theorem Listing.nodup (hasymm : ∀ a b, lt a b → ¬lt b a) (hx : Listing P lt xs) : xs.Nodup := by
  refine List.Pairwise.imp ?_ hx.sorted
  rintro a b hab rfl
  exact hasymm a a hab hab

/-- A listing of fewer values is part of a listing of more. -/
theorem Listing.sublist (hasymm : ∀ a b, lt a b → ¬lt b a) (hx : Listing P lt xs) (hy : Listing Q lt ys)
    (h : ∀ a, P a → Q a) : xs.Sublist ys := by
  have : Std.Antisymm lt := ⟨fun a b hab hba => absurd hba (hasymm a b hab)⟩
  have hsub : xs ⊆ ys := fun a ha => (hy.mem_iff a).mpr (h a ((hx.mem_iff a).mp ha))
  exact List.sublist_of_subperm_of_pairwise ((hx.nodup hasymm).subperm hsub) hx.sorted hy.sorted

/-- There is at most one listing. -/
theorem Listing.unique (hasymm : ∀ a b, lt a b → ¬lt b a) (hx : Listing P lt xs) (hy : Listing P lt ys) : xs = ys :=
  (hx.sublist hasymm hy fun _ h => h).antisymm (hy.sublist hasymm hx fun _ h => h)

/-- The first of a listing is before every other. -/
theorem Listing.head? (hx : Listing P lt xs) {a : α} (ha : P a) : ∃ b, xs.head? = some b ∧ (b = a ∨ lt b a) := by
  have hmem := (hx.mem_iff a).mpr ha
  cases xs with
  | nil => cases hmem
  | cons b xs =>
    refine ⟨b, rfl, ?_⟩
    rcases List.mem_cons.mp hmem with rfl | hmem
    · exact Or.inl rfl
    · exact Or.inr ((List.pairwise_cons.mp hx.sorted).1 a hmem)

/-- What is not among the first `k` has `k` before it. -/
theorem Listing.mem_take_or (hx : Listing P lt xs) (k : Nat) {a : α} (ha : P a) :
    a ∈ xs.take k ∨ (xs.take k).length = k ∧ ∀ b ∈ xs.take k, lt b a := by
  have hmem := (hx.mem_iff a).mpr ha
  have hsorted := hx.sorted
  rw [← List.take_append_drop k xs] at hmem hsorted
  rcases List.mem_append.mp hmem with hmem | hmem
  · exact Or.inl hmem
  · refine Or.inr ⟨?_, fun b hb => (List.pairwise_append.mp hsorted).2.2 b hb a hmem⟩
    have hpos := List.length_pos_of_mem hmem
    rw [List.length_drop] at hpos
    rw [List.length_take]
    omega

theorem Listing.congr (h : ∀ a, P a ↔ Q a) (hx : Listing P lt xs) : Listing Q lt xs :=
  ⟨hx.sorted, fun a => (hx.mem_iff a).trans (h a)⟩

end Listing

theorem pairwise_of_forall₂ {α β : Type} {E : α → β → Prop} {R : α → α → Prop} {lt : β → β → Prop}
    (hlt : ∀ a a' b b', E a b → E a' b' → R a a' → lt b b') {xs : List α} {ys : List β} (h : List.Forall₂ E xs ys)
    (hx : xs.Pairwise R) : ys.Pairwise lt := by
  induction h with
  | nil => exact .nil
  | cons hab hrest ih =>
    obtain ⟨hhead, htail⟩ := List.pairwise_cons.mp hx
    refine List.pairwise_cons.mpr ⟨fun b hb => ?_, ih htail⟩
    obtain ⟨a, ha, he⟩ := exists_of_mem_right hrest hb
    exact hlt _ _ _ _ hab he (hhead a ha)

/-! ## Tables that hold a map -/

section Holds
variable {ρ α κ κ' : Type} {rowKey : ρ → κ'} {key : α → κ} {E : ρ → α → Prop}

/-- The rows of `t` hold exactly the values of `m`. -/
structure Holds (E : ρ → α → Prop) (t : Table ρ rowKey) (m : Indexed α key) : Prop where
  mem_of_row : ∀ r ∈ t.rows, ∃ a, E r a ∧ m.Mem a
  row_of_mem : ∀ a, m.Mem a → ∃ r ∈ t.rows, E r a

theorem holds_empty : Holds E (.empty : Table ρ rowKey) (.empty : Indexed α key) :=
  ⟨List.forall_mem_nil _, fun a h => absurd h (Indexed.not_mem_empty a)⟩

variable {t t' : Table ρ rowKey} {m : Indexed α key}

section Insert
variable [DecidableEq κ]

theorem Holds.insert (h : Holds E t m) {r : ρ} {a : α} (hrows : t'.rows = t.rows ++ [r]) (he : E r a)
    (hnew : m.find (key a) = none) : Holds E t' (m.put a) := by
  constructor
  · intro x hx
    rw [hrows, List.mem_append, List.mem_singleton] at hx
    rcases hx with hx | rfl
    · obtain ⟨b, hb, hmem⟩ := h.mem_of_row x hx
      refine ⟨b, hb, Indexed.mem_put.mpr (Or.inr ⟨hmem, fun hk => ?_⟩)⟩
      rw [Indexed.Mem, hk, hnew] at hmem
      cases hmem
    · exact ⟨a, he, Indexed.mem_put.mpr (Or.inl rfl)⟩
  · intro b hb
    rw [hrows]
    rcases Indexed.mem_put.mp hb with rfl | ⟨hb, -⟩
    · exact ⟨r, by simp, he⟩
    · obtain ⟨x, hx, hxb⟩ := h.row_of_mem b hb
      exact ⟨x, List.mem_append_left _ hx, hxb⟩

end Insert

/-- The key of a row is the code of the key of its value. -/
structure Coded (E : ρ → α → Prop) (rowKey : ρ → κ') (key : α → κ) (code : κ → κ') : Prop where
  rowKey_eq : ∀ r a, E r a → rowKey r = code (key a)
  injective : Function.Injective code

section Coded
variable [DecidableEq κ'] {code : κ → κ'} (hc : Coded E rowKey key code) (h : Holds E t m)
include hc h

theorem Holds.exists_find? {k : κ} {a : α} (ha : m.find k = some a) : ∃ r, t.find? (code k) = some r ∧ E r a := by
  obtain ⟨r, hr, he⟩ := h.row_of_mem a (Indexed.mem_of_find ha)
  refine ⟨r, ?_, he⟩
  rw [← m.key_of_find ha, ← hc.rowKey_eq r a he]
  exact Table.find?_of_mem hr

theorem Holds.of_find? {k : κ} {r : ρ} (hr : t.find? (code k) = some r) : ∃ a, m.find k = some a ∧ E r a := by
  obtain ⟨a, he, ha⟩ := h.mem_of_row r (Table.mem_of_find? hr)
  have hk : key a = k := hc.injective ((hc.rowKey_eq r a he).symm.trans (Table.key_of_find? hr))
  exact ⟨a, hk ▸ ha, he⟩

theorem Holds.find?_eq_none_iff {k : κ} : t.find? (code k) = none ↔ m.find k = none := by
  constructor
  · intro hnone
    cases hk : m.find k with
    | none => rfl
    | some a =>
      obtain ⟨r, hr, -⟩ := h.exists_find? hc hk
      rw [hnone] at hr
      cases hr
  · intro hnone
    cases hk : t.find? (code k) with
    | none => rfl
    | some r =>
      obtain ⟨a, ha, -⟩ := h.of_find? hc hk
      rw [hnone] at ha
      cases ha

theorem Holds.isSome_find? {k : κ} : (t.find? (code k)).isSome ↔ (m.find k).isSome := by
  rw [Option.isSome_iff_ne_none, Option.isSome_iff_ne_none, ne_eq, ne_eq, h.find?_eq_none_iff hc]

/-- A write that puts one row under its key and leaves the others. -/
theorem Holds.put [DecidableEq κ] {r : ρ} {a : α} (he : E r a) (hfind : t'.find? (code (key a)) = some r)
    (hframe : ∀ k ≠ code (key a), t'.find? k = t.find? k) : Holds E t' (m.put a) := by
  constructor
  · intro x hx
    have hself := Table.find?_of_mem hx
    by_cases hk : rowKey x = code (key a)
    · rw [hk, hfind] at hself
      obtain rfl : r = x := Option.some.inj hself
      exact ⟨a, he, Indexed.mem_put.mpr (Or.inl rfl)⟩
    · rw [hframe _ hk] at hself
      obtain ⟨b, hb, hmem⟩ := h.mem_of_row x (Table.mem_of_find? hself)
      refine ⟨b, hb, Indexed.mem_put.mpr (Or.inr ⟨hmem, fun hkey => hk ?_⟩)⟩
      rw [hc.rowKey_eq x b hb, hkey]
  · intro b hb
    rcases Indexed.mem_put.mp hb with rfl | ⟨hb, hne⟩
    · exact ⟨r, Table.mem_of_find? hfind, he⟩
    · obtain ⟨x, hx, hxb⟩ := h.row_of_mem b hb
      have hk : rowKey x ≠ code (key a) := fun hk =>
        hne (hc.injective ((hc.rowKey_eq x b hxb).symm.trans hk))
      have hself := hframe _ hk
      rw [Table.find?_of_mem hx] at hself
      exact ⟨x, Table.mem_of_find? hself, hxb⟩

end Coded

/-- The rows that satisfy a condition, in order, decode to the listing of the values that do. -/
theorem Holds.listing {ε : Type} (h : Holds E t m) {p : ρ → Prop} {P : α → Prop} (hp : ∀ r a, E r a → (p r ↔ P a))
    {f : ρ → Except ε α} (hdecode : ∀ r a, E r a → P a → f r = .ok a) {rows : List ρ}
    (hrows : ∀ r, r ∈ rows ↔ r ∈ t.rows ∧ p r) {R : ρ → ρ → Prop} {L : α → α → Prop}
    (hlt : ∀ r r' a a', E r a → E r' a' → R r r' → L a a') (hsorted : rows.Pairwise R) :
    ∃ as, Listing (fun a => m.Mem a ∧ P a) L as ∧ List.Forall₂ (fun r a => f r = .ok a) rows as := by
  have hall : ∀ r ∈ rows, ∃ a, E r a ∧ m.Mem a ∧ P a := by
    intro r hr
    obtain ⟨hr, hpr⟩ := (hrows r).mp hr
    obtain ⟨a, he, ha⟩ := h.mem_of_row r hr
    exact ⟨a, he, ha, (hp r a he).mp hpr⟩
  obtain ⟨as, hrel⟩ := exists_forall₂ hall
  refine ⟨as, ⟨?_, fun a => ⟨fun ha => ?_, fun ⟨ha, hP⟩ => ?_⟩⟩, hrel.imp fun r a he => hdecode r a he.1 he.2.2⟩
  · exact pairwise_of_forall₂ (fun r r' a a' he he' => hlt r r' a a' he.1 he'.1) hrel hsorted
  · obtain ⟨r, -, -, hmem⟩ := exists_of_mem_right hrel ha
    exact hmem
  · obtain ⟨r, hr, he⟩ := h.row_of_mem a ha
    obtain ⟨b, hb, hrb, -, hPb⟩ := exists_of_mem_left hrel ((hrows r).mpr ⟨hr, (hp r a he).mpr hP⟩)
    obtain rfl : a = b := Except.ok.inj ((hdecode r a he hP).symm.trans (hdecode r b hrb hPb))
    exact hb

end Holds

end Satunera.Base
