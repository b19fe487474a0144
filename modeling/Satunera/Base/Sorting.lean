import Mathlib

/-!
# Sorting without ties

A list that is sorted by a total preorder in which no two of its members tie is strictly sorted, and its order is the
only one. In particular the first `k` of the sorted list are the last `k` of the list, newest first, exactly when each
of these comes before everything that is older.

* `pairwise_insertionSort_strict`, `insertionSort_eq`, and `pairwise_insertionSort_lt`, `pairwise_insertionSort_gt` for
  rows with distinct keys;
* `take_insertionSort_eq_iff`;
* `sortDedup` : sorted, and neighbours that are equal dropped, which leaves a list that depends on the members alone
  (`mem_sortDedup`, `pairwise_sortDedup`, `sortDedup_eq_of_mem_iff`).
-/

namespace Satunera.Base

variable {α : Type} {r : α → α → Prop} [DecidableRel r] [Std.Total r] [IsTrans α r] {l : List α}

/-- No two members of `l` tie. -/
def TieFree (r : α → α → Prop) (l : List α) : Prop := l.Pairwise fun a b => ¬(r a b ∧ r b a)

omit [DecidableRel r] [Std.Total r] [IsTrans α r] in
theorem TieFree.perm {l' : List α} (h : TieFree r l) (hp : l.Perm l') : TieFree r l' :=
  (hp.pairwise_iff fun hab hba => hab hba.symm).mp h

theorem pairwise_insertionSort_strict (h : TieFree r l) : (l.insertionSort r).Pairwise fun a b => ¬r b a := by
  have hfree := h.perm (List.perm_insertionSort r l).symm
  exact ((List.pairwise_insertionSort r l).and hfree).imp fun ⟨hab, hne⟩ hba => hne ⟨hab, hba⟩

omit [DecidableRel r] [Std.Total r] [IsTrans α r] in
theorem TieFree.eq_of_mem (h : TieFree r l) {a b : α} (ha : a ∈ l) (hb : b ∈ l) (hab : r a b) (hba : r b a) :
    a = b := by
  by_contra hne
  have : Std.Symm fun a b => ¬(r a b ∧ r b a) := ⟨fun _ _ hn hc => hn hc.symm⟩
  exact List.Pairwise.forall h ha hb hne ⟨hab, hba⟩

/-- The strictly sorted order is the only one. -/
theorem insertionSort_eq {l' : List α} (hp : l'.Perm l) (h : l'.Pairwise fun a b => ¬r b a) :
    l.insertionSort r = l' := by
  have hr : l'.Pairwise r := h.imp fun {a b} hba => (Std.Total.total a b).resolve_right hba
  have hfree : TieFree r l' := h.imp fun hba hc => hba hc.2
  have hperm : (l.insertionSort r).Perm l' := (List.perm_insertionSort r l).trans hp.symm
  exact hperm.eq_of_pairwise (fun a b ha hb => hfree.eq_of_mem (hperm.mem_iff.mp ha) hb)
    (List.pairwise_insertionSort r l) hr

/-! ## By a key -/

section Key
variable {κ : Type} [LinearOrder κ] (key : α → κ)

omit [DecidableRel r] [Std.Total r] [IsTrans α r] [LinearOrder κ] in
theorem tieFree_of_nodup {key : α → κ} (hr : ∀ a b, r a b → r b a → key a = key b) (hn : (l.map key).Nodup) :
    TieFree r l :=
  (List.pairwise_map.mp hn).imp fun hne ⟨hab, hba⟩ => hne (hr _ _ hab hba)

instance total_key_le : Std.Total fun a b : α => key a ≤ key b := ⟨fun a b => le_total (key a) (key b)⟩

instance total_key_ge : Std.Total fun a b : α => key b ≤ key a := ⟨fun a b => le_total (key b) (key a)⟩

instance isTrans_key_le : IsTrans α fun a b => key a ≤ key b := ⟨fun _ _ _ hab hbc => hab.trans hbc⟩

instance isTrans_key_ge : IsTrans α fun a b => key b ≤ key a := ⟨fun _ _ _ hab hbc => hbc.trans hab⟩

/-- Rows with distinct keys, sorted by the key, have increasing keys. -/
theorem pairwise_insertionSort_lt [DecidableRel fun a b : α => key a ≤ key b] (hn : (l.map key).Nodup) :
    (l.insertionSort fun a b => key a ≤ key b).Pairwise fun a b => key a < key b :=
  (pairwise_insertionSort_strict (tieFree_of_nodup (fun _ _ => le_antisymm) hn)).imp lt_of_not_ge

/-- The same from the greatest key down. -/
theorem pairwise_insertionSort_gt [DecidableRel fun a b : α => key b ≤ key a] (hn : (l.map key).Nodup) :
    (l.insertionSort fun a b => key b ≤ key a).Pairwise fun a b => key b < key a :=
  (pairwise_insertionSort_strict (tieFree_of_nodup (fun _ _ h h' => le_antisymm h' h) hn)).imp lt_of_not_ge

end Key

/-! ## The newest -/

/-- Split at the last `k`: the new ones, newest first, each before everything older. -/
theorem take_insertionSort_iff_of_append {old new : List α} (hn : (old ++ new).Nodup) (hfree : TieFree r (old ++ new)) :
    ((old ++ new).insertionSort r).take new.length = new.reverse ↔
      new.Pairwise (fun a b => ¬r a b) ∧ ∀ a ∈ old, ∀ b ∈ new, ¬r a b := by
  constructor
  · intro h
    have hsorted := pairwise_insertionSort_strict hfree
    rw [← List.take_append_drop new.length ((old ++ new).insertionSort r), h, List.pairwise_append] at hsorted
    obtain ⟨hnew, -, hcross⟩ := hsorted
    refine ⟨List.pairwise_reverse.mp hnew, fun a ha b hb => hcross b (List.mem_reverse.mpr hb) a ?_⟩
    have hmem : a ∈ (old ++ new).insertionSort r := (List.mem_insertionSort r).mpr (List.mem_append_left _ ha)
    rw [← List.take_append_drop new.length ((old ++ new).insertionSort r), h, List.mem_append, List.mem_reverse] at hmem
    exact hmem.resolve_left fun hnew => (List.nodup_append.mp hn).2.2 a ha a hnew rfl
  · rintro ⟨hnew, hcross⟩
    have hsort : (old ++ new).insertionSort r = new.reverse ++ old.insertionSort r := by
      refine insertionSort_eq ?_ (List.pairwise_append.mpr ⟨List.pairwise_reverse.mpr hnew, ?_, ?_⟩)
      · exact ((List.reverse_perm new).append (List.perm_insertionSort r old)).trans List.perm_append_comm
      · exact pairwise_insertionSort_strict (hfree.sublist (List.sublist_append_left old new))
      · intro b hb a ha
        exact hcross a ((List.mem_insertionSort r).mp ha) b (List.mem_reverse.mp hb)
    rw [hsort, ← List.length_reverse, List.take_left]

/-- The first `k` of the sorted list are the last `k` of the list, newest first, exactly when each of these comes
before everything that is older. -/
theorem take_insertionSort_eq_iff (hn : l.Nodup) (hfree : TieFree r l) (k : Nat) :
    (l.insertionSort r).take k = l.reverse.take k ↔
      ∀ i j (hi : i < l.length) (hj : j < l.length), i < j → l.length ≤ j + k → ¬r l[i] l[j] := by
  have hsplit := List.take_append_drop (l.length - k) l
  have htake : (l.insertionSort r).take k = (l.insertionSort r).take (l.drop (l.length - k)).length := by
    rw [List.length_drop, List.take_eq_take_iff, List.length_insertionSort]
    omega
  have hiff := take_insertionSort_iff_of_append (hsplit.symm ▸ hn) (hsplit.symm ▸ hfree)
  rw [hsplit] at hiff
  rw [List.take_reverse, htake, hiff, List.pairwise_iff_getElem]
  simp only [List.getElem_drop, List.length_drop]
  constructor
  · rintro ⟨hnew, hcross⟩ i j hi hj hij hjk
    by_cases him : i < l.length - k
    · refine hcross _ (List.mem_take_iff_getElem.mpr ⟨i, by omega, rfl⟩) _
        (List.mem_drop_iff_getElem.mpr ⟨j - (l.length - k), by omega, ?_⟩)
      congr 1
      omega
    · have := hnew (i - (l.length - k)) (j - (l.length - k)) (by omega) (by omega) (by omega)
      simpa only [Nat.add_sub_of_le (Nat.le_of_not_lt him),
        Nat.add_sub_of_le (show l.length - k ≤ j by omega)] using this
  · intro h
    refine ⟨fun i j hi hj hij => h _ _ (by omega) (by omega) (by omega) (by omega), fun a ha b hb => ?_⟩
    obtain ⟨i, hi, rfl⟩ := List.mem_take_iff_getElem.mp ha
    obtain ⟨j, hj, rfl⟩ := List.mem_drop_iff_getElem.mp hb
    exact h _ _ (by omega) (by omega) (by omega) (by omega)

/-! ## Each member once -/

section Dedup
variable {β κ : Type} [DecidableEq β] [LinearOrder κ] {le : β → β → Bool} {key : β → κ} {xs ys : List β} {x : β}

/-- Sorted, then without the repetitions of neighbours. -/
def sortDedup (le : β → β → Bool) (xs : List β) : List β := (xs.mergeSort le).destutter (· ≠ ·)

theorem mem_destutter'_ne {a : β} : x ∈ xs.destutter' (· ≠ ·) a ↔ x = a ∨ x ∈ xs := by
  induction xs generalizing a with
  | nil => simp
  | cons b xs ih =>
    by_cases hab : a = b
    · rw [List.destutter'_cons_neg _ (not_not.mpr hab), ih, List.mem_cons, hab, or_self_left]
    · rw [List.destutter'_cons_pos _ hab, List.mem_cons, ih, List.mem_cons]

/-- Only repetitions are dropped. -/
theorem mem_sortDedup : x ∈ sortDedup le xs ↔ x ∈ xs := by
  have hmem : x ∈ xs.mergeSort le ↔ x ∈ xs := List.mem_mergeSort
  rw [sortDedup, ← hmem]
  cases xs.mergeSort le with
  | nil => rfl
  | cons a l => rw [List.destutter_cons', mem_destutter'_ne, List.mem_cons]

section Key
variable (hle : ∀ a b, le a b = true ↔ key a ≤ key b)
include hle

omit [DecidableEq β] in
theorem pairwise_mergeSort_key (xs : List β) : (xs.mergeSort le).Pairwise fun a b => key a ≤ key b := by
  have hsorted : (xs.mergeSort le).Pairwise fun a b => le a b = true :=
    List.pairwise_mergeSort (fun a b c hab hbc => (hle a c).mpr (((hle a b).mp hab).trans ((hle b c).mp hbc)))
      (fun a b => by
        rw [Bool.or_eq_true, hle, hle]
        exact le_total _ _) xs
  exact hsorted.imp fun {a b} hab => (hle a b).mp hab

variable (hkey : Function.Injective key)
include hkey

/-- Where the key covers all that is compared, no repetition is left. -/
theorem pairwise_sortDedup (xs : List β) : (sortDedup le xs).Pairwise fun a b => key a < key b := by
  have hsorted : (sortDedup le xs).Pairwise fun a b => key a ≤ key b :=
    (pairwise_mergeSort_key hle xs).sublist (List.destutter_sublist ..)
  have hne : (sortDedup le xs).IsChain (· ≠ ·) := List.isChain_destutter ..
  have htrans : Trans (fun a b => key a < key b) (fun a b => key a < key b) fun a b => key a < key b := ⟨lt_trans⟩
  rw [← List.isChain_iff_pairwise, List.isChain_iff_getElem]
  intro i hi
  have hle := List.isChain_iff_getElem.mp hsorted.isChain i hi
  exact lt_of_le_of_ne hle fun h => List.isChain_iff_getElem.mp hne i hi (hkey h)

/-- The order and the number of the repetitions do not matter. -/
theorem sortDedup_eq_of_mem_iff (h : ∀ x, x ∈ xs ↔ x ∈ ys) : sortDedup le xs = sortDedup le ys := by
  have : Std.Antisymm fun a b => key a < key b := ⟨fun _ _ hab hba => absurd hba hab.asymm⟩
  have : Std.Irrefl fun a b => key a < key b := ⟨fun _ => lt_irrefl _⟩
  refine (pairwise_sortDedup hle hkey xs).eq_of_mem_iff (pairwise_sortDedup hle hkey ys) fun x => ?_
  rw [mem_sortDedup, mem_sortDedup, h]

end Key

end Dedup

end Satunera.Base
