import Mathlib

/-!
# First occurrences

A loop that collects what it has not collected yet.

* `pushNew`, `collectNew` : the step and the loop, from what has been collected so far;
* `FirstOccurrences` : each member once, in the order of the first occurrences (`FirstOccurrences.pushNew`,
  `firstOccurrences_collectNew`);
* `prefix_collectNew` : what has been collected stays.
-/

namespace Satunera.Base

variable {α : Type} [DecidableEq α]

/-- `if !seen.contains(&x) { seen.push(x) }` -/
def pushNew (seen : List α) (x : α) : List α := if x ∈ seen then seen else seen ++ [x]

def collectNew (seen xs : List α) : List α := xs.foldl pushNew seen

/-- The members of `xs`, each where it occurs first. -/
structure FirstOccurrences (xs seen : List α) : Prop where
  nodup : seen.Nodup
  mem_iff : ∀ x, x ∈ seen ↔ x ∈ xs
  before_iff : ∀ x ∈ seen, ∀ y ∈ seen, seen.idxOf x < seen.idxOf y ↔ xs.idxOf x < xs.idxOf y

variable {xs seen : List α} {x : α}

theorem FirstOccurrences.nil : FirstOccurrences ([] : List α) [] := by
  constructor <;> simp

/-- One more member is pushed exactly when it is new. -/
theorem FirstOccurrences.pushNew (h : FirstOccurrences xs seen) (x : α) :
    FirstOccurrences (xs ++ [x]) (pushNew seen x) := by
  unfold Base.pushNew
  by_cases hx : x ∈ seen
  · rw [if_pos hx]
    refine ⟨h.nodup, fun y => ?_, fun y hy z hz => ?_⟩
    · rw [List.mem_append, List.mem_singleton, h.mem_iff]
      refine ⟨.inl, fun hy => hy.elim id ?_⟩
      rintro rfl
      exact (h.mem_iff y).mp hx
    · rw [List.idxOf_append_of_mem ((h.mem_iff y).mp hy), List.idxOf_append_of_mem ((h.mem_iff z).mp hz)]
      exact h.before_iff y hy z hz
  · have hxs : x ∉ xs := fun hmem => hx ((h.mem_iff x).mpr hmem)
    -- An old member comes before the new one on both sides.
    have hold : ∀ {l : List α} {y : α}, y ∈ l → x ∉ l → (l ++ [x]).idxOf y < (l ++ [x]).idxOf x := by
      intro l y hy hnew
      rw [List.idxOf_append_of_mem hy, List.idxOf_append_of_notMem hnew]
      exact Nat.lt_add_right _ (List.idxOf_lt_length_of_mem hy)
    rw [if_neg hx]
    refine ⟨?_, fun y => ?_, fun y hy z hz => ?_⟩
    · rw [← List.concat_eq_append]
      exact h.nodup.concat hx
    · rw [List.mem_append, List.mem_append, h.mem_iff]
    · rcases List.mem_append.mp hy with hy' | hy' <;> rcases List.mem_append.mp hz with hz' | hz'
      · rw [List.idxOf_append_of_mem hy', List.idxOf_append_of_mem hz',
          List.idxOf_append_of_mem ((h.mem_iff y).mp hy'), List.idxOf_append_of_mem ((h.mem_iff z).mp hz')]
        exact h.before_iff y hy' z hz'
      · rw [List.mem_singleton.mp hz']
        exact iff_of_true (hold hy' hx) (hold ((h.mem_iff y).mp hy') hxs)
      · rw [List.mem_singleton.mp hy']
        exact iff_of_false (hold hz' hx).asymm (hold ((h.mem_iff z).mp hz') hxs).asymm
      · rw [List.mem_singleton.mp hy', List.mem_singleton.mp hz']
        exact iff_of_false (Nat.lt_irrefl _) (Nat.lt_irrefl _)

theorem FirstOccurrences.collectNew (h : FirstOccurrences xs seen) (ys : List α) :
    FirstOccurrences (xs ++ ys) (collectNew seen ys) := by
  induction ys generalizing xs seen with
  | nil => rwa [List.append_nil]
  | cons y ys ih =>
    rw [List.append_cons]
    exact ih (h.pushNew y)

theorem firstOccurrences_collectNew (xs : List α) : FirstOccurrences xs (collectNew [] xs) :=
  FirstOccurrences.nil.collectNew xs

theorem prefix_pushNew (seen : List α) (x : α) : seen <+: pushNew seen x := by
  unfold pushNew
  split
  · exact List.prefix_rfl
  · exact List.prefix_append ..

/-- What has been collected stays at the front. -/
theorem prefix_collectNew (seen xs : List α) : seen <+: collectNew seen xs := by
  induction xs generalizing seen with
  | nil => exact List.prefix_rfl
  | cons x xs ih => exact (prefix_pushNew seen x).trans (ih _)

theorem collectNew_append (seen xs ys : List α) : collectNew seen (xs ++ ys) = collectNew (collectNew seen xs) ys :=
  List.foldl_append ..

end Satunera.Base
