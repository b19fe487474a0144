import Mathlib

/-!
# Enumerations with a text form, and fallible results

An enumeration is read back from text by searching the list of its values: `parseLabel` does the search, and
`parseLabel_eq_some_iff` says it inverts an injective text form. A result is read with `okOr_eq_ok_iff`,
`bind_eq_ok_iff` and `map_eq_ok_iff`, a list of them with `mapM_eq_ok_iff`.
-/

namespace Satunera.Base

/-- The value of `all` whose text is `value`. -/
def parseLabel {α τ : Type} [DecidableEq τ] (all : List α) (asStr : α → τ) (value : τ) : Option α :=
  all.find? fun x => asStr x = value

theorem parseLabel_eq_some_iff {α τ : Type} [DecidableEq τ] {all : List α} {asStr : α → τ} (hall : ∀ a, a ∈ all)
    (hinj : Function.Injective asStr) {value : τ} {a : α} :
    parseLabel all asStr value = some a ↔ asStr a = value := by
  unfold parseLabel
  constructor
  · intro h
    simpa using List.find?_some h
  · rintro rfl
    cases h : all.find? fun x => decide (asStr x = asStr a) with
    | none =>
      have := List.find?_eq_none.mp h a (hall a)
      simp at this
    | some b => exact congrArg some (hinj (by simpa using List.find?_some h))

/-- `Option::ok_or`. -/
def okOr {ε α : Type} (o : Option α) (e : ε) : Except ε α :=
  match o with
  | some a => .ok a
  | none => .error e

@[simp] theorem okOr_eq_ok_iff {ε α : Type} {o : Option α} {e : ε} {a : α} : okOr o e = .ok a ↔ o = some a := by
  cases o <;> simp [okOr]

theorem ok_bind {ε α β : Type} (a : α) (f : α → Except ε β) : (Except.ok a >>= f) = f a := rfl

theorem bind_eq_ok_iff {ε α β : Type} {x : Except ε α} {f : α → Except ε β} {b : β} :
    (x >>= f) = .ok b ↔ ∃ a, x = .ok a ∧ f a = .ok b := by
  cases x with
  | error e => exact ⟨nofun, fun ⟨_, h, _⟩ => nomatch h⟩
  | ok a => exact ⟨fun h => ⟨a, rfl, h⟩, fun ⟨_, h, hf⟩ => Except.ok.inj h ▸ hf⟩

theorem okOr_eq_error_iff {ε α : Type} {o : Option α} {e e' : ε} : okOr o e = .error e' ↔ o = none ∧ e = e' := by
  cases o <;> simp [okOr]

theorem bind_eq_error_iff {ε α β : Type} {x : Except ε α} {f : α → Except ε β} {e : ε} :
    (x >>= f) = .error e ↔ x = .error e ∨ ∃ a, x = .ok a ∧ f a = .error e := by
  cases x with
  | error e' =>
    constructor
    · intro h
      cases h
      exact Or.inl rfl
    · rintro (h | ⟨_, h, -⟩) <;> cases h
      rfl
  | ok a => exact ⟨fun h => Or.inr ⟨a, rfl, h⟩, fun h => h.elim nofun fun ⟨_, h, hf⟩ => Except.ok.inj h ▸ hf⟩

theorem map_eq_ok_iff {ε α β : Type} {x : Except ε α} {f : α → β} {b : β} :
    x.map f = .ok b ↔ ∃ a, x = .ok a ∧ f a = b := by
  cases x <;> simp [Except.map]

/-! ## Lists of fallible results -/

section Lists
variable {ε α β : Type} {f : α → Except ε β}

theorem mapM_eq_ok_iff {xs : List α} {as : List β} :
    xs.mapM f = .ok as ↔ List.Forall₂ (fun x a => f x = .ok a) xs as := by
  induction xs generalizing as with
  | nil => cases as <;> simp [pure, Except.pure]
  | cons x xs ih =>
    rw [List.mapM_cons]
    simp only [bind_eq_ok_iff, ih]
    constructor
    · rintro ⟨a, ha, as', has, hend⟩
      cases hend
      exact .cons ha has
    · rintro (_ | ⟨ha, has⟩)
      exact ⟨_, ha, _, has, rfl⟩

theorem exists_mapM_iff {xs : List α} : (∃ as, xs.mapM f = .ok as) ↔ ∀ x ∈ xs, ∃ a, f x = .ok a := by
  simp only [mapM_eq_ok_iff]
  induction xs with
  | nil => simp
  | cons x xs ih =>
    rw [List.forall_mem_cons, ← ih]
    constructor
    · rintro ⟨_, _ | ⟨ha, has⟩⟩
      exact ⟨⟨_, ha⟩, _, has⟩
    · rintro ⟨⟨a, ha⟩, as, has⟩
      exact ⟨a :: as, .cons ha has⟩

theorem exists_of_mem_left {E : α → β → Prop} {xs : List α} {bs : List β} (h : List.Forall₂ E xs bs) {a : α}
    (ha : a ∈ xs) : ∃ b ∈ bs, E a b := by
  induction h with
  | nil => cases ha
  | cons hab _ ih =>
    rcases List.mem_cons.mp ha with rfl | ha
    · exact ⟨_, List.mem_cons_self .., hab⟩
    · obtain ⟨b, hb, hE⟩ := ih ha
      exact ⟨b, List.mem_cons_of_mem _ hb, hE⟩

theorem exists_of_mem_right {E : α → β → Prop} {xs : List α} {bs : List β} (h : List.Forall₂ E xs bs) {b : β}
    (hb : b ∈ bs) : ∃ a ∈ xs, E a b := exists_of_mem_left h.flip hb

theorem exists_forall₂ {E : α → β → Prop} {xs : List α} (h : ∀ a ∈ xs, ∃ b, E a b) : ∃ bs, List.Forall₂ E xs bs := by
  induction xs with
  | nil => exact ⟨[], .nil⟩
  | cons a xs ih =>
    obtain ⟨b, hb⟩ := h a (List.mem_cons_self ..)
    obtain ⟨bs, hbs⟩ := ih fun a' ha' => h a' (List.mem_cons_of_mem _ ha')
    exact ⟨b :: bs, .cons hb hbs⟩

/-- Where every member has a value that `f` computes, `f` computes them all. -/
theorem mapM_of_forall {E : α → β → Prop} (hf : ∀ a b, E a b → f a = .ok b) {xs : List α} (h : ∀ a ∈ xs, ∃ b, E a b) :
    ∃ bs, xs.mapM f = .ok bs ∧ List.Forall₂ E xs bs := by
  obtain ⟨bs, hbs⟩ := exists_forall₂ h
  exact ⟨bs, mapM_eq_ok_iff.mpr (hbs.imp hf), hbs⟩

end Lists

/-- Both return the same value, or an error each. -/
theorem toOption_eq_toOption_iff {ε α : Type} {x y : Except ε α} :
    x.toOption = y.toOption ↔ ∀ a, x = .ok a ↔ y = .ok a := by
  cases x <;> cases y <;> simp [Except.toOption, eq_comm]

end Satunera.Base
