import Satunera.Base.WriteLock

/-!
# A slot that is claimed once

Calls behind one write lock claim a slot of the tables: a name, an attempt, a last word.

* `Slot` : what each call does to the slot when it runs alone: nothing frees it, and a claim wins only by taking it;
* `winner_unique` : in any interleaving at most one claim wins;
* `exists_winner` : where only claims take the slot, a slot that has been taken has a winner.
-/

namespace Satunera.Base

/-- Two members of a list, one before the other. -/
theorem split_two {ι : Type} {l : List ι} {i j : ι} (hi : i ∈ l) (hj : j ∈ l) (hne : i ≠ j) :
    (∃ pre mid post, l = pre ++ i :: (mid ++ j :: post)) ∨ ∃ pre mid post, l = pre ++ j :: (mid ++ i :: post) := by
  obtain ⟨pre, post, rfl⟩ := List.append_of_mem hi
  rcases List.mem_append.mp hj with hj | hj
  · obtain ⟨pre', mid, rfl⟩ := List.append_of_mem hj
    exact Or.inr ⟨pre', mid, post, by simp⟩
  · rcases List.mem_cons.mp hj with rfl | hj
    · exact absurd rfl hne
    · obtain ⟨mid, post', rfl⟩ := List.append_of_mem hj
      exact Or.inl ⟨pre, mid, post', rfl⟩

section FirstClaim
variable {Stmt : Type} {Answer : Stmt → Type} {Err ε α σ ι : Type}
variable (exec : Exec Stmt Answer Err σ) (prog : ι → Prog Stmt Answer Err ε α)

/-- A slot that is `Taken` stays so, the call `i` claims it if `Claims i`, and its result tells whether it `Wins`. -/
structure Slot (Taken : σ → Prop) (Claims : ι → Prop) (Wins : Except ε α → Prop) : Prop where
  stays : ∀ i t, Taken t → Taken (atomically exec (prog i) t).2
  loses : ∀ i t, Claims i → Taken t → ¬Wins (atomically exec (prog i) t).1
  takes : ∀ i t, Claims i → Wins (atomically exec (prog i) t).1 → Taken (atomically exec (prog i) t).2

variable {exec prog} {Taken : σ → Prop} {Claims : ι → Prop} {Wins : Except ε α → Prop} {busy : ε} {t : σ}
  {c : Config Stmt Answer Err ε α σ ι}

theorem serial_append (is js : List ι) (t : σ) :
    serial exec prog (is ++ js) t = serial exec prog js (serial exec prog is t) :=
  List.foldl_append

theorem Slot.stays_serial (hs : Slot exec prog Taken Claims Wins) (is : List ι) (h : Taken t) :
    Taken (serial exec prog is t) := by
  induction is using List.reverseRecOn with
  | nil => exact h
  | append_singleton is i ih =>
    rw [serial_concat]
    exact hs.stays i _ ih

/-- The call that took the slot has won, if only winning claims take it. -/
theorem exists_winner_serial
    (hmakes : ∀ i t, ¬Taken t → Taken (atomically exec (prog i) t).2 → Claims i ∧ Wins (atomically exec (prog i) t).1)
    (hfree : ¬Taken t) {is : List ι} (h : Taken (serial exec prog is t)) :
    ∃ pre i post, is = pre ++ i :: post ∧ Claims i ∧ Wins (atomically exec (prog i) (serial exec prog pre t)).1 := by
  induction is using List.reverseRecOn with
  | nil => exact absurd h hfree
  | append_singleton is i ih =>
    by_cases hprev : Taken (serial exec prog is t)
    · obtain ⟨pre, j, post, rfl, hj⟩ := ih hprev
      exact ⟨pre, j, post ++ [i], by simp, hj⟩
    · rw [serial_concat] at h
      exact ⟨is, i, [], rfl, hmakes i _ hprev h⟩

variable [DecidableEq ι]

section Reached
variable (h : Reaches exec prog busy (Config.start t) c)
include h

/-- At every moment the tables are those of the calls that gave the lock back, one after another. -/
theorem exists_ended : ∃ ended, ended <+: c.order ∧ c.tables = serial exec prog ended t ∧
    EndedSerially exec prog t c.calls ended ∧ ∀ i ∈ c.order, ∀ r, c.calls i = .done r → i ∈ ended := by
  have hc := consistent_of_reaches h
  cases hh : c.holder with
  | none =>
    obtain ⟨ht, he⟩ := hc.free hh
    exact ⟨c.order, List.prefix_rfl, ht, he, fun i hi _ _ => hi⟩
  | some j =>
    obtain ⟨pre, p, copy, ho, hj, ht, -, he⟩ := hc.held j hh
    refine ⟨pre, ⟨[j], ho.symm⟩, ht, he, fun i hi r hr => ?_⟩
    rw [ho, List.mem_append, List.mem_singleton] at hi
    refine hi.resolve_right ?_
    rintro rfl
    rw [hj] at hr
    cases hr

theorem mem_order_of_done {i : ι} {r : Except ε α} (hr : c.calls i = .done r) (hne : r ≠ .error busy) :
    i ∈ c.order := by
  by_contra hi
  rcases (consistent_of_reaches h).unstarted i hi with hw | hw <;> rw [hr] at hw <;> cases hw
  exact hne rfl

/-- A slot that is won was free at the start. -/
theorem Slot.free_of_wins (hs : Slot exec prog Taken Claims Wins) (hbusy : ¬Wins (.error busy)) {i : ι} {r : Except ε α}
    (hi : Claims i) (hri : c.calls i = .done r) (hwi : Wins r) : ¬Taken t := by
  intro htaken
  obtain ⟨pre, post, ho⟩ := List.append_of_mem (mem_order_of_done h hri fun he => hbusy (he ▸ hwi))
  obtain rfl := done_eq_serial h ho hri
  exact hs.loses i _ hi (hs.stays_serial pre htaken) hwi

/-- A claim that comes after a winner loses. -/
theorem Slot.not_won_again (hs : Slot exec prog Taken Claims Wins) {i j : ι} {r r' : Except ε α} (hi : Claims i)
    (hj : Claims j) (hri : c.calls i = .done r) (hrj : c.calls j = .done r') (hwi : Wins r) (hwj : Wins r') :
    ¬∃ pre mid post, c.order = pre ++ i :: (mid ++ j :: post) := by
  rintro ⟨pre, mid, post, ho⟩
  obtain rfl := done_eq_serial h ho hri
  have htaken := hs.stays_serial mid (hs.takes i _ hi hwi)
  rw [← serial_concat, ← serial_append] at htaken
  have ho' : c.order = pre ++ [i] ++ mid ++ j :: post := by rw [ho]; simp
  obtain rfl := done_eq_serial h ho' hrj
  exact hs.loses j _ hj htaken hwj

/-- **In any interleaving at most one claim wins.** -/
theorem winner_unique (hs : Slot exec prog Taken Claims Wins) (hbusy : ¬Wins (.error busy)) {i j : ι}
    {r r' : Except ε α}
    (hi : Claims i) (hj : Claims j) (hri : c.calls i = .done r) (hrj : c.calls j = .done r') (hwi : Wins r)
    (hwj : Wins r') : i = j := by
  by_contra hne
  have hmem : ∀ {i r}, c.calls i = .done r → Wins r → i ∈ c.order := fun hr hw =>
    mem_order_of_done h hr fun he => hbusy (he ▸ hw)
  rcases split_two (hmem hri hwi) (hmem hrj hwj) hne with hij | hji
  · exact hs.not_won_again h hi hj hri hrj hwi hwj hij
  · exact hs.not_won_again h hj hi hrj hri hwj hwi hji

/-- **A slot that has been taken has a winner**, if it was free and only winning claims take it. -/
theorem exists_winner
    (hmakes : ∀ i t, ¬Taken t → Taken (atomically exec (prog i) t).2 → Claims i ∧ Wins (atomically exec (prog i) t).1)
    (hfree : ¬Taken t) (htaken : Taken c.tables) : ∃ i, Claims i ∧ ∃ r, c.calls i = .done r ∧ Wins r := by
  obtain ⟨ended, -, ht, he, -⟩ := exists_ended h
  rw [ht] at htaken
  obtain ⟨pre, i, post, hsplit, hi, hw⟩ := exists_winner_serial hmakes hfree htaken
  exact ⟨i, hi, _, he pre i post hsplit, hw⟩

end Reached

end FirstClaim

end Satunera.Base
