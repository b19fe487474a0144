import Mathlib

/-!
# Transactions as programs of statements

A transaction is a program over the statements of an engine: it issues a statement, continues with the answer, and
ends in a result. A statement that fails ends the program with the error `fail` makes of the engine's error, so a
program never goes on after a failed statement.

* `Prog.run` : the program on a private copy of the tables;
* `atomically` : the program as one step, its effects kept on `ok` and dropped on `error`;
* `Prog.faultAt` : the same program with its `n`-th statement (or its commit) failing;
* `Prog.length` : the statements a run issues; a failure at one of them is an error (`run_faultAt_of_le`), one past them
  is none (`run_faultAt_of_lt`);
* `atomically_faultAt` : such a failure gives either the unfailed step or an error that changed nothing;
* `Prog.FailsAs` : all statements report the engine's error in the same way, and then that error is known
  (`atomically_faultAt_of_failsAs`).
-/

namespace Satunera.Base

/-- A program over statements `Stmt` with answers `Answer`; the engine fails with `Err`, the program with `ε`. -/
inductive Prog (Stmt : Type) (Answer : Stmt → Type) (Err ε α : Type) : Type
  | ret (result : Except ε α)
  | stmt (s : Stmt) (fail : Err → ε) (next : Answer s → Prog Stmt Answer Err ε α)

/-- What a statement does to the tables. -/
abbrev Exec (Stmt : Type) (Answer : Stmt → Type) (Err σ : Type) := (s : Stmt) → σ → Except Err (Answer s × σ)

namespace Prog
variable {Stmt : Type} {Answer : Stmt → Type} {Err ε α β σ : Type}

/-- Run `p`, then `f` on what it returns. -/
def bind : Prog Stmt Answer Err ε α → (α → Prog Stmt Answer Err ε β) → Prog Stmt Answer Err ε β
  | ret (.ok a), f => f a
  | ret (.error e), _ => ret (.error e)
  | stmt s fail next, f => stmt s fail fun a => (next a).bind f

instance : Monad (Prog Stmt Answer Err ε) where
  pure a := ret (.ok a)
  bind := bind

/-- End in an error. -/
def throw (e : ε) : Prog Stmt Answer Err ε α := ret (.error e)

/-- A computation outside the engine. -/
def lift (r : Except ε α) : Prog Stmt Answer Err ε α := ret r

/-- Issue one statement. -/
def query (s : Stmt) (fail : Err → ε) : Prog Stmt Answer Err ε (Answer s) := stmt s fail fun a => ret (.ok a)

/-- The program on tables `t`, up to its result. -/
def run (exec : Exec Stmt Answer Err σ) : Prog Stmt Answer Err ε α → σ → Except ε α × σ
  | ret r, t => (r, t)
  | stmt s fail next, t =>
    match exec s t with
    | .error e => (.error (fail e), t)
    | .ok (a, t') => (next a).run exec t'

variable {exec : Exec Stmt Answer Err σ}

@[simp] theorem run_ret (r : Except ε α) (t : σ) :
    (ret r : Prog Stmt Answer Err ε α).run exec t = (r, t) := rfl

@[simp] theorem run_pure (a : α) (t : σ) : (pure a : Prog Stmt Answer Err ε α).run exec t = (.ok a, t) := rfl

@[simp] theorem run_throw (e : ε) (t : σ) : (throw e : Prog Stmt Answer Err ε α).run exec t = (.error e, t) := rfl

@[simp] theorem run_lift (r : Except ε α) (t : σ) : (lift r : Prog Stmt Answer Err ε α).run exec t = (r, t) := rfl

theorem run_query (s : Stmt) (fail : Err → ε) (t : σ) :
    (query s fail : Prog Stmt Answer Err ε (Answer s)).run exec t =
      match exec s t with
      | .error e => (.error (fail e), t)
      | .ok (a, t') => (.ok a, t') := by
  unfold query run
  split <;> rfl

@[simp] theorem run_bind (p : Prog Stmt Answer Err ε α) (f : α → Prog Stmt Answer Err ε β) (t : σ) :
    (p >>= f).run exec t =
      match p.run exec t with
      | (.ok a, t') => (f a).run exec t'
      | (.error e, t') => (.error e, t') := by
  show (p.bind f).run exec t = _
  induction p generalizing t with
  | ret r => cases r <;> rfl
  | stmt s fail next ih =>
    simp only [bind, run]
    cases exec s t with
    | error e => rfl
    | ok r => exact ih r.1 r.2

/-- The program whose `n`-th statement, or whose commit after `n` statements, fails with `err`. -/
def faultAt (err : Err) (onCommit : Err → ε) : Nat → Prog Stmt Answer Err ε α → Prog Stmt Answer Err ε α
  | 0, ret (.ok _) => ret (.error (onCommit err))
  | _ + 1, ret (.ok a) => ret (.ok a)
  | _, ret (.error e) => ret (.error e)
  | 0, stmt _ fail _ => ret (.error (fail err))
  | n + 1, stmt s fail next => stmt s fail fun a => faultAt err onCommit n (next a)

/-- The number of statements a run issues. -/
def length (exec : Exec Stmt Answer Err σ) : Prog Stmt Answer Err ε α → σ → Nat
  | ret _, _ => 0
  | stmt s _ next, t =>
    match exec s t with
    | .error _ => 1
    | .ok (a, t') => (next a).length exec t' + 1

end Prog

section Atomically
variable {Stmt : Type} {Answer : Stmt → Type} {Err ε α σ : Type} (exec : Exec Stmt Answer Err σ)

/-- The end of a transaction on `t`: committed on `ok`, rolled back on `error`. -/
def settle (t : σ) : Except ε α × σ → Except ε α × σ
  | (.ok a, t') => (.ok a, t')
  | (.error e, _) => (.error e, t)

/-- The program as one step. -/
def atomically (p : Prog Stmt Answer Err ε α) (t : σ) : Except ε α × σ := settle t (p.run exec t)

variable {exec}

theorem atomically_of_ok {p : Prog Stmt Answer Err ε α} {t t' : σ} {a : α} (h : p.run exec t = (.ok a, t')) :
    atomically exec p t = (.ok a, t') := by
  rw [atomically, h, settle]

theorem atomically_of_error {p : Prog Stmt Answer Err ε α} {t t' : σ} {e : ε} (h : p.run exec t = (.error e, t')) :
    atomically exec p t = (.error e, t) := by
  rw [atomically, h, settle]

section Faults
variable (exec)

/-- A failure at a statement the run issues, or at its commit, ends the run in an error. -/
theorem run_faultAt_of_le (err : Err) (onCommit : Err → ε) (p : Prog Stmt Answer Err ε α) :
    ∀ (n : Nat) (t : σ), n ≤ p.length exec t → ∃ e t', (p.faultAt err onCommit n).run exec t = (.error e, t') := by
  induction p with
  | ret r =>
    intro n t hn
    obtain rfl : n = 0 := Nat.le_zero.mp hn
    cases r with
    | error e => exact ⟨e, t, rfl⟩
    | ok a => exact ⟨onCommit err, t, rfl⟩
  | stmt s fail next ih =>
    intro n t hn
    cases n with
    | zero => exact ⟨fail err, t, rfl⟩
    | succ n =>
      simp only [Prog.faultAt, Prog.run, Prog.length] at hn ⊢
      cases he : exec s t with
      | error e => exact ⟨fail e, t, rfl⟩
      | ok r =>
        rw [he] at hn
        exact ih r.1 n r.2 (Nat.le_of_succ_le_succ hn)

/-- A failure past the end of the run is none. -/
theorem run_faultAt_of_lt (err : Err) (onCommit : Err → ε) (p : Prog Stmt Answer Err ε α) :
    ∀ (n : Nat) (t : σ), p.length exec t < n → (p.faultAt err onCommit n).run exec t = p.run exec t := by
  induction p with
  | ret r =>
    intro n t hn
    cases n with
    | zero => cases hn
    | succ n => cases r <;> rfl
  | stmt s fail next ih =>
    intro n t hn
    cases n with
    | zero => cases hn
    | succ n =>
      simp only [Prog.faultAt, Prog.run, Prog.length] at hn ⊢
      cases he : exec s t with
      | error e => rfl
      | ok r =>
        rw [he] at hn
        exact ih r.1 n r.2 (Nat.lt_of_succ_lt_succ hn)

/-- A failure inside a step gives the unfailed step, or an error and the tables as they were. -/
theorem atomically_faultAt (err : Err) (onCommit : Err → ε) (p : Prog Stmt Answer Err ε α) (n : Nat) (t : σ) :
    atomically exec (p.faultAt err onCommit n) t = atomically exec p t ∨
      ∃ e, atomically exec (p.faultAt err onCommit n) t = (.error e, t) := by
  rcases Nat.lt_or_ge (p.length exec t) n with h | h
  · exact Or.inl (by rw [atomically, run_faultAt_of_lt exec err onCommit p n t h, atomically])
  · obtain ⟨e, t', he⟩ := run_faultAt_of_le exec err onCommit p n t h
    exact Or.inr ⟨e, atomically_of_error he⟩

end Faults

end Atomically

/-! ## One report for every failure -/

section FailsAs
variable {Stmt : Type} {Answer : Stmt → Type} {Err ε α β σ : Type} {exec : Exec Stmt Answer Err σ}

/-- Every statement reports the engine's `err` as `e`. -/
def Prog.FailsAs (err : Err) (e : ε) : Prog Stmt Answer Err ε α → Prop
  | .ret _ => True
  | .stmt _ fail next => fail err = e ∧ ∀ a, (next a).FailsAs err e

theorem Prog.FailsAs.bind {err : Err} {e : ε} {p : Prog Stmt Answer Err ε α} {f : α → Prog Stmt Answer Err ε β}
    (hp : p.FailsAs err e) (hf : ∀ a, (f a).FailsAs err e) : (p >>= f).FailsAs err e := by
  show (p.bind f).FailsAs err e
  induction p with
  | ret r =>
    cases r with
    | ok a => exact hf a
    | error e' => trivial
  | stmt s fail next ih => exact ⟨hp.1, fun a => ih a (hp.2 a)⟩

variable {err : Err} {e : ε} {onCommit : Err → ε} (hcommit : onCommit err = e)
include hcommit

theorem run_faultAt_of_failsAs {p : Prog Stmt Answer Err ε α} (hp : p.FailsAs err e) (n : Nat) (t : σ) :
    (p.faultAt err onCommit n).run exec t = p.run exec t ∨
      ∃ t', (p.faultAt err onCommit n).run exec t = (.error e, t') := by
  induction p generalizing n t with
  | ret r =>
    cases r with
    | error e' => exact Or.inl (by cases n <;> rfl)
    | ok a =>
      cases n with
      | zero => exact Or.inr ⟨t, by rw [Prog.faultAt, hcommit, Prog.run_ret]⟩
      | succ n => exact Or.inl rfl
  | stmt s fail next ih =>
    cases n with
    | zero => exact Or.inr ⟨t, by rw [Prog.faultAt, hp.1, Prog.run_ret]⟩
    | succ n =>
      simp only [Prog.faultAt, Prog.run]
      cases exec s t with
      | error e' => exact Or.inl rfl
      | ok r => exact ih r.1 (hp.2 r.1) n r.2

/-- A failure inside a step gives the unfailed step, or the one error it is reported as and the tables as they were. -/
theorem atomically_faultAt_of_failsAs {p : Prog Stmt Answer Err ε α} (hp : p.FailsAs err e) (n : Nat) (t : σ) :
    atomically exec (p.faultAt err onCommit n) t = atomically exec p t ∨
      atomically exec (p.faultAt err onCommit n) t = (.error e, t) := by
  rcases run_faultAt_of_failsAs hcommit hp n t with h | ⟨t', h⟩
  · exact Or.inl (by rw [atomically, h, atomically])
  · exact Or.inr (atomically_of_error h)

end FailsAs

end Satunera.Base
