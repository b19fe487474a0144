import Satunera.Base.FirstClaim
import Satunera.Base.Simulation

/-!
# Linearizability behind one write lock

Calls run interleaved behind the write lock, one statement at a time, and reads are answered at any moment from the
committed tables. What is seen are the returns of the calls and the answers of the reads, in the order they happen.

* `Watched` : an interleaving with what is seen of it;
* `SerialStep` : the calls as single steps on the tables, and the reads between them;
* `lockStep_effect` : a statement-level step changes nothing that is seen, or one call returns as a single step;
* `linearizes` : what is seen of an interleaving is a run of single steps, with each call at the moment of its return;
* `returned_iff`, `nodup_returned` : every call that has ended is seen to return, once.
-/

namespace Satunera.Base

section Linearize
variable {Stmt : Type} {Answer : Stmt → Type} {Err ε α σ ι Q : Type} {A : Q → Type}

/-- What is seen of an interleaving. -/
inductive Observation (ι ε α Q : Type) (A : Q → Type)
  | returned (i : ι) (result : Except ε α)
  | read (q : Q) (answer : A q)

variable (exec : Exec Stmt Answer Err σ) (prog : ι → Prog Stmt Answer Err ε α) (busy : ε) (answer : (q : Q) → σ → A q)

/-- The calls as single steps. A call may also fail without a step, and a read is answered from the tables. -/
inductive SerialStep (t : σ) : Observation ι ε α Q A → σ → Prop
  | call (i : ι) : SerialStep t (.returned i (atomically exec (prog i) t).1) (atomically exec (prog i) t).2
  | busy (i : ι) : SerialStep t (.returned i (.error busy)) t
  | read (q : Q) : SerialStep t (.read q (answer q t)) t

variable [DecidableEq ι]

/-- A statement-level step, with the call that returns in it if one does; or a read of the committed tables. -/
inductive Watched (c : Config Stmt Answer Err ε α σ ι) :
    Option (Observation ι ε α Q A) → Config Stmt Answer Err ε α σ ι → Prop
  | silent {c'} : LockStep exec prog busy c c' → (∀ i r, c'.calls i = .done r → c.calls i = .done r) →
      Watched c none c'
  | returned {c' i r} : LockStep exec prog busy c c' → (∀ r, c.calls i ≠ .done r) → c'.calls i = .done r →
      Watched c (some (.returned i r)) c'
  | read (q : Q) : Watched c (some (.read q (answer q c.tables))) c

variable {exec prog busy answer} {t : σ} {c c' : Config Stmt Answer Err ε α σ ι}

variable (answer) in
/-- A step changes nothing that is seen, or it is the one in which some call returns, as a single step. -/
theorem lockStep_effect (h : Consistent exec prog busy t c) (hs : LockStep exec prog busy c c') :
    (c'.tables = c.tables ∧ ∀ i r, c'.calls i = .done r ↔ c.calls i = .done r) ∨
      ∃ i r, (∀ r', c.calls i ≠ .done r') ∧ c'.calls = Function.update c.calls i (.done r) ∧
        SerialStep exec prog busy answer c.tables (.returned i r) c'.tables := by
  have hquiet : ∀ {i : ι} {st : CallState Stmt Answer Err ε α σ}, (∀ r, c.calls i ≠ .done r) → (∀ r, st ≠ .done r) →
      ∀ j r, Function.update c.calls i st j = .done r ↔ c.calls j = .done r := by
    intro i st hi hst j r
    by_cases hji : j = i
    · subst hji
      rw [Function.update_self]
      exact iff_of_false (hst r) (hi r)
    · rw [Function.update_of_ne hji]
  cases hs with
  | acquire hfree hi => exact Or.inl ⟨rfl, hquiet (by rw [hi]; exact nofun) nofun⟩
  | @giveUp i hi => exact Or.inr ⟨i, _, by rw [hi]; exact nofun, rfl, .busy i⟩
  | stmt hi he => exact Or.inl ⟨rfl, hquiet (by rw [hi]; exact nofun) nofun⟩
  | stmtFails hi he => exact Or.inl ⟨rfl, hquiet (by rw [hi]; exact nofun) nofun⟩
  | @commit i a copy hi =>
    obtain ⟨-, -, -, -, -, hrun, -⟩ := h.of_running hi
    have hcall : SerialStep exec prog busy answer c.tables (.returned i _) _ := .call i
    rw [atomically_of_ok hrun.symm] at hcall
    exact Or.inr ⟨i, _, by rw [hi]; exact nofun, rfl, hcall⟩
  | @rollback i e copy hi =>
    obtain ⟨-, -, -, -, -, hrun, -⟩ := h.of_running hi
    have hcall : SerialStep exec prog busy answer c.tables (.returned i _) _ := .call i
    rw [atomically_of_error hrun.symm] at hcall
    exact Or.inr ⟨i, _, by rw [hi]; exact nofun, rfl, hcall⟩

/-- A step in which no call returns leaves the tables and the calls that have ended. -/
theorem lockStep_silent (h : Consistent exec prog busy t c) (hs : LockStep exec prog busy c c')
    (hsame : ∀ i r, c'.calls i = .done r → c.calls i = .done r) :
    c'.tables = c.tables ∧ ∀ i r, c'.calls i = .done r ↔ c.calls i = .done r := by
  rcases lockStep_effect (Q := Empty) (A := fun _ => Unit) (fun q => q.elim) h hs with heffect | ⟨i, r, hnot, hcalls, -⟩
  · exact heffect
  · exact absurd (hsame i r (by rw [hcalls, Function.update_self])) (hnot r)

variable (answer) in
/-- A step in which call `i` returns is its single step, and no other call returns in it. -/
theorem lockStep_returned (h : Consistent exec prog busy t c) (hs : LockStep exec prog busy c c') {i : ι}
    {r : Except ε α} (hnot : ∀ r, c.calls i ≠ .done r) (hdone : c'.calls i = .done r) :
    c'.calls = Function.update c.calls i (.done r) ∧
      SerialStep exec prog busy answer c.tables (.returned i r) c'.tables := by
  rcases lockStep_effect answer h hs with ⟨-, hsame⟩ | ⟨j, r', -, hcalls, hstep⟩
  · exact absurd ((hsame i r).mp hdone) (hnot r)
  · have hij : i = j := by
      by_contra hne
      rw [hcalls, Function.update_of_ne hne] at hdone
      exact hnot r hdone
    subst hij
    have hr := hdone
    rw [hcalls, Function.update_self] at hr
    obtain rfl := CallState.done.inj hr
    exact ⟨hcalls, hstep⟩

variable (answer) in
/-- Every interleaving can be watched. -/
theorem exists_watched (hr : Reaches exec prog busy (Config.start t) c) :
    ∃ h, History (Watched exec prog busy answer) (Config.start t) h c := by
  induction hr with
  | refl => exact ⟨[], .nil⟩
  | tail hr hs ih =>
    obtain ⟨h, hh⟩ := ih
    rcases lockStep_effect answer (consistent_of_reaches hr) hs with ⟨-, hsame⟩ | ⟨i, r, hnot, hcalls, -⟩
    · exact ⟨_, hh.snoc (.silent hs fun i r => (hsame i r).mp)⟩
    · exact ⟨_, hh.snoc (.returned hs hnot (by rw [hcalls, Function.update_self]))⟩

section Watched
variable {h : List (Option (Observation ι ε α Q A))}
  (hh : History (Watched exec prog busy answer) (Config.start t) h c)
include hh

theorem reaches_of_watched : Reaches exec prog busy (Config.start t) c := by
  induction hh with
  | nil => exact .refl
  | snoc _ hs ih =>
    cases hs with
    | silent hs => exact ih.tail hs
    | returned hs => exact ih.tail hs
    | read => exact ih

/-- **What is seen of an interleaving is a run of single steps**, in which each call stands where it returns and each
read where it is made. -/
theorem linearizes : History (SerialStep exec prog busy answer) t h.reduceOption c.tables := by
  induction hh with
  | nil => exact .nil
  | snoc hprev hs ih =>
    have hcons := consistent_of_reaches (reaches_of_watched hprev)
    rw [List.reduceOption_append]
    cases hs with
    | silent hs hsame =>
      rw [(lockStep_silent hcons hs hsame).1]
      simpa using ih
    | returned hs hnot hdone => exact ih.snoc (lockStep_returned answer hcons hs hnot hdone).2
    | read q => exact ih.snoc (.read q)

/-- The calls that are seen to return are those that have ended, with the results they ended in. -/
theorem returned_iff (i : ι) (r : Except ε α) : some (.returned i r) ∈ h ↔ c.calls i = .done r := by
  induction hh with
  | nil => exact iff_of_false List.not_mem_nil nofun
  | snoc hprev hs ih =>
    have hcons := consistent_of_reaches (reaches_of_watched hprev)
    rw [List.mem_append, List.mem_singleton, ih]
    cases hs with
    | silent hs hsame =>
      rw [(lockStep_silent hcons hs hsame).2 i r]
      simp
    | @returned _ j r' hs hnot hdone =>
      rw [(lockStep_returned answer hcons hs hnot hdone).1]
      by_cases hij : i = j
      · subst hij
        rw [Function.update_self]
        simp only [hnot r, false_or, Option.some.injEq, Observation.returned.injEq, true_and, CallState.done.injEq]
        exact eq_comm
      · rw [Function.update_of_ne hij]
        simp [hij]
    | read q => simp

/-- The call that is seen to return, if one is. -/
def returnedCall : Option (Observation ι ε α Q A) → Option ι
  | some (.returned i _) => some i
  | some (.read ..) => none
  | none => none

/-- No call is seen to return twice. -/
theorem nodup_returned : (h.filterMap returnedCall).Nodup := by
  induction hh with
  | nil => exact List.nodup_nil
  | snoc hprev hs ih =>
    rw [List.filterMap_append]
    cases hs with
    | silent => exact (List.append_nil _).symm ▸ ih
    | read q => exact (List.append_nil _).symm ▸ ih
    | @returned _ i r hs hnot hdone =>
      refine List.nodup_append.mpr ⟨ih, List.nodup_singleton i, fun j hj k hk => ?_⟩
      obtain rfl : k = i := by simpa [returnedCall] using hk
      rintro rfl
      obtain ⟨l, hl, hlj⟩ := List.mem_filterMap.mp hj
      unfold returnedCall at hlj
      split at hlj
      · obtain rfl := Option.some.inj hlj
        exact hnot _ ((returned_iff hprev _ _).mp hl)
      · cases hlj
      · cases hlj

end Watched

end Linearize

end Satunera.Base
