import Satunera.Base.Transaction

/-!
# Concurrent transactions behind one write lock

Any number of calls run interleaved, one statement at a time. A call starts by taking the single write lock, works on
a private copy of the tables, and gives the lock back when it commits or rolls back. A waiting call may also give up.

* `Config` : the committed tables, the lock holder, the state of each call, and the order of lock acquisition;
* `LockStep` : one statement-level step, `Reaches` any number of them;
* `serial` : the calls of a list run one after another, each as one step;
* `Consistent` : the simulation between the two (`consistent_step`, `consistent_of_reaches`);
* `reaches_alone` : a waiting call can always run once the lock is free;
* `tables_eq_serial`, `done_eq_serial` : tables and results are those of the serial run in lock order.
-/

namespace Satunera.Base

section WriteLock
variable {Stmt : Type} {Answer : Stmt → Type} {Err ε α σ ι : Type}

/-- How far a call has got. -/
inductive CallState (Stmt : Type) (Answer : Stmt → Type) (Err ε α σ : Type) : Type
  | waiting
  | running (rest : Prog Stmt Answer Err ε α) (copy : σ)
  | done (result : Except ε α)

/-- The calls, the lock and the tables at one moment. -/
structure Config (Stmt : Type) (Answer : Stmt → Type) (Err ε α σ ι : Type) where
  /-- The committed tables. -/
  tables : σ
  holder : Option ι
  calls : ι → CallState Stmt Answer Err ε α σ
  /-- The calls that took the lock, oldest first. -/
  order : List ι

variable (exec : Exec Stmt Answer Err σ) (prog : ι → Prog Stmt Answer Err ε α) (busy : ε)

/-- All calls waiting on the tables `t`. -/
def Config.start (t : σ) : Config Stmt Answer Err ε α σ ι := ⟨t, none, fun _ => .waiting, []⟩

/-- The tables after the calls of `is`, one after another. -/
def serial (is : List ι) (t : σ) : σ := is.foldl (fun t i => (atomically exec (prog i) t).2) t

@[simp] theorem serial_concat (is : List ι) (i : ι) (t : σ) :
    serial exec prog (is ++ [i]) t = (atomically exec (prog i) (serial exec prog is t)).2 := by
  simp [serial]

/-- The calls of `is` have all ended as in the serial run. -/
def EndedSerially (t : σ) (calls : ι → CallState Stmt Answer Err ε α σ) (is : List ι) : Prop :=
  ∀ pre i post, is = pre ++ i :: post → calls i = .done (atomically exec (prog i) (serial exec prog pre t)).1

/-- The simulation: the calls that gave the lock back ran as in the serial run from `t`, and the holder is somewhere
inside its own program on the tables they left. -/
structure Consistent (t : σ) (c : Config Stmt Answer Err ε α σ ι) : Prop where
  nodup : c.order.Nodup
  started : ∀ i, c.calls i = .waiting → i ∉ c.order
  unstarted : ∀ i, i ∉ c.order → c.calls i = .waiting ∨ c.calls i = .done (.error busy)
  running : ∀ i p copy, c.calls i = .running p copy → c.holder = some i
  free : c.holder = none → c.tables = serial exec prog c.order t ∧ EndedSerially exec prog t c.calls c.order
  held : ∀ i, c.holder = some i → ∃ pre p copy, c.order = pre ++ [i] ∧ c.calls i = .running p copy ∧
    c.tables = serial exec prog pre t ∧ p.run exec copy = (prog i).run exec c.tables ∧
    EndedSerially exec prog t c.calls pre

variable {exec prog busy}

theorem consistent_start (t : σ) : Consistent exec prog busy t (Config.start t) where
  nodup := List.nodup_nil
  started _ _ := List.not_mem_nil
  unstarted _ _ := Or.inl rfl
  running _ _ _ h := by cases h
  free _ := ⟨rfl, fun pre i post h => by simp [Config.start] at h⟩
  held _ h := by cases h

theorem mem_split {pre post : List ι} {i : ι} {is : List ι} (h : is = pre ++ i :: post) : i ∈ is := by
  rw [h]
  simp

/-- The holder, its program and what the calls before it left. -/
theorem Consistent.of_running {t : σ} {c : Config Stmt Answer Err ε α σ ι} (h : Consistent exec prog busy t c)
    {i : ι} {p : Prog Stmt Answer Err ε α} {copy : σ} (hi : c.calls i = .running p copy) :
    c.holder = some i ∧ ∃ pre, c.order = pre ++ [i] ∧ i ∉ pre ∧
      c.tables = serial exec prog pre t ∧ p.run exec copy = (prog i).run exec c.tables ∧
      EndedSerially exec prog t c.calls pre := by
  have hh := h.running i p copy hi
  obtain ⟨pre, p', copy', ho, hr, ht, hrun, he⟩ := h.held i hh
  rw [hi] at hr
  cases hr
  have hn := h.nodup
  rw [ho] at hn
  exact ⟨hh, pre, ho, fun hm => (List.nodup_append.mp hn).2.2 i hm i (by simp) rfl, ht, hrun, he⟩

variable [DecidableEq ι]

/-- A call outside `is` may change without disturbing how the calls of `is` ended. -/
theorem EndedSerially.update {t : σ} {calls : ι → CallState Stmt Answer Err ε α σ} {is : List ι} {j : ι}
    {st : CallState Stmt Answer Err ε α σ} (h : EndedSerially exec prog t calls is) (hj : j ∉ is) :
    EndedSerially exec prog t (Function.update calls j st) is := by
  intro pre i post hs
  have hne : i ≠ j := fun he => hj (he ▸ mem_split hs)
  rw [Function.update_of_ne hne]
  exact h pre i post hs

/-- A call that ends as its program does extends the calls that ended serially. -/
theorem EndedSerially.concat {t : σ} {calls : ι → CallState Stmt Answer Err ε α σ} {is : List ι} {i : ι}
    (h : EndedSerially exec prog t calls is) (hi : i ∉ is) {r : Except ε α}
    (hr : r = (atomically exec (prog i) (serial exec prog is t)).1) :
    EndedSerially exec prog t (Function.update calls i (.done r)) (is ++ [i]) := by
  intro pre j post hs
  rcases List.eq_nil_or_concat post with rfl | ⟨post, k, rfl⟩
  · obtain ⟨rfl, hij⟩ := List.append_inj' hs rfl
    obtain rfl : i = j := by simpa using hij
    rw [Function.update_self, hr]
  · rw [List.concat_eq_append, ← List.cons_append, ← List.append_assoc] at hs
    obtain ⟨rfl, -⟩ := List.append_inj' hs rfl
    exact h.update hi pre j post rfl

/-! ## Steps -/

section Steps
variable (exec prog busy)

/-- One statement-level step of one call. -/
inductive LockStep : Config Stmt Answer Err ε α σ ι → Config Stmt Answer Err ε α σ ι → Prop
  | acquire {c i} : c.holder = none → c.calls i = .waiting →
      LockStep c ⟨c.tables, some i, Function.update c.calls i (.running (prog i) c.tables), c.order ++ [i]⟩
  | giveUp {c i} : c.calls i = .waiting →
      LockStep c ⟨c.tables, c.holder, Function.update c.calls i (.done (.error busy)), c.order⟩
  | stmt {c i s fail next copy a copy'} : c.calls i = .running (.stmt s fail next) copy →
      exec s copy = .ok (a, copy') →
      LockStep c ⟨c.tables, c.holder, Function.update c.calls i (.running (next a) copy'), c.order⟩
  | stmtFails {c i s fail next copy e} : c.calls i = .running (.stmt s fail next) copy →
      exec s copy = .error e →
      LockStep c ⟨c.tables, c.holder, Function.update c.calls i (.running (.ret (.error (fail e))) copy), c.order⟩
  | commit {c i a copy} : c.calls i = .running (.ret (.ok a)) copy →
      LockStep c ⟨copy, none, Function.update c.calls i (.done (.ok a)), c.order⟩
  | rollback {c i e copy} : c.calls i = .running (.ret (.error e)) copy →
      LockStep c ⟨c.tables, none, Function.update c.calls i (.done (.error e)), c.order⟩

/-- Any number of steps. -/
abbrev Reaches (c c' : Config Stmt Answer Err ε α σ ι) : Prop :=
  Relation.ReflTransGen (LockStep exec prog busy) c c'

variable {exec prog busy}
variable {t : σ} {c : Config Stmt Answer Err ε α σ ι}

/-- Moving the holder on inside its program keeps the simulation. -/
theorem Consistent.advance (h : Consistent exec prog busy t c) {i : ι} {p p' : Prog Stmt Answer Err ε α}
    {copy copy' : σ} (hi : c.calls i = .running p copy) (hrun : p'.run exec copy' = p.run exec copy) :
    Consistent exec prog busy t
      ⟨c.tables, c.holder, Function.update c.calls i (.running p' copy'), c.order⟩ := by
  obtain ⟨hh, pre, ho, hpre, ht, hp, he⟩ := h.of_running hi
  refine ⟨h.nodup, fun j hj => ?_, fun j hj => ?_, fun j q d hj => ?_, fun hf => ?_, fun j hj => ?_⟩
  · by_cases hji : j = i
    · subst hji
      simp at hj
    · exact h.started j (by simpa [Function.update_of_ne hji] using hj)
  · have hji : j ≠ i := fun he => hj (by simp [ho, he])
    simpa [Function.update_of_ne hji] using h.unstarted j hj
  · by_cases hji : j = i
    · exact hji ▸ hh
    · exact h.running j q d (by simpa [Function.update_of_ne hji] using hj)
  · rw [hh] at hf
    cases hf
  · obtain rfl : i = j := Option.some.inj (hh.symm.trans hj)
    exact ⟨pre, p', copy', ho, Function.update_self .., ht, hrun.trans hp, he.update hpre⟩

/-- Giving the lock back with the holder's own result keeps the simulation. -/
theorem Consistent.release (h : Consistent exec prog busy t c) {i : ι} {r : Except ε α} {copy t' : σ}
    (hi : c.calls i = .running (.ret r) copy) (hr : atomically exec (prog i) c.tables = (r, t')) :
    Consistent exec prog busy t ⟨t', none, Function.update c.calls i (.done r), c.order⟩ := by
  obtain ⟨hh, pre, ho, hpre, ht, -, he⟩ := h.of_running hi
  refine ⟨h.nodup, fun j hj => ?_, fun j hj => ?_, fun j q d hj => ?_, fun _ => ⟨?_, ?_⟩, nofun⟩
  · by_cases hji : j = i
    · subst hji
      simp at hj
    · exact h.started j (by simpa [Function.update_of_ne hji] using hj)
  · have hji : j ≠ i := fun he => hj (by simp [ho, he])
    simpa [Function.update_of_ne hji] using h.unstarted j hj
  · have hji : j ≠ i := by
      rintro rfl
      simp at hj
    have hj' := h.running j q d (by simpa [Function.update_of_ne hji] using hj)
    exact absurd (Option.some.inj (hj'.symm.trans hh)) hji
  · show t' = serial exec prog c.order t
    rw [ho, serial_concat, ← ht, hr]
  · show EndedSerially exec prog t _ c.order
    rw [ho]
    exact he.concat hpre (by rw [← ht, hr])

theorem consistent_step {c' : Config Stmt Answer Err ε α σ ι} (h : Consistent exec prog busy t c)
    (hs : LockStep exec prog busy c c') : Consistent exec prog busy t c' := by
  cases hs with
  | @acquire i hfree hi =>
    have hni := h.started _ hi
    obtain ⟨ht, he⟩ := h.free hfree
    refine ⟨List.nodup_append.mpr ⟨h.nodup, List.nodup_singleton _, ?_⟩, fun j hj => ?_, fun j hj => ?_,
      fun j q d hj => ?_, nofun, fun j hj => ?_⟩
    · rintro j hj k hk rfl
      exact hni (List.mem_singleton.mp hk ▸ hj)
    · by_cases hji : j = i
      · subst hji
        simp at hj
      · simp [h.started j (by simpa [Function.update_of_ne hji] using hj), hji]
    · have hji : j ≠ i := fun he => hj (by simp [he])
      have := h.unstarted j fun hm => hj (by simp [hm])
      simpa [Function.update_of_ne hji] using this
    · by_cases hji : j = i
      · rw [hji]
      · have := h.running j q d (by simpa [Function.update_of_ne hji] using hj)
        rw [hfree] at this
        cases this
    · obtain rfl : i = j := Option.some.inj hj
      exact ⟨c.order, prog i, c.tables, rfl, Function.update_self .., ht, rfl, he.update hni⟩
  | @giveUp i hi =>
    have hni := h.started _ hi
    refine ⟨h.nodup, fun j hj => ?_, fun j hj => ?_, fun j q d hj => ?_, fun hf => ?_, fun j hj => ?_⟩
    · by_cases hji : j = i
      · exact hji ▸ hni
      · exact h.started j (by simpa [Function.update_of_ne hji] using hj)
    · by_cases hji : j = i
      · subst hji
        simp
      · simpa [Function.update_of_ne hji] using h.unstarted j hj
    · have hji : j ≠ i := by
        rintro rfl
        simp at hj
      exact h.running j q d (by simpa [Function.update_of_ne hji] using hj)
    · exact ⟨(h.free hf).1, (h.free hf).2.update hni⟩
    · obtain ⟨pre, p, copy, ho, hr, ht, hrun, he⟩ := h.held j hj
      have hji : j ≠ i := fun he => by rw [he, hi] at hr; cases hr
      exact ⟨pre, p, copy, ho, (Function.update_of_ne hji ..).trans hr, ht, hrun,
        he.update fun hm => hni (by simp [ho, hm])⟩
  | stmt hi he => exact h.advance hi (by simp only [Prog.run, he])
  | stmtFails hi he => exact h.advance hi (by simp only [Prog.run, he])
  | @commit i a copy hi =>
    obtain ⟨-, -, -, -, -, hrun, -⟩ := h.of_running hi
    exact h.release hi (atomically_of_ok hrun.symm)
  | @rollback i e copy hi =>
    obtain ⟨-, -, -, -, -, hrun, -⟩ := h.of_running hi
    exact h.release hi (atomically_of_error hrun.symm)

/-- The holder runs on to its end if nobody else moves. -/
theorem reaches_of_running {i : ι} {p : Prog Stmt Answer Err ε α} {copy : σ} {c : Config Stmt Answer Err ε α σ ι}
    (hi : c.calls i = .running p copy) :
    Reaches exec prog busy c ⟨(settle c.tables (p.run exec copy)).2, none,
      Function.update c.calls i (.done (settle c.tables (p.run exec copy)).1), c.order⟩ := by
  induction p generalizing copy c with
  | ret r =>
    cases r with
    | ok a => exact .single (.commit hi)
    | error e => exact .single (.rollback hi)
  | stmt s fail next ih =>
    rw [Prog.run]
    cases he : exec s copy with
    | error e =>
      refine .head (.stmtFails hi he) (.head (.rollback (Function.update_self ..)) ?_)
      rw [Function.update_idem]
      exact .refl
    | ok a =>
      refine .head (.stmt hi he) ?_
      have hnext : Function.update c.calls i (.running (next a.1) a.2) i = .running (next a.1) a.2 :=
        Function.update_self ..
      have h := ih a.1 (c := ⟨c.tables, c.holder, Function.update c.calls i (.running (next a.1) a.2), c.order⟩) hnext
      rwa [Function.update_idem] at h

/-- **No call is stuck:** with the lock free, a waiting call can run as one step. -/
theorem reaches_alone {i : ι} (hfree : c.holder = none) (hi : c.calls i = .waiting) :
    Reaches exec prog busy c ⟨(atomically exec (prog i) c.tables).2, none,
      Function.update c.calls i (.done (atomically exec (prog i) c.tables).1), c.order ++ [i]⟩ := by
  have hrunning : Function.update c.calls i (.running (prog i) c.tables) i = .running (prog i) c.tables :=
    Function.update_self ..
  have h : Reaches exec prog busy
      ⟨c.tables, some i, Function.update c.calls i (.running (prog i) c.tables), c.order ++ [i]⟩ _ :=
    reaches_of_running hrunning
  rw [Function.update_idem] at h
  exact .head (.acquire hfree hi) h

end Steps

/-- **Every interleaving is consistent with the serial run in lock order.** -/
theorem consistent_of_reaches {t : σ} {c : Config Stmt Answer Err ε α σ ι}
    (h : Reaches exec prog busy (Config.start t) c) : Consistent exec prog busy t c := by
  induction h with
  | refl => exact consistent_start t
  | tail _ hs ih => exact consistent_step ih hs

/-- With the lock free, the tables are those of the serial run. -/
theorem tables_eq_serial {t : σ} {c : Config Stmt Answer Err ε α σ ι}
    (h : Reaches exec prog busy (Config.start t) c) (hfree : c.holder = none) :
    c.tables = serial exec prog c.order t := ((consistent_of_reaches h).free hfree).1

/-- A call that took the lock and ended has the result of the serial run. -/
theorem done_eq_serial {t : σ} {c : Config Stmt Answer Err ε α σ ι}
    (h : Reaches exec prog busy (Config.start t) c) {pre post : List ι} {i : ι} (ho : c.order = pre ++ i :: post)
    {r : Except ε α} (hr : c.calls i = .done r) : r = (atomically exec (prog i) (serial exec prog pre t)).1 := by
  have hc := consistent_of_reaches h
  cases hh : c.holder with
  | none =>
    have := (hc.free hh).2 pre i post ho
    rw [hr] at this
    exact CallState.done.inj this
  | some j =>
    obtain ⟨pre', p, copy, ho', hj, -, -, he⟩ := hc.held j hh
    rcases List.eq_nil_or_concat post with rfl | ⟨post, k, rfl⟩
    · obtain ⟨-, hij⟩ := List.append_inj' (ho'.symm.trans ho) rfl
      obtain rfl : j = i := by simpa using hij
      rw [hr] at hj
      cases hj
    · rw [ho', List.concat_eq_append, ← List.cons_append, ← List.append_assoc] at ho
      have := he pre i post (List.append_inj' ho rfl).1
      rw [hr] at this
      exact CallState.done.inj this

end WriteLock

end Satunera.Base
