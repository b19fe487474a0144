import Satunera.Store.BlobMap

/-!
# Blobs that are put and read at the same time

While no `put` opens the temporary file of another one, overlapping calls are as if each took place at one moment: a
`put` where it renames its file, a `get` where it opens the blob.

* `Effect`, `effects` : these moments, in the order of a run;
* `blobsAfter` : the map after some of them;
* `PutCall.blobs_step`, `GetCall.lin_step` : how the step of a call changes the map, or what it reads of it;
* `Lin`, `Lin.step`, `Lin.run` : what a run keeps of the calls, the blobs and the moments;
* `blobs_linearized` : every run from a store that was used before is `Atomic`.
-/

namespace Satunera.Store

open Satunera.Base FsBlobStore

variable {F : TextForms} {s : FsBlobStore}

/-! ## Effects -/

/-- A call takes effect, by its number. -/
inductive Effect
  | put (i : Nat)
  | get (j : Nat)
  deriving DecidableEq

/-- The next step of the `put` renames its file. -/
def PutPhase.renames : PutPhase → Bool
  | writing _ [] => true
  | _ => false

/-- The next step of the `get` opens the blob. -/
def GetPhase.opens : GetPhase → Bool
  | idle => true
  | _ => false

/-- The call that takes effect with an event: a `put` that renames its file, a `get` that opens the blob. -/
def World.effect (w : World) : Event → List Effect
  | .put i _ => if (w.puts[i]?).any fun c => c.phase.renames then [.put i] else []
  | .get j _ => if (w.gets[j]?).any fun g => g.phase.opens then [.get j] else []
  | .crash => []

/-- The calls of a run in the order in which they take effect. -/
def effects (F : TextForms) (s : FsBlobStore) : World → List Event → List Effect
  | _, [] => []
  | w, e :: events => w.effect e ++ effects F s (w.step F s e) events

/-- What a call makes of the map, where the puts are as in `w`. -/
def World.apply (w : World) (m : BlobKind → Option (List UInt8)) : Effect → BlobKind → Option (List UInt8)
  | .put i => ((w.puts[i]?).map fun c => Function.update m c.kind (some c.bytes)).getD m
  | .get _ => m

/-- The map after some effects, from the blobs that were there. -/
def blobsAfter (F : TextForms) (s : FsBlobStore) (w : World) (E : List Effect) : BlobKind → Option (List UInt8) :=
  E.foldl w.apply (blobs F s w.disk)

theorem World.effect_put {w : World} {i : Nat} {c : PutCall} (h : w.puts[i]? = some c) (n : Nat) :
    w.effect (.put i n) = if c.phase.renames then [.put i] else [] := by rw [effect, h, Option.any_some]

theorem World.effect_get {w : World} {j : Nat} {g : GetCall} (h : w.gets[j]? = some g) (n : Nat) :
    w.effect (.get j n) = if g.phase.opens then [.get j] else [] := by rw [effect, h, Option.any_some]

theorem effects_append {w : World} {events later : List Event} :
    effects F s w (events ++ later) = effects F s w events ++ effects F s (w.run F s events) later := by
  induction events generalizing w with
  | nil => rfl
  | cons e events ih =>
    show w.effect e ++ effects F s (w.step F s e) (events ++ later) = _
    rw [ih, ← List.append_assoc]
    rfl

theorem blobsAfter_put {w : World} {E : List Effect} {i : Nat} {c : PutCall} (h : w.puts[i]? = some c) :
    blobsAfter F s w (E ++ [.put i]) = Function.update (blobsAfter F s w E) c.kind (some c.bytes) := by
  rw [blobsAfter, List.foldl_append]
  show w.apply _ (.put i) = _
  rw [World.apply, h]
  rfl

theorem blobsAfter_get {w : World} {E : List Effect} {j : Nat} :
    blobsAfter F s w (E ++ [.get j]) = blobsAfter F s w E := by
  rw [blobsAfter, List.foldl_append]
  rfl

/-! ## Calls and their effects -/

/-- Whether a `put` has taken effect, unless it crashed. -/
def PutPhase.took : PutPhase → Option Bool
  | idle | made | writing .. => some false
  | renamed | returned _ => some true
  | crashed => none

/-- A step of a `put` renames its file, or changes no blob. -/
theorem PutCall.blobs_step {d : Disk} {c : PutCall} (n : Nat) (hd : Sound F s d) (hc : PutOk F s d c) :
    (c.phase.renames = true ∧ c.phase.took = some false ∧ (c.step F s n d).2.phase.took = some true ∧
      Store.blobs F s (c.step F s n d).1 = Function.update (Store.blobs F s d) c.kind (some c.bytes)) ∨
    c.phase.renames = false ∧ (c.step F s n d).2.phase.took = c.phase.took ∧
      Store.blobs F s (c.step F s n d).1 = Store.blobs F s d := by
  have hstep := c.putStep (n := n) hd hc
  obtain ⟨k, bytes, phase⟩ := c
  cases phase with
  | idle =>
    refine Or.inr ⟨rfl, ?_⟩
    generalize (PutCall.step F s n d ⟨k, bytes, .idle⟩).2.phase = phase',
      (PutCall.step F s n d ⟨k, bytes, .idle⟩).1 = d' at hstep
    cases hstep with
    | made => exact ⟨rfl, rfl⟩
    | ended h => exact ⟨rfl, rfl⟩
  | made =>
    refine Or.inr ⟨rfl, ?_⟩
    generalize (PutCall.step F s n d ⟨k, bytes, .made⟩).2.phase = phase',
      (PutCall.step F s n d ⟨k, bytes, .made⟩).1 = d' at hstep
    cases hstep with
    | truncated hi => exact ⟨rfl, blobs_write hd hi []⟩
    | created hi => exact ⟨rfl, blobs_create hd⟩
    | ended h => exact ⟨rfl, rfl⟩
  | writing i rest =>
    obtain ⟨hdir, hi, hbytes⟩ : d.IsDir (s.pathFor F k).dropLast ∧ d.names (s.tmpFor F k) = some i ∧
      d.contents i ++ rest = bytes := hc
    cases rest with
    | nil =>
      rw [List.append_nil] at hbytes
      refine Or.inl ⟨rfl, rfl, ?_⟩
      simp only [step, Disk.rename_of_some (hd.checkName_pathFor hdir) hi]
      exact ⟨rfl, by rw [blobs_rename, hbytes]⟩
    | cons b rest =>
      refine Or.inr ⟨rfl, ?_⟩
      simp only [step, Disk.append]
      exact ⟨rfl, blobs_write hd hi _⟩
  | renamed | returned | crashed => exact Or.inr ⟨rfl, rfl, rfl⟩

/-- Where a `get` has its bytes from: the map at the moment it took effect. -/
def GetLin (F : TextForms) (s : FsBlobStore) (w₀ : World) (d : Disk) (E : List Effect) (j : Nat) (g : GetCall) : Prop :=
  match g.phase with
  | .idle => .get j ∉ E
  | .reading i _ => ∃ before after, E = before ++ .get j :: after ∧
      blobsAfter F s w₀ before g.kind = some (d.contents i)
  | .returned r => ∃ before after, E = before ++ .get j :: after ∧ r = answer F g.kind (blobsAfter F s w₀ before g.kind)
  | .crashed => True

/-- A `get` does not see what takes effect later. -/
theorem GetLin.mono {w₀ : World} {d d' : Disk} {E E' : List Effect} {j : Nat} {g : GetCall}
    (h : GetLin F s w₀ d E j g) (hcontents : ∀ i read, g.phase = .reading i read → d'.contents i = d.contents i)
    (hget : .get j ∉ E') : GetLin F s w₀ d' (E ++ E') j g := by
  unfold GetLin at h ⊢
  split at h
  · simpa using ⟨h, hget⟩
  · rename_i i read hphase
    obtain ⟨before, after, rfl, hbytes⟩ := h
    exact ⟨before, after ++ E', by simp, by rw [hcontents i read hphase, hbytes]⟩
  · obtain ⟨before, after, rfl, hr⟩ := h
    exact ⟨before, after ++ E', by simp, hr⟩
  · trivial

/-- A `get` that opens its blob takes effect, and reads the blob it opened whatever is renamed to its place. -/
theorem GetCall.lin_step {w₀ : World} {d : Disk} {E : List Effect} {j n : Nat} {g : GetCall} (hd : Sound F s d)
    (hblobs : blobs F s d = blobsAfter F s w₀ E) (hok : GetOk F s (fun _ _ => True) d g)
    (h : GetLin F s w₀ d E j g) :
    GetLin F s w₀ d (E ++ if g.phase.opens then [.get j] else []) j (g.step F s n d) := by
  obtain ⟨k, phase⟩ := g
  cases phase with
  | idle =>
    cases hi : d.names (s.pathFor F k) with
    | some i =>
      simp only [step, Disk.openRead_of_some hi]
      refine ⟨E, [], rfl, ?_⟩
      rw [← hblobs, blobs, hi]
      rfl
    | none =>
      simp only [step, hd.openRead_of_none hi]
      refine ⟨E, [], rfl, ?_⟩
      rw [← hblobs, blobs, hi]
      rfl
  | reading i read =>
    obtain ⟨-, -, -, rest, hread⟩ := hok
    obtain ⟨before, after, hE, hbytes⟩ := h
    have hdrop : (d.contents i).drop read.length = rest := by rw [← hread, List.drop_left]
    have hE' : E ++ (if GetPhase.opens (.reading i read) then [Effect.get j] else []) = before ++ .get j :: after :=
      (List.append_nil E).trans hE
    simp only [step, hdrop]
    cases rest with
    | nil =>
      refine ⟨before, after, hE', ?_⟩
      rw [hbytes, ← hread, List.append_nil]
      rfl
    | cons b rest => exact ⟨before, after, hE', hbytes⟩
  | returned r =>
    obtain ⟨before, after, hE, hr⟩ := h
    exact ⟨before, after, (List.append_nil E).trans hE, hr⟩
  | crashed => trivial

/-- A crash ends a `get` that did not return. -/
theorem GetLin.crash {w₀ : World} {d : Disk} {E : List Effect} {j : Nat} {g : GetCall} (h : GetLin F s w₀ d E j g) :
    GetLin F s w₀ d E j g.crash := by
  obtain ⟨k, phase⟩ := g
  cases phase <;> first | exact h | trivial

/-- What holds after a run from `w₀` in which the calls in `E` took effect. -/
structure Lin (F : TextForms) (s : FsBlobStore) (w₀ w : World) (E : List Effect) : Prop where
  intact : Intact F s (fun _ _ => True) w
  calls : ∀ (i : Nat) (c : PutCall), w.puts[i]? = some c →
    ∃ c₀ : PutCall, w₀.puts[i]? = some c₀ ∧ c₀.kind = c.kind ∧ c₀.bytes = c.bytes
  blobs : Store.blobs F s w.disk = blobsAfter F s w₀ E
  put : ∀ (i : Nat) (c : PutCall), w.puts[i]? = some c → ∀ b, c.phase.took = some b → (.put i ∈ E ↔ b = true)
  get : ∀ (j : Nat) (g : GetCall), w.gets[j]? = some g → GetLin F s w₀ w.disk E j g
  nodup : E.Nodup

section Runs
variable {w₀ w : World} {E : List Effect}

/-- An open blob is written to by nobody. -/
theorem Intact.contents_step {Val : BlobKind → List UInt8 → Prop} (h : Intact F s Val w) {i n : Nat} {c : PutCall}
    (hi : w.puts[i]? = some c) {g : GetCall} (hg : g ∈ w.gets) {l : Nat} {read : List UInt8}
    (hphase : g.phase = .reading l read) : (c.step F s n w.disk).1.contents l = w.disk.contents l := by
  obtain ⟨hc, hv⟩ := h.put c (List.mem_of_getElem? hi)
  have hok := h.get g hg
  rw [GetOk, hphase] at hok
  exact (c.step_ok (n := n) h.sound h.whole hc hv).1.frame.contents l hok.1 fun k _ => hok.2.1 k

theorem Lin.step_put (h : Lin F s w₀ w E) {i n : Nat} (he : Allowed w (.put i n)) {c : PutCall}
    (hi : w.puts[i]? = some c) : Lin F s w₀ (w.step F s (.put i n)) (E ++ w.effect (.put i n)) := by
  have hintact := h.intact.step he
  obtain ⟨c₀, hc₀, hkind, hbytes⟩ := h.calls i c hi
  rw [World.effect_put hi]
  rw [World.step_put hi] at hintact ⊢
  have hother : ∀ e, e ≠ .put i → (e ∈ E ++ (if c.phase.renames then [.put i] else []) ↔ e ∈ E) := by
    intro e hne
    split <;> simp [hne]
  have hstep := c.blobs_step n h.intact.sound (h.intact.put c (List.mem_of_getElem? hi)).1
  refine ⟨hintact, fun j b hj => ?_, ?_, fun j b hj t ht => ?_, fun j g hg => ?_, ?_⟩
  · rcases getElem?_set_cases hj with ⟨rfl, rfl⟩ | ⟨-, hj⟩
    · exact ⟨c₀, hc₀, by rw [hkind, PutCall.kind_step], by rw [hbytes, PutCall.bytes_step]⟩
    · exact h.calls j b hj
  · rcases hstep with ⟨hren, -, -, hblobs⟩ | ⟨hren, -, hblobs⟩
    · rw [if_pos hren, blobsAfter_put hc₀, ← h.blobs, hkind, hbytes]
      exact hblobs
    · rw [hren, if_neg Bool.false_ne_true, List.append_nil, ← h.blobs]
      exact hblobs
  · rcases getElem?_set_cases hj with ⟨rfl, rfl⟩ | ⟨hne, hj⟩
    · rcases hstep with ⟨hren, -, htook, -⟩ | ⟨hren, htook, -⟩
      · obtain rfl := Option.some.inj (htook.symm.trans ht)
        simp [hren]
      · rw [hren, if_neg Bool.false_ne_true, List.append_nil]
        exact h.put _ c hi t (htook.symm.trans ht)
    · rw [hother _ (by simpa using hne)]
      exact h.put j b hj t ht
  · refine (h.get j g hg).mono (fun l read hphase => ?_) (by split <;> simp)
    exact h.intact.contents_step hi (List.mem_of_getElem? hg) hphase
  · rcases hstep with ⟨hren, htook, -, -⟩ | ⟨hren, -, -⟩
    · have hnot : .put i ∉ E := fun hmem => Bool.false_ne_true ((h.put i c hi false htook).mp hmem)
      rw [if_pos hren]
      exact h.nodup.append (List.nodup_singleton _) (by simpa using hnot)
    · rw [hren, if_neg Bool.false_ne_true, List.append_nil]
      exact h.nodup

theorem Lin.step_get (h : Lin F s w₀ w E) {j n : Nat} {g : GetCall} (hj : w.gets[j]? = some g) :
    Lin F s w₀ (w.step F s (.get j n)) (E ++ w.effect (.get j n)) := by
  have hintact := h.intact.step_get (n := n) hj
  rw [World.effect_get hj]
  rw [World.step_get hj] at hintact ⊢
  have hother : ∀ e, e ≠ .get j → (e ∈ E ++ (if g.phase.opens then [.get j] else []) ↔ e ∈ E) := by
    intro e hne
    split <;> simp [hne]
  refine ⟨hintact, h.calls, ?_, fun i c hi b hb => ?_, fun l g' hl => ?_, ?_⟩
  · split
    · rw [blobsAfter_get, ← h.blobs]
    · rw [List.append_nil, ← h.blobs]
  · rw [hother _ (by simp)]
    exact h.put i c hi b hb
  · rcases getElem?_set_cases hl with ⟨rfl, rfl⟩ | ⟨hne, hl⟩
    · exact g.lin_step h.intact.sound h.blobs (h.intact.get g (List.mem_of_getElem? hj)) (h.get _ g hj)
    · exact (h.get l g' hl).mono (fun _ _ _ => rfl) (by split <;> simp [hne])
  · by_cases hopens : g.phase.opens = true
    · have hnot : .get j ∉ E := by
        have hlin := h.get j g hj
        obtain ⟨k, phase⟩ := g
        cases phase <;> first | exact hlin | cases hopens
      rw [if_pos hopens]
      exact h.nodup.append (List.nodup_singleton _) (by simpa using hnot)
    · rw [if_neg hopens, List.append_nil]
      exact h.nodup

theorem Lin.step_crash (h : Lin F s w₀ w E) : Lin F s w₀ (w.step F s .crash) E := by
  refine ⟨h.intact.step_crash, fun i c' hi => ?_, h.blobs, fun i c' hi b hb => ?_, fun j g' hj => ?_, h.nodup⟩
  · obtain ⟨c, hc, rfl⟩ := Option.map_eq_some_iff.mp (List.getElem?_map.symm.trans hi)
    rw [PutCall.kind_crash, PutCall.bytes_crash]
    exact h.calls i c hc
  · obtain ⟨c, hc, rfl⟩ := Option.map_eq_some_iff.mp (List.getElem?_map.symm.trans hi)
    refine h.put i c hc b ?_
    obtain ⟨k, bytes, phase⟩ := c
    cases phase <;> first | exact hb | cases hb
  · obtain ⟨g, hg, rfl⟩ := Option.map_eq_some_iff.mp (List.getElem?_map.symm.trans hj)
    exact (h.get j g hg).crash

theorem Lin.step (h : Lin F s w₀ w E) {e : Event} (he : Allowed w e) :
    Lin F s w₀ (w.step F s e) (E ++ w.effect e) := by
  cases e with
  | put i n =>
    cases hi : w.puts[i]? with
    | none =>
      rw [World.step_put_of_none hi, World.effect, hi]
      exact (List.append_nil E).symm ▸ h
    | some c => exact h.step_put he hi
  | get j n =>
    cases hj : w.gets[j]? with
    | none =>
      rw [World.step_get_of_none hj, World.effect, hj]
      exact (List.append_nil E).symm ▸ h
    | some g => exact h.step_get hj
  | crash => exact (List.append_nil E).symm ▸ h.step_crash

theorem Lin.run (h : Lin F s w₀ w E) {events : List Event} (he : AllowedRun F s w events) :
    Lin F s w₀ (w.run F s events) (E ++ effects F s w events) := by
  induction events generalizing w E with
  | nil => exact (List.append_nil E).symm ▸ h
  | cons e events ih =>
    show Lin F s w₀ ((w.step F s e).run F s events) (E ++ (w.effect e ++ effects F s (w.step F s e) events))
    rw [← List.append_assoc]
    exact ih (h.step he.1) he.2

end Runs

/-! ## Runs from a store that was used before -/

/-- The calls of a run from `w` to `w'` are as if each took place at once, in the order of `E`. -/
structure Atomic (F : TextForms) (s : FsBlobStore) (w w' : World) (E : List Effect) : Prop where
  nodup : E.Nodup
  blobs : Store.blobs F s w'.disk = blobsAfter F s w E
  put : ∀ (i : Nat) (c : PutCall), w'.puts[i]? = some c → ∀ r, c.phase = .returned r →
    r = .ok (s.uri F c.kind) ∧ .put i ∈ E
  get : ∀ (j : Nat) (g : GetCall), w'.gets[j]? = some g → ∀ r, g.phase = .returned r →
    ∃ before after, E = before ++ .get j :: after ∧ r = answer F g.kind (blobsAfter F s w before g.kind)
  waitingPut : ∀ (i : Nat) (c : PutCall), w'.puts[i]? = some c → c.phase = .idle → .put i ∉ E
  waitingGet : ∀ (j : Nat) (g : GetCall), w'.gets[j]? = some g → g.phase = .idle → .get j ∉ E

theorem Lin.start {w : World} (hd : Sound F s w.disk) (hputs : ∀ c ∈ w.puts, c.phase = .idle)
    (hgets : ∀ g ∈ w.gets, g.phase = .idle) : Lin F s w w [] := by
  refine ⟨⟨hd, fun _ _ _ => trivial, fun c hc => ⟨?_, trivial⟩, fun g hg => ?_, fun i j a b ha _ _ hwa _ => ?_⟩,
    fun i c hi => ⟨c, hi, rfl, rfl⟩, rfl, fun i c hi b hb => ?_, fun j g hj => ?_, List.nodup_nil⟩
  · rw [PutOk, hputs c hc]
    trivial
  · rw [GetOk, hgets g hg]
    trivial
  · obtain ⟨l, rest, hphase⟩ := hwa
    rw [hputs a (List.mem_of_getElem? ha)] at hphase
    cases hphase
  · rw [hputs c (List.mem_of_getElem? hi)] at hb
    cases hb
    simp
  · rw [GetLin, hgets g (List.mem_of_getElem? hj)]
    exact List.not_mem_nil

theorem Lin.atomic {w₀ w : World} {E : List Effect} (h : Lin F s w₀ w E) : Atomic F s w₀ w E where
  nodup := h.nodup
  blobs := h.blobs
  put i c hi r hr := by
    have hok := (h.intact.put c (List.mem_of_getElem? hi)).1
    rw [PutOk, hr] at hok
    exact ⟨hok.1, (h.put i c hi true (by rw [hr, PutPhase.took])).mpr rfl⟩
  get j g hj r hr := by
    have hlin := h.get j g hj
    rwa [GetLin, hr] at hlin
  waitingPut i c hi hidle hmem :=
    Bool.false_ne_true ((h.put i c hi false (by rw [hidle, PutPhase.took])).mp hmem)
  waitingGet j g hj hidle := by
    have hlin := h.get j g hj
    rwa [GetLin, hidle] at hlin

/-- **Calls that overlap on a store in any state it can be in, while no `put` opens the temporary file of another one,
are as if each took place at once: the blobs are those that the renames put there one after the other, a `get` returns
what was there when it opened the blob, no matter what is renamed while it reads, and the order only grows, so that a
call which returned comes before all those that have not begun. Crashes lose no call that returned.** -/
theorem blobs_linearized (F : TextForms) (s : FsBlobStore) (w : World) (hd : Sound F s w.disk)
    (hputs : ∀ c ∈ w.puts, c.phase = .idle) (hgets : ∀ g ∈ w.gets, g.phase = .idle) (events later : List Event)
    (hallowed : AllowedRun F s w (events ++ later)) :
    Atomic F s w (w.run F s events) (effects F s w events) ∧
      Atomic F s w (w.run F s (events ++ later)) (effects F s w (events ++ later)) ∧
      effects F s w events <+: effects F s w (events ++ later) :=
  ⟨((Lin.start hd hputs hgets).run (allowedRun_append.mp hallowed).1).atomic,
    ((Lin.start hd hputs hgets).run hallowed).atomic, effects_append ▸ List.prefix_append _ _⟩

/-- One log, put and read. -/
def loggedWorld : World where
  disk := ⟨[], fun _ => none, fun _ => [], 0⟩
  puts := [⟨.log ⟨0⟩ 1, [0x78], .idle⟩]
  gets := [⟨.log ⟨0⟩ 1, .idle⟩]

def putEvents : List Event := [.put 0 1, .put 0 1, .put 0 1, .put 0 1, .put 0 1]

def getEvents : List Event := [.get 0 1, .get 0 1, .get 0 1]

/-- The log that was put before is put again while it is read. -/
def replacedWorld : World :=
  { loggedWorld.run .crockford ⟨["var"]⟩ putEvents with
    puts := [⟨.log ⟨0⟩ 1, [0x79], .idle⟩]
    gets := [⟨.log ⟨0⟩ 1, .idle⟩] }

/-- The read opens the log, the log is replaced, and the read goes on. -/
theorem blobs_linearized_replaced :
    effects .crockford ⟨["var"]⟩ replacedWorld ([.get 0 1] ++ (putEvents ++ getEvents)) = [.get 0, .put 0] ∧
      (replacedWorld.run .crockford ⟨["var"]⟩ ([.get 0 1] ++ (putEvents ++ getEvents))).gets.map GetCall.phase =
        [.returned (.ok [0x78])] ∧
      Atomic .crockford ⟨["var"]⟩ replacedWorld
        (replacedWorld.run .crockford ⟨["var"]⟩ ([.get 0 1] ++ (putEvents ++ getEvents))) [.get 0, .put 0] := by
  have hinitial : Initial ⟨["var"]⟩ loggedWorld :=
    ⟨(fun _ _ h => by cases h), (fun _ h => by cases h), by simp [loggedWorld], by simp [loggedWorld]⟩
  have hintact : Intact .crockford ⟨["var"]⟩ (fun _ _ => True) (loggedWorld.run .crockford ⟨["var"]⟩ putEvents) :=
    (hinitial.intact fun _ _ => trivial).run (by decide +kernel)
  have heffects : effects .crockford ⟨["var"]⟩ replacedWorld ([.get 0 1] ++ (putEvents ++ getEvents)) =
      [.get 0, .put 0] := by decide +kernel
  have hlin := blobs_linearized .crockford ⟨["var"]⟩ replacedWorld hintact.sound (by simp [replacedWorld])
    (by simp [replacedWorld]) [.get 0 1] (putEvents ++ getEvents) (by decide +kernel)
  exact ⟨heffects, by decide +kernel, heffects ▸ hlin.2.1⟩

end Satunera.Store
