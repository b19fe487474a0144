import Satunera.Store.BlobRace

/-!
# The blob store as a map

Puts and gets one at a time on a fresh root, where a `put` may crash after any of its steps and the next operation goes
on with what is left on the disk.

* `blobs` : the map that a disk stands for (`blobs_write`, `blobs_create`, `blobs_rename`);
* `Alone`, `Alone.step`, `Alone.run` : the map changes with the rename of a `put`, and with nothing else;
* `Reads`, `Reads.run_remaining` : a `get` on its own returns what the map has;
* `refines_map` : in every sequence a `get` returns the bytes of the last `put` of its kind that was renamed.
-/

namespace Satunera.Store

open Satunera.Base FsBlobStore

/-! ## Operations -/

/-- A `put` or a `get` on its own, with the size of each of its writes or reads. A `put` may crash after some of its
steps. -/
inductive Op
  | put (kind : BlobKind) (bytes : List UInt8) (sizes : Nat → Nat) (crash : Option Nat)
  | get (kind : BlobKind) (sizes : Nat → Nat)

/-- How far an operation got. -/
inductive Reached
  | put (call : PutCall)
  | get (call : GetCall)
  deriving DecidableEq

section Operations
variable (F : TextForms) (s : FsBlobStore)

/-- The first `t` steps of a `put` on its own. -/
def PutCall.run (sizes : Nat → Nat) (d : Disk) (c : PutCall) : Nat → Disk × PutCall
  | 0 => (d, c)
  | t + 1 => (c.run sizes d t).2.step F s (sizes t) (c.run sizes d t).1

/-- The first `t` steps of a `get` on its own. -/
def GetCall.run (sizes : Nat → Nat) (d : Disk) (g : GetCall) : Nat → GetCall
  | 0 => g
  | t + 1 => (g.run sizes d t).step F s (sizes t) d

/-- The blobs on a disk. -/
def blobs (d : Disk) (k : BlobKind) : Option (List UInt8) := (d.names (s.pathFor F k)).map d.contents

/-- How many bytes a blob has. -/
def blobSize (d : Disk) (k : BlobKind) : Nat := ((blobs F s d k).getD []).length

/-- Run an operation until it returns or crashes. -/
def Op.exec (d : Disk) : Op → Disk × Reached
  | .put kind bytes sizes crash =>
    let c : PutCall := ⟨kind, bytes, .idle⟩
    let r := c.run F s sizes d (crash.getD c.remaining)
    (r.1, .put r.2)
  | .get kind sizes =>
    let g : GetCall := ⟨kind, .idle⟩
    (d, .get (g.run F s sizes d (g.remaining (blobSize F s d))))

/-- The disk after a sequence of operations. -/
def diskAfter (d : Disk) (ops : List Op) : Disk := ops.foldl (fun d op => (op.exec F s d).1) d

/-- How far each operation of a sequence got. -/
def reached (d : Disk) : List Op → List Reached
  | [] => []
  | op :: ops => (op.exec F s d).2 :: reached (op.exec F s d).1 ops

end Operations

/-- The rename of a `put` took place. -/
def PutCall.hasRenamed (c : PutCall) : Bool :=
  match c.phase with
  | .renamed | .returned (.ok _) => true
  | _ => false

/-- The bytes that an operation renamed to a blob. -/
def Reached.renamed (k : BlobKind) : Reached → Option (List UInt8)
  | put c => if c.hasRenamed ∧ c.kind = k then some c.bytes else none
  | get _ => none

/-- The bytes of the last `put` of a kind whose rename took place. -/
def lastRenamed (rs : List Reached) (k : BlobKind) : Option (List UInt8) := rs.reverse.findSome? (Reached.renamed k)

/-- What a `get` makes of an entry of the map. -/
def answer (F : TextForms) (k : BlobKind) : Option (List UInt8) → Except BlobError (List UInt8)
  | some bytes => .ok bytes
  | none => .error (.notFound (k.key F))

variable {F : TextForms} {s : FsBlobStore}

theorem diskAfter_concat {d : Disk} {ops : List Op} {op : Op} :
    diskAfter F s d (ops ++ [op]) = (op.exec F s (diskAfter F s d ops)).1 := by
  rw [diskAfter, List.foldl_append]
  rfl

theorem reached_concat {d : Disk} {ops : List Op} {op : Op} :
    reached F s d (ops ++ [op]) = reached F s d ops ++ [(op.exec F s (diskAfter F s d ops)).2] := by
  induction ops generalizing d with
  | nil => rfl
  | cons o ops ih =>
    rw [List.cons_append, reached, ih]
    rfl

theorem lastRenamed_concat {rs : List Reached} {r : Reached} {k : BlobKind} :
    lastRenamed (rs ++ [r]) k = (r.renamed k).or (lastRenamed rs k) := by
  rw [lastRenamed, List.reverse_append, List.reverse_singleton, List.singleton_append, List.findSome?_cons]
  cases r.renamed k <;> rfl

/-! ## The map of a disk -/

section Blobs
variable {d : Disk} {k l : BlobKind} {i : Nat}

theorem blobs_eq_some {bytes : List UInt8} :
    blobs F s d k = some bytes ↔ ∃ i, d.names (s.pathFor F k) = some i ∧ d.contents i = bytes :=
  Option.map_eq_some_iff

/-- Disks with the same blobs, name by name. -/
theorem blobs_congr {d' : Disk} (hnames : d'.names (s.pathFor F k) = d.names (s.pathFor F k))
    (hcontents : ∀ i, d.names (s.pathFor F k) = some i → d'.contents i = d.contents i) :
    blobs F s d' k = blobs F s d k := by
  rw [blobs, blobs, hnames]
  exact Option.map_congr fun i hi => hcontents i hi

theorem blobs_write (hd : Sound F s d) (hi : d.names (s.tmpFor F k) = some i) (bytes : List UInt8) :
    blobs F s { d with contents := Function.update d.contents i bytes } = blobs F s d := by
  funext l
  refine blobs_congr rfl fun j hj => Function.update_of_ne ?_ _ _
  rintro rfl
  exact hd.names_tmpFor_ne hj hi

theorem blobs_create (hd : Sound F s d) :
    blobs F s { d with
      names := Function.update d.names (s.tmpFor F k) (some d.fresh)
      contents := Function.update d.contents d.fresh []
      fresh := d.fresh + 1 } = blobs F s d := by
  funext l
  refine blobs_congr (Function.update_of_ne (Ne.symm tmpFor_ne_pathFor) _ _) fun j hj => ?_
  exact Function.update_of_ne (hd.lt_fresh _ _ hj).ne _ _

/-- A rename puts the temporary file in the place of the blob. -/
theorem blobs_rename :
    blobs F s { d with
      names := Function.update (Function.update d.names (s.tmpFor F k) none) (s.pathFor F k) (some i) } =
      Function.update (blobs F s d) k (some (d.contents i)) := by
  funext l
  by_cases hl : l = k
  · subst hl
    rw [Function.update_self, blobs_eq_some]
    exact ⟨i, Function.update_self .., rfl⟩
  · rw [Function.update_of_ne hl]
    refine blobs_congr ?_ fun _ _ => rfl
    have hne : s.pathFor F l ≠ s.pathFor F k := fun h => hl (pathFor_injective h)
    exact (Function.update_of_ne hne _ _).trans (Function.update_of_ne (Ne.symm tmpFor_ne_pathFor) _ _)

end Blobs

/-! ## A put on its own -/

/-- What a `put` has made of the map so far. -/
def PutCall.effect (c : PutCall) (m : BlobKind → Option (List UInt8)) : BlobKind → Option (List UInt8) :=
  if c.hasRenamed then Function.update m c.kind (some c.bytes) else m

theorem PutCall.effect_apply {c : PutCall} {m : BlobKind → Option (List UInt8)} {k : BlobKind} :
    c.effect m k = ((Reached.put c).renamed k).or (m k) := by
  rw [effect, Reached.renamed]
  by_cases hrenamed : c.hasRenamed
  · by_cases hk : c.kind = k
    · subst hk
      rw [if_pos hrenamed, Function.update_self, if_pos ⟨hrenamed, rfl⟩]
      rfl
    · rw [if_pos hrenamed, Function.update_of_ne (Ne.symm hk), if_neg fun h => hk h.2]
      rfl
  · rw [if_neg hrenamed, if_neg fun h => hrenamed h.1]
    rfl

/-- A `put` on its own that started with the map `m`. -/
structure Alone (F : TextForms) (s : FsBlobStore) (m : BlobKind → Option (List UInt8)) (d : Disk) (c : PutCall) :
    Prop where
  sound : Sound F s d
  ok : PutOk F s d c
  running : c.phase ≠ .crashed
  blobs : blobs F s d = c.effect m

section Puts
variable {d : Disk} {c : PutCall} {m : BlobKind → Option (List UInt8)} {sizes : Nat → Nat} {n : Nat}

theorem Alone.start (hd : Sound F s d) (k : BlobKind) (bytes : List UInt8) :
    Alone F s (Store.blobs F s d) d ⟨k, bytes, .idle⟩ :=
  ⟨hd, trivial, (fun h => by cases h), rfl⟩

/-- Only the rename changes the map. -/
theorem PutStep.blobs {k : BlobKind} {bytes : List UInt8} {phase phase' : PutPhase} {d' : Disk}
    (h : PutStep F s d k bytes phase d' phase') (hd : Sound F s d) (hc : PutOk F s d ⟨k, bytes, phase⟩)
    (hblobs : Store.blobs F s d = (⟨k, bytes, phase⟩ : PutCall).effect m) :
    Store.blobs F s d' = (⟨k, bytes, phase'⟩ : PutCall).effect m := by
  cases h with
  | made => exact hblobs
  | truncated hi => exact (blobs_write hd hi []).trans hblobs
  | created hi => exact (blobs_create hd).trans hblobs
  | wrote hi => exact (blobs_write hd hi _).trans hblobs
  | renamed hi =>
    obtain ⟨-, -, hbytes⟩ := hc
    rw [List.append_nil] at hbytes
    rw [blobs_rename, hblobs, hbytes]
    rfl
  | returned => exact hblobs
  | ended => exact hblobs

theorem PutCall.running_step (h : c.phase ≠ .crashed) : (c.step F s n d).2.phase ≠ .crashed := by
  obtain ⟨k, bytes, phase⟩ := c
  unfold step
  split <;> try split
  all_goals first | exact h | (intro h'; cases h')

theorem Alone.step (h : Alone F s m d c) : Alone F s m (c.step F s n d).1 (c.step F s n d).2 := by
  have hw : Whole F s (fun _ _ => True) d := fun _ _ _ => trivial
  obtain ⟨hstep, hok⟩ := c.step_ok (n := n) h.sound hw h.ok trivial
  refine ⟨hstep.sound, hok, PutCall.running_step h.running, ?_⟩
  have hblobs := (c.putStep (n := n) h.sound h.ok).blobs h.sound h.ok h.blobs
  rwa [← PutCall.kind_step (F := F) (s := s) (n := n) (d := d),
    ← PutCall.bytes_step (F := F) (s := s) (n := n) (d := d)] at hblobs

theorem Alone.run (h : Alone F s m d c) (t : Nat) : Alone F s m (c.run F s sizes d t).1 (c.run F s sizes d t).2 := by
  induction t with
  | zero => exact h
  | succ t ih => exact ih.step

theorem PutCall.kind_run {t : Nat} : (c.run F s sizes d t).2.kind = c.kind := by
  induction t with
  | zero => rfl
  | succ t ih => rw [run, kind_step, ih]

theorem PutCall.bytes_run {t : Nat} : (c.run F s sizes d t).2.bytes = c.bytes := by
  induction t with
  | zero => rfl
  | succ t ih => rw [run, bytes_step, ih]

theorem PutCall.remaining_step_le : (c.step F s n d).2.remaining ≤ c.remaining - 1 := by
  by_cases h : c.remaining = 0
  · obtain ⟨k, bytes, phase⟩ := c
    cases phase <;> first | exact absurd h (Nat.succ_ne_zero _) | exact Nat.zero_le _
  · have : (c.step F s n d).2.remaining < c.remaining := PutCall.remaining_step_lt h
    omega

theorem PutCall.remaining_run_le (t : Nat) : (c.run F s sizes d t).2.remaining ≤ c.remaining - t := by
  induction t with
  | zero => exact le_rfl
  | succ t ih =>
    have : (c.run F s sizes d (t + 1)).2.remaining ≤ (c.run F s sizes d t).2.remaining - 1 :=
      PutCall.remaining_step_le
    omega

/-- A `put` that returns succeeds. -/
theorem Alone.returned (h : Alone F s m d c) {r : Except BlobError String} (hr : c.phase = .returned r) :
    r = .ok (s.uri F c.kind) := by
  have hok := h.ok
  rw [PutOk, hr] at hok
  exact hok.1

/-- A `put` that does not crash returns. -/
theorem Alone.run_remaining (h : Alone F s m d c) :
    (c.run F s sizes d c.remaining).2 = ⟨c.kind, c.bytes, .returned (.ok (s.uri F c.kind))⟩ := by
  have hend : Alone F s m (c.run F s sizes d c.remaining).1 (c.run F s sizes d c.remaining).2 := h.run c.remaining
  have hzero : (c.run F s sizes d c.remaining).2.remaining ≤ c.remaining - c.remaining := PutCall.remaining_run_le _
  rw [Nat.sub_self, Nat.le_zero] at hzero
  rcases PutCall.ended_of_remaining hzero with hcrash | ⟨r, hr⟩
  · exact absurd hcrash hend.running
  · have hok := hend.returned hr
    have hkind : (c.run F s sizes d c.remaining).2.kind = c.kind := PutCall.kind_run
    have hbytes : (c.run F s sizes d c.remaining).2.bytes = c.bytes := PutCall.bytes_run
    rw [hok, hkind] at hr
    generalize (c.run F s sizes d c.remaining).2 = c' at hr hkind hbytes
    obtain ⟨k, bytes, phase⟩ := c'
    cases hkind
    cases hbytes
    cases hr
    rfl

end Puts

/-! ## A get on its own -/

section Gets
variable {d : Disk} {g : GetCall} {sizes : Nat → Nat} {n : Nat}

theorem GetCall.kind_run {t : Nat} : (g.run F s sizes d t).kind = g.kind := by
  induction t with
  | zero => rfl
  | succ t ih => rw [run, kind_step, ih]

theorem GetCall.running_step (h : g.phase ≠ .crashed) : (g.step F s n d).phase ≠ .crashed := by
  obtain ⟨k, phase⟩ := g
  unfold step
  split <;> try split
  all_goals first | exact h | (intro h'; cases h')

/-- A `get` that has not returned an error where the blob is, and no bytes but those of the blob. -/
structure Reads (F : TextForms) (s : FsBlobStore) (d : Disk) (g : GetCall) : Prop where
  ok : GetOk F s (fun k bytes => blobs F s d k = some bytes) d g
  running : g.phase ≠ .crashed
  finds : ∀ i, d.names (s.pathFor F g.kind) = some i → ∀ e, g.phase ≠ .returned (.error e)

theorem Reads.start (k : BlobKind) : Reads F s d ⟨k, .idle⟩ :=
  ⟨trivial, (fun h => by cases h), fun _ _ _ h => by cases h⟩

theorem Reads.step (hd : Sound F s d) (h : Reads F s d g) : Reads F s d (g.step F s n d) where
  ok := GetCall.step_ok hd (fun _ i hi => blobs_eq_some.mpr ⟨i, hi, rfl⟩) h.ok
  running := GetCall.running_step h.running
  finds i hi e := by
    rw [GetCall.kind_step] at hi
    exact GetCall.step_ne_error hi (h.finds i hi) e

theorem Reads.run (hd : Sound F s d) (h : Reads F s d g) (t : Nat) : Reads F s d (g.run F s sizes d t) := by
  induction t with
  | zero => exact h
  | succ t ih => exact ih.step hd

/-- A `get` that returned has the answer of the map. -/
theorem Reads.returned (h : Reads F s d g) {r : Except BlobError (List UInt8)} (hr : g.phase = .returned r) :
    r = answer F g.kind (blobs F s d g.kind) := by
  have hok := h.ok
  rw [GetOk, hr] at hok
  rcases hok with rfl | ⟨bytes, hbytes, rfl⟩
  · cases hi : d.names (s.pathFor F g.kind) with
    | none =>
      rw [blobs, hi]
      rfl
    | some i => exact absurd hr (h.finds i hi _)
  · rw [hbytes]
    rfl

theorem Reads.remaining_step_le (h : Reads F s d g) :
    (g.step F s n d).remaining (blobSize F s d) ≤ g.remaining (blobSize F s d) - 1 := by
  by_cases hzero : g.remaining (blobSize F s d) = 0
  · obtain ⟨k, phase⟩ := g
    cases phase <;> first | exact absurd hzero (Nat.succ_ne_zero _) | exact Nat.zero_le _
  · have hlt : (g.step F s n d).remaining (blobSize F s d) < g.remaining (blobSize F s d) := by
      refine GetCall.remaining_step_lt hzero fun i read hphase => ?_
      rw [blobSize, (h.ok.reading hphase).2.2.1]
      exact le_rfl
    omega

theorem Reads.remaining_run_le (hd : Sound F s d) (h : Reads F s d g) (t : Nat) :
    (g.run F s sizes d t).remaining (blobSize F s d) ≤ g.remaining (blobSize F s d) - t := by
  induction t with
  | zero => exact le_rfl
  | succ t ih =>
    have : (g.run F s sizes d (t + 1)).remaining (blobSize F s d) ≤
        (g.run F s sizes d t).remaining (blobSize F s d) - 1 := (h.run hd t).remaining_step_le
    omega

/-- A `get` on its own returns the answer of the map. -/
theorem Reads.run_remaining (hd : Sound F s d) (h : Reads F s d g) :
    g.run F s sizes d (g.remaining (blobSize F s d)) =
      ⟨g.kind, .returned (answer F g.kind (blobs F s d g.kind))⟩ := by
  have hend : Reads F s d (g.run F s sizes d (g.remaining (blobSize F s d))) := h.run hd _
  have hzero : (g.run F s sizes d (g.remaining (blobSize F s d))).remaining (blobSize F s d) ≤
      g.remaining (blobSize F s d) - g.remaining (blobSize F s d) := h.remaining_run_le hd _
  rw [Nat.sub_self, Nat.le_zero] at hzero
  rcases GetCall.ended_of_remaining hzero with hcrash | ⟨r, hr⟩
  · exact absurd hcrash hend.running
  · have hanswer := hend.returned hr
    have hkind : (g.run F s sizes d (g.remaining (blobSize F s d))).kind = g.kind := GetCall.kind_run
    rw [hanswer, hkind] at hr
    generalize g.run F s sizes d (g.remaining (blobSize F s d)) = g' at hr hkind
    obtain ⟨k, phase⟩ := g'
    cases hkind
    cases hr
    rfl

end Gets

/-! ## Sequences of operations -/

section Sequences
variable {d : Disk}

theorem Op.exec_sound (hd : Sound F s d) (op : Op) : Sound F s (op.exec F s d).1 := by
  cases op with
  | put k bytes sizes crash => exact ((Alone.start hd k bytes).run _).sound
  | get k sizes => exact hd

/-- An operation changes the map as the rename of its `put` says. -/
theorem Op.exec_blobs (hd : Sound F s d) (op : Op) (k : BlobKind) :
    blobs F s (op.exec F s d).1 k = ((op.exec F s d).2.renamed k).or (blobs F s d k) := by
  cases op with
  | put l bytes sizes crash =>
    exact (congrFun ((Alone.start hd l bytes).run _).blobs k).trans PutCall.effect_apply
  | get l sizes => rfl

/-- What a sequence of operations keeps: the disk is sound and its blobs are those that were renamed last. -/
theorem diskAfter_blobs (hd : Sound F s d) (hempty : ∀ k, blobs F s d k = none) (ops : List Op) :
    Sound F s (diskAfter F s d ops) ∧
      ∀ k, blobs F s (diskAfter F s d ops) k = lastRenamed (reached F s d ops) k := by
  induction ops using List.reverseRecOn with
  | nil => exact ⟨hd, hempty⟩
  | append_singleton ops op ih =>
    rw [diskAfter_concat, reached_concat]
    refine ⟨op.exec_sound ih.1, fun k => ?_⟩
    rw [op.exec_blobs ih.1, ih.2, lastRenamed_concat]

end Sequences

/-- **After any sequence of operations on a fresh root, a `get` returns the bytes of the last `put` of its kind whose
rename took place, or `NotFound` if there is none; a `put` succeeds unless it crashes, whatever crashed before it; and a
`put` of one kind, crashed or not, leaves alone what a `get` of another kind returns.** -/
theorem refines_map (F : TextForms) (s : FsBlobStore) (d : Disk) (hd : Initial s ⟨d, [], []⟩) (ops : List Op) :
    (∀ k sizes, ((Op.get k sizes).exec F s (diskAfter F s d ops)).2 =
      .get ⟨k, .returned (answer F k (lastRenamed (reached F s d ops) k))⟩) ∧
    (∀ k bytes sizes, ((Op.put k bytes sizes none).exec F s (diskAfter F s d ops)).2 =
      .put ⟨k, bytes, .returned (.ok (s.uri F k))⟩) ∧
    (∀ k bytes sizes crash c r, ((Op.put k bytes sizes crash).exec F s (diskAfter F s d ops)).2 = .put c →
      c.phase = .returned r → r = .ok (s.uri F k)) ∧
    ∀ k bytes sizes crash l sizes', l ≠ k →
      ((Op.get l sizes').exec F s (diskAfter F s d (ops ++ [.put k bytes sizes crash]))).2 =
        ((Op.get l sizes').exec F s (diskAfter F s d ops)).2 := by
  have hintact : Intact F s (fun _ _ => True) ⟨d, [], []⟩ := hd.intact fun _ _ => trivial
  have hsound : Sound F s d := hintact.sound
  have hempty : ∀ k, blobs F s d k = none := by
    intro k
    rw [blobs, Option.map_eq_none_iff, Option.eq_none_iff_forall_ne_some]
    exact fun i hi => (hd.files _ i hi).2.1 root_prefix_pathFor
  have hget : ∀ ops k sizes, ((Op.get k sizes).exec F s (diskAfter F s d ops)).2 =
      .get ⟨k, .returned (answer F k (lastRenamed (reached F s d ops) k))⟩ := by
    intro ops k sizes
    obtain ⟨hops, hblobs⟩ := diskAfter_blobs hsound hempty ops
    rw [← hblobs]
    exact congrArg Reached.get ((Reads.start k).run_remaining hops)
  obtain ⟨hops, -⟩ := diskAfter_blobs hsound hempty ops
  refine ⟨hget ops, fun k bytes sizes => ?_, fun k bytes sizes crash c r hc hr => ?_,
    fun k bytes sizes crash l sizes' hl => ?_⟩
  · exact congrArg Reached.put (Alone.start hops k bytes).run_remaining
  · cases hc
    rw [((Alone.start hops k bytes).run _).returned hr, PutCall.kind_run]
  · have hother : Reached.renamed l ((Op.put k bytes sizes crash).exec F s (diskAfter F s d ops)).2 = none := by
      show (if _ ∧ _ = l then _ else _) = none
      rw [PutCall.kind_run]
      exact if_neg fun h => hl h.2.symm
    rw [hget, hget, reached_concat, lastRenamed_concat, hother]
    rfl

/-- A log whose first `put` crashes before it is written, and a second attempt that crashes before its rename. -/
def crashedOps : List Op :=
  [.put (.log ⟨0⟩ 1) [0x78, 0x79, 0x7a] (fun _ => 1) (some 3), .put (.log ⟨0⟩ 1) [0x78] (fun _ => 1) none,
    .put (.log ⟨0⟩ 2) [0x79] (fun _ => 1) (some 3), .put (.log ⟨0⟩ 1) [0x79] (fun _ => 1) (some 3)]

theorem refines_map_crashed :
    lastRenamed (reached .crockford ⟨["var"]⟩ ⟨[], fun _ => none, fun _ => [], 0⟩ crashedOps) (.log ⟨0⟩ 1) =
      some [0x78] ∧
      ((Op.get (.log ⟨0⟩ 1) fun _ => 1).exec .crockford ⟨["var"]⟩
        (diskAfter .crockford ⟨["var"]⟩ ⟨[], fun _ => none, fun _ => [], 0⟩ crashedOps)).2 =
          .get ⟨.log ⟨0⟩ 1, .returned (.ok [0x78])⟩ := by
  have hlast : lastRenamed (reached .crockford ⟨["var"]⟩ ⟨[], fun _ => none, fun _ => [], 0⟩ crashedOps) (.log ⟨0⟩ 1) =
      some [0x78] := by decide +kernel
  have hmap := (refines_map .crockford ⟨["var"]⟩ ⟨[], fun _ => none, fun _ => [], 0⟩
    ⟨(fun _ _ h => by cases h), (fun _ h => by cases h), (fun _ h => by cases h), (fun _ h => by cases h)⟩
    crashedOps).1 (.log ⟨0⟩ 1) fun _ => 1
  rw [hlast] at hmap
  exact ⟨hlast, hmap⟩

end Satunera.Store
