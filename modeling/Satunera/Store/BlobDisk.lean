import Satunera.Store.BlobMap

/-!
# What the blob store leaves on the disk

* `World.Uses` : the files a world of calls may use; `Confined`, `confined` : however puts and gets overlap and crash,
  no other file is touched;
* `leftover` : the last `put` of a kind that opened its temporary file did not rename it;
* `disk_exact` : after puts and gets one at a time, under the root there are the blobs that were renamed, the temporary
  files left over, and nothing else.
-/

namespace Satunera.Store

open Satunera.Base FsBlobStore

variable {F : TextForms} {s : FsBlobStore}

/-! ## Calls that overlap -/

/-- The blobs and temporary files of the puts. -/
def World.Uses (F : TextForms) (s : FsBlobStore) (w : World) (p : Location) : Prop :=
  ∃ c ∈ w.puts, p = s.pathFor F c.kind ∨ p = s.tmpFor F c.kind

/-- The directories that the puts need. -/
def World.Needs (F : TextForms) (s : FsBlobStore) (w : World) (p : Location) : Prop :=
  ∃ c ∈ w.puts, p <+: (s.pathFor F c.kind).dropLast

/-- From `w` to `w'` no file was touched that the puts of `w` do not use, and the directories made are theirs. -/
structure Confined (F : TextForms) (s : FsBlobStore) (w w' : World) : Prop where
  names : ∀ p, ¬ w.Uses F s p → w'.disk.names p = w.disk.names p
  contents : ∀ p i, ¬ w.Uses F s p → w'.disk.names p = some i → w'.disk.contents i = w.disk.contents i
  kept : ∀ p ∈ w.disk.dirs, p ∈ w'.disk.dirs
  made : ∀ p ∈ w'.disk.dirs, p ∈ w.disk.dirs ∨ w.Needs F s p

section Calls
variable {U V : Location → Prop} {d₀ d : Disk} {n : Nat}

/-- A `put` that uses only the names in `U`, and writes to no file outside of them. -/
structure Inside (F : TextForms) (s : FsBlobStore) (U V : Location → Prop) (d₀ : Disk) (c : PutCall) : Prop where
  path : U (s.pathFor F c.kind)
  tmp : U (s.tmpFor F c.kind)
  dirs : ∀ p, p <+: (s.pathFor F c.kind).dropLast → V p
  open_apart : ∀ i rest, c.phase = .writing i rest → Disk.Apart U d₀ i

theorem Inside.step {c : PutCall} (hc : Inside F s U V d₀ c) (hd : Disk.Within U V d₀ d) :
    Disk.Within U V d₀ (c.step F s n d).1 ∧ Inside F s U V d₀ (c.step F s n d).2 := by
  obtain ⟨k, bytes, phase⟩ := c
  obtain ⟨hpath, htmp, hdirs, hopen⟩ := hc
  have hquiet : ∀ phase', (∀ i rest, phase' ≠ .writing i rest) → Inside F s U V d₀ ⟨k, bytes, phase'⟩ :=
    fun phase' h => ⟨hpath, htmp, hdirs, fun i rest he => absurd he (h i rest)⟩
  cases phase with
  | idle =>
    simp only [PutCall.step]
    cases hmk : d.createDirAll (s.pathFor F k).dropLast with
    | error e => exact ⟨hd, hquiet _ (by simp)⟩
    | ok d' => exact ⟨hd.createDirAll hdirs hmk, hquiet _ (by simp)⟩
  | made =>
    simp only [PutCall.step]
    cases hopens : d.openWrite (s.tmpFor F k) with
    | error e => exact ⟨hd, hquiet _ (by simp)⟩
    | ok r =>
      obtain ⟨hd', hapart⟩ := hd.openWrite htmp hopens
      refine ⟨hd', hpath, htmp, hdirs, fun i rest he => ?_⟩
      cases he
      exact hapart
  | writing i rest =>
    cases rest with
    | nil =>
      simp only [PutCall.step]
      cases hren : d.rename (s.tmpFor F k) (s.pathFor F k) with
      | error e => exact ⟨hd, hquiet _ (by simp)⟩
      | ok d' => exact ⟨hd.rename htmp hpath hren, hquiet _ (by simp)⟩
    | cons b rest =>
      refine ⟨hd.append (hopen i _ rfl) _, hpath, htmp, hdirs, fun j rest' he => ?_⟩
      cases he
      exact hopen i _ rfl
  | renamed => exact ⟨hd, hquiet _ (by simp)⟩
  | returned r => exact ⟨hd, hquiet _ (by simp)⟩
  | crashed => exact ⟨hd, hquiet _ (by simp)⟩

theorem Inside.crash {c : PutCall} (hc : Inside F s U V d₀ c) : Inside F s U V d₀ c.crash := by
  obtain ⟨k, bytes, phase⟩ := c
  cases phase with
  | idle | returned => exact hc
  | made | writing | renamed | crashed => exact ⟨hc.path, hc.tmp, hc.dirs, nofun⟩

/-- What every step of the calls keeps. -/
structure InsideAll (F : TextForms) (s : FsBlobStore) (U V : Location → Prop) (d₀ : Disk) (w : World) : Prop where
  disk : Disk.Within U V d₀ w.disk
  puts : ∀ c ∈ w.puts, Inside F s U V d₀ c

theorem InsideAll.step {w : World} (h : InsideAll F s U V d₀ w) (e : Event) : InsideAll F s U V d₀ (w.step F s e) := by
  cases e with
  | put i n =>
    cases hi : w.puts[i]? with
    | none => rwa [World.step_put_of_none hi]
    | some c =>
      obtain ⟨hd, hc⟩ := (h.puts c (List.mem_of_getElem? hi)).step (n := n) h.disk
      rw [World.step_put hi]
      refine ⟨hd, fun c' hc' => ?_⟩
      rcases List.mem_or_eq_of_mem_set hc' with hc' | rfl
      · exact h.puts c' hc'
      · exact hc
  | get i n =>
    cases hi : w.gets[i]? with
    | none => rwa [World.step_get_of_none hi]
    | some g =>
      rw [World.step_get hi]
      exact ⟨h.disk, h.puts⟩
  | crash =>
    refine ⟨h.disk, fun c hc => ?_⟩
    obtain ⟨c', hc', rfl⟩ := List.mem_map.mp hc
    exact (h.puts c' hc').crash

theorem InsideAll.run {w : World} (h : InsideAll F s U V d₀ w) (events : List Event) :
    InsideAll F s U V d₀ (w.run F s events) := by
  induction events generalizing w with
  | nil => exact h
  | cons e events ih => exact ih (h.step e)

end Calls

/-- **However puts and gets overlap and crash, they touch no file but their own**, on any disk without symbolic links
where no other file is a hard link to one of these. -/
theorem confined (F : TextForms) (s : FsBlobStore) {w : World} (hidle : ∀ c ∈ w.puts, c.phase = .idle)
    (hfresh : ∀ p i, w.disk.names p = some i → i < w.disk.fresh)
    (hlinks : ∀ p q i, ¬ w.Uses F s p → w.Uses F s q → w.disk.names p = some i → w.disk.names q ≠ some i)
    (events : List Event) : Confined F s w (w.run F s events) := by
  have hstart : InsideAll F s (w.Uses F s) (w.Needs F s) w.disk w := by
    refine ⟨.start hfresh hlinks, fun c hc => ⟨⟨c, hc, Or.inl rfl⟩, ⟨c, hc, Or.inr rfl⟩, fun p hp => ⟨c, hc, hp⟩, ?_⟩⟩
    intro i rest hphase
    rw [hidle c hc] at hphase
    cases hphase
  have hend := (hstart.run events).disk
  refine ⟨hend.names, fun p i hp hi => hend.contents p i hp ?_, hend.kept, hend.made⟩
  rwa [← hend.names p hp]

/-- Two puts of one log that overlap and a crash, beside a file that is not theirs. -/
theorem confined_beside : Confined .crockford ⟨["var"]⟩
    ⟨⟨[["etc"], ["var"]], fun p => if p = ["etc", "passwd"] then some 0 else none, fun _ => [0x78], 1⟩,
      [⟨.log ⟨0⟩ 1, [0x78, 0x79], .idle⟩, ⟨.log ⟨0⟩ 1, [0x7a], .idle⟩], []⟩ (World.run .crockford ⟨["var"]⟩
    ⟨⟨[["etc"], ["var"]], fun p => if p = ["etc", "passwd"] then some 0 else none, fun _ => [0x78], 1⟩,
      [⟨.log ⟨0⟩ 1, [0x78, 0x79], .idle⟩, ⟨.log ⟨0⟩ 1, [0x7a], .idle⟩], []⟩
    [.put 0 1, .put 0 1, .put 1 1, .put 1 1, .put 0 1, .crash]) := by
  have hname : ∀ (p : Location) (i : Nat), (if p = ["etc", "passwd"] then some 0 else none) = some i →
      p = ["etc", "passwd"] ∧ i = 0 := by
    intro p i h
    split at h
    · exact ⟨‹_›, (Option.some.inj h).symm⟩
    · cases h
  refine confined _ _ (by simp) (fun p i hi => ?_) (fun p q i hp hq hi hi' => ?_) _
  · rw [(hname p i hi).2]
    exact Nat.one_pos
  · obtain rfl := (hname p i hi).1
    obtain rfl := (hname q i hi').1
    exact hp hq

/-! ## One at a time -/

/-- Whether a `put` renamed its temporary file, if it opened it. -/
def PutCall.opened (c : PutCall) : Option Bool :=
  match c.phase with
  | .writing _ _ => some false
  | .renamed | .returned (.ok _) => some true
  | _ => none

/-- Whether the temporary file of a kind was renamed by an operation that opened it. -/
def Reached.opened (k : BlobKind) : Reached → Option Bool
  | put c => if c.kind = k then c.opened else none
  | get _ => none

/-- The last `put` of a kind that opened its temporary file crashed before the rename. -/
def leftover (rs : List Reached) (k : BlobKind) : Bool := rs.reverse.findSome? (Reached.opened k) == some false

/-- Whether the temporary file is there after an operation, if it was there as `left` says before. -/
def Reached.leaves (k : BlobKind) (left : Bool) (r : Reached) : Bool := (r.opened k).elim left Bool.not

theorem leftover_concat {rs : List Reached} {r : Reached} {k : BlobKind} :
    leftover (rs ++ [r]) k = r.leaves k (leftover rs k) := by
  rw [leftover, List.reverse_append, List.reverse_singleton, List.singleton_append, List.findSome?_cons, Reached.leaves]
  cases r.opened k with
  | none => rfl
  | some b => cases b <;> rfl

section Puts
variable {d d' : Disk} {k l : BlobKind} {bytes : List UInt8} {phase phase' : PutPhase} {left : Bool}

/-- The temporary file is there from its creation to its rename. -/
theorem PutStep.leaves (h : PutStep F s d k bytes phase d' phase')
    (hleft : (d.names (s.tmpFor F l)).isSome = (Reached.put ⟨k, bytes, phase⟩).leaves l left) :
    (d'.names (s.tmpFor F l)).isSome = (Reached.put ⟨k, bytes, phase'⟩).leaves l left := by
  by_cases hk : k = l
  · subst hk
    simp only [Reached.leaves, Reached.opened, if_true] at hleft ⊢
    cases h with
    | made => exact hleft
    | truncated hi => exact congrArg Option.isSome hi
    | created =>
      show (Function.update d.names (s.tmpFor F k) (some d.fresh) (s.tmpFor F k)).isSome = true
      rw [Function.update_self]
      rfl
    | wrote hi => exact congrArg Option.isSome hi
    | renamed =>
      show (Function.update (Function.update d.names (s.tmpFor F k) none) (s.pathFor F k) _
        (s.tmpFor F k)).isSome = false
      rw [Function.update_of_ne tmpFor_ne_pathFor, Function.update_self]
      rfl
    | returned => exact hleft
    | ended => exact hleft
  · have hne : s.tmpFor F l ≠ s.tmpFor F k := fun he => hk (tmpFor_injective he).symm
    simp only [Reached.leaves, Reached.opened, if_neg hk] at hleft ⊢
    cases h with
    | made => exact hleft
    | truncated => exact hleft
    | created =>
      show (Function.update d.names (s.tmpFor F k) (some d.fresh) (s.tmpFor F l)).isSome = left
      rwa [Function.update_of_ne hne]
    | wrote => exact hleft
    | renamed =>
      show (Function.update (Function.update d.names (s.tmpFor F k) none) (s.pathFor F k) _
        (s.tmpFor F l)).isSome = left
      rwa [Function.update_of_ne tmpFor_ne_pathFor, Function.update_of_ne hne]
    | returned => exact hleft
    | ended => exact hleft

theorem Alone.leaves_run {m : BlobKind → Option (List UInt8)} {c : PutCall} {sizes : Nat → Nat} (h : Alone F s m d c)
    (hleft : (d.names (s.tmpFor F l)).isSome = (Reached.put c).leaves l left) (t : Nat) :
    ((c.run F s sizes d t).1.names (s.tmpFor F l)).isSome = (Reached.put (c.run F s sizes d t).2).leaves l left := by
  induction t with
  | zero => exact hleft
  | succ t ih =>
    have halone : Alone F s m (c.run F s sizes d t).1 (c.run F s sizes d t).2 := h.run t
    have hstep := (PutCall.putStep (n := sizes t) halone.sound halone.ok).leaves ih
    rwa [← PutCall.kind_step (F := F) (s := s) (n := sizes t) (d := (c.run F s sizes d t).1),
      ← PutCall.bytes_step (F := F) (s := s) (n := sizes t) (d := (c.run F s sizes d t).1)] at hstep

end Puts

section Sequences
variable {d : Disk}

theorem Op.exec_leaves (hd : Sound F s d) (op : Op) (l : BlobKind) :
    ((op.exec F s d).1.names (s.tmpFor F l)).isSome = (op.exec F s d).2.leaves l (d.names (s.tmpFor F l)).isSome := by
  cases op with
  | put k bytes sizes crash =>
    refine (Alone.start hd k bytes).leaves_run ?_ _
    rw [Reached.leaves, Reached.opened]
    split <;> rfl
  | get k sizes => rfl

theorem diskAfter_leftover (hd : Sound F s d) (hempty : ∀ k, blobs F s d k = none)
    (hclean : ∀ k, d.names (s.tmpFor F k) = none) (ops : List Op) (k : BlobKind) :
    ((diskAfter F s d ops).names (s.tmpFor F k)).isSome = leftover (reached F s d ops) k := by
  induction ops using List.reverseRecOn with
  | nil => exact congrArg Option.isSome (hclean k)
  | append_singleton ops op ih =>
    rw [diskAfter_concat, reached_concat, leftover_concat, op.exec_leaves (diskAfter_blobs hd hempty ops).1, ih]

end Sequences

/-- **After any sequence of operations on a fresh root there are, under the root, the blobs whose rename took place with
the bytes that were put last, one temporary file for each kind whose last `put` to open it crashed, and nothing else;**
so a `put` that is not crashed cleans up. -/
theorem disk_exact (F : TextForms) (s : FsBlobStore) (d : Disk) (hd : Initial s ⟨d, [], []⟩) (ops : List Op) :
    (∀ p i, s.root <+: p → (diskAfter F s d ops).names p = some i →
      (∃ k, p = s.pathFor F k ∧ lastRenamed (reached F s d ops) k = some ((diskAfter F s d ops).contents i)) ∨
        ∃ k, p = s.tmpFor F k ∧ leftover (reached F s d ops) k = true) ∧
    (∀ k bytes, lastRenamed (reached F s d ops) k = some bytes →
      ∃ i, (diskAfter F s d ops).names (s.pathFor F k) = some i ∧ (diskAfter F s d ops).contents i = bytes) ∧
    (∀ k, leftover (reached F s d ops) k = true → ((diskAfter F s d ops).names (s.tmpFor F k)).isSome) ∧
    ∀ k bytes sizes, (diskAfter F s d (ops ++ [.put k bytes sizes none])).names (s.tmpFor F k) = none := by
  have hintact : Intact F s (fun _ _ => True) ⟨d, [], []⟩ := hd.intact fun _ _ => trivial
  have hsound : Sound F s d := hintact.sound
  have hfree : ∀ p, s.root <+: p → d.names p = none := fun p hp =>
    Option.eq_none_iff_forall_ne_some.mpr fun i hi => (hd.files p i hi).2.1 hp
  have hempty : ∀ k, blobs F s d k = none := fun k => by rw [blobs, hfree _ root_prefix_pathFor]; rfl
  have hleft := diskAfter_leftover hsound hempty fun k => hfree _ root_prefix_tmpFor
  obtain ⟨hend, hblobs⟩ := diskAfter_blobs hsound hempty ops
  refine ⟨fun p i hp hi => ?_, fun k bytes hk => ?_, fun k hk => ?_, fun k bytes sizes => ?_⟩
  · obtain ⟨k, rfl | rfl⟩ := hend.inside p i hi hp
    · exact Or.inl ⟨k, rfl, by rw [← hblobs, blobs_eq_some]; exact ⟨i, hi, rfl⟩⟩
    · exact Or.inr ⟨k, rfl, by rw [← hleft, hi]; rfl⟩
  · rwa [← hblobs, blobs_eq_some] at hk
  · rw [hleft, hk]
  · rw [← Option.not_isSome_iff_eq_none, hleft, reached_concat, leftover_concat]
    have hreached : ((Op.put k bytes sizes none).exec F s (diskAfter F s d ops)).2 =
        .put ⟨k, bytes, .returned (.ok (s.uri F k))⟩ := congrArg Reached.put (Alone.start hend k bytes).run_remaining
    rw [hreached, Reached.leaves, Reached.opened, if_pos rfl]
    exact Bool.false_ne_true

theorem disk_exact_crashed :
    leftover (reached .crockford ⟨["var"]⟩ ⟨[], fun _ => none, fun _ => [], 0⟩ crashedOps) (.log ⟨0⟩ 1) = true ∧
      ∃ i, (diskAfter .crockford ⟨["var"]⟩ ⟨[], fun _ => none, fun _ => [], 0⟩ crashedOps).names
          (FsBlobStore.pathFor .crockford ⟨["var"]⟩ (.log ⟨0⟩ 1)) = some i ∧
        (diskAfter .crockford ⟨["var"]⟩ ⟨[], fun _ => none, fun _ => [], 0⟩ crashedOps).contents i = [0x78] := by
  refine ⟨by decide +kernel, ?_⟩
  exact (disk_exact .crockford ⟨["var"]⟩ ⟨[], fun _ => none, fun _ => [], 0⟩
    ⟨(fun _ _ h => by cases h), (fun _ h => by cases h), (fun _ h => by cases h), (fun _ h => by cases h)⟩
    crashedOps).2.1 (.log ⟨0⟩ 1) [0x78] (by decide +kernel)

end Satunera.Store
