import Satunera.Store.Blob
import Satunera.Store.TextForms

/-!
# Puts and gets that overlap

The temporary file of a `put` is named after the key alone, so two puts of one blob write to the same file.

* `Sound`, `PutOk`, `GetOk`, `Intact` : what holds of the disk and of every call while no `put` opens the temporary file
  of another one (`Allowed`);
* `PutStep`, `PutCall.putStep` : what a step of a `put` does;
* `Frame`, `PutCall.step_ok`, `Intact.step` : what it leaves alone, and that the invariant is kept;
* `blobs_whole` : in such runs blobs are whole, puts succeed and what was put is found;
* `torn_run` : a run where two puts overlap.
-/

namespace Satunera.Store

open Satunera.Base FsBlobStore

variable {F : TextForms} {s : FsBlobStore}

/-! ## The disk -/

/-- Under the root there are only blobs and temporary files, in their directories. -/
structure Sound (F : TextForms) (s : FsBlobStore) (d : Disk) : Prop where
  outside : ∀ q i, d.names q = some i → ¬ q <+: s.root
  inside : ∀ q i, d.names q = some i → s.root <+: q → ∃ k, q = s.pathFor F k ∨ q = s.tmpFor F k
  dirs : ∀ q ∈ d.dirs, s.root <+: q → ∃ k, q <+: (s.pathFor F k).dropLast
  lt_fresh : ∀ q i, d.names q = some i → i < d.fresh
  inj : ∀ q q' i, s.root <+: q → s.root <+: q' → d.names q = some i → d.names q' = some i → q = q'

namespace Sound
variable {d : Disk} {k l : BlobKind}

theorem not_blocked (h : Sound F s d) : ¬ d.Blocked (s.pathFor F k).dropLast := by
  rintro ⟨q, hq, hsome⟩
  obtain ⟨i, hi⟩ := Option.isSome_iff_exists.mp hsome
  have hq := (List.mem_inits _ _).mp hq
  rcases List.prefix_or_prefix_of_prefix (hq.trans (List.dropLast_prefix _)) root_prefix_pathFor with hroot | hroot
  · exact h.outside q i hi hroot
  · obtain ⟨l, rfl | rfl⟩ := h.inside q i hi hroot
    · exact pathFor_not_prefix hq
    · exact tmpFor_not_prefix hq

theorem not_isDir_pathFor (h : Sound F s d) : ¬ d.IsDir (s.pathFor F k) := by
  rintro (hnil | hmem)
  · rw [pathFor_eq, List.append_eq_nil_iff] at hnil
    cases k <;> cases hnil.2
  · obtain ⟨l, hl⟩ := h.dirs _ hmem root_prefix_pathFor
    exact pathFor_not_prefix hl

theorem not_isDir_tmpFor (h : Sound F s d) : ¬ d.IsDir (s.tmpFor F k) := by
  rintro (hnil | hmem)
  · rw [tmpFor_eq, List.append_eq_nil_iff] at hnil
    cases k <;> cases hnil.2
  · obtain ⟨l, hl⟩ := h.dirs _ hmem root_prefix_tmpFor
    exact tmpFor_not_prefix hl

theorem checkName_pathFor (h : Sound F s d) (hdir : d.IsDir (s.pathFor F k).dropLast) :
    d.checkName (s.pathFor F k) = .ok () := Disk.checkName_eq_ok h.not_blocked hdir h.not_isDir_pathFor

theorem checkName_tmpFor (h : Sound F s d) (hdir : d.IsDir (s.pathFor F k).dropLast) :
    d.checkName (s.tmpFor F k) = .ok () := by
  refine Disk.checkName_eq_ok ?_ ?_ h.not_isDir_tmpFor
  · rw [dropLast_tmpFor]
    exact h.not_blocked
  · rwa [dropLast_tmpFor]

theorem openRead_of_none (h : Sound F s d) (hk : d.names (s.pathFor F k) = none) :
    d.openRead (s.pathFor F k) = .error .notFound := Disk.openRead_of_none hk h.not_blocked h.not_isDir_pathFor

/-- The inode of a blob is not that of a temporary file. -/
theorem names_tmpFor_ne (h : Sound F s d) {i : Nat} (hk : d.names (s.pathFor F k) = some i) :
    d.names (s.tmpFor F l) ≠ some i := fun hl =>
  tmpFor_ne_pathFor (h.inj _ _ i root_prefix_tmpFor root_prefix_pathFor hl hk)

theorem kind_eq_of_tmpFor (h : Sound F s d) {i : Nat} (hk : d.names (s.tmpFor F k) = some i)
    (hl : d.names (s.tmpFor F l) = some i) : k = l :=
  tmpFor_injective (h.inj _ _ i root_prefix_tmpFor root_prefix_tmpFor hk hl)

end Sound

/-! ## The calls -/

/-- The `put` is between opening its temporary file and renaming it. -/
def PutCall.IsWriting (c : PutCall) : Prop := ∃ i rest, c.phase = .writing i rest

instance (c : PutCall) : Decidable c.IsWriting :=
  match h : c.phase with
  | .writing i rest => isTrue ⟨i, rest, h⟩
  | .idle | .made | .renamed | .returned _ | .crashed => isFalse fun ⟨_, _, h'⟩ => by rw [h] at h'; cases h'

/-- The next step of the `put` uses its temporary file. -/
def PutCall.Touches (c : PutCall) : Prop := c.phase = .made ∨ c.IsWriting

/-- What a `put` relies on, and how it ends. -/
def PutOk (F : TextForms) (s : FsBlobStore) (d : Disk) (c : PutCall) : Prop :=
  match c.phase with
  | .idle | .crashed => True
  | .made => d.IsDir (s.pathFor F c.kind).dropLast
  | .writing i rest =>
    d.IsDir (s.pathFor F c.kind).dropLast ∧ d.names (s.tmpFor F c.kind) = some i ∧ d.contents i ++ rest = c.bytes
  | .renamed => ∃ i, d.names (s.pathFor F c.kind) = some i
  | .returned r => r = .ok (s.uri F c.kind) ∧ ∃ i, d.names (s.pathFor F c.kind) = some i

/-- What a `get` relies on, and how it ends, where the bytes of a blob are as `Val` says. -/
def GetOk (F : TextForms) (s : FsBlobStore) (Val : BlobKind → List UInt8 → Prop) (d : Disk) (g : GetCall) : Prop :=
  match g.phase with
  | .idle | .crashed => True
  | .reading i read =>
    i < d.fresh ∧ (∀ k, d.names (s.tmpFor F k) ≠ some i) ∧ Val g.kind (d.contents i) ∧ read <+: d.contents i
  | .returned r => r = .error (.notFound (g.kind.key F)) ∨ ∃ bytes, Val g.kind bytes ∧ r = .ok bytes

theorem GetOk.reading {Val : BlobKind → List UInt8 → Prop} {d : Disk} {g : GetCall} (h : GetOk F s Val d g) {i : Nat}
    {read : List UInt8} (hphase : g.phase = .reading i read) :
    i < d.fresh ∧ (∀ k, d.names (s.tmpFor F k) ≠ some i) ∧ Val g.kind (d.contents i) ∧ read <+: d.contents i := by
  rwa [GetOk, hphase] at h

/-- The bytes of every blob on the disk are as `Val` says. -/
def Whole (F : TextForms) (s : FsBlobStore) (Val : BlobKind → List UInt8 → Prop) (d : Disk) : Prop :=
  ∀ k i, d.names (s.pathFor F k) = some i → Val k (d.contents i)

/-- What a step leaves alone that uses no temporary file but those of the kinds `touched`. -/
structure Frame (F : TextForms) (s : FsBlobStore) (touched : BlobKind → Prop) (d d' : Disk) : Prop where
  isDir : ∀ q, d.IsDir q → d'.IsDir q
  fresh : d.fresh ≤ d'.fresh
  tmp : ∀ l, ¬ touched l → d'.names (s.tmpFor F l) = d.names (s.tmpFor F l)
  tmp_new : ∀ i < d.fresh, ∀ l, d.names (s.tmpFor F l) ≠ some i → d'.names (s.tmpFor F l) ≠ some i
  present : ∀ l i, d.names (s.pathFor F l) = some i → ∃ j, d'.names (s.pathFor F l) = some j
  contents : ∀ i < d.fresh, (∀ l, touched l → d.names (s.tmpFor F l) ≠ some i) → d'.contents i = d.contents i

section Frame
variable {touched : BlobKind → Prop} {d d' : Disk} {Val : BlobKind → List UInt8 → Prop}

theorem Frame.refl (d : Disk) : Frame F s touched d d :=
  ⟨fun _ h => h, le_rfl, fun _ _ => rfl, fun _ _ _ h => h, fun _ i h => ⟨i, h⟩, fun _ _ _ => rfl⟩

theorem PutOk.frame (hd : Sound F s d) (hf : Frame F s touched d d') {c : PutCall}
    (hc : touched c.kind → ¬ c.IsWriting) (h : PutOk F s d c) : PutOk F s d' c := by
  unfold PutOk at h ⊢
  split at h
  · trivial
  · trivial
  · exact hf.isDir _ h
  · rename_i i rest hphase
    obtain ⟨hdir, hname, hbytes⟩ := h
    have hc : ¬ touched c.kind := fun ht => hc ht ⟨i, rest, hphase⟩
    refine ⟨hf.isDir _ hdir, by rw [hf.tmp _ hc, hname], ?_⟩
    rw [hf.contents i (hd.lt_fresh _ _ hname) fun l hl hname' => hc (hd.kind_eq_of_tmpFor hname hname' ▸ hl), hbytes]
  · obtain ⟨i, hi⟩ := h
    exact hf.present _ i hi
  · obtain ⟨hr, i, hi⟩ := h
    exact ⟨hr, hf.present _ i hi⟩

theorem GetOk.frame (hf : Frame F s touched d d') {g : GetCall} (h : GetOk F s Val d g) : GetOk F s Val d' g := by
  unfold GetOk at h ⊢
  split at h
  · trivial
  · trivial
  · rename_i i read hphase
    obtain ⟨hi, htmp, hval, hread⟩ := h
    rw [hf.contents i hi fun l _ => htmp l]
    exact ⟨hi.trans_le hf.fresh, fun l => hf.tmp_new i hi l (htmp l), hval, hread⟩
  · exact h

end Frame

/-! ## Steps of the disk -/

/-- A step of the disk on behalf of a `put` of the kind `k` that may use its temporary file. -/
structure DiskStep (F : TextForms) (s : FsBlobStore) (Val : BlobKind → List UInt8 → Prop) (touched : BlobKind → Prop)
    (d d' : Disk) : Prop where
  sound : Sound F s d'
  whole : Whole F s Val d'
  frame : Frame F s touched d d'

section DiskStep
variable {touched : BlobKind → Prop} {d : Disk} {Val : BlobKind → List UInt8 → Prop} {k : BlobKind} {i : Nat}

theorem DiskStep.refl (hd : Sound F s d) (hw : Whole F s Val d) : DiskStep F s Val touched d d := ⟨hd, hw, .refl d⟩

theorem DiskStep.createDirAll (hd : Sound F s d) (hw : Whole F s Val d) :
    DiskStep F s Val touched d { d with dirs := (s.pathFor F k).dropLast.inits ++ d.dirs } where
  sound := { hd with
    dirs := fun q hq hroot => by
      rcases List.mem_append.mp hq with hq | hq
      · exact ⟨k, (List.mem_inits _ _).mp hq⟩
      · exact hd.dirs q hq hroot }
  whole := hw
  frame := { Frame.refl d with
    isDir := fun q hq => hq.imp_right fun hq => List.mem_append_right _ hq }

/-- Truncating a temporary file, or writing to it. -/
theorem DiskStep.write (hd : Sound F s d) (hw : Whole F s Val d) (hk : touched k)
    (hi : d.names (s.tmpFor F k) = some i) (bytes : List UInt8) :
    DiskStep F s Val touched d { d with contents := Function.update d.contents i bytes } where
  sound := ⟨hd.outside, hd.inside, hd.dirs, hd.lt_fresh, hd.inj⟩
  whole l j hj := by
    have hne : j ≠ i := fun h => hd.names_tmpFor_ne hj (h ▸ hi)
    show Val l (Function.update d.contents i bytes j)
    rw [Function.update_of_ne hne]
    exact hw l j hj
  frame := { Frame.refl d with
    contents := fun j _ hj => by
      have hne : j ≠ i := fun h => hj k hk (h ▸ hi)
      exact Function.update_of_ne hne _ _ }

/-- Creating a temporary file. -/
theorem DiskStep.create (hd : Sound F s d) (hw : Whole F s Val d) (hk : touched k) :
    DiskStep F s Val touched d { d with
      names := Function.update d.names (s.tmpFor F k) (some d.fresh)
      contents := Function.update d.contents d.fresh []
      fresh := d.fresh + 1 } where
  sound := by
    have hold : ∀ q j, Function.update d.names (s.tmpFor F k) (some d.fresh) q = some j →
        (q = s.tmpFor F k ∧ j = d.fresh) ∨ d.names q = some j := by
      intro q j hj
      by_cases hq : q = s.tmpFor F k
      · rw [hq, Function.update_self] at hj
        exact Or.inl ⟨hq, (Option.some.inj hj).symm⟩
      · rw [Function.update_of_ne hq] at hj
        exact Or.inr hj
    refine ⟨fun q j hj => ?_, fun q j hj hroot => ?_, hd.dirs, fun q j hj => ?_, fun q q' j hq hq' hj hj' => ?_⟩
    · rcases hold q j hj with ⟨rfl, -⟩ | hj
      · exact fun h => tmpFor_not_prefix_root h
      · exact hd.outside q j hj
    · rcases hold q j hj with ⟨rfl, -⟩ | hj
      · exact ⟨k, Or.inr rfl⟩
      · exact hd.inside q j hj hroot
    · rcases hold q j hj with ⟨-, rfl⟩ | hj
      · exact Nat.lt_succ_self _
      · exact (hd.lt_fresh q j hj).trans (Nat.lt_succ_self _)
    · rcases hold q j hj with ⟨rfl, rfl⟩ | hj <;> rcases hold q' _ hj' with ⟨rfl, hfresh⟩ | hj'
      · rfl
      · exact absurd (hd.lt_fresh _ _ hj') (lt_irrefl _)
      · exact absurd (hd.lt_fresh _ _ hj) (by omega)
      · exact hd.inj q q' j hq hq' hj hj'
  whole l j hj := by
    have hj : d.names (s.pathFor F l) = some j :=
      (Function.update_of_ne (Ne.symm tmpFor_ne_pathFor) _ _).symm.trans hj
    show Val l (Function.update d.contents d.fresh [] j)
    rw [Function.update_of_ne (hd.lt_fresh _ _ hj).ne]
    exact hw l j hj
  frame := by
    refine ⟨fun q hq => hq, Nat.le_succ _, fun l hl => ?_, fun j hj l hl => ?_, fun l j hj => ⟨j, ?_⟩, fun j hj _ => ?_⟩
    · have hne : s.tmpFor F l ≠ s.tmpFor F k := fun h => hl (tmpFor_injective h ▸ hk)
      exact Function.update_of_ne hne _ _
    · show Function.update d.names (s.tmpFor F k) (some d.fresh) (s.tmpFor F l) ≠ some j
      by_cases hlk : s.tmpFor F l = s.tmpFor F k
      · rw [hlk, Function.update_self]
        exact fun h => hj.ne' (Option.some.inj h)
      · rwa [Function.update_of_ne hlk]
    · exact (Function.update_of_ne (Ne.symm tmpFor_ne_pathFor) _ _).trans hj
    · exact Function.update_of_ne hj.ne _ _

/-- Renaming a temporary file that is complete. -/
theorem DiskStep.rename (hd : Sound F s d) (hw : Whole F s Val d) (hk : touched k)
    (hi : d.names (s.tmpFor F k) = some i) (hv : Val k (d.contents i)) :
    DiskStep F s Val touched d { d with
      names := Function.update (Function.update d.names (s.tmpFor F k) none) (s.pathFor F k) (some i) } := by
  have hold : ∀ q j, Function.update (Function.update d.names (s.tmpFor F k) none) (s.pathFor F k) (some i) q = some j →
      (q = s.pathFor F k ∧ j = i) ∨ q ≠ s.tmpFor F k ∧ d.names q = some j := by
    intro q j hj
    by_cases hq : q = s.pathFor F k
    · rw [hq, Function.update_self] at hj
      exact Or.inl ⟨hq, (Option.some.inj hj).symm⟩
    · rw [Function.update_of_ne hq] at hj
      by_cases hq' : q = s.tmpFor F k
      · rw [hq', Function.update_self] at hj
        cases hj
      · rw [Function.update_of_ne hq'] at hj
        exact Or.inr ⟨hq', hj⟩
  refine ⟨⟨fun q j hj => ?_, fun q j hj hroot => ?_, hd.dirs, fun q j hj => ?_, fun q q' j hq hq' hj hj' => ?_⟩,
    fun l j hj => ?_,
    ⟨fun q hq => hq, le_rfl, fun l hl => ?_, fun j hj l hl => ?_, fun l j hj => ?_, fun j hj _ => rfl⟩⟩
  · rcases hold q j hj with ⟨rfl, -⟩ | ⟨-, hj⟩
    · exact fun h => pathFor_not_prefix_root h
    · exact hd.outside q j hj
  · rcases hold q j hj with ⟨rfl, -⟩ | ⟨-, hj⟩
    · exact ⟨k, Or.inl rfl⟩
    · exact hd.inside q j hj hroot
  · rcases hold q j hj with ⟨-, rfl⟩ | ⟨-, hj⟩
    · exact hd.lt_fresh _ _ hi
    · exact hd.lt_fresh q j hj
  · rcases hold q j hj with ⟨rfl, rfl⟩ | ⟨hne, hj⟩ <;> rcases hold q' _ hj' with ⟨rfl, hji⟩ | ⟨hne', hj'⟩
    · rfl
    · exact absurd (hd.inj _ _ _ hq' root_prefix_tmpFor hj' hi) hne'
    · exact absurd (hd.inj _ _ _ hq root_prefix_tmpFor hj (hji ▸ hi)) hne
    · exact hd.inj q q' j hq hq' hj hj'
  · rcases hold _ j hj with ⟨hl, rfl⟩ | ⟨-, hj⟩
    · rw [pathFor_injective hl]
      exact hv
    · exact hw l j hj
  · have hne : s.tmpFor F l ≠ s.tmpFor F k := fun h => hl (tmpFor_injective h ▸ hk)
    exact (Function.update_of_ne tmpFor_ne_pathFor _ _).trans (Function.update_of_ne hne _ _)
  · intro hj'
    rcases hold _ j hj' with ⟨h, -⟩ | ⟨-, hj'⟩
    · exact tmpFor_ne_pathFor h
    · exact hl hj'
  · by_cases hlk : s.pathFor F l = s.pathFor F k
    · exact ⟨i, by rw [hlk]; exact Function.update_self ..⟩
    · refine ⟨j, (Function.update_of_ne hlk _ _).trans ((Function.update_of_ne ?_ _ _).trans hj)⟩
      exact Ne.symm tmpFor_ne_pathFor

end DiskStep

/-! ## Steps of the calls -/

section Calls
variable {d : Disk} {Val : BlobKind → List UInt8 → Prop} {n : Nat}

/-- What a step of a `put` does where nothing is in its way: the phase it starts from, the disk and the phase after. -/
inductive PutStep (F : TextForms) (s : FsBlobStore) (d : Disk) (k : BlobKind) (bytes : List UInt8) :
    PutPhase → Disk → PutPhase → Prop
  | made : PutStep F s d k bytes .idle { d with dirs := (s.pathFor F k).dropLast.inits ++ d.dirs } .made
  | truncated {i : Nat} (hi : d.names (s.tmpFor F k) = some i) :
      PutStep F s d k bytes .made { d with contents := Function.update d.contents i [] } (.writing i bytes)
  | created (hi : d.names (s.tmpFor F k) = none) :
      PutStep F s d k bytes .made { d with
        names := Function.update d.names (s.tmpFor F k) (some d.fresh)
        contents := Function.update d.contents d.fresh []
        fresh := d.fresh + 1 } (.writing d.fresh bytes)
  | wrote {i : Nat} {written rest : List UInt8} (hi : d.names (s.tmpFor F k) = some i) :
      PutStep F s d k bytes (.writing i (written ++ rest))
        { d with contents := Function.update d.contents i (d.contents i ++ written) } (.writing i rest)
  | renamed {i : Nat} (hi : d.names (s.tmpFor F k) = some i) :
      PutStep F s d k bytes (.writing i []) { d with
        names := Function.update (Function.update d.names (s.tmpFor F k) none) (s.pathFor F k) (some i) } .renamed
  | returned : PutStep F s d k bytes .renamed d (.returned (.ok (s.uri F k)))
  | ended {phase : PutPhase} (h : phase = .crashed ∨ ∃ r, phase = .returned r) : PutStep F s d k bytes phase d phase

/-- Every step of a `put` goes through. -/
theorem PutCall.putStep {c : PutCall} (hd : Sound F s d) (hc : PutOk F s d c) :
    PutStep F s d c.kind c.bytes c.phase (c.step F s n d).1 (c.step F s n d).2.phase := by
  obtain ⟨k, bytes, phase⟩ := c
  cases phase with
  | idle =>
    simp only [step, Disk.createDirAll_of_not_blocked hd.not_blocked]
    exact .made
  | made =>
    have hdir : d.IsDir (s.pathFor F k).dropLast := hc
    cases hi : d.names (s.tmpFor F k) with
    | some i =>
      simp only [step, Disk.openWrite_of_some (hd.checkName_tmpFor hdir) hi]
      exact .truncated hi
    | none =>
      simp only [step, Disk.openWrite_of_none (hd.checkName_tmpFor hdir) hi]
      exact .created hi
  | writing i rest =>
    obtain ⟨hdir, hi, -⟩ : d.IsDir (s.pathFor F k).dropLast ∧ d.names (s.tmpFor F k) = some i ∧
      d.contents i ++ rest = bytes := hc
    cases rest with
    | nil =>
      simp only [step, Disk.rename_of_some (hd.checkName_pathFor hdir) hi]
      exact .renamed hi
    | cons b rest =>
      have hrest : b :: rest = (b :: rest.take (n - 1)) ++ rest.drop (n - 1) := by
        rw [List.cons_append, List.take_append_drop]
      simp only [step, Disk.append]
      nth_rewrite 1 [hrest]
      exact .wrote hi
  | renamed => exact .returned
  | returned r => exact .ended (Or.inr ⟨r, rfl⟩)
  | crashed => exact .ended (Or.inl rfl)

/-- Such a step uses no temporary file but its own. -/
theorem PutStep.ok {k : BlobKind} {bytes : List UInt8} {phase phase' : PutPhase} {d' : Disk}
    (h : PutStep F s d k bytes phase d' phase') (hd : Sound F s d) (hw : Whole F s Val d)
    (hc : PutOk F s d ⟨k, bytes, phase⟩) (hv : Val k bytes) :
    DiskStep F s Val (fun l => (⟨k, bytes, phase⟩ : PutCall).Touches ∧ l = k) d d' ∧
      PutOk F s d' ⟨k, bytes, phase'⟩ := by
  cases h with
  | made =>
    refine ⟨.createDirAll hd hw, Or.inr (List.mem_append_left _ ?_)⟩
    exact (List.mem_inits _ _).mpr List.prefix_rfl
  | truncated hi =>
    refine ⟨.write hd hw ⟨Or.inl rfl, rfl⟩ hi [], hc, hi, ?_⟩
    show Function.update d.contents _ [] _ ++ bytes = bytes
    rw [Function.update_self, List.nil_append]
  | created hi =>
    refine ⟨.create hd hw ⟨Or.inl rfl, rfl⟩, hc, Function.update_self .., ?_⟩
    show Function.update d.contents d.fresh [] d.fresh ++ bytes = bytes
    rw [Function.update_self, List.nil_append]
  | @wrote i written rest hi =>
    obtain ⟨hdir, -, hbytes⟩ := hc
    refine ⟨.write hd hw ⟨Or.inr ⟨i, _, rfl⟩, rfl⟩ hi _, hdir, hi, ?_⟩
    show Function.update d.contents i _ i ++ rest = bytes
    rw [Function.update_self, List.append_assoc, hbytes]
  | @renamed i hi =>
    obtain ⟨-, -, hbytes⟩ := hc
    rw [List.append_nil] at hbytes
    exact ⟨.rename hd hw ⟨Or.inr ⟨i, [], rfl⟩, rfl⟩ hi (hbytes ▸ hv), i, Function.update_self ..⟩
  | returned =>
    obtain ⟨i, hi⟩ := hc
    exact ⟨.refl hd hw, rfl, i, hi⟩
  | ended => exact ⟨.refl hd hw, hc⟩

theorem PutCall.step_ok {c : PutCall} (hd : Sound F s d) (hw : Whole F s Val d) (hc : PutOk F s d c)
    (hv : Val c.kind c.bytes) :
    DiskStep F s Val (fun l => c.Touches ∧ l = c.kind) d (c.step F s n d).1 ∧
      PutOk F s (c.step F s n d).1 (c.step F s n d).2 := by
  obtain ⟨hstep, hok⟩ := (c.putStep (n := n) hd hc).ok hd hw hc hv
  refine ⟨hstep, ?_⟩
  rwa [← kind_step (F := F) (s := s) (n := n) (d := d), ← bytes_step (F := F) (s := s) (n := n) (d := d)] at hok

theorem PutCall.isWriting_of_step {c : PutCall} (h : (c.step F s n d).2.IsWriting) : c.Touches := by
  obtain ⟨k, bytes, phase⟩ := c
  obtain ⟨i, rest, h⟩ := h
  cases phase with
  | made => exact Or.inl rfl
  | writing j rest' => exact Or.inr ⟨j, rest', rfl⟩
  | idle =>
    simp only [step] at h
    split at h <;> cases h
  | _ => cases h

theorem GetCall.step_ok {g : GetCall} (hd : Sound F s d) (hw : Whole F s Val d) (hg : GetOk F s Val d g) :
    GetOk F s Val d (g.step F s n d) := by
  obtain ⟨k, phase⟩ := g
  cases phase with
  | idle =>
    cases hi : d.names (s.pathFor F k) with
    | some i =>
      simp only [step, Disk.openRead_of_some hi]
      exact ⟨hd.lt_fresh _ _ hi, fun l => hd.names_tmpFor_ne hi, hw k i hi, List.nil_prefix⟩
    | none =>
      simp only [step, hd.openRead_of_none hi]
      exact Or.inl rfl
  | reading i read =>
    obtain ⟨hi, htmp, hval, rest, hread⟩ := hg
    have hdrop : (d.contents i).drop read.length = rest := by rw [← hread, List.drop_left]
    simp only [step, hdrop]
    cases rest with
    | nil => exact Or.inr ⟨d.contents i, hval, by rw [← hread, List.append_nil]⟩
    | cons b rest =>
      refine ⟨hi, htmp, hval, rest.drop (n - 1), ?_⟩
      rw [List.append_assoc, List.cons_append, List.take_append_drop, hread]
  | returned r => exact hg
  | crashed => trivial

theorem PutOk.crash {c : PutCall} (h : PutOk F s d c) : PutOk F s d c.crash := by
  obtain ⟨k, bytes, phase⟩ := c
  cases phase <;> first | exact h | trivial

theorem GetOk.crash {g : GetCall} (h : GetOk F s Val d g) : GetOk F s Val d g.crash := by
  obtain ⟨k, phase⟩ := g
  cases phase <;> first | exact h | trivial

theorem PutCall.not_isWriting_crash (c : PutCall) : ¬ c.crash.IsWriting := by
  obtain ⟨k, bytes, phase⟩ := c
  rintro ⟨i, rest, h⟩
  cases phase <;> cases h

theorem PutCall.kind_crash (c : PutCall) : c.crash.kind = c.kind := by
  obtain ⟨k, bytes, phase⟩ := c
  cases phase <;> rfl

theorem PutCall.bytes_crash (c : PutCall) : c.crash.bytes = c.bytes := by
  obtain ⟨k, bytes, phase⟩ := c
  cases phase <;> rfl

end Calls

/-! ## Runs -/

/-- No `put` opens its temporary file between the open and the rename of another one of the same blob. -/
def Allowed (w : World) : Event → Prop
  | .put i _ => ∀ c, w.puts[i]? = some c → c.phase = .made → ∀ c' ∈ w.puts, c'.kind = c.kind → ¬ c'.IsWriting
  | _ => True

instance (w : World) : (e : Event) → Decidable (Allowed w e)
  | .put i _ =>
    match h : w.puts[i]? with
    | none => isTrue fun c hc => by rw [h] at hc; cases hc
    | some c => decidable_of_iff (c.phase = .made → ∀ c' ∈ w.puts, c'.kind = c.kind → ¬ c'.IsWriting)
        ⟨fun hc c' hc' => by rw [h] at hc'; cases hc'; exact hc, fun hc => hc c h⟩
  | .get _ _ | .crash => isTrue trivial

/-- Every step of the run is allowed. -/
def AllowedRun (F : TextForms) (s : FsBlobStore) : World → List Event → Prop
  | _, [] => True
  | w, e :: events => Allowed w e ∧ AllowedRun F s (w.step F s e) events

instance decidableAllowedRun : (w : World) → (events : List Event) → Decidable (AllowedRun F s w events)
  | _, [] => isTrue trivial
  | w, e :: events => @instDecidableAnd _ _ _ (decidableAllowedRun (w.step F s e) events)

structure Intact (F : TextForms) (s : FsBlobStore) (Val : BlobKind → List UInt8 → Prop) (w : World) : Prop where
  sound : Sound F s w.disk
  whole : Whole F s Val w.disk
  put : ∀ c ∈ w.puts, PutOk F s w.disk c ∧ Val c.kind c.bytes
  get : ∀ g ∈ w.gets, GetOk F s Val w.disk g
  /-- Of the puts of one blob at most one is writing. -/
  alone : ∀ (i j : Nat) (a b : PutCall), w.puts[i]? = some a → w.puts[j]? = some b → a.kind = b.kind →
    a.IsWriting → b.IsWriting → i = j

section Runs
variable {Val : BlobKind → List UInt8 → Prop} {w : World}

theorem getElem?_set_cases {α : Type} {xs : List α} {i j : Nat} {x y : α} (h : (xs.set i x)[j]? = some y) :
    (j = i ∧ y = x) ∨ j ≠ i ∧ xs[j]? = some y := by
  rw [List.getElem?_set] at h
  split at h
  · rename_i hij
    split at h
    · exact Or.inl ⟨hij.symm, (Option.some.inj h).symm⟩
    · cases h
  · rename_i hij
    exact Or.inr ⟨Ne.symm hij, h⟩

theorem Intact.step_put (h : Intact F s Val w) {i n : Nat} (he : Allowed w (.put i n)) {c : PutCall}
    (hi : w.puts[i]? = some c) : Intact F s Val (w.step F s (.put i n)) := by
  rw [World.step_put hi]
  obtain ⟨hc, hv⟩ := h.put c (List.mem_of_getElem? hi)
  obtain ⟨hstep, hc'⟩ := c.step_ok (n := n) h.sound h.whole hc hv
  -- Whoever else writes the same blob was there before, and then this step is not allowed.
  have hother : ∀ (j : Nat) (b : PutCall), j ≠ i → w.puts[j]? = some b → c.Touches → b.kind = c.kind →
      ¬ b.IsWriting := by
    intro j b hj hb htouch hkind hwriting
    rcases htouch with hmade | hwriting'
    · exact he c hi hmade b (List.mem_of_getElem? hb) hkind hwriting
    · exact hj (h.alone j i b c hb hi hkind hwriting hwriting')
  refine ⟨hstep.sound, hstep.whole, fun b hmem => ?_, fun g hg => (h.get g hg).frame hstep.frame,
    fun j l a b ha hb hkind hwa hwb => ?_⟩
  · obtain ⟨j, hj⟩ := List.mem_iff_getElem?.mp hmem
    rcases getElem?_set_cases hj with ⟨-, rfl⟩ | ⟨hne, hj⟩
    · exact ⟨hc', by rwa [PutCall.kind_step, PutCall.bytes_step]⟩
    · obtain ⟨hok, hval⟩ := h.put b (List.mem_of_getElem? hj)
      exact ⟨hok.frame h.sound hstep.frame fun ht => hother j b hne hj ht.1 ht.2, hval⟩
  · rcases getElem?_set_cases ha with ⟨hji, rfl⟩ | ⟨hji, ha⟩ <;>
      rcases getElem?_set_cases hb with ⟨hli, rfl⟩ | ⟨hli, hb⟩
    · exact hji.trans hli.symm
    · rw [PutCall.kind_step] at hkind
      exact absurd hwb (hother l b hli hb (PutCall.isWriting_of_step hwa) hkind.symm)
    · rw [PutCall.kind_step] at hkind
      exact absurd hwa (hother j a hji ha (PutCall.isWriting_of_step hwb) hkind)
    · exact h.alone j l a b ha hb hkind hwa hwb

theorem Intact.step_get (h : Intact F s Val w) {i n : Nat} {g : GetCall} (hi : w.gets[i]? = some g) :
    Intact F s Val (w.step F s (.get i n)) := by
  rw [World.step_get hi]
  refine ⟨h.sound, h.whole, h.put, fun g' hmem => ?_, h.alone⟩
  obtain ⟨j, hj⟩ := List.mem_iff_getElem?.mp hmem
  rcases getElem?_set_cases hj with ⟨-, rfl⟩ | ⟨-, hj⟩
  · exact GetCall.step_ok h.sound h.whole (h.get g (List.mem_of_getElem? hi))
  · exact h.get g' (List.mem_of_getElem? hj)

theorem Intact.step_crash (h : Intact F s Val w) : Intact F s Val (w.step F s .crash) := by
  refine ⟨h.sound, h.whole, fun c' hmem => ?_, fun g' hmem => ?_, fun i j a b ha _ _ hwa _ => ?_⟩
  · obtain ⟨c, hc, rfl⟩ := List.mem_map.mp hmem
    rw [PutCall.kind_crash, PutCall.bytes_crash]
    exact ⟨(h.put c hc).1.crash, (h.put c hc).2⟩
  · obtain ⟨g, hg, rfl⟩ := List.mem_map.mp hmem
    exact GetOk.crash (h.get g hg)
  · obtain ⟨c, -, rfl⟩ := List.mem_map.mp (List.mem_of_getElem? ha)
    exact absurd hwa c.not_isWriting_crash

theorem Intact.step (h : Intact F s Val w) {e : Event} (he : Allowed w e) : Intact F s Val (w.step F s e) := by
  cases e with
  | put i n =>
    cases hi : w.puts[i]? with
    | none => rwa [World.step_put_of_none hi]
    | some c => exact h.step_put he hi
  | get i n =>
    cases hi : w.gets[i]? with
    | none => rwa [World.step_get_of_none hi]
    | some g => exact h.step_get hi
  | crash => exact h.step_crash

theorem Intact.run (h : Intact F s Val w) {events : List Event} (he : AllowedRun F s w events) :
    Intact F s Val (w.run F s events) := by
  induction events generalizing w with
  | nil => exact h
  | cons e events ih => exact ih (h.step he.1) he.2

/-- From here on a `get` finds the blob: it is there, and the `get` has not failed. -/
structure Finds (F : TextForms) (s : FsBlobStore) (w : World) (j : Nat) (k : BlobKind) : Prop where
  present : ∃ i, w.disk.names (s.pathFor F k) = some i
  get : ∀ g, w.gets[j]? = some g → g.kind = k ∧ ∀ e, g.phase ≠ .returned (.error e)

theorem GetCall.step_ne_error {d : Disk} {n : Nat} {g : GetCall} {i : Nat}
    (hi : d.names (s.pathFor F g.kind) = some i) (h : ∀ e, g.phase ≠ .returned (.error e)) (e : BlobError) :
    (g.step F s n d).phase ≠ .returned (.error e) := by
  obtain ⟨k, phase⟩ := g
  cases phase with
  | idle =>
    simp only [step, Disk.openRead_of_some hi]
    exact GetPhase.noConfusion
  | reading i read =>
    simp only [step]
    split
    · rintro ⟨⟩
    · rintro ⟨⟩
  | returned r => exact h e
  | crashed => exact GetPhase.noConfusion

theorem GetCall.kind_crash (g : GetCall) : g.crash.kind = g.kind := by
  obtain ⟨k, phase⟩ := g
  cases phase <;> rfl

theorem GetCall.crash_ne_error {g : GetCall} (h : ∀ e, g.phase ≠ .returned (.error e)) (e : BlobError) :
    g.crash.phase ≠ .returned (.error e) := by
  obtain ⟨k, phase⟩ := g
  cases phase <;> first | exact h e | nofun

theorem Finds.step (hw : Intact F s Val w) {j : Nat} {k : BlobKind} (h : Finds F s w j k) (e : Event) :
    Finds F s (w.step F s e) j k := by
  obtain ⟨l, hl⟩ := h.present
  cases e with
  | put i n =>
    cases hi : w.puts[i]? with
    | none => rwa [World.step_put_of_none hi]
    | some c =>
      rw [World.step_put hi]
      obtain ⟨hc, hv⟩ := hw.put c (List.mem_of_getElem? hi)
      exact ⟨(c.step_ok hw.sound hw.whole hc hv).1.frame.present k l hl, h.get⟩
  | get i n =>
    cases hi : w.gets[i]? with
    | none => rwa [World.step_get_of_none hi]
    | some g =>
      rw [World.step_get hi]
      refine ⟨⟨l, hl⟩, fun g' hg' => ?_⟩
      rcases getElem?_set_cases hg' with ⟨rfl, rfl⟩ | ⟨-, hg'⟩
      · obtain ⟨rfl, hne⟩ := h.get g hi
        exact ⟨GetCall.kind_step, GetCall.step_ne_error hl hne⟩
      · exact h.get g' hg'
  | crash =>
    refine ⟨⟨l, hl⟩, fun g' hg' => ?_⟩
    change (w.gets.map GetCall.crash)[j]? = some g' at hg'
    rw [List.getElem?_map, Option.map_eq_some_iff] at hg'
    obtain ⟨g, hg, rfl⟩ := hg'
    obtain ⟨hkind, hne⟩ := h.get g hg
    exact ⟨by rw [GetCall.kind_crash, hkind], GetCall.crash_ne_error hne⟩

theorem Finds.run (hw : Intact F s Val w) {j : Nat} {k : BlobKind} (h : Finds F s w j k) {events : List Event}
    (he : AllowedRun F s w events) : Finds F s (w.run F s events) j k := by
  induction events generalizing w with
  | nil => exact h
  | cons e events ih => exact ih (hw.step he.1) (h.step hw e) he.2

theorem allowedRun_append {events later : List Event} :
    AllowedRun F s w (events ++ later) ↔ AllowedRun F s w events ∧ AllowedRun F s (w.run F s events) later := by
  induction events generalizing w with
  | nil => exact ⟨fun h => ⟨trivial, h⟩, And.right⟩
  | cons e events ih =>
    show _ ∧ AllowedRun F s (w.step F s e) (events ++ later) ↔ _
    rw [ih, ← and_assoc]
    rfl

end Runs

/-- Nothing was put yet: the root holds no entry, no file is in its way, and no call was made. -/
structure Initial (s : FsBlobStore) (w : World) : Prop where
  files : ∀ q i, w.disk.names q = some i → ¬ q <+: s.root ∧ ¬ s.root <+: q ∧ i < w.disk.fresh
  dirs : ∀ q ∈ w.disk.dirs, s.root <+: q → q = s.root
  put : ∀ c ∈ w.puts, c.phase = .idle
  get : ∀ g ∈ w.gets, g.phase = .idle

theorem Initial.intact {Val : BlobKind → List UInt8 → Prop} {w : World} (h : Initial s w)
    (hv : ∀ c ∈ w.puts, Val c.kind c.bytes) : Intact F s Val w where
  sound := {
    outside := fun q i hi => (h.files q i hi).1
    inside := fun q i hi hroot => absurd hroot (h.files q i hi).2.1
    dirs := fun q hq hroot => by
      refine ⟨.log ⟨0⟩ 0, h.dirs q hq hroot ▸ ?_⟩
      rw [pathFor_eq, BlobKind.segments, List.dropLast_append_of_ne_nil (List.cons_ne_nil _ _)]
      exact List.prefix_append ..
    lt_fresh := fun q i hi => (h.files q i hi).2.2
    inj := fun q _ i hroot _ hi _ => absurd hroot (h.files q i hi).2.1 }
  whole k i hi := absurd root_prefix_pathFor (h.files _ i hi).2.1
  put c hc := by
    refine ⟨?_, hv c hc⟩
    rw [PutOk, h.put c hc]
    trivial
  get g hg := by
    rw [GetOk, h.get g hg]
    trivial
  alone i j a b ha _ _ hwa _ := by
    obtain ⟨l, rest, hphase⟩ := hwa
    rw [h.put a (List.mem_of_getElem? ha)] at hphase
    cases hphase

/-- **While no `put` opens the temporary file of another one of the same blob, a `get` returns `NotFound` or the whole
blob, a `put` that returns succeeds, every `put` and every `get` comes nearer to its end with each of its steps, and a
`get` made after a `put` returned finds the blob.** How far a call is from its end only its own steps change. -/
theorem blobs_whole (F : TextForms) (s : FsBlobStore) (w : World) (hw : Initial s w)
    (bytesOf : BlobKind → List UInt8) (hsame : ∀ c ∈ w.puts, c.bytes = bytesOf c.kind) (events later : List Event)
    (hallowed : AllowedRun F s w (events ++ later)) :
    (∀ g ∈ (w.run F s events).gets, ∀ r, g.phase = .returned r →
      r = .error (.notFound (g.kind.key F)) ∨ r = .ok (bytesOf g.kind)) ∧
    (∀ g ∈ (w.run F s events).gets, ∀ n, let size := fun k => (bytesOf k).length
      (g.remaining size = 0 → g.phase = .crashed ∨ ∃ r, g.phase = .returned r) ∧
      (g.remaining size ≠ 0 → (g.step F s n (w.run F s events).disk).remaining size < g.remaining size)) ∧
    (∀ c ∈ (w.run F s events).puts, ∀ r, c.phase = .returned r → r = .ok (s.uri F c.kind)) ∧
    (∀ c ∈ (w.run F s events).puts, ∀ n, (c.remaining = 0 → c.phase = .crashed ∨ ∃ r, c.phase = .returned r) ∧
      (c.remaining ≠ 0 → (c.step F s n (w.run F s events).disk).2.remaining < c.remaining)) ∧
    ∀ c ∈ (w.run F s events).puts, (∃ r, c.phase = .returned r) →
      ∀ (j : Nat) (g g' : GetCall), (w.run F s events).gets[j]? = some g → g.kind = c.kind → g.phase = .idle →
        ((w.run F s events).run F s later).gets[j]? = some g' → ∀ r, g'.phase = .returned r →
          r = .ok (bytesOf c.kind) := by
  obtain ⟨hevents, hlater⟩ := allowedRun_append.mp hallowed
  have hintact : Intact F s (fun k bytes => bytes = bytesOf k) (w.run F s events) := (hw.intact hsame).run hevents
  have hget : ∀ {w' : World}, Intact F s (fun k bytes => bytes = bytesOf k) w' → ∀ g ∈ w'.gets, ∀ r,
      g.phase = .returned r → r = .error (.notFound (g.kind.key F)) ∨ r = .ok (bytesOf g.kind) := by
    intro w' hw' g hg r hr
    have hok := hw'.get g hg
    rw [GetOk, hr] at hok
    rcases hok with herr | ⟨bytes, rfl, hok⟩
    · exact Or.inl herr
    · exact Or.inr hok
  have hput : ∀ c ∈ (w.run F s events).puts, ∀ r, c.phase = .returned r →
      r = .ok (s.uri F c.kind) ∧ ∃ i, (w.run F s events).disk.names (s.pathFor F c.kind) = some i := by
    intro c hc r hr
    have hok := (hintact.put c hc).1
    rwa [PutOk, hr] at hok
  refine ⟨hget hintact, fun g hg n => ⟨GetCall.ended_of_remaining, fun h => ?_⟩,
    fun c hc r hr => (hput c hc r hr).1, fun c _ n => ⟨PutCall.ended_of_remaining, fun h => ?_⟩,
    fun c hc hr j g g' hg hkind hidle hg' r hr' => ?_⟩
  · refine GetCall.remaining_step_lt h fun i read hphase => ?_
    obtain ⟨-, -, hbytes, -⟩ := (hintact.get g hg).reading hphase
    rw [hbytes]
  · exact PutCall.remaining_step_lt h
  · obtain ⟨r₀, hr₀⟩ := hr
    have hfinds : Finds F s (w.run F s events) j c.kind := by
      refine ⟨(hput c hc r₀ hr₀).2, fun a ha => ?_⟩
      obtain rfl : g = a := Option.some.inj (hg.symm.trans ha)
      exact ⟨hkind, fun e he => by rw [hidle] at he; cases he⟩
    obtain ⟨hkind', hne⟩ := (hfinds.run hintact hlater).get g' hg'
    rcases hget (hintact.run hlater) g' (List.mem_of_getElem? hg') r hr' with rfl | rfl
    · exact absurd hr' (hne _)
    · rw [hkind']

/-- A log that is put twice and read twice. -/
def relogWorld : World where
  disk := ⟨[], fun _ => none, fun _ => [], 0⟩
  puts := [⟨.log ⟨0⟩ 1, [0x78, 0x79], .idle⟩, ⟨.log ⟨0⟩ 1, [0x78, 0x79], .idle⟩]
  gets := [⟨.log ⟨0⟩ 1, .idle⟩, ⟨.log ⟨0⟩ 1, .idle⟩]

/-- The first read comes while the log is written. -/
def writeEvents : List Event := [.put 0 1, .put 1 1, .put 0 1, .put 0 1, .get 0 1, .put 0 1, .put 0 1, .put 0 1]

/-- The second read opens the log, the log is put again, and the read goes on. -/
def rewriteEvents : List Event :=
  [.get 1 1, .put 1 1, .get 1 1, .put 1 1, .put 1 1, .put 1 1, .get 1 1, .put 1 1, .get 1 1]

/-- The read that comes too early finds nothing, and the one that is overtaken by the second `put` the whole log. -/
theorem blobs_whole_relog :
    (∃ g ∈ (relogWorld.run .crockford ⟨["var"]⟩ writeEvents).gets, ∃ e, g.phase = .returned (.error e)) ∧
      (∃ g ∈ (relogWorld.run .crockford ⟨["var"]⟩ writeEvents).gets, g.phase = .idle ∧
        (g.step .crockford ⟨["var"]⟩ 1 (relogWorld.run .crockford ⟨["var"]⟩ writeEvents).disk).remaining (fun _ => 2) <
          g.remaining fun _ => 2) ∧
      ∃ g r, ((relogWorld.run .crockford ⟨["var"]⟩ writeEvents).run .crockford ⟨["var"]⟩ rewriteEvents).gets[1]? =
        some g ∧ g.phase = .returned r ∧ r = .ok [0x78, 0x79] := by
  have hputs : (relogWorld.run .crockford ⟨["var"]⟩ writeEvents).puts[0]? =
      some ⟨.log ⟨0⟩ 1, [0x78, 0x79], .returned (.ok "file:///var/logs/00000000000000000000000000/1")⟩ := by
    decide +kernel
  have hgets : (relogWorld.run .crockford ⟨["var"]⟩ writeEvents).gets =
      [⟨.log ⟨0⟩ 1, .returned (.error (.notFound "logs/00000000000000000000000000/1"))⟩, ⟨.log ⟨0⟩ 1, .idle⟩] := by
    decide +kernel
  have hlater : ((relogWorld.run .crockford ⟨["var"]⟩ writeEvents).run .crockford ⟨["var"]⟩ rewriteEvents).gets[1]? =
      some ⟨.log ⟨0⟩ 1, .returned (.ok [0x78, 0x79])⟩ := by decide +kernel
  obtain ⟨-, hmoves, -, -, hfinds⟩ := blobs_whole .crockford ⟨["var"]⟩ relogWorld
    ⟨nofun, nofun, by simp [relogWorld], by simp [relogWorld]⟩ (fun _ => [0x78, 0x79]) (by simp [relogWorld])
    writeEvents rewriteEvents (by decide +kernel)
  have hidle : (⟨.log ⟨0⟩ 1, .idle⟩ : GetCall) ∈ (relogWorld.run .crockford ⟨["var"]⟩ writeEvents).gets := by
    rw [hgets]
    exact List.mem_cons_of_mem _ (List.mem_singleton_self _)
  refine ⟨⟨_, hgets ▸ List.mem_cons_self, _, rfl⟩, ⟨_, hidle, rfl, (hmoves _ hidle 1).2 (by decide)⟩, _, _, hlater,
    rfl, ?_⟩
  exact hfinds _ (List.mem_of_getElem? hputs) ⟨_, rfl⟩ 1 _ _ (by rw [hgets]; rfl) rfl rfl hlater _ rfl

/-! ## Two puts that overlap -/

/-- The SHA-256 of `x`. -/
def sharedHash : Sha256Hash := ⟨"2d711642b726b04401627ca9fbac32f5c8530fb1903cc4db02258717921a4881", by decide⟩

/-- Two learners submit the same source, and it is read. -/
def sharedWorld : World where
  disk := ⟨[], fun _ => none, fun _ => [], 0⟩
  puts := [⟨.source sharedHash, [0x78], .idle⟩, ⟨.source sharedHash, [0x78], .idle⟩]
  gets := [⟨.source sharedHash, .idle⟩]

/-- The second `put` truncates the file that the first one wrote and then renames. -/
def tornEvents : List Event :=
  [.put 0 1, .put 1 1, .put 0 1, .put 0 1, .put 1 1, .put 0 1, .put 0 1, .get 0 1, .get 0 1, .put 1 1, .put 1 1]

/-- From a fresh root and with the same bytes in both, the first `put` succeeds, a later `get` returns no bytes, and
the second `put` fails. -/
theorem torn_run :
    Initial ⟨["var", "judge"]⟩ sharedWorld ∧ (∀ c ∈ sharedWorld.puts, c.bytes = [0x78]) ∧
      (sharedWorld.run .crockford ⟨["var", "judge"]⟩ tornEvents).puts.map PutCall.phase =
        [.returned (.ok ("file:///var/judge/blobs/" ++ sharedHash.asStr)), .returned (.error (.io .notFound))] ∧
      (sharedWorld.run .crockford ⟨["var", "judge"]⟩ tornEvents).gets.map GetCall.phase = [.returned (.ok [])] :=
  ⟨⟨nofun, nofun, by simp [sharedWorld], by simp [sharedWorld]⟩, by simp [sharedWorld], by decide +kernel⟩

end Satunera.Store
