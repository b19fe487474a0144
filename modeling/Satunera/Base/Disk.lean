import Satunera.Base.FileTree

/-!
# A disk that is written to

File names lead to inodes and inodes hold bytes, so that an open file stays open while its name is moved or its bytes
are replaced. There are directories and regular files on the disk, and no symbolic links.

* `Disk.createDirAll`, `Disk.openWrite`, `Disk.append`, `Disk.rename`, `Disk.openRead` : the calls;
* `Disk.Within` : what is left alone by calls that use some names only;
* `createDirAll_of_not_blocked`, `openWrite_of_some`, `openWrite_of_none`, `rename_of_some`, `openRead_of_none` : what
  they do where nothing is in the way.
-/

namespace Satunera.Base

structure Disk where
  /-- The directories besides the root of the file system. -/
  dirs : List Location
  /-- The inode of a file. -/
  names : Location → Option Nat
  contents : Nat → List UInt8
  /-- No inode from here on was ever in use. -/
  fresh : Nat

namespace Disk

def IsDir (d : Disk) (p : Location) : Prop := p = [] ∨ p ∈ d.dirs

instance (d : Disk) (p : Location) : Decidable (d.IsDir p) := inferInstanceAs (Decidable (_ ∨ _))

/-- A file stands where a path needs a directory. -/
def Blocked (d : Disk) (p : Location) : Prop := ∃ q ∈ p.inits, (d.names q).isSome

instance (d : Disk) (p : Location) : Decidable (d.Blocked p) := inferInstanceAs (Decidable (∃ q ∈ p.inits, _))

/-- Create a directory and those above it that are missing. -/
def createDirAll (d : Disk) (p : Location) : Except IoKind Disk :=
  if d.Blocked p.dropLast then .error .notADirectory
  else if (d.names p).isSome then .error .alreadyExists
  else .ok { d with dirs := p.inits ++ d.dirs }

/-- Whether a file can have the name. -/
def checkName (d : Disk) (p : Location) : Except IoKind Unit :=
  if d.Blocked p.dropLast then .error .notADirectory
  else if ¬ d.IsDir p.dropLast then .error .notFound
  else if d.IsDir p then .error .isADirectory
  else .ok ()

/-- Create a file, or truncate it if it is there. -/
def openWrite (d : Disk) (p : Location) : Except IoKind (Disk × Nat) := do
  d.checkName p
  match d.names p with
  | some i => return ({ d with contents := Function.update d.contents i [] }, i)
  | none =>
    return ({ d with
      names := Function.update d.names p (some d.fresh)
      contents := Function.update d.contents d.fresh []
      fresh := d.fresh + 1 }, d.fresh)

/-- Append to an open file. -/
def append (d : Disk) (i : Nat) (bytes : List UInt8) : Disk :=
  { d with contents := Function.update d.contents i (d.contents i ++ bytes) }

/-- Move a name, replacing the file that has it. -/
def rename (d : Disk) (src dst : Location) : Except IoKind Disk :=
  match d.names src with
  | none => .error .notFound
  | some i => do
    d.checkName dst
    return { d with names := Function.update (Function.update d.names src none) dst (some i) }

/-- The inode of a file opened for reading. -/
def openRead (d : Disk) (p : Location) : Except IoKind Nat :=
  match d.names p with
  | some i => .ok i
  | none =>
    if d.Blocked p.dropLast then .error .notADirectory
    else if d.IsDir p then .error .isADirectory
    else .error .notFound

section Calls
variable {d : Disk} {p src dst : Location} {i : Nat}

theorem createDirAll_of_not_blocked (h : ¬ d.Blocked p) :
    d.createDirAll p = .ok { d with dirs := p.inits ++ d.dirs } := by
  have habove : ¬ d.Blocked p.dropLast := fun ⟨q, hq, hsome⟩ =>
    h ⟨q, (List.mem_inits _ _).mpr (((List.mem_inits _ _).mp hq).trans (List.dropLast_prefix p)), hsome⟩
  have hfile : ¬ (d.names p).isSome := fun hsome => h ⟨p, (List.mem_inits _ _).mpr List.prefix_rfl, hsome⟩
  rw [createDirAll, if_neg habove, if_neg hfile]

theorem checkName_eq_ok (hblocked : ¬ d.Blocked p.dropLast) (hdir : d.IsDir p.dropLast) (hfile : ¬ d.IsDir p) :
    d.checkName p = .ok () := by
  rw [checkName, if_neg hblocked, if_neg (not_not_intro hdir), if_neg hfile]

theorem openWrite_of_some (hname : d.checkName p = .ok ()) (h : d.names p = some i) :
    d.openWrite p = .ok ({ d with contents := Function.update d.contents i [] }, i) := by
  rw [openWrite, hname, h]
  rfl

theorem openWrite_of_none (hname : d.checkName p = .ok ()) (h : d.names p = none) :
    d.openWrite p = .ok ({ d with
      names := Function.update d.names p (some d.fresh)
      contents := Function.update d.contents d.fresh []
      fresh := d.fresh + 1 }, d.fresh) := by
  rw [openWrite, hname, h]
  rfl

theorem rename_of_some (hname : d.checkName dst = .ok ()) (h : d.names src = some i) :
    d.rename src dst = .ok { d with names := Function.update (Function.update d.names src none) dst (some i) } := by
  rw [rename, h]
  simp only [hname]
  rfl

theorem openRead_of_some (h : d.names p = some i) : d.openRead p = .ok i := by rw [openRead, h]

theorem openRead_of_none (h : d.names p = none) (hblocked : ¬ d.Blocked p.dropLast) (hfile : ¬ d.IsDir p) :
    d.openRead p = .error .notFound := by
  rw [openRead, h]
  simp only [if_neg hblocked, if_neg hfile]

end Calls

/-! ## Disks that differ in some names -/

/-- From `d₀` to `d` only the names in `U` were used, and only directories in `V` were made. -/
structure Within (U V : Location → Prop) (d₀ d : Disk) : Prop where
  names : ∀ p, ¬ U p → d.names p = d₀.names p
  contents : ∀ p i, ¬ U p → d₀.names p = some i → d.contents i = d₀.contents i
  apart : ∀ p q i, ¬ U p → U q → d₀.names p = some i → d.names q ≠ some i
  lt_fresh : ∀ p i, ¬ U p → d₀.names p = some i → i < d.fresh
  kept : ∀ p ∈ d₀.dirs, p ∈ d.dirs
  made : ∀ p ∈ d.dirs, p ∈ d₀.dirs ∨ V p

/-- No name but those in `U` leads to the inode. -/
def Apart (U : Location → Prop) (d₀ : Disk) (i : Nat) : Prop := ∀ p, ¬ U p → d₀.names p ≠ some i

namespace Within
variable {U V : Location → Prop} {d₀ d d' : Disk} {p src dst : Location} {i : Nat}

theorem start (hfresh : ∀ p i, d.names p = some i → i < d.fresh)
    (hlinks : ∀ p q i, ¬ U p → U q → d.names p = some i → d.names q ≠ some i) : Within U V d d :=
  ⟨fun _ _ => rfl, fun _ _ _ _ => rfl, hlinks, fun p i _ => hfresh p i, fun _ h => h, fun _ h => Or.inl h⟩

theorem createDirAll (h : Within U V d₀ d) (hV : ∀ q, q <+: p → V q) (hd : d.createDirAll p = .ok d') :
    Within U V d₀ d' := by
  unfold Disk.createDirAll at hd
  split_ifs at hd
  · cases hd
    refine { h with kept := fun q hq => List.mem_append_right _ (h.kept q hq), made := fun q hq => ?_ }
    rcases List.mem_append.mp hq with hq | hq
    · exact Or.inr (hV q ((List.mem_inits _ _).mp hq))
    · exact h.made q hq

theorem append (h : Within U V d₀ d) (hi : Apart U d₀ i) (bytes : List UInt8) : Within U V d₀ (d.append i bytes) := by
  refine { h with contents := fun q j hq hj => ?_ }
  have hne : j ≠ i := fun he => hi q hq (he ▸ hj)
  exact (Function.update_of_ne hne _ _).trans (h.contents q j hq hj)

theorem openWrite (h : Within U V d₀ d) (hp : U p) (hd : d.openWrite p = .ok (d', i)) :
    Within U V d₀ d' ∧ Apart U d₀ i := by
  unfold Disk.openWrite at hd
  cases hname : d.checkName p with
  | error e =>
    rw [hname] at hd
    cases hd
  | ok =>
    rw [hname] at hd
    cases hi : d.names p with
    | some j =>
      rw [hi] at hd
      cases hd
      have hapart : Apart U d₀ i := fun q hq hj => h.apart q p i hq hp hj hi
      refine ⟨{ h with contents := fun q j hq hj => ?_ }, hapart⟩
      have hne : j ≠ i := fun he => hapart q hq (he ▸ hj)
      exact (Function.update_of_ne hne _ _).trans (h.contents q j hq hj)
    | none =>
      rw [hi] at hd
      cases hd
      have hapart : Apart U d₀ d.fresh := fun q hq hj => lt_irrefl _ (h.lt_fresh q _ hq hj)
      refine ⟨⟨fun q hq => ?_, fun q j hq hj => ?_, fun q r j hq hr hj => ?_, fun q j hq hj => ?_, h.kept, h.made⟩,
        hapart⟩
      · have hne : q ≠ p := fun he => hq (he ▸ hp)
        exact (Function.update_of_ne hne _ _).trans (h.names q hq)
      · exact (Function.update_of_ne (h.lt_fresh q j hq hj).ne _ _).trans (h.contents q j hq hj)
      · by_cases hrp : r = p
        · subst hrp
          show Function.update d.names r (some d.fresh) r ≠ some j
          rw [Function.update_self]
          exact fun he => hapart q hq (Option.some.inj he ▸ hj)
        · show Function.update d.names p (some d.fresh) r ≠ some j
          rw [Function.update_of_ne hrp]
          exact h.apart q r j hq hr hj
      · exact (h.lt_fresh q j hq hj).trans (Nat.lt_succ_self _)

theorem rename (h : Within U V d₀ d) (hsrc : U src) (hdst : U dst) (hd : d.rename src dst = .ok d') :
    Within U V d₀ d' := by
  unfold Disk.rename at hd
  cases hi : d.names src with
  | none =>
    rw [hi] at hd
    cases hd
  | some i =>
    rw [hi] at hd
    cases hname : d.checkName dst with
    | error e =>
      simp only [hname] at hd
      cases hd
    | ok =>
      simp only [hname] at hd
      cases hd
      refine { h with names := fun q hq => ?_, apart := fun q r j hq hr hj => ?_ }
      · have hne : q ≠ dst := fun he => hq (he ▸ hdst)
        have hne' : q ≠ src := fun he => hq (he ▸ hsrc)
        exact (Function.update_of_ne hne _ _).trans ((Function.update_of_ne hne' _ _).trans (h.names q hq))
      · show Function.update (Function.update d.names src none) dst (some i) r ≠ some j
        by_cases hrd : r = dst
        · subst hrd
          rw [Function.update_self]
          exact fun he => h.apart q src j hq hsrc hj (hi.trans he)
        · rw [Function.update_of_ne hrd]
          by_cases hrs : r = src
          · subst hrs
            rw [Function.update_self]
            exact nofun
          · rw [Function.update_of_ne hrs]
            exact h.apart q r j hq hr hj

end Within

end Disk

end Satunera.Base
