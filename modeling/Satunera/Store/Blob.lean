import Satunera.Base.Disk
import Satunera.Store.Model

/-!
# Blobs on the file system

Sources and logs are files under a root directory. A `put` writes a temporary file and renames it, a `get` reads the
file; both are taken one call to the disk at a time, so that other calls can come between.

* `BlobKind.key`, `FsBlobStore.pathFor`, `FsBlobStore.tmpFor` : where a blob and its temporary file are
  (`pathFor_injective`, `tmpFor_injective`, `tmpFor_ne_pathFor`);
* `PutCall.step`, `GetCall.step` : the next call of a `put` or a `get`, which brings it nearer to its end
  (`PutCall.remaining_step_lt`, `GetCall.remaining_step_lt`);
* `World.step`, `World.run` : any number of them together, with crashes of the process.
-/

namespace Satunera.Store

open Satunera.Base

/-! ## Keys -/

def isHexDigit (c : Char) : Bool := c.isDigit || 'a' ≤ c && c ≤ 'f'

/-- A hex-encoded SHA-256. -/
structure Sha256Hash where
  asStr : String
  isHex : asStr.length = 64 ∧ asStr.toList.all isHexDigit = true
  deriving DecidableEq

/-- Accept an existing lowercase hex digest. -/
def Sha256Hash.fromHex (value : String) : Option Sha256Hash :=
  if h : value.length = 64 ∧ value.toList.all isHexDigit = true then some ⟨value, h⟩ else none

/-- What kind of bytes, which decides the key namespace. -/
inductive BlobKind
  | source (hash : Sha256Hash)
  | log (submission : SubmissionId) (attempt : UInt32)
  deriving DecidableEq

/-- `blobs/<hash>` or `logs/<submission_id>/<attempt>`. -/
def BlobKind.key (F : TextForms) : BlobKind → String
  | source hash => "blobs/" ++ hash.asStr
  | log submission attempt => "logs/" ++ F.ulid submission.ulid ++ "/" ++ attempt.toNat.repr

/-- A file name up to its last dot, if that is not its first letter. -/
def fileStem (name : String) : String :=
  match (name.toList.reverse.dropWhile (· ≠ '.')).drop 1 with
  | [] => name
  | stem => String.ofList stem.reverse

/-- `Path::with_extension` -/
def withExtension (path : Location) (extension : String) : Location :=
  match path.getLast? with
  | some name => path.dropLast ++ [fileStem name ++ "." ++ extension]
  | none => path

structure FsBlobStore where
  root : Location

namespace FsBlobStore

def pathFor (F : TextForms) (s : FsBlobStore) (kind : BlobKind) : Location := s.root ++ splitSlash (kind.key F)

/-- The temporary file of a `put`. -/
def tmpFor (F : TextForms) (s : FsBlobStore) (kind : BlobKind) : Location := withExtension (s.pathFor F kind) "tmp"

def uri (F : TextForms) (s : FsBlobStore) (kind : BlobKind) : String :=
  "file://" ++ "/" ++ joinSlash (s.pathFor F kind)

end FsBlobStore

/-! ## Where blobs are -/

section Layout
variable {F : TextForms} {s : FsBlobStore} {k l : BlobKind}

/-- The segments of a key. -/
def BlobKind.segments (F : TextForms) : BlobKind → List String
  | source hash => ["blobs", hash.asStr]
  | log submission attempt => ["logs", F.ulid submission.ulid, attempt.toNat.repr]

/-- The segments of a temporary file. -/
def BlobKind.tmpSegments (F : TextForms) : BlobKind → List String
  | source hash => ["blobs", hash.asStr ++ "." ++ "tmp"]
  | log submission attempt => ["logs", F.ulid submission.ulid, attempt.toNat.repr ++ "." ++ "tmp"]

theorem isAlphanum_of_hash {h : Sha256Hash} {c : Char} (hc : c ∈ h.asStr.toList) : c.isAlphanum = true := by
  have hhex := List.all_eq_true.mp h.isHex.2 c hc
  simp only [isHexDigit, Bool.or_eq_true, Bool.and_eq_true, decide_eq_true_eq] at hhex
  simp only [Char.isAlphanum, Char.isAlpha, Char.isLower, Bool.or_eq_true, Bool.and_eq_true, decide_eq_true_eq]
  rcases hhex with hdigit | ⟨hlo, hhi⟩
  · exact Or.inr hdigit
  · exact Or.inl (Or.inr ⟨hlo, hhi.trans (by decide)⟩)

theorem isAlphanum_of_repr {n : Nat} {c : Char} (hc : c ∈ n.repr.toList) : c.isAlphanum = true := by
  rw [Nat.repr_eq_ofList_toDigits, String.toList_ofList] at hc
  rw [Char.isAlphanum, Nat.isDigit_of_mem_toDigits (by decide) (by decide) hc, Bool.or_true]

theorem not_mem_of_isAlphanum {cs : List Char} (h : ∀ c ∈ cs, c.isAlphanum = true) {c : Char}
    (hc : c.isAlphanum = false) : c ∉ cs := fun hmem => by
  rw [h c hmem] at hc
  cases hc

theorem BlobKind.isAlphanum_of_segments {segment : String} (h : segment ∈ k.segments F) {c : Char}
    (hc : c ∈ segment.toList) : c.isAlphanum = true := by
  have hblobs : ∀ c ∈ "blobs".toList, c.isAlphanum = true := List.all_eq_true.mp (by decide)
  have hlogs : ∀ c ∈ "logs".toList, c.isAlphanum = true := List.all_eq_true.mp (by decide)
  cases k with
  | source hash =>
    rcases List.mem_pair.mp h with rfl | rfl
    · exact hblobs c hc
    · exact isAlphanum_of_hash hc
  | log submission attempt =>
    simp only [segments, List.mem_cons, List.not_mem_nil, or_false] at h
    rcases h with rfl | rfl | rfl
    · exact hlogs c hc
    · exact F.ulid_alphanumeric _ c hc
    · exact isAlphanum_of_repr hc

theorem BlobKind.key_eq_joinSlash (k : BlobKind) : k.key F = joinSlash (k.segments F) := by
  rw [← String.toList_inj]
  cases k <;> simp [key, segments, joinSlash, List.intercalate]

theorem FsBlobStore.pathFor_eq (k : BlobKind) : s.pathFor F k = s.root ++ k.segments F := by
  rw [pathFor, BlobKind.key_eq_joinSlash, splitSlash_joinSlash (by cases k <;> exact List.cons_ne_nil _ _)]
  exact fun segment h => not_mem_of_isAlphanum (fun c hc => BlobKind.isAlphanum_of_segments h hc) (by decide)

theorem fileStem_of_no_dot {name : String} (h : '.' ∉ name.toList) : fileStem name = name := by
  have hdrop : name.toList.reverse.dropWhile (· ≠ '.') = [] := by
    rw [List.dropWhile_eq_nil_iff]
    intro c hc
    simp only [ne_eq, decide_not, Bool.not_eq_true', decide_eq_false_iff_not]
    rintro rfl
    exact h (List.mem_reverse.mp hc)
  rw [fileStem, hdrop, List.drop_nil]

theorem FsBlobStore.tmpFor_eq (k : BlobKind) : s.tmpFor F k = s.root ++ k.tmpSegments F := by
  have hdot : ∀ segment ∈ k.segments F, '.' ∉ segment.toList := fun segment h =>
    not_mem_of_isAlphanum (fun c hc => BlobKind.isAlphanum_of_segments h hc) (by decide)
  rw [tmpFor, pathFor_eq, withExtension]
  cases k with
  | source hash =>
    simp only [BlobKind.segments, List.mem_cons, List.not_mem_nil, or_false, forall_eq_or_imp, forall_eq] at hdot
    simp [BlobKind.segments, BlobKind.tmpSegments, fileStem_of_no_dot hdot.2]
  | log submission attempt =>
    simp only [BlobKind.segments, List.mem_cons, List.not_mem_nil, or_false, forall_eq_or_imp, forall_eq] at hdot
    simp [BlobKind.segments, BlobKind.tmpSegments, fileStem_of_no_dot hdot.2.2]

namespace FsBlobStore

theorem pathFor_injective (h : s.pathFor F k = s.pathFor F l) : k = l := by
  rw [pathFor_eq, pathFor_eq, List.append_cancel_left_eq] at h
  cases k with
  | source hash =>
    cases l with
    | source hash' =>
      simp only [BlobKind.segments, List.cons.injEq, and_true, true_and] at h
      cases hash; cases hash'; cases h; rfl
    | log submission attempt => simp [BlobKind.segments] at h
  | log submission attempt =>
    cases l with
    | source hash => simp [BlobKind.segments] at h
    | log submission' attempt' =>
      simp only [BlobKind.segments, List.cons.injEq, and_true, true_and] at h
      have hid := F.ulid_injective h.1
      have hattempt := UInt32.toNat_inj.mp (Nat.repr_injective h.2)
      cases submission; cases submission'; cases hid; cases hattempt; rfl

/-- Where a temporary file is determines where the blob is. -/
theorem tmpFor_injective (h : s.tmpFor F k = s.tmpFor F l) : k = l := by
  apply pathFor_injective (F := F) (s := s)
  rw [tmpFor_eq, tmpFor_eq, List.append_cancel_left_eq] at h
  rw [pathFor_eq, pathFor_eq, List.append_cancel_left_eq]
  cases k with
  | source hash =>
    cases l with
    | source hash' => simpa [BlobKind.segments, BlobKind.tmpSegments] using h
    | log submission attempt => simp [BlobKind.tmpSegments] at h
  | log submission attempt =>
    cases l with
    | source hash => simp [BlobKind.tmpSegments] at h
    | log submission' attempt' => simpa [BlobKind.segments, BlobKind.tmpSegments] using h

theorem tmpFor_ne_pathFor : s.tmpFor F k ≠ s.pathFor F l := by
  intro h
  rw [tmpFor_eq, pathFor_eq, List.append_cancel_left_eq] at h
  have hdot : ∃ segment ∈ k.tmpSegments F, '.' ∈ segment.toList := by
    cases k <;> simp [BlobKind.tmpSegments]
  obtain ⟨segment, hs, hc⟩ := hdot
  rw [h] at hs
  have := BlobKind.isAlphanum_of_segments hs hc
  cases this

theorem root_prefix_pathFor : s.root <+: s.pathFor F k := pathFor_eq (F := F) (s := s) k ▸ List.prefix_append ..

theorem root_prefix_tmpFor : s.root <+: s.tmpFor F k := tmpFor_eq (F := F) (s := s) k ▸ List.prefix_append ..

theorem pathFor_not_prefix_root : ¬ s.pathFor F k <+: s.root := by
  intro h
  have := h.length_le
  rw [pathFor_eq, List.length_append] at this
  cases k <;> simp [BlobKind.segments] at this

theorem tmpFor_not_prefix_root : ¬ s.tmpFor F k <+: s.root := by
  intro h
  have := h.length_le
  rw [tmpFor_eq, List.length_append] at this
  cases k <;> simp [BlobKind.tmpSegments] at this

/-- A temporary file is beside its blob. -/
theorem dropLast_tmpFor : (s.tmpFor F k).dropLast = (s.pathFor F k).dropLast := by
  rw [tmpFor_eq, pathFor_eq]
  cases k <;> simp [BlobKind.segments, BlobKind.tmpSegments, List.dropLast_append_of_ne_nil]

/-- No blob is where another one has its directory. -/
theorem pathFor_not_prefix : ¬ s.pathFor F k <+: (s.pathFor F l).dropLast := by
  rw [pathFor_eq, pathFor_eq, List.dropLast_append_of_ne_nil (by cases l <;> exact List.cons_ne_nil _ _),
    List.prefix_append_right_inj]
  cases k <;> cases l <;> simp [BlobKind.segments]

theorem tmpFor_not_prefix : ¬ s.tmpFor F k <+: (s.pathFor F l).dropLast := by
  rw [tmpFor_eq, pathFor_eq, List.dropLast_append_of_ne_nil (by cases l <;> exact List.cons_ne_nil _ _),
    List.prefix_append_right_inj]
  cases k <;> cases l <;> simp [BlobKind.segments, BlobKind.tmpSegments]

end FsBlobStore

end Layout

/-! ## Calls -/

inductive BlobError
  | notFound (key : String)
  | io (source : IoKind)
  deriving DecidableEq

inductive PutPhase
  | idle
  /-- The directory is there. -/
  | made
  /-- The temporary file is open and `rest` is still to be written. -/
  | writing (inode : Nat) (rest : List UInt8)
  | renamed
  | returned (result : Except BlobError String)
  | crashed
  deriving DecidableEq

structure PutCall where
  kind : BlobKind
  bytes : List UInt8
  phase : PutPhase
  deriving DecidableEq

inductive GetPhase
  | idle
  /-- The file is open and `read` was read from it. -/
  | reading (inode : Nat) (read : List UInt8)
  | returned (result : Except BlobError (List UInt8))
  | crashed
  deriving DecidableEq

structure GetCall where
  kind : BlobKind
  phase : GetPhase
  deriving DecidableEq

section Calls
variable (F : TextForms) (s : FsBlobStore)

/-- The next call of a `put`; a write takes up to `n` bytes, and one at least. -/
def PutCall.step (n : Nat) (d : Disk) (c : PutCall) : Disk × PutCall :=
  match c.phase with
  | .idle =>
    match d.createDirAll (s.pathFor F c.kind).dropLast with
    | .ok d' => (d', { c with phase := .made })
    | .error e => (d, { c with phase := .returned (.error (.io e)) })
  | .made =>
    match d.openWrite (s.tmpFor F c.kind) with
    | .ok (d', i) => (d', { c with phase := .writing i c.bytes })
    | .error e => (d, { c with phase := .returned (.error (.io e)) })
  | .writing _ [] =>
    match d.rename (s.tmpFor F c.kind) (s.pathFor F c.kind) with
    | .ok d' => (d', { c with phase := .renamed })
    | .error e => (d, { c with phase := .returned (.error (.io e)) })
  | .writing i (b :: rest) =>
    (d.append i (b :: rest.take (n - 1)), { c with phase := .writing i (rest.drop (n - 1)) })
  | .renamed => (d, { c with phase := .returned (.ok (s.uri F c.kind)) })
  | .returned _ | .crashed => (d, c)

/-- The next call of a `get`; a read takes up to `n` bytes, and one at least, until there are none left. -/
def GetCall.step (n : Nat) (d : Disk) (c : GetCall) : GetCall :=
  match c.phase with
  | .idle =>
    match d.openRead (s.pathFor F c.kind) with
    | .ok i => { c with phase := .reading i [] }
    | .error .notFound => { c with phase := .returned (.error (.notFound (c.kind.key F))) }
    | .error e => { c with phase := .returned (.error (.io e)) }
  | .reading i read =>
    match (d.contents i).drop read.length with
    | [] => { c with phase := .returned (.ok read) }
    | b :: rest => { c with phase := .reading i (read ++ b :: rest.take (n - 1)) }
  | .returned _ | .crashed => c

variable {F s} {n : Nat} {d : Disk}

@[simp] theorem PutCall.kind_step {c : PutCall} : (c.step F s n d).2.kind = c.kind := by
  unfold step
  split <;> try split
  all_goals rfl

@[simp] theorem PutCall.bytes_step {c : PutCall} : (c.step F s n d).2.bytes = c.bytes := by
  unfold step
  split <;> try split
  all_goals rfl

@[simp] theorem GetCall.kind_step {c : GetCall} : (c.step F s n d).kind = c.kind := by
  unfold step
  split <;> try split
  all_goals rfl

/-- How many steps of its own a `put` may still need. -/
def PutCall.remaining (c : PutCall) : Nat :=
  match c.phase with
  | .idle => c.bytes.length + 4
  | .made => c.bytes.length + 3
  | .writing _ rest => rest.length + 2
  | .renamed => 1
  | .returned _ | .crashed => 0

theorem PutCall.ended_of_remaining {c : PutCall} (h : c.remaining = 0) :
    c.phase = .crashed ∨ ∃ r, c.phase = .returned r := by
  obtain ⟨kind, bytes, phase⟩ := c
  cases phase with
  | returned r => exact Or.inr ⟨r, rfl⟩
  | crashed => exact Or.inl rfl
  | _ => cases h

theorem PutCall.remaining_step_lt {c : PutCall} (h : c.remaining ≠ 0) :
    (c.step F s n d).2.remaining < c.remaining := by
  obtain ⟨kind, bytes, phase⟩ := c
  cases phase with
  | idle =>
    simp only [step]
    split <;> simp only [remaining] <;> omega
  | made =>
    simp only [step]
    split <;> simp only [remaining] <;> omega
  | writing i rest =>
    cases rest with
    | nil =>
      simp only [step]
      split <;> simp only [remaining, List.length_nil] <;> omega
    | cons b rest =>
      simp only [step, remaining, List.length_drop, List.length_cons]
      omega
  | renamed => exact Nat.zero_lt_one
  | returned r => exact absurd rfl h
  | crashed => exact absurd rfl h

/-- How many steps of its own a `get` may still need, where the blobs are of at most this size. -/
def GetCall.remaining (size : BlobKind → Nat) (g : GetCall) : Nat :=
  match g.phase with
  | .idle => size g.kind + 2
  | .reading _ read => size g.kind - read.length + 1
  | .returned _ | .crashed => 0

theorem GetCall.ended_of_remaining {size : BlobKind → Nat} {g : GetCall} (h : g.remaining size = 0) :
    g.phase = .crashed ∨ ∃ r, g.phase = .returned r := by
  obtain ⟨kind, phase⟩ := g
  cases phase with
  | returned r => exact Or.inr ⟨r, rfl⟩
  | crashed => exact Or.inl rfl
  | _ => cases h

/-- A read takes one byte at least. -/
theorem GetCall.remaining_step_lt {size : BlobKind → Nat} {g : GetCall} (h : g.remaining size ≠ 0)
    (hsize : ∀ i read, g.phase = .reading i read → (d.contents i).length ≤ size g.kind) :
    (g.step F s n d).remaining size < g.remaining size := by
  obtain ⟨kind, phase⟩ := g
  cases phase with
  | idle =>
    simp only [step]
    split <;> simp only [remaining, List.length_nil] <;> omega
  | reading i read =>
    have hle : (d.contents i).length ≤ size kind := hsize i read rfl
    simp only [step]
    cases hdrop : (d.contents i).drop read.length with
    | nil => exact Nat.succ_pos _
    | cons b rest =>
      have hlt : read.length < (d.contents i).length := by
        by_contra hge
        rw [List.drop_eq_nil_of_le (not_lt.mp hge)] at hdrop
        cases hdrop
      simp only [remaining, List.length_append, List.length_cons]
      omega
  | returned r => exact absurd rfl h
  | crashed => exact absurd rfl h

end Calls

/-- What a crash of the process leaves of a `put`. -/
def PutCall.crash (c : PutCall) : PutCall :=
  match c.phase with
  | .idle | .returned _ => c
  | _ => { c with phase := .crashed }

/-- What a crash of the process leaves of a `get`. -/
def GetCall.crash (c : GetCall) : GetCall :=
  match c.phase with
  | .idle | .returned _ => c
  | _ => { c with phase := .crashed }

/-! ## Any number of calls together -/

structure World where
  disk : Disk
  puts : List PutCall
  gets : List GetCall

/-- One call moves on, or the process crashes. -/
inductive Event
  | put (i n : Nat)
  | get (i n : Nat)
  | crash

section World
variable (F : TextForms) (s : FsBlobStore)

def World.step (w : World) : Event → World
  | .put i n =>
    match w.puts[i]? with
    | some c => { w with disk := (c.step F s n w.disk).1, puts := w.puts.set i (c.step F s n w.disk).2 }
    | none => w
  | .get i n =>
    match w.gets[i]? with
    | some c => { w with gets := w.gets.set i (c.step F s n w.disk) }
    | none => w
  | .crash => { w with puts := w.puts.map PutCall.crash, gets := w.gets.map GetCall.crash }

def World.run (w : World) (events : List Event) : World := events.foldl (World.step F s) w

variable {F s} {w : World} {i n : Nat}

theorem World.step_put {c : PutCall} (h : w.puts[i]? = some c) : w.step F s (.put i n) =
    { w with disk := (c.step F s n w.disk).1, puts := w.puts.set i (c.step F s n w.disk).2 } := by
  simp only [step, h]

theorem World.step_put_of_none (h : w.puts[i]? = none) : w.step F s (.put i n) = w := by simp only [step, h]

theorem World.step_get {g : GetCall} (h : w.gets[i]? = some g) : w.step F s (.get i n) =
    { w with gets := w.gets.set i (g.step F s n w.disk) } := by
  simp only [step, h]

theorem World.step_get_of_none (h : w.gets[i]? = none) : w.step F s (.get i n) = w := by simp only [step, h]

end World

end Satunera.Store
