import Satunera.Contracts.Agreement
import Satunera.Contracts.Diagnostics

/-!
# The manifest of a source

A problem is loaded from the `problem.json` at the root of its source, a directory on disk or an uploaded archive.

* `loadProblemFrom` : reading and loading it;
* `loadProblemFrom_dir`, `loadProblemFrom_archive` : the file that is loaded;
* `loads_alike_iff` : when the directory and its archive load alike;
* `manifest_named` : whatever goes wrong, the manifest is named first.
-/

namespace Satunera.Contracts

open Satunera.Base

/-- File name that marks a directory as a problem. -/
def problemManifest : String := "problem.json"

theorem names_problemManifest : Names problemManifest ["problem.json"] := by
  have hjoin : problemManifest = joinSlash ["problem.json"] := rfl
  rw [hjoin]
  refine names_joinSlash (List.cons_ne_nil _ _) fun s hs => ?_
  obtain rfl := List.mem_singleton.mp hs
  exact ⟨by decide, by decide, by decide, by decide, by decide, by decide⟩

section Loading
variable (fromSlice : List UInt8 → Except String Json) (v : Validator)

/-- Read and validate the manifest of a source, of which only `read` is called. -/
def loadProblemFrom (read : String → Except SourceError (List UInt8)) : Except ContractError Problem :=
  match read problemManifest with
  | .error e => .error (.source e)
  | .ok bytes => loadProblem fromSlice v bytes

variable {fromSlice v} {read read' : String → Except SourceError (List UInt8)}

theorem loadProblem_ne_source {bytes : List UInt8} {e : SourceError} :
    loadProblem fromSlice v bytes ≠ .error (.source e) := by
  intro h
  cases file_of_load h

theorem loadProblemFrom_eq_ok_iff {p : Problem} : loadProblemFrom fromSlice v read = .ok p ↔
    ∃ bytes, read problemManifest = .ok bytes ∧ loadProblem fromSlice v bytes = .ok p := by
  unfold loadProblemFrom
  cases read problemManifest <;> simp

theorem loadProblemFrom_eq_source_iff {e : SourceError} : loadProblemFrom fromSlice v read = .error (.source e) ↔
    read problemManifest = .error e := by
  unfold loadProblemFrom
  cases read problemManifest with
  | error e' => simp
  | ok bytes => simpa using loadProblem_ne_source

/-! ## The file that is loaded -/

/-- From a directory that is the file that `problem.json` leads to, under the root. -/
theorem loadProblemFrom_dir {t : FileTree} (d : DirSource t) {p : Problem} :
    loadProblemFrom fromSlice v d.read = .ok p ↔ ∃ l mode data, d.LeadsTo problemManifest l ∧
      t.node? l = some (.file mode true data) ∧ loadProblem fromSlice v data = .ok p := by
  rw [loadProblemFrom_eq_ok_iff]
  simp only [DirSource.read_eq_ok_iff]
  constructor
  · rintro ⟨data, ⟨l, mode, hl, hn⟩, hload⟩
    exact ⟨l, mode, data, hl, hn, hload⟩
  · rintro ⟨l, mode, data, hl, hn, hload⟩
    exact ⟨data, ⟨l, mode, hl, hn⟩, hload⟩

/-- From an archive it is the last entry that is named so once its path is normalized. -/
theorem loadProblemFrom_archive {entries : List (String × UInt32 × List UInt8)} {src : TarSource}
    (hsrc : TarSource.fromEntries entries = .ok src) : loadProblemFrom fromSlice v src.read =
      match TarSource.lastEntry entries problemManifest with
      | none => .error (.source (.notFound problemManifest))
      | some e => loadProblem fromSlice v e.data := by
  obtain ⟨-, rfl⟩ := TarSource.fromEntries_eq_ok_iff.mp hsrc
  have hnorm : normalize problemManifest = .ok problemManifest := names_problemManifest.normalize_eq
  unfold loadProblemFrom
  cases he : TarSource.lastEntry entries problemManifest with
  | none => rw [(TarSource.isLastWriter_insertAll.absent _ _ hnorm he).1]
  | some e => rw [(TarSource.isLastWriter_insertAll.found _ _ _ hnorm he).1]

/-! ## Loading alike -/

/-- The same problem or the same error, or no manifest could be read in either. -/
def LoadsAlike (x y : Except ContractError Problem) : Prop :=
  x = y ∨ (∃ e, x = .error (.source e)) ∧ ∃ e, y = .error (.source e)

theorem loadsAlike_of_read (h : (read problemManifest).toOption = (read' problemManifest).toOption) :
    LoadsAlike (loadProblemFrom fromSlice v read) (loadProblemFrom fromSlice v read') := by
  unfold loadProblemFrom
  cases hx : read problemManifest with
  | ok bytes =>
    cases hy : read' problemManifest with
    | ok bytes' =>
      rw [hx, hy] at h
      obtain rfl := Option.some.inj h
      exact Or.inl rfl
    | error e =>
      rw [hx, hy] at h
      cases h
  | error e =>
    cases hy : read' problemManifest with
    | ok bytes =>
      rw [hx, hy] at h
      cases h
    | error e' => exact Or.inr ⟨⟨e, rfl⟩, e', rfl⟩

/-- What is read is never reported as a failure to read. -/
theorem not_loadsAlike {e : SourceError} {bytes : List UInt8} (h : read problemManifest = .error e)
    (h' : read' problemManifest = .ok bytes) :
    ¬ LoadsAlike (loadProblemFrom fromSlice v read) (loadProblemFrom fromSlice v read') := by
  have hload : loadProblemFrom fromSlice v read' = loadProblem fromSlice v bytes := by rw [loadProblemFrom, h']
  rw [hload, loadProblemFrom_eq_source_iff.mpr h]
  rintro (heq | ⟨-, e', he'⟩)
  · exact loadProblem_ne_source heq.symm
  · exact loadProblem_ne_source he'

end Loading

namespace DirSource
variable {t : FileTree} {d : DirSource t}

/-- **A problem loads from its directory as it does from the archive of its files, in any order, exactly if its manifest
is not a file that must not be read or looked up.** -/
theorem loads_alike_iff (h : d.IsPlain) {es : List (String × UInt32 × List UInt8)} (hes : es.Perm d.files) :
    ∃ src, TarSource.fromEntries es = .ok src ∧ ∀ fromSlice v,
      LoadsAlike (loadProblemFrom fromSlice v d.read) (loadProblemFrom fromSlice v src.read) ↔
        ∀ mode readable data, t.node? (d.root ++ ["problem.json"]) = some (.file mode readable data) →
          readable = true ∧ t.Admits d.root "problem.json" := by
  obtain ⟨src, hfrom, hsrc⟩ := h.exists_archive hes
  refine ⟨src, hfrom, fun fromSlice v => ⟨fun halike mode readable data hn => ?_, fun hreadable => ?_⟩⟩
  · have harchive : src.read problemManifest = .ok data :=
      (archive_read_eq_ok_iff h hsrc).mpr ⟨_, mode, readable, names_problemManifest, hn⟩
    cases hdir : d.read problemManifest with
    | error e => exact absurd halike (not_loadsAlike hdir harchive)
    | ok data' =>
      obtain ⟨l, mode', hl, hn'⟩ := read_eq_ok_iff.mp hdir
      obtain ⟨segments, n, hnames, rfl, -, hpasses⟩ := h.leadsTo_iff.mp hl
      obtain rfl := hnames.unique names_problemManifest
      cases hn.symm.trans hn'
      exact ⟨rfl, (FileTree.passes_singleton_iff h.isDir).mp hpasses⟩
  · apply loadsAlike_of_read
    refine (read_agrees_iff h hsrc).mpr fun segments mode readable data hnames hn => ?_
    obtain rfl := hnames.unique names_problemManifest
    rw [FileTree.passes_singleton_iff h.isDir]
    exact hreadable mode readable data hn

/-- A problem with a statement and a scaffold beside its manifest. -/
def problemTree : FileTree where
  entries := ⟨[([], .dir 0o755 true true), (["problem.json"], .file 0o644 true [123, 125]),
    (["README.md"], .file 0o644 true [35]), (["srcs"], .dir 0o755 true true), (["srcs", "rust"], .dir 0o755 true true),
    (["srcs", "rust", "main.rs"], .file 0o644 true [102, 110])], by decide⟩
  linkLimit := 40
  nameLimit := 255
  pathLimit := 4095
  root_dir := by decide
  parent_dir := by decide
  fileName := by decide

def problemDir : DirSource problemTree := ⟨[], FileTree.isReachable_root⟩

theorem isPlain_problemDir : problemDir.IsPlain := by
  refine ⟨⟨_, rfl, rfl⟩, fun l n _ hn => ?_, fun segments n hn => ?_⟩
  · exact (by decide : ∀ e ∈ problemTree.entries.rows, e.2.isSymlink = false) _ (FileTree.node?_eq_some_iff.mp hn)
  · exact (by decide : ∀ e ∈ problemTree.entries.rows, ∀ s ∈ e.1, '\\' ∉ s.toList ∧ ':' ∉ s.toList) _
      (FileTree.node?_eq_some_iff.mp hn)

theorem loads_alike_problemDir : ∃ src, TarSource.fromEntries problemDir.files = .ok src ∧ ∀ fromSlice v,
    LoadsAlike (loadProblemFrom fromSlice v problemDir.read) (loadProblemFrom fromSlice v src.read) := by
  obtain ⟨src, hfrom, halike⟩ := loads_alike_iff isPlain_problemDir (.refl problemDir.files)
  have hfile : problemTree.node? ["problem.json"] = some (.file 0o644 true [123, 125]) := by decide
  refine ⟨src, hfrom, fun fromSlice v => (halike fromSlice v).mpr fun mode readable data hn => ?_⟩
  cases hfile.symm.trans hn
  exact ⟨rfl, by decide +kernel⟩

end DirSource

/-! ## What is named -/

theorem TarSource.path_of_read {src : TarSource} {path key : String} (hnorm : normalize path = .ok key)
    {e : SourceError} (h : src.read path = .error e) : e.path = key := by
  rw [TarSource.read, TarSource.get_of_normalize hnorm] at h
  cases hentry : src.entries[key]? with
  | none =>
    rw [hentry] at h
    cases h
    rfl
  | some entry =>
    rw [hentry] at h
    cases h

theorem DirSource.path_of_resolve {t : FileTree} {d : DirSource t} {path rel : String}
    (hnorm : normalize path = .ok rel) {e : SourceError} (h : d.resolve path = .error e) : e.path = rel := by
  obtain ⟨segments, hnames, rfl⟩ := exists_names hnorm
  rw [resolve_of_names hnames] at h
  split at h
  · cases h
    rfl
  · cases h
    rfl
  · split at h <;> cases h
    rfl

theorem DirSource.path_of_read {t : FileTree} {d : DirSource t} {path rel : String} (hnorm : normalize path = .ok rel)
    {e : SourceError} (h : d.read path = .error e) : e.path = rel := by
  rcases bind_eq_error_iff.mp h with h | ⟨l, -, h⟩
  · exact path_of_resolve hnorm h
  · split at h
    · rw [hnorm] at h
      cases h
      rfl
    · split at h
      · cases h
      · cases h
        rw [hnorm]
        rfl

theorem SourceError.starts_with_path (ioText : IoKind → String) (e : SourceError) :
    e.path.toList <+: (e.display ioText).toList := by
  cases e with
  | notFound path | isDirectory path => exact prefix_append _ _
  | escapes path | io path cause => exact prefix_append_trans (prefix_append _ _) _

section Named
variable {fromSlice : List UInt8 → Except String Json} {v : Validator}
  {read : String → Except SourceError (List UInt8)} {e : ContractError}

theorem starts_with_manifest (ioText : IoKind → String) (deText : DeError → String)
    (hread : ∀ e, read problemManifest = .error e → e.path = problemManifest)
    (h : loadProblemFrom fromSlice v read = .error e) :
    problemManifest.toList <+: (e.display ioText deText).toList := by
  unfold loadProblemFrom at h
  cases hx : read problemManifest with
  | ok bytes =>
    rw [hx] at h
    exact starts_with_file (file_of_load h)
  | error e' =>
    rw [hx] at h
    obtain rfl := Except.error.inj h
    have hstart := e'.starts_with_path ioText
    rwa [hread e' hx] at hstart

end Named

/-- **Whatever keeps a problem from loading, from a directory or from an archive, its manifest is named first.** -/
theorem manifest_named (fromSlice : List UInt8 → Except String Json) (v : Validator) (ioText : IoKind → String)
    (deText : DeError → String) :
    (∀ (t : FileTree) (d : DirSource t) e, loadProblemFrom fromSlice v d.read = .error e →
      problemManifest.toList <+: (e.display ioText deText).toList) ∧
    ∀ (src : TarSource) e, loadProblemFrom fromSlice v src.read = .error e →
      problemManifest.toList <+: (e.display ioText deText).toList :=
  ⟨fun _ _ _ => starts_with_manifest ioText deText fun _ => DirSource.path_of_read names_problemManifest.normalize_eq,
    fun _ _ => starts_with_manifest ioText deText fun _ => TarSource.path_of_read names_problemManifest.normalize_eq⟩

end Satunera.Contracts
