import Satunera.Contracts.Archive
import Satunera.Contracts.Containment

/-!
# The two sources of a problem tree

A tree of directories and regular files is read from disk and from the archive of its files.

* `IsPlain`, `files` : such a tree, and what goes into its archive;
* `read_agrees_iff`, `isExecutable_agrees_iff`, `list_root_agrees_iff`, `list_refused_agrees_iff`,
  `list_named_agrees_iff` : when the two sources answer alike;
* `agrees_iff` : when they do in all three calls.
-/

namespace Satunera.Contracts.DirSource

open Satunera.Base

variable {t : FileTree} {d : DirSource t} {src : TarSource} {path : String} {segments : List String}

/-- The root is a directory, and under it are only directories and regular files, without `\` or `:` in their names. -/
structure IsPlain (d : DirSource t) : Prop where
  isDir : t.IsDirAt d.root
  no_links : ∀ l n, d.root <+: l → t.node? l = some n → n.isSymlink = false
  names : ∀ segments n, t.node? (d.root ++ segments) = some n → ∀ s ∈ segments, '\\' ∉ s.toList ∧ ':' ∉ s.toList

/-- Every file under the root: its name as seen from there, its mode and its bytes. -/
def files (d : DirSource t) : List (String × UInt32 × List UInt8) :=
  (t.filesUnder d.root).filterMap fun l =>
    match t.node? l with
    | some (.file mode _ data) => some (d.relative l, mode, data)
    | _ => none

/-! ## The archive of a plain tree -/

theorem mem_files_iff {name : String} {mode : UInt32} {data : List UInt8} : (name, mode, data) ∈ d.files ↔
    ∃ segments readable, name = joinSlash segments ∧
      t.node? (d.root ++ segments) = some (.file mode readable data) := by
  rw [files, List.mem_filterMap]
  constructor
  · rintro ⟨l, hl, h⟩
    obtain ⟨⟨segments, rfl⟩, -⟩ := FileTree.mem_filesUnder_iff.mp hl
    split at h
    · rename_i hn
      cases h
      exact ⟨segments, _, d.relative_append segments, hn⟩
    · cases h
  · rintro ⟨segments, readable, rfl, hn⟩
    refine ⟨d.root ++ segments, FileTree.mem_filesUnder_iff.mpr ⟨List.prefix_append .., _, hn, rfl⟩, ?_⟩
    rw [hn, relative_append]

namespace IsPlain

theorem isSegment (h : d.IsPlain) {n : Node} (hn : t.node? (d.root ++ segments) = some n) :
    ∀ s ∈ segments, IsSegment s := by
  intro s hs
  obtain ⟨hempty, hdot, hdots, hslash, -⟩ := FileTree.isFileName_of_node? hn (List.mem_append_right _ hs)
  obtain ⟨hbackslash, hcolon⟩ := h.names segments n hn s hs
  exact ⟨hempty, hdot, hdots, hslash, hcolon, hbackslash⟩

theorem names_of_file (h : d.IsPlain) {n : Node} (hn : t.node? (d.root ++ segments) = some n)
    (hfile : n.isDir = false) : Names (joinSlash segments) segments := by
  refine names_joinSlash ?_ (h.isSegment hn)
  rintro rfl
  obtain ⟨m, hm, hdir⟩ := h.isDir
  rw [List.append_nil, hm] at hn
  cases hn
  rw [hfile] at hdir
  cases hdir

/-- What is not a directory is a regular file. -/
theorem exists_file (h : d.IsPlain) {l : Location} {n : Node} (hl : d.root <+: l) (hn : t.node? l = some n)
    (hfile : n.isDir = false) : ∃ mode readable data, n = .file mode readable data := by
  cases n with
  | file mode readable data => exact ⟨mode, readable, data, rfl⟩
  | dir mode readable searchable => cases hfile
  | symlink target => cases h.no_links l _ hl hn

theorem map_fst_files (h : d.IsPlain) : d.files.map Prod.fst = (t.filesUnder d.root).map d.relative := by
  rw [files, List.map_filterMap, ← List.filterMap_eq_map]
  refine List.filterMap_congr fun l hl => ?_
  obtain ⟨hpre, n, hn, hfile⟩ := FileTree.mem_filesUnder_iff.mp hl
  obtain ⟨mode, readable, data, rfl⟩ := h.exists_file hpre hn hfile
  rw [hn]
  rfl

/-- The archive of the files can be made, in any order. -/
theorem exists_archive (h : d.IsPlain) {es : List (String × UInt32 × List UInt8)} (hes : es.Perm d.files) :
    ∃ src, TarSource.fromEntries es = .ok src ∧ src.Holds d.files := by
  have hnodup : (es.map Prod.fst).Nodup := by
    rw [(hes.map Prod.fst).nodup_iff, h.map_fst_files]
    exact d.nodup_relative List.prefix_rfl
  have hnames : ∀ e ∈ es, normalize e.1 = .ok e.1 := by
    rintro ⟨name, mode, data⟩ he
    obtain ⟨segments, readable, rfl, hn⟩ := mem_files_iff.mp (hes.mem_iff.mp he)
    exact (h.names_of_file hn rfl).normalize_eq
  obtain ⟨src, hsrc, hholds⟩ := TarSource.exists_fromEntries hnodup hnames
  exact ⟨src, hsrc, fun key e => (hholds key e).trans hes.mem_iff⟩

end IsPlain

/-! ## Where a path leads -/

namespace IsPlain

theorem lookup (h : d.IsPlain) (hsegments : ∀ s ∈ segments, IsSegment s) :
    d.Lookup segments (t.realPath (d.root ++ segments)) := lookup_of_no_links h.isDir h.no_links hsegments

/-- Past a root that was resolved, what passes on from there is reached. -/
theorem isReachable (h : d.IsPlain) {n : Node} (hn : t.node? (d.root ++ segments) = some n)
    (hpasses : t.Passes d.root segments) : t.IsReachable (d.root ++ segments) := by
  refine ⟨⟨n, hn, h.no_links _ n (List.prefix_append ..) hn⟩, FileTree.passes_append_iff.mpr ⟨d.isReachable.passes, ?_⟩⟩
  rwa [List.nil_append]

theorem leadsTo_iff (h : d.IsPlain) {l : Location} : d.LeadsTo path l ↔
    ∃ segments n, Names path segments ∧ l = d.root ++ segments ∧ t.node? l = some n ∧ t.Passes d.root segments := by
  constructor
  · rintro ⟨rel, hrel, hl, -⟩
    obtain ⟨segments, hnames, rfl⟩ := exists_names hrel
    have hlookup := h.lookup hnames.isSegment
    rw [hnames.splitSlash_eq] at hl
    rw [hl] at hlookup
    cases hlookup with
    | found hclear hn => exact ⟨segments, _, hnames, rfl, hn, hclear.passes⟩
  · rintro ⟨segments, n, hnames, rfl, hn, hpasses⟩
    refine ⟨_, hnames.normalize_eq, ?_, List.prefix_append ..⟩
    rw [hnames.splitSlash_eq]
    exact FileTree.realPath_of_isReachable (h.isReachable hn hpasses)

/-- What the archive has at a path is the file there. -/
theorem get_eq_ok_iff (h : d.IsPlain) (hsrc : src.Holds d.files) {e : TarEntry} : src.get path = .ok e ↔
    ∃ segments readable, Names path segments ∧ t.node? (d.root ++ segments) = some (.file e.mode readable e.data) := by
  rw [TarSource.get_eq_ok_iff]
  constructor
  · rintro ⟨rel, hrel, he⟩
    obtain ⟨segments, hnames, rfl⟩ := exists_names hrel
    obtain ⟨segments', readable, heq, hn⟩ := mem_files_iff.mp ((hsrc _ e).mp he)
    obtain rfl := joinSlash_injective hnames.nameable (h.names_of_file hn rfl).nameable heq
    exact ⟨segments, readable, hnames, hn⟩
  · rintro ⟨segments, readable, hnames, hn⟩
    exact ⟨_, hnames.normalize_eq, (hsrc _ e).mpr (mem_files_iff.mpr ⟨segments, readable, rfl, hn⟩)⟩

end IsPlain

/-! ## Reading -/

theorem archive_read_eq_ok_iff (h : d.IsPlain) (hsrc : src.Holds d.files) {data : List UInt8} :
    src.read path = .ok data ↔
      ∃ segments mode readable, Names path segments ∧
        t.node? (d.root ++ segments) = some (.file mode readable data) := by
  rw [TarSource.read, bind_eq_ok_iff]
  constructor
  · rintro ⟨e, he, hdata⟩
    cases hdata
    obtain ⟨segments, readable, hnames, hn⟩ := (h.get_eq_ok_iff hsrc).mp he
    exact ⟨segments, e.mode, readable, hnames, hn⟩
  · rintro ⟨segments, mode, readable, hnames, hn⟩
    exact ⟨⟨mode, data⟩, (h.get_eq_ok_iff hsrc).mpr ⟨segments, readable, hnames, hn⟩, rfl⟩

/-- Reading agrees except on a file that must not be read or looked up. -/
theorem read_agrees_iff (h : d.IsPlain) (hsrc : src.Holds d.files) :
    (d.read path).toOption = (src.read path).toOption ↔
      ∀ segments mode readable data, Names path segments →
        t.node? (d.root ++ segments) = some (.file mode readable data) →
          readable = true ∧ t.Passes d.root segments := by
  simp only [toOption_eq_toOption_iff, archive_read_eq_ok_iff h hsrc, read_eq_ok_iff, h.leadsTo_iff]
  constructor
  · intro hagree segments mode readable data hnames hn
    obtain ⟨_, mode', ⟨segments', n, hnames', rfl, -, hpasses⟩, hn'⟩ :=
      (hagree data).mpr ⟨segments, mode, readable, hnames, hn⟩
    obtain rfl := hnames.unique hnames'
    cases hn.symm.trans hn'
    exact ⟨rfl, hpasses⟩
  · intro hreadable data
    constructor
    · rintro ⟨l, mode, ⟨segments, n, hnames, rfl, -⟩, hn⟩
      exact ⟨segments, mode, true, hnames, hn⟩
    · rintro ⟨segments, mode, readable, hnames, hn⟩
      obtain ⟨rfl, hpasses⟩ := hreadable segments mode readable data hnames hn
      exact ⟨_, mode, ⟨segments, _, hnames, rfl, hn, hpasses⟩, hn⟩

/-! ## Executable bits -/

theorem archive_isExecutable_eq_ok_iff (h : d.IsPlain) (hsrc : src.Holds d.files) {x : Bool} :
    src.isExecutable path = .ok x ↔ ∃ segments mode readable data, Names path segments ∧
      t.node? (d.root ++ segments) = some (.file mode readable data) ∧ x = modeIsExecutable mode := by
  rw [TarSource.isExecutable, bind_eq_ok_iff]
  constructor
  · rintro ⟨e, he, hx⟩
    cases hx
    obtain ⟨segments, readable, hnames, hn⟩ := (h.get_eq_ok_iff hsrc).mp he
    exact ⟨segments, e.mode, readable, e.data, hnames, hn, rfl⟩
  · rintro ⟨segments, mode, readable, data, hnames, hn, rfl⟩
    exact ⟨⟨mode, data⟩, (h.get_eq_ok_iff hsrc).mpr ⟨segments, readable, hnames, hn⟩, rfl⟩

/-- The executable bits agree where a file is looked up, and a directory, which an archive does not have, is not. -/
theorem isExecutable_agrees_iff (h : d.IsPlain) (hsrc : src.Holds d.files) :
    (d.isExecutable path).toOption = (src.isExecutable path).toOption ↔
      ∀ segments n, Names path segments → t.node? (d.root ++ segments) = some n →
        (t.Passes d.root segments ↔ n.isDir = false) := by
  simp only [toOption_eq_toOption_iff, archive_isExecutable_eq_ok_iff h hsrc, isExecutable_eq_ok_iff, h.leadsTo_iff]
  constructor
  · intro hagree segments n hnames hn
    constructor
    · intro hpasses
      obtain ⟨segments', mode, readable, data, hnames', hn', -⟩ :=
        (hagree (modeIsExecutable n.mode)).mp ⟨_, n, ⟨segments, n, hnames, rfl, hn, hpasses⟩, hn, rfl⟩
      obtain rfl := hnames.unique hnames'
      cases hn.symm.trans hn'
      rfl
    · intro hfile
      obtain ⟨mode, readable, data, rfl⟩ := h.exists_file (List.prefix_append ..) hn hfile
      obtain ⟨_, _, ⟨segments', _, hnames', rfl, -, hpasses⟩, -⟩ :=
        (hagree (modeIsExecutable mode)).mpr ⟨segments, mode, readable, data, hnames, hn, rfl⟩
      obtain rfl := hnames.unique hnames'
      exact hpasses
  · intro hiff x
    constructor
    · rintro ⟨l, n, ⟨segments, _, hnames, rfl, -, hpasses⟩, hn, rfl⟩
      obtain ⟨mode, readable, data, rfl⟩ :=
        h.exists_file (List.prefix_append ..) hn ((hiff segments n hnames hn).mp hpasses)
      exact ⟨segments, mode, readable, data, hnames, hn, rfl⟩
    · rintro ⟨segments, mode, readable, data, hnames, hn, rfl⟩
      exact ⟨_, _, ⟨segments, _, hnames, rfl, hn, (hiff segments _ hnames hn).mpr rfl⟩, hn, rfl⟩

/-! ## Listing -/

/-- The two listings are the same, or an error each. -/
def ListAgrees (d : DirSource t) (src : TarSource) (path : String) : Prop :=
  ∀ fuel, t.depth < fuel → (d.list fuel path).result.map Except.toOption = some (src.list path).toOption

/-- Listing what is at a location or below it gives the names there exactly if all of it can be walked through. -/
theorem listFrom_eq_iff {start : Location} (hstart : t.IsReachable start) (hroot : d.root <+: start)
    {names : List String} (hsorted : names.Pairwise (· < ·))
    (hmem : ∀ name, name ∈ names ↔ name ∈ (t.filesUnder start).map d.relative) :
    (∀ fuel, t.depth < fuel → (d.listFrom fuel start).result.map Except.toOption = some (some names)) ↔
      t.IsWalkable start := by
  have hone : ∀ fuel, t.depth < fuel →
      ((d.listFrom fuel start).result.map Except.toOption = some (some names) ↔ t.IsWalkable start) := by
    intro fuel hfuel
    have hok : (d.listFrom fuel start).result = some (.ok names) ↔ _ := d.listFrom_eq_ok_iff hstart hroot hfuel
    rw [and_iff_left ⟨hsorted, hmem⟩] at hok
    rw [← hok, Option.map_eq_some_iff]
    constructor
    · rintro ⟨r, hr, hnames⟩
      cases r with
      | error e => cases hnames
      | ok out =>
        cases hnames
        exact hr
    · intro hr
      exact ⟨_, hr, rfl⟩
  exact ⟨fun h => (hone _ (Nat.lt_succ_self _)).mp (h _ (Nat.lt_succ_self _)),
    fun hread fuel hfuel => (hone fuel hfuel).mpr hread⟩

theorem mem_keys_iff (h : d.IsPlain) (hsrc : src.Holds d.files) {name : String} :
    name ∈ src.entries.keys ↔ name ∈ (t.filesUnder d.root).map d.relative := by
  rw [hsrc.mem_keys_iff, h.map_fst_files]

/-- In an archive the names that go on from a path are those of the files below it. -/
theorem mem_keys_filter_iff (h : d.IsPlain) (hsrc : src.Holds d.files) (hnames : Names path segments) {name : String} :
    name ∈ src.entries.keys.filter (fun p => p = joinSlash segments ∨
      ((joinSlash segments).toList ++ ['/']) <+: p.toList) ↔
      name ∈ (t.filesUnder (d.root ++ segments)).map d.relative :=
  mem_below_iff (fun _ => mem_keys_iff h hsrc) hnames

theorem list_root_agrees_iff (h : d.IsPlain) (hsrc : src.Holds d.files) (hpath : path = "" ∨ path = ".") :
    d.ListAgrees src path ↔ t.IsWalkable d.root := by
  have hlist : src.list path = .ok src.entries.keys := if_pos hpath
  simp only [ListAgrees, list, if_pos hpath, hlist]
  exact listFrom_eq_iff d.isReachable List.prefix_rfl src.pairwise_keys fun name => mem_keys_iff h hsrc

/-- Of the paths that are refused, the two disagree on those that normalize to nothing. -/
theorem list_refused_agrees_iff (hpath : ¬ (path = "" ∨ path = ".")) {e : SourceError}
    (he : normalize path = .error e) : d.ListAgrees src path ↔ ∀ p, e ≠ .notFound p := by
  have hsrc : src.list path = .error e := by
    rw [TarSource.list, if_neg hpath, he]
    rfl
  have hresolve : d.resolve path = .error e := by
    rw [resolve, he]
    rfl
  simp only [ListAgrees, list, if_neg hpath, hsrc, hresolve]
  cases e with
  | notFound p =>
    refine iff_of_false (fun hagree => ?_) fun hne => hne p rfl
    cases hagree _ (Nat.lt_succ_self _)
  | isDirectory p => exact iff_of_true (fun _ _ => rfl) fun _ hp => by cases hp
  | escapes p => exact iff_of_true (fun _ _ => rfl) fun _ hp => by cases hp
  | io p k => exact iff_of_true (fun _ _ => rfl) fun _ hp => by cases hp

theorem list_named_agrees_iff (h : d.IsPlain) (hsrc : src.Holds d.files) (hnames : Names path segments) :
    d.ListAgrees src path ↔ d.IsClear segments ∧ t.IsWalkable (d.root ++ segments) := by
  have hpath : ¬ (path = "" ∨ path = ".") := by
    rintro (rfl | rfl) <;> cases hnames.normalize_eq
  have hlist : src.list path = .ok (src.entries.keys.filter fun p => p = joinSlash segments ∨
      ((joinSlash segments).toList ++ ['/']) <+: p.toList) := by
    rw [TarSource.list, if_neg hpath, hnames.normalize_eq]
    rfl
  have hlookup := h.lookup hnames.isSegment
  simp only [ListAgrees, list, if_neg hpath, hlist, resolve_of_names hnames]
  generalize t.realPath (d.root ++ segments) = r at hlookup
  cases hlookup with
  | found hclear hn =>
    rw [and_iff_right hclear]
    simp only [if_pos (List.prefix_append d.root segments)]
    exact listFrom_eq_iff (h.isReachable hn hclear.passes) (List.prefix_append ..) (src.pairwise_keys.filter _)
      fun name => mem_keys_filter_iff h hsrc hnames
  | refused he hclear =>
    rename_i e
    refine iff_of_false (fun hagree => ?_) fun hand => hclear hand.1
    have herror := hagree _ (Nat.lt_succ_self _)
    cases e <;> first | exact he rfl | cases herror
  | missing hclear hn =>
    have hfilter : (src.entries.keys.filter fun p => p = joinSlash segments ∨
        ((joinSlash segments).toList ++ ['/']) <+: p.toList) = [] := by
      refine List.eq_nil_iff_forall_not_mem.mpr fun name hname => ?_
      rw [mem_keys_filter_iff h hsrc hnames, FileTree.filesUnder_of_missing hn] at hname
      cases hname
    have hwalk : t.IsWalkable (d.root ++ segments) := by
      apply FileTree.isWalkable_of_not_dir
      rintro ⟨n, hn', -⟩
      cases hn.symm.trans hn'
    refine iff_of_true (fun fuel _ => ?_) ⟨hclear, hwalk⟩
    rw [hfilter]
    rfl

/-! ## The three calls -/

/-- Each call returns the same value from both sources, or an error from both. -/
structure Agrees (d : DirSource t) (src : TarSource) (path : String) : Prop where
  read : (d.read path).toOption = (src.read path).toOption
  list : d.ListAgrees src path
  isExecutable : (d.isExecutable path).toOption = (src.isExecutable path).toOption

/-- The path is that of the whole tree and all of it can be listed, or it is refused as escaping, or nothing keeps it
from being looked up and it names a file that can be read or nothing at all: not a directory, and nothing beyond a
file. -/
structure IsFileOrAbsent (d : DirSource t) (path : String) : Prop where
  isWalkable : path = "" ∨ path = "." → t.IsWalkable d.root
  ne_notFound : ¬ (path = "" ∨ path = ".") → ∀ p, normalize path ≠ .error (.notFound p)
  isClear : ∀ segments, Names path segments → d.IsClear segments
  not_dir : ∀ segments, Names path segments → ¬ t.IsDirAt (d.root ++ segments)
  readable : ∀ segments mode data, Names path segments → t.node? (d.root ++ segments) ≠ some (.file mode false data)

/-- **The archive of a plain tree answers as the tree does exactly on the paths of its files, of nothing, and of the
whole.** -/
theorem agrees_iff (h : d.IsPlain) {es : List (String × UInt32 × List UInt8)} (hes : es.Perm d.files) :
    ∃ src, TarSource.fromEntries es = .ok src ∧ ∀ path, d.Agrees src path ↔ d.IsFileOrAbsent path := by
  obtain ⟨src, hfrom, hsrc⟩ := h.exists_archive hes
  refine ⟨src, hfrom, fun path => ?_⟩
  constructor
  · rintro ⟨hread, hlist, hexec⟩
    have hclear : ∀ segments, Names path segments → d.IsClear segments := fun segments hnames =>
      ((list_named_agrees_iff h hsrc hnames).mp hlist).1
    refine ⟨fun hpath => (list_root_agrees_iff h hsrc hpath).mp hlist, fun hpath p hp =>
      (list_refused_agrees_iff hpath hp).mp hlist p rfl, hclear, fun segments hnames => ?_,
      fun segments mode data hnames hn => ?_⟩
    · rintro ⟨n, hn, hdir⟩
      have hfile := ((isExecutable_agrees_iff h hsrc).mp hexec segments n hnames hn).mp (hclear segments hnames).passes
      rw [hdir] at hfile
      cases hfile
    · obtain ⟨hreadable, -⟩ := (read_agrees_iff h hsrc).mp hread segments mode false data hnames hn
      cases hreadable
  · rintro ⟨hwalk, hne, hclear, hnot, hreadable⟩
    refine ⟨(read_agrees_iff h hsrc).mpr fun segments mode readable data hnames hn => ?_, ?_,
      (isExecutable_agrees_iff h hsrc).mpr fun segments n hnames hn => ?_⟩
    · refine ⟨?_, (hclear segments hnames).passes⟩
      cases readable with
      | false => exact absurd hn (hreadable segments mode data hnames)
      | true => rfl
    · by_cases hpath : path = "" ∨ path = "."
      · exact (list_root_agrees_iff h hsrc hpath).mpr (hwalk hpath)
      · cases hnorm : normalize path with
        | error e => exact (list_refused_agrees_iff hpath hnorm).mpr fun p hp => hne hpath p (hp ▸ hnorm)
        | ok rel =>
          obtain ⟨segments, hnames, -⟩ := exists_names hnorm
          exact (list_named_agrees_iff h hsrc hnames).mpr
            ⟨hclear segments hnames, FileTree.isWalkable_of_not_dir (hnot segments hnames)⟩
    · refine iff_of_true (hclear segments hnames).passes ?_
      rw [Bool.eq_false_iff]
      exact fun hdir => hnot segments hnames ⟨n, hn, hdir⟩

/-- A directory with one file in it, both open to everyone. -/
def srcsTree : FileTree where
  entries := ⟨[([], .dir 0o755 true true), (["srcs"], .dir 0o755 true true),
    (["srcs", "main.rs"], .file 0o644 true [102, 110])], by decide⟩
  linkLimit := 40
  nameLimit := 255
  pathLimit := 4095
  root_dir := by decide
  parent_dir := by decide
  fileName := by decide

def srcs : DirSource srcsTree := ⟨[], FileTree.isReachable_root⟩

theorem isPlain_srcs : srcs.IsPlain := by
  refine ⟨⟨_, rfl, rfl⟩, fun l n _ hn => ?_, fun segments n hn => ?_⟩
  · exact (by decide : ∀ e ∈ srcsTree.entries.rows, e.2.isSymlink = false) _ (FileTree.node?_eq_some_iff.mp hn)
  · exact (by decide : ∀ e ∈ srcsTree.entries.rows, ∀ s ∈ e.1, '\\' ∉ s.toList ∧ ':' ∉ s.toList) _
      (FileTree.node?_eq_some_iff.mp hn)

theorem isWalkable_srcs : ∀ l, srcsTree.IsWalkable l := FileTree.isWalkable_of_forall (by decide +kernel)

/-- The file is the same from both sources. -/
theorem agrees_main : ∃ src, TarSource.fromEntries srcs.files = .ok src ∧ srcs.Agrees src "srcs/main.rs" := by
  obtain ⟨src, hfrom, hagrees⟩ := agrees_iff isPlain_srcs (.refl srcs.files)
  refine ⟨src, hfrom, (hagrees "srcs/main.rs").mpr ?_⟩
  have hsegments : ∀ segments, Names "srcs/main.rs" segments → segments = ["srcs", "main.rs"] := by
    intro segments hnames
    rw [← hnames.splitSlash_eq, ← Except.ok.inj hnames.normalize_eq]
    decide
  have hfile : srcsTree.node? ["srcs", "main.rs"] = some (.file 0o644 true [102, 110]) := by decide
  refine ⟨fun hpath => absurd hpath (by decide), fun _ p hp => ?_, fun segments hnames => ?_, fun segments hnames => ?_,
    fun segments mode data hnames hn => ?_⟩
  · cases hp
  · rw [hsegments segments hnames]
    exact ⟨by decide, FileTree.not_runsThroughFile hfile, FileTree.passes_of_isWalkable (isWalkable_srcs _) hfile⟩
  · rw [hsegments segments hnames]
    rintro ⟨n, hn, hdir⟩
    cases hfile.symm.trans hn
    cases hdir
  · rw [hsegments segments hnames] at hn
    cases hfile.symm.trans hn

/-- The directory has executable bits on disk and is nothing in the archive. -/
theorem not_agrees_srcs : srcs.IsPlain ∧ ∃ src, TarSource.fromEntries srcs.files = .ok src ∧
    srcs.isExecutable "srcs" = .ok true ∧ src.isExecutable "srcs" = .error (.notFound "srcs") ∧
      ¬ srcs.Agrees src "srcs" := by
  refine ⟨isPlain_srcs, _, rfl, by decide, by decide, fun hagrees => ?_⟩
  exact absurd hagrees.isExecutable (by decide)

end Satunera.Contracts.DirSource
