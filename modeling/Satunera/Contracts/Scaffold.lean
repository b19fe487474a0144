import Satunera.Base.Nested
import Satunera.Contracts.Archive
import Satunera.Contracts.Containment
import Satunera.Contracts.Normalize
import Satunera.Contracts.Problem
import Satunera.Contracts.Restriction

/-!
# Scaffolds and solutions

What is handed to a learner is what a source lists under the directory of a language.

* `Problem.scaffoldDir`, `Problem.solutionDir` : the two directories of a language;
* `lists_nestedOrApart` : the listings of any two paths are nested or apart, through links as well;
* `LanguageDir.StandsIn`, `scaffolds_apart` : no file is in the scaffold of a language and in that of another or in a
  solution, and what is read of one is its own.
-/

namespace Satunera.Contracts

open Satunera.Base

namespace Problem

/-- Directory holding the scaffold handed to a learner. -/
def scaffoldDir (_ : Problem) (language : Language) : String := "srcs/" ++ language.asStr

/-- Directory holding the reference solution. -/
def solutionDir (_ : Problem) (language : Language) : String := "solutions/" ++ language.asStr

def accepts (p : Problem) (language : Language) : Bool := p.languages.contains language

end Problem

/-! ## A directory -/

namespace DirSource
variable {t : FileTree} {d : DirSource t} {fuel fuel' : Nat} {path path' : String} {out out' : List String}

/-- A file or a link under the root. -/
def IsFile (d : DirSource t) (l : Location) : Prop := d.root <+: l ∧ ∃ n, t.node? l = some n ∧ n.isDir = false

theorem IsFile.eq_of_relative {l l' : Location} (h : d.IsFile l) (h' : d.IsFile l')
    (heq : d.relative l = d.relative l') : l = l' := by
  obtain ⟨hroot, n, hn, -⟩ := h
  obtain ⟨hroot', n', hn', -⟩ := h'
  exact relative_inj d hroot hn hroot' hn' heq

theorem listsBelow_of_mem_iff {start : Location} (hroot : d.root <+: start) (hsorted : out.Pairwise (· < ·))
    (hmem : ∀ name, name ∈ out ↔ name ∈ (t.filesUnder start).map d.relative) :
    ListsBelow d.IsFile d.relative start out := by
  refine ⟨hsorted, fun name => ?_⟩
  rw [hmem, List.mem_map]
  simp only [FileTree.mem_filesUnder_iff]
  constructor
  · rintro ⟨l, ⟨hl, hn⟩, hname⟩
    exact ⟨l, hl, ⟨hroot.trans hl, hn⟩, hname⟩
  · rintro ⟨l, hl, ⟨-, hn⟩, hname⟩
    exact ⟨l, ⟨hl, hn⟩, hname⟩

/-- A listing is empty, or it is that of some place under the root. -/
theorem exists_start (hfuel : t.depth < fuel) (h : (d.list fuel path).result = some (.ok out)) :
    out = [] ∨ ∃ start, ListsBelow d.IsFile d.relative start out := by
  by_cases hpath : path = "" ∨ path = "."
  · rw [list, if_pos hpath] at h
    obtain ⟨-, hsorted, hmem⟩ := (d.listFrom_eq_ok_iff d.isReachable List.prefix_rfl hfuel).mp h
    exact Or.inr ⟨d.root, listsBelow_of_mem_iff List.prefix_rfl hsorted hmem⟩
  · cases hnorm : normalize path with
    | error e =>
      have hresolve : d.resolve path = .error e := by
        rw [resolve, hnorm]
        rfl
      rw [list, if_neg hpath, hresolve] at h
      cases e <;> cases h
      exact Or.inl rfl
    | ok rel =>
      obtain ⟨segments, hnames, -⟩ := exists_names hnorm
      cases isListing_of_list hnames hfuel h with
      | found hreal hroot hread hsorted hmem => exact Or.inr ⟨_, listsBelow_of_mem_iff hroot hsorted hmem⟩
      | nothing hreal hout => exact Or.inl hout

theorem list_nestedOrApart (hfuel : t.depth < fuel) (hfuel' : t.depth < fuel')
    (h : (d.list fuel path).result = some (.ok out)) (h' : (d.list fuel' path').result = some (.ok out')) :
    NestedOrApart out out' := by
  rcases exists_start hfuel h with rfl | ⟨start, hstart⟩
  · exact .nil_left out'
  · rcases exists_start hfuel' h' with rfl | ⟨start', hstart'⟩
    · exact .nil_right out
    · exact hstart.nestedOrApart (fun l l' hl hl' => hl.eq_of_relative hl') hstart'

/-- At an entry that is no link, what is listed is what is there and below it. -/
theorem listsBelow_of_list {segments : List String} (hnames : Names path segments) (hfuel : t.depth < fuel) {n : Node}
    (hn : t.node? (d.root ++ segments) = some n) (hlink : n.isSymlink = false)
    (h : (d.list fuel path).result = some (.ok out)) :
    ListsBelow d.IsFile d.relative (d.root ++ segments) out := by
  cases isListing_of_list hnames hfuel h with
  | found hreal hroot hread hsorted hmem =>
    rcases FileTree.realPath_of_node hn hlink with hself | ⟨e, -, he⟩
    · cases hself.symm.trans hreal
      exact listsBelow_of_mem_iff hroot hsorted hmem
    · cases he.symm.trans hreal
  | nothing hreal hout =>
    rcases FileTree.realPath_of_node hn hlink with hself | ⟨e, hne, he⟩
    · cases hself.symm.trans hreal
    · exact absurd (Except.error.inj (he.symm.trans hreal)) hne

end DirSource

/-! ## An archive -/

namespace TarSource
variable {src : TarSource} {entries : List (String × UInt32 × List UInt8)} {path path' key : String}
  {out out' : List String}

/-- The path of a key of the archive. -/
def IsFile (src : TarSource) (segments : List String) : Prop := ∃ name ∈ src.entries.keys, splitSlash name = segments

theorem joinSlash_splitSlash (s : String) : joinSlash (splitSlash s) = s := by
  rw [joinSlash, splitSlash, List.map_map]
  have hid : (s.toList.splitOn '/').map (String.toList ∘ String.ofList) = s.toList.splitOn '/' :=
    (List.map_congr_left fun cs _ => String.toList_ofList).trans (List.map_id _)
  rw [hid, List.intercalate_splitOn, String.ofList_toList]

theorem IsFile.eq_of_joinSlash {l l' : List String} (h : src.IsFile l) (h' : src.IsFile l')
    (heq : joinSlash l = joinSlash l') : l = l' := by
  obtain ⟨name, -, rfl⟩ := h
  obtain ⟨name', -, rfl⟩ := h'
  rw [joinSlash_splitSlash, joinSlash_splitSlash] at heq
  rw [heq]

/-- The keys that go on from a start. -/
theorem listsBelow_filter (src : TarSource) (start : List String) :
    ListsBelow src.IsFile joinSlash start (src.entries.keys.filter fun name => start <+: splitSlash name) := by
  refine ⟨src.pairwise_keys.filter _, fun name => ?_⟩
  rw [List.mem_filter, decide_eq_true_eq]
  constructor
  · rintro ⟨hmem, hpre⟩
    exact ⟨_, hpre, ⟨name, hmem, rfl⟩, joinSlash_splitSlash name⟩
  · rintro ⟨_, hpre, ⟨name', hmem, rfl⟩, hname⟩
    rw [joinSlash_splitSlash] at hname
    obtain rfl := hname
    exact ⟨hmem, hpre⟩

/-- In an archive that was made every key is normalized. -/
theorem exists_normalize_of_mem_keys (hsrc : fromEntries entries = .ok src) {name : String}
    (hname : name ∈ src.entries.keys) : ∃ path, normalize path = .ok name := by
  obtain ⟨-, rfl⟩ := fromEntries_eq_ok_iff.mp hsrc
  rw [mem_keys_iff, getElem?_insertAll, ← Option.isSome_iff_exists, isSome_lastEntry] at hname
  obtain ⟨entry, -, hentry⟩ := hname
  exact ⟨entry.1, hentry⟩

theorem list_of_fromEntries (hsrc : fromEntries entries = .ok src) (h : normalize path = .ok key) :
    src.list path = .ok (src.entries.keys.filter fun name => splitSlash key <+: splitSlash name) :=
  list_of_normalize (fun _ => exists_normalize_of_mem_keys hsrc) h

/-- Every key is read. -/
theorem read_of_mem_keys (hsrc : fromEntries entries = .ok src) {name : String} (hname : name ∈ src.entries.keys) :
    ∃ e, src.entries[name]? = some e ∧ src.read name = .ok e.data := by
  obtain ⟨path, hpath⟩ := exists_normalize_of_mem_keys hsrc hname
  obtain ⟨segments, hnames, rfl⟩ := exists_names hpath
  obtain ⟨e, he⟩ := mem_keys_iff.mp hname
  have hself := (names_joinSlash hnames.ne_nil hnames.isSegment).normalize_eq
  exact ⟨e, he, by rw [read, get_of_normalize hself, he]; rfl⟩

theorem exists_start (hsrc : fromEntries entries = .ok src) (h : src.list path = .ok out) :
    ∃ start, ListsBelow src.IsFile joinSlash start out := by
  by_cases hpath : path = "" ∨ path = "."
  · rw [list, if_pos hpath] at h
    obtain rfl := Except.ok.inj h
    have hall := src.listsBelow_filter []
    rw [List.filter_eq_self.mpr fun name _ => decide_eq_true List.nil_prefix] at hall
    exact ⟨[], hall⟩
  · cases hnorm : normalize path with
    | error e =>
      rw [list, if_neg hpath, hnorm] at h
      cases h
    | ok key =>
      rw [list_of_fromEntries hsrc hnorm] at h
      obtain rfl := Except.ok.inj h
      exact ⟨_, src.listsBelow_filter _⟩

theorem list_nestedOrApart (hsrc : fromEntries entries = .ok src) (h : src.list path = .ok out)
    (h' : src.list path' = .ok out') : NestedOrApart out out' := by
  obtain ⟨start, hstart⟩ := exists_start hsrc h
  obtain ⟨start', hstart'⟩ := exists_start hsrc h'
  exact hstart.nestedOrApart (fun l l' hl hl' => hl.eq_of_joinSlash hl') hstart'

end TarSource

/-! ## Both -/

/-- **The listings of two paths are nested or have no file in common**, from an archive and from a directory, there
whatever links the paths lead through. -/
theorem lists_nestedOrApart :
    (∀ (t : FileTree) (d : DirSource t) fuel fuel' path path' out out', t.depth < fuel → t.depth < fuel' →
      (d.list fuel path).result = some (.ok out) → (d.list fuel' path').result = some (.ok out') →
        NestedOrApart out out') ∧
    ∀ entries src path path' out out', TarSource.fromEntries entries = .ok src → src.list path = .ok out →
      src.list path' = .ok out' → NestedOrApart out out' :=
  ⟨fun _ _ _ _ _ _ _ _ hfuel hfuel' h h' => DirSource.list_nestedOrApart hfuel hfuel' h h',
    fun _ _ _ _ _ _ hsrc h h' => TarSource.list_nestedOrApart hsrc h h'⟩

/-! ## What a learner gets -/

/-- A directory that a problem has for a language. -/
inductive LanguageDir
  | scaffold (language : Language)
  | solution (language : Language)
  deriving DecidableEq

namespace LanguageDir

def path (p : Problem) : LanguageDir → String
  | scaffold language => p.scaffoldDir language
  | solution language => p.solutionDir language

def segments : LanguageDir → List String
  | scaffold language => ["srcs", language.asStr]
  | solution language => ["solutions", language.asStr]

theorem names_path (p : Problem) (x : LanguageDir) : Names (x.path p) x.segments := by
  have hpath : x.path p = joinSlash x.segments := by
    cases x with
    | scaffold language => cases language <;> rfl
    | solution language => cases language <;> rfl
  have hsegments : ∀ s ∈ ["srcs", "solutions", "rust", "py", "cpp"], IsSegment s := by
    intro s hs
    refine ⟨?_, ?_, ?_, ?_, ?_, ?_⟩ <;> revert s <;> decide
  have hsub : x.segments ⊆ ["srcs", "solutions", "rust", "py", "cpp"] := by
    cases x with
    | scaffold language => cases language <;> decide
    | solution language => cases language <;> decide
  have hne : x.segments ≠ [] := by cases x <;> exact List.cons_ne_nil _ _
  rw [hpath]
  exact names_joinSlash hne fun s hs => hsegments s (hsub hs)

/-- Neither of two directories is below the other. -/
theorem eq_of_below {x y : LanguageDir} (h : x.segments <+: y.segments) : x = y := by
  have hlength : x.segments.length = y.segments.length := by cases x <;> cases y <;> rfl
  have heq := h.eq_of_length hlength
  cases x with
  | scaffold l =>
    cases y with
    | scaffold l' =>
      obtain rfl : l = l' := Language.asStr_injective (by simpa [segments] using heq)
      rfl
    | solution l' => exact absurd heq (by simp [segments])
  | solution l =>
    cases y with
    | scaffold l' => exact absurd heq (by simp [segments])
    | solution l' =>
      obtain rfl : l = l' := Language.asStr_injective (by simpa [segments] using heq)
      rfl

end LanguageDir

/-- What is listed below a start in an archive is named below it. -/
theorem TarSource.prefix_of_mem {src : TarSource} {start out : List String}
    (h : ListsBelow src.IsFile joinSlash start out) {name : String} (hname : name ∈ out) :
    start <+: splitSlash name := by
  obtain ⟨_, hpre, ⟨name', -, rfl⟩, hjoin⟩ := (h.mem_iff name).mp hname
  rw [joinSlash_splitSlash] at hjoin
  rwa [← hjoin]

/-- What is listed below a start in a directory is named below it. -/
theorem DirSource.prefix_of_mem {t : FileTree} {d : DirSource t} {segments out : List String} (hne : segments ≠ [])
    (h : ListsBelow d.IsFile d.relative (d.root ++ segments) out) {name : String} (hname : name ∈ out) :
    segments <+: splitSlash name := by
  obtain ⟨l, hpre, ⟨hroot, n, hn, -⟩, rfl⟩ := (h.mem_iff name).mp hname
  have hl : l ≠ d.root := by
    rintro rfl
    have hlength := hpre.length_le
    rw [List.length_append] at hlength
    have := List.length_pos_iff.mpr hne
    omega
  rw [← splitSlash_relative hn hroot hl] at hpre
  exact (List.prefix_append_right_inj _).mp hpre

/-- The directory of a language stands under the root of the source itself, and there are no links in it. -/
structure LanguageDir.StandsIn (x : LanguageDir) {t : FileTree} (d : DirSource t) : Prop where
  exists_node : ∃ n, t.node? (d.root ++ x.segments) = some n
  no_links : ∀ l n, d.root ++ x.segments <+: l → t.node? l = some n → n.isSymlink = false

/-- What is listed below a directory without links is read from there, whatever its name is normalized to. -/
theorem DirSource.read_below {t : FileTree} {d : DirSource t} {segments : List String} (hne : segments ≠ [])
    (hsegments : ∀ s ∈ segments, IsSegment s) {n : Node} (hn : t.node? (d.root ++ segments) = some n)
    (hlinks : ∀ l m, d.root ++ segments <+: l → t.node? l = some m → m.isSymlink = false) {name : String}
    (hname : segments <+: splitSlash name) {data : List UInt8} (h : d.read name = .ok data) :
    ∃ l mode, d.root ++ segments <+: l ∧ t.node? l = some (.file mode true data) := by
  obtain ⟨l, mode, ⟨rel, hrel, hreal, -⟩, hl⟩ := read_eq_ok_iff.mp h
  obtain ⟨names, hnames, rfl⟩ := exists_names hrel
  obtain ⟨rest, hrest⟩ := hname
  obtain ⟨below, rfl⟩ : segments <+: names := by
    refine prefix_of_names (q := rest) hne hsegments ?_
    rwa [hrest, TarSource.joinSlash_splitSlash]
  rw [hnames.splitSlash_eq, ← List.append_assoc] at hreal
  have hbelow : ∀ s ∈ below, IsFileName s := by
    intro s hs
    refine (hnames.isSegment s (List.mem_append_right _ hs)).isFileName fun hnul => ?_
    rw [FileTree.realPath_of_nul (List.mem_append_right _ hs) hnul] at hreal
    cases hreal
  have heq := FileTree.eq_of_realPath hn hbelow (fun p m _ => hlinks _ m (List.prefix_append ..)) hreal
  exact ⟨l, mode, heq ▸ List.prefix_append .., hl⟩

/-- **No file is in two scaffolds, in two solutions, or in a scaffold and a solution, and what is read under a name
listed for a language is a file of its directory**, in an archive, and on disk where the directories stand under the
root and have no links in them. -/
theorem scaffolds_apart (p : Problem) :
    (∀ entries src (x y : LanguageDir), TarSource.fromEntries entries = .ok src → x ≠ y →
      ∃ out out', src.list (x.path p) = .ok out ∧ src.list (y.path p) = .ok out' ∧ out.Disjoint out' ∧
        ∀ name ∈ out, x.segments <+: splitSlash name ∧ ∃ e, src.entries[name]? = some e ∧ src.read name = .ok e.data) ∧
    ∀ (t : FileTree) (d : DirSource t) fuel out out' (x y : LanguageDir), t.depth < fuel → x ≠ y →
      x.StandsIn d → y.StandsIn d →
      (d.list fuel (x.path p)).result = some (.ok out) → (d.list fuel (y.path p)).result = some (.ok out') →
        out.Disjoint out' ∧ ∀ name ∈ out, x.segments <+: splitSlash name ∧ ∀ data, d.read name = .ok data →
          ∃ l mode, d.root ++ x.segments <+: l ∧ t.node? l = some (.file mode true data) := by
  constructor
  · intro entries src x y hsrc hne
    have hx := TarSource.list_of_fromEntries hsrc (x.names_path p).normalize_eq
    have hy := TarSource.list_of_fromEntries hsrc (y.names_path p).normalize_eq
    rw [(x.names_path p).splitSlash_eq] at hx
    rw [(y.names_path p).splitSlash_eq] at hy
    have hbelow := src.listsBelow_filter x.segments
    have hbelow' := src.listsBelow_filter y.segments
    refine ⟨_, _, hx, hy, ?_, fun name hname => ⟨TarSource.prefix_of_mem hbelow hname, ?_⟩⟩
    · exact hbelow.disjoint (fun l l' hl hl' => hl.eq_of_joinSlash hl') hbelow'
        (fun h => hne (LanguageDir.eq_of_below h)) fun h => hne (LanguageDir.eq_of_below h).symm
    · exact TarSource.read_of_mem_keys hsrc (List.mem_of_mem_filter hname)
  · intro t d fuel out out' x y hfuel hne hx hy h h'
    obtain ⟨n, hn⟩ := hx.exists_node
    obtain ⟨n', hn'⟩ := hy.exists_node
    have hbelow := DirSource.listsBelow_of_list (x.names_path p) hfuel hn (hx.no_links _ n List.prefix_rfl hn) h
    have hbelow' := DirSource.listsBelow_of_list (y.names_path p) hfuel hn' (hy.no_links _ n' List.prefix_rfl hn') h'
    have hnil := (x.names_path p).ne_nil
    refine ⟨?_, fun name hname => ⟨DirSource.prefix_of_mem hnil hbelow hname, fun data => ?_⟩⟩
    · refine hbelow.disjoint (fun l l' hl hl' => hl.eq_of_relative hl') hbelow' (fun hpre => ?_) fun hpre => ?_
      · exact hne (LanguageDir.eq_of_below ((List.prefix_append_right_inj _).mp hpre))
      · exact hne (LanguageDir.eq_of_below ((List.prefix_append_right_inj _).mp hpre)).symm
    · exact DirSource.read_below hnil (x.names_path p).isSegment hn hx.no_links
        (DirSource.prefix_of_mem hnil hbelow hname)

/-- A scaffold and the solution beside it. -/
def solvedTree : FileTree where
  entries := ⟨[([], .dir 0o755 true true), (["srcs"], .dir 0o755 true true), (["srcs", "rust"], .dir 0o755 true true),
    (["srcs", "rust", "main.rs"], .file 0o644 true [1]), (["solutions"], .dir 0o755 true true),
    (["solutions", "rust"], .dir 0o755 true true), (["solutions", "rust", "main.rs"], .file 0o644 true [2])], by decide⟩
  linkLimit := 40
  nameLimit := 255
  pathLimit := 4095
  root_dir := by decide
  parent_dir := by decide
  fileName := by decide

def solved : DirSource solvedTree := ⟨[], FileTree.isReachable_root⟩

theorem standsIn_solved {x : LanguageDir} {n : Node} (hn : solvedTree.node? x.segments = some n) :
    x.StandsIn solved := by
  refine ⟨⟨n, hn⟩, fun l m _ hm => ?_⟩
  exact (by decide : ∀ e ∈ solvedTree.entries.rows, e.2.isSymlink = false) _ (FileTree.node?_eq_some_iff.mp hm)

def solvedProblem : Problem :=
  ⟨1, ⟨"week-1"⟩, "Week 1", ⟨"basics"⟩, .easy, [.rust], ⟨"chain"⟩, .default, .default⟩

/-- The scaffold is listed without the solution, and what is read of it is its own. -/
theorem scaffolds_apart_solved :
    (solved.list 4 (solvedProblem.scaffoldDir .rust)).result = some (.ok ["srcs/rust/main.rs"]) ∧
      (solved.list 4 (solvedProblem.solutionDir .rust)).result = some (.ok ["solutions/rust/main.rs"]) ∧
      ["srcs/rust/main.rs"].Disjoint ["solutions/rust/main.rs"] ∧ solved.read "srcs/rust/main.rs" = .ok [1] ∧
      ∃ l mode, ["srcs", "rust"] <+: l ∧ solvedTree.node? l = some (.file mode true [1]) := by
  have hscaffold : (solved.list 4 "srcs/rust").result = some (.ok ["srcs/rust/main.rs"]) :=
    DirSource.list_of_singleton (by decide) (by decide +kernel : solved.resolve "srcs/rust" = .ok ["srcs", "rust"])
      (by decide +kernel)
  have hsolution : (solved.list 4 "solutions/rust").result = some (.ok ["solutions/rust/main.rs"]) :=
    DirSource.list_of_singleton (by decide)
      (by decide +kernel : solved.resolve "solutions/rust" = .ok ["solutions", "rust"]) (by decide +kernel)
  have hread : solved.read "srcs/rust/main.rs" = .ok [1] := by decide +kernel
  obtain ⟨hdisjoint, hbelow⟩ := (scaffolds_apart solvedProblem).2 solvedTree solved 4 _ _ (.scaffold .rust)
    (.solution .rust) (by decide) (by decide) (standsIn_solved (by decide : _ = some (.dir 0o755 true true)))
    (standsIn_solved (by decide : _ = some (.dir 0o755 true true))) hscaffold hsolution
  exact ⟨hscaffold, hsolution, hdisjoint, hread, (hbelow _ List.mem_cons_self).2 _ hread⟩

end Satunera.Contracts
