import Satunera.Contracts.DirSource

/-!
# Listing a path and listing the whole tree

The listing of a path starts from where the path leads and names what it finds as seen from the root.

* `Restricts` : the listing of a path is that part of the whole listing that is at the path or below it, and no name
  in it leads to a directory;
* `IsUnlinked` : no link comes between the two views;
* `whole_iff`, `IsListing` : what the two listings are, by the files they are of;
* `restricts_iff` : the first is exactly the second.
-/

namespace Satunera.Contracts.DirSource

open Satunera.Base

variable {t : FileTree} {d : DirSource t} {path : String} {segments out : List String} {fuel : Nat}

/-- The names are those in the whole listing that are the path or go on from it, and none of them leads to a
directory. -/
structure Restricts (d : DirSource t) (fuel : Nat) (rel : String) (out : List String) : Prop where
  whole : ∃ all, (d.list fuel "").result = some (.ok all) ∧ all.Pairwise (· < ·) ∧
    out = all.filter fun name => name = rel ∨ (rel.toList ++ ['/']) <+: name.toList
  not_dir : ∀ name ∈ out, t.isDir (d.root ++ splitSlash name) = false

/-- The whole tree can be listed, there is no link at the path, what the path leads to has no files if there is nothing
at the path itself, and no link at the path or below it leads to a directory. -/
structure IsUnlinked (d : DirSource t) (rel : String) : Prop where
  isWalkable : t.IsWalkable d.root
  not_link : ∀ n, t.node? (d.root ++ splitSlash rel) = some n → n.isSymlink = false
  no_files : t.node? (d.root ++ splitSlash rel) = none →
    ∀ l, t.realPath (d.root ++ splitSlash rel) = .ok l → t.filesUnder l = []
  links : ∀ l n, (d.root ++ splitSlash rel) <+: l → t.node? l = some n → n.isSymlink = true → t.isDir l = false

/-! ## The two listings -/

/-- The part of the whole listing that is at a path or below it has the names of the files there. -/
theorem whole_iff (hnames : Names path segments) (hfuel : t.depth < fuel) :
    (∃ all, (d.list fuel "").result = some (.ok all) ∧ all.Pairwise (· < ·) ∧
      out = all.filter fun name => name = joinSlash segments ∨ ((joinSlash segments).toList ++ ['/']) <+: name.toList) ↔
    t.IsWalkable d.root ∧ out.Pairwise (· < ·) ∧
      ∀ name, name ∈ out ↔ name ∈ (t.filesUnder (d.root ++ segments)).map d.relative := by
  have hlist : d.list fuel "" = d.listFrom fuel d.root := if_pos (Or.inl rfl)
  rw [hlist]
  constructor
  · rintro ⟨all, hall, hsorted, rfl⟩
    obtain ⟨hread, -, hmem⟩ := (d.listFrom_eq_ok_iff d.isReachable List.prefix_rfl hfuel).mp hall
    exact ⟨hread, hsorted.filter _, fun _ => mem_below_iff hmem hnames⟩
  · rintro ⟨hread, hsorted, hmem⟩
    obtain ⟨r, hr, hok, hout⟩ := d.listFrom_result d.isReachable List.prefix_rfl hfuel
    obtain ⟨all, rfl⟩ := hok.mpr hread
    obtain ⟨hall, hmemAll⟩ := hout all rfl
    refine ⟨all, hr, hall, hsorted.eq_of_mem_iff (hall.filter _) fun name => ?_⟩
    rw [hmem, mem_below_iff hmemAll hnames]

/-- What the listing of a path is: the names of the files where it leads, and none where it leads to nothing. -/
inductive IsListing (d : DirSource t) (segments out : List String) : Prop
  | found {l : Location} (hreal : t.realPath (d.root ++ segments) = .ok l) (hroot : d.root <+: l)
      (hread : t.IsWalkable l) (hsorted : out.Pairwise (· < ·))
      (hmem : ∀ name, name ∈ out ↔ name ∈ (t.filesUnder l).map d.relative)
  | nothing (hreal : t.realPath (d.root ++ segments) = .error .notFound) (hout : out = [])

theorem isListing_of_list (hnames : Names path segments) (hfuel : t.depth < fuel)
    (h : (d.list fuel path).result = some (.ok out)) : d.IsListing segments out := by
  have hpath : ¬ (path = "" ∨ path = ".") := by
    rintro (rfl | rfl) <;> cases hnames.normalize_eq
  rw [list, if_neg hpath, resolve_of_names hnames] at h
  cases hreal : t.realPath (d.root ++ segments) with
  | ok l =>
    rw [hreal] at h
    by_cases hroot : d.root <+: l
    · simp only [if_pos hroot] at h
      obtain ⟨hread, hsorted, hmem⟩ :=
        (d.listFrom_eq_ok_iff (FileTree.isReachable_of_realPath hreal) hroot hfuel).mp h
      exact .found hreal hroot hread hsorted hmem
    · simp only [if_neg hroot] at h
      cases h
  | error e =>
    rw [hreal] at h
    cases e with
    | notFound =>
      cases h
      exact .nothing hreal rfl
    | _ => cases h

/-! ## Links in the way -/

theorem splitSlash_relative {l : Location} {n : Node} (hn : t.node? l = some n) (hroot : d.root <+: l)
    (hne : l ≠ d.root) : d.root ++ splitSlash (d.relative l) = l := by
  obtain ⟨below, rfl⟩ := hroot
  have hbelow : below ≠ [] := by
    rintro rfl
    exact hne (List.append_nil _)
  rw [relative_append, splitSlash_joinSlash hbelow fun s hs =>
    (FileTree.nameable_of_node? hn s (List.mem_append_right _ hs)).2]

/-- Of what is no directory only a link can lead to one. -/
theorem isSymlink_of_isDir {l : Location} {n : Node} (hn : t.node? l = some n) (hfile : n.isDir = false)
    (hdir : t.isDir l = true) : n.isSymlink = true := by
  by_contra hlink
  rw [Bool.not_eq_true] at hlink
  rcases FileTree.realPath_of_node hn hlink with hreal | ⟨e, -, he⟩
  · obtain ⟨m, hm, hmdir⟩ := (FileTree.isDir_eq_true_iff_of_realPath hreal).mp hdir
    cases hn.symm.trans hm
    rw [hfile] at hmdir
    cases hmdir
  · rw [FileTree.isDir_of_error he] at hdir
    cases hdir

/-- None of the files at a path or below it leads to a directory exactly if none of the links there does. -/
theorem not_dir_iff (hnames : Names path segments)
    (hmem : ∀ name, name ∈ out ↔ name ∈ (t.filesUnder (d.root ++ segments)).map d.relative) :
    (∀ name ∈ out, t.isDir (d.root ++ splitSlash name) = false) ↔
      ∀ l n, (d.root ++ segments) <+: l → t.node? l = some n → n.isSymlink = true → t.isDir l = false := by
  have hsplit : ∀ {l n}, (d.root ++ segments) <+: l → t.node? l = some n →
      d.root ++ splitSlash (d.relative l) = l := by
    intro l n hpre hn
    apply splitSlash_relative hn ((List.prefix_append ..).trans hpre)
    rintro rfl
    exact hnames.ne_nil (by simpa using hpre.length_le)
  constructor
  · intro h l n hpre hn hlink
    have hfile : n.isDir = false := by
      cases n with
      | symlink target => rfl
      | _ => cases hlink
    have := h _ ((hmem _).mpr (List.mem_map_of_mem (FileTree.mem_filesUnder_iff.mpr ⟨hpre, n, hn, hfile⟩)))
    rwa [hsplit hpre hn] at this
  · intro h name hname
    obtain ⟨l, hl, rfl⟩ := List.mem_map.mp ((hmem name).mp hname)
    obtain ⟨hpre, n, hn, hfile⟩ := FileTree.mem_filesUnder_iff.mp hl
    rw [hsplit hpre hn, Bool.eq_false_iff]
    intro hdir
    rw [h l n hpre hn (isSymlink_of_isDir hn hfile hdir)] at hdir
    cases hdir

/-- A link that is among the files where it leads to leads to a directory. -/
theorem isDir_of_link {n : Node} (hn : t.node? (d.root ++ segments) = some n) (hlink : n.isSymlink = true)
    {l : Location} (hl : t.realPath (d.root ++ segments) = .ok l) (hroot : d.root <+: l)
    (hsame : d.relative (d.root ++ segments) ∈ (t.filesUnder l).map d.relative) :
    t.isDir (d.root ++ segments) = true := by
  obtain ⟨l', hl', heq⟩ := List.mem_map.mp hsame
  obtain ⟨hpre, n', hn', -⟩ := FileTree.mem_filesUnder_iff.mp hl'
  obtain rfl := relative_inj d (hroot.trans hpre) hn' (List.prefix_append ..) hn heq
  obtain ⟨m, hm, hmlink⟩ := (FileTree.isReachable_of_realPath hl).exists_node
  obtain ⟨rest, hrest⟩ := hpre
  refine (FileTree.isDir_eq_true_iff_of_realPath hl).mpr (FileTree.isDirAt_of_append (hrest ▸ hn) ?_)
  rintro rfl
  rw [List.append_nil] at hrest
  rw [hrest, hn] at hm
  cases hm
  rw [hlink] at hmlink
  cases hmlink

/-! ## Listings without links -/

section Listings
variable (hlist : d.IsListing segments out)
include hlist

/-- With no link in the way the listing of a path has the files at the path or below it. -/
theorem mem_of_unlinked (hlink : ∀ n, t.node? (d.root ++ segments) = some n → n.isSymlink = false)
    (hfiles : t.node? (d.root ++ segments) = none →
      ∀ l, t.realPath (d.root ++ segments) = .ok l → t.filesUnder l = []) :
    out.Pairwise (· < ·) ∧ ∀ name, name ∈ out ↔ name ∈ (t.filesUnder (d.root ++ segments)).map d.relative := by
  cases hn : t.node? (d.root ++ segments) with
  | some n =>
    cases hlist with
    | found hreal hroot hread hsorted hmem =>
      rcases FileTree.realPath_of_node hn (hlink n hn) with hself | ⟨e, -, he⟩
      · cases hself.symm.trans hreal
        exact ⟨hsorted, hmem⟩
      · cases he.symm.trans hreal
    | nothing hreal hout =>
      rcases FileTree.realPath_of_node hn (hlink n hn) with hself | ⟨e, hne, he⟩
      · cases hself.symm.trans hreal
      · exact absurd (Except.error.inj (he.symm.trans hreal)) hne
  | none =>
    rw [FileTree.filesUnder_of_missing hn]
    cases hlist with
    | found hreal hroot hread hsorted hmem =>
      rw [hfiles hn _ hreal] at hmem
      exact ⟨hsorted, hmem⟩
    | nothing hreal hout =>
      rw [hout]
      exact ⟨List.Pairwise.nil, fun _ => Iff.rfl⟩

variable (hmem : ∀ name, name ∈ out ↔ name ∈ (t.filesUnder (d.root ++ segments)).map d.relative)
include hmem

theorem not_link_of_mem
    (hlinks : ∀ l n, (d.root ++ segments) <+: l → t.node? l = some n → n.isSymlink = true → t.isDir l = false)
    {n : Node} (hn : t.node? (d.root ++ segments) = some n) : n.isSymlink = false := by
  rw [Bool.eq_false_iff]
  intro hlink
  have hself : d.relative (d.root ++ segments) ∈ out := by
    refine (hmem _).mpr (List.mem_map_of_mem (FileTree.mem_filesUnder_iff.mpr ⟨List.prefix_rfl, n, hn, ?_⟩))
    cases n with
    | symlink target => rfl
    | _ => cases hlink
  cases hlist with
  | found hreal hroot hread hsorted hmem' =>
    have hdir := isDir_of_link hn hlink hreal hroot ((hmem' _).mp hself)
    rw [hlinks _ n List.prefix_rfl hn hlink] at hdir
    cases hdir
  | nothing hreal hout =>
    rw [hout] at hself
    cases hself

theorem filesUnder_of_mem (hn : t.node? (d.root ++ segments) = none) {l : Location}
    (hl : t.realPath (d.root ++ segments) = .ok l) : t.filesUnder l = [] := by
  cases hlist with
  | found hreal hroot hread hsorted hmem' =>
    cases hl.symm.trans hreal
    apply List.eq_nil_iff_forall_not_mem.mpr
    intro l' hl'
    have hname := (hmem _).mp ((hmem' _).mpr (List.mem_map_of_mem hl'))
    rw [FileTree.filesUnder_of_missing hn] at hname
    cases hname
  | nothing hreal hout => cases hl.symm.trans hreal

end Listings

/-- **The listing of a path is the restriction of the whole listing to it exactly if no link comes between the two.** -/
theorem restricts_iff (d : DirSource t) {path rel : String} (hrel : normalize path = .ok rel) {fuel : Nat}
    (hfuel : t.depth < fuel) {out : List String} (hout : (d.list fuel path).result = some (.ok out)) :
    d.Restricts fuel rel out ↔ d.IsUnlinked rel := by
  obtain ⟨segments, hnames, rfl⟩ := exists_names hrel
  have hwhole : (∃ all, _ ∧ _ ∧ out = _) ↔ _ := whole_iff (d := d) hnames hfuel
  have hlist := isListing_of_list hnames hfuel hout
  have hsplit := hnames.splitSlash_eq
  constructor
  · rintro ⟨hrestricted, hdirs⟩
    obtain ⟨hread, -, hmem⟩ := hwhole.mp hrestricted
    have hlinks := (not_dir_iff hnames hmem).mp hdirs
    refine ⟨hread, ?_, ?_, ?_⟩ <;> rw [hsplit]
    · exact fun n => not_link_of_mem hlist hmem hlinks
    · exact fun hn l => filesUnder_of_mem hlist hmem hn
    · exact hlinks
  · rintro ⟨hread, hlink, hfiles, hlinks⟩
    rw [hsplit] at hlink hfiles hlinks
    obtain ⟨hsorted, hmem⟩ := mem_of_unlinked hlist hlink hfiles
    exact ⟨hwhole.mpr ⟨hread, hsorted, hmem⟩, (not_dir_iff hnames hmem).mpr hlinks⟩

/-- A directory with a file in it, beside a file and a link to that file. -/
def linkedTree : FileTree where
  entries := ⟨[([], .dir 0o755 true true), (["a"], .file 0o644 true [1]), (["link"], .symlink "a"),
    (["srcs"], .dir 0o755 true true), (["srcs", "main.rs"], .file 0o644 true [102, 110])], by decide⟩
  linkLimit := 40
  nameLimit := 255
  pathLimit := 4095
  root_dir := by decide
  parent_dir := by decide
  fileName := by decide

def linked : DirSource linkedTree := ⟨[], FileTree.isReachable_root⟩

theorem isWalkable_linked : ∀ l, linkedTree.IsWalkable l := FileTree.isWalkable_of_forall (by decide +kernel)

/-- One name is in order. -/
theorem list_of_singleton {start : Location} {name : String} (hpath : ¬ (path = "" ∨ path = "."))
    (hstart : d.resolve path = .ok start)
    (h : (if t.isDir start then d.walk fuel start else .found [d.relative start]).result = some (.ok [name])) :
    (d.list fuel path).result = some (.ok [name]) := by
  rw [list, if_neg hpath, hstart]
  show (sort _).result = _
  rw [sort, h]
  exact congrArg (fun out => some (Except.ok out)) (List.mergeSort_singleton name)

/-- Below the directory there is no link. -/
theorem restricts_srcs : (linked.list 3 "srcs").result = some (.ok ["srcs/main.rs"]) ∧
    linked.Restricts 3 "srcs" ["srcs/main.rs"] := by
  have hlist : (linked.list 3 "srcs").result = some (.ok ["srcs/main.rs"]) :=
    list_of_singleton (by decide) (by decide +kernel : linked.resolve "srcs" = .ok ["srcs"]) (by decide +kernel)
  have hsrcs : linkedTree.node? (linked.root ++ splitSlash "srcs") = some (.dir 0o755 true true) := by decide +kernel
  refine ⟨hlist, (restricts_iff linked (by decide +kernel) (by decide) hlist).mpr
    ⟨isWalkable_linked _, fun n hn => ?_, fun hnone => ?_, fun l n hl hn hlink => ?_⟩⟩
  · cases hsrcs.symm.trans hn
    rfl
  · cases hsrcs.symm.trans hnone
  · have hbelow := (by decide +kernel : ∀ e ∈ linkedTree.entries.rows,
      linked.root ++ splitSlash "srcs" <+: e.1 → e.2.isSymlink = false) _ (FileTree.node?_eq_some_iff.mp hn) hl
    rw [hlink] at hbelow
    cases hbelow

/-- The whole listing has the link, and the listing of the link has the file it leads to. -/
theorem not_restricts_link :
    (∃ all, (linked.list 3 "").result = some (.ok all) ∧ "link" ∈ all) ∧ normalize "link" = .ok "link" ∧
      (linked.list 3 "link").result = some (.ok ["a"]) ∧ ¬ linked.Restricts 3 "link" ["a"] := by
  refine ⟨?_, by decide +kernel, ?_, fun h => ?_⟩
  · have hdepth : linkedTree.depth < 3 := by decide
    obtain ⟨r, hr, hok, hout⟩ := linked.listFrom_result linked.isReachable List.prefix_rfl hdepth
    obtain ⟨all, rfl⟩ := hok.mpr (isWalkable_linked _)
    refine ⟨all, hr, ((hout all rfl).2 "link").mpr (List.mem_map.mpr ⟨["link"], ?_, by decide +kernel⟩)⟩
    exact FileTree.mem_filesUnder_iff.mpr ⟨List.nil_prefix, .symlink "a", by decide, rfl⟩
  · exact list_of_singleton (by decide) (by decide +kernel : linked.resolve "link" = .ok ["a"]) (by decide +kernel)
  · obtain ⟨all, -, -, hout⟩ := h.whole
    have hmem : "a" ∈ all.filter fun name => name = "link" ∨ ("link".toList ++ ['/']) <+: name.toList :=
      hout ▸ List.mem_singleton_self _
    exact absurd (of_decide_eq_true (List.mem_filter.mp hmem).2) (by decide)

end Satunera.Contracts.DirSource
