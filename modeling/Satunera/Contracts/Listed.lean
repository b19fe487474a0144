import Satunera.Contracts.Containment

/-!
# Reading what is listed

A listing names files by the entries of their directories, and a name is normalized before it is read.

* `ReadsBack` : a file is listed, and what is read at its name is the file itself;
* `ByLink`, `leadsTo_relative`, `byLink_of_leadsTo`, `leadsTo_of_byLink` : where such a name leads;
* `readsBack_iff` : a file reads back exactly if its name has no `:`, and no `\` or a link in its place.
-/

namespace Satunera.Contracts.DirSource

open Satunera.Base

variable {t : FileTree} {d : DirSource t} {l : Location} {fuel : Nat}

/-- The file at a location is listed, and at the name it is listed under it is found, read and reported. -/
structure ReadsBack (d : DirSource t) (fuel : Nat) (l : Location) (mode : UInt32) (data : List UInt8) : Prop where
  listed : ∃ all, (d.list fuel "").result = some (.ok all) ∧ d.relative l ∈ all
  found : d.LeadsTo (d.relative l) l
  read : d.read (d.relative l) = .ok data
  isExecutable : d.isExecutable (d.relative l) = .ok (modeIsExecutable mode)

/-- On the way along the segments from the root stands a link, and along its target and then the other segments the way
leads to the location, through no more links than allowed. -/
def ByLink (d : DirSource t) (segments : List String) (l : Location) : Prop :=
  ∃ p name rest target k, segments = p ++ name :: rest ∧ t.node? (d.root ++ p ++ [name]) = some (.symlink target) ∧
    k < t.linkLimit ∧ t.Leads k (FileTree.linkStart (d.root ++ p) target) (splitSlash target ++ rest) l

/-- The whole tree can be listed, the location is not the root itself, and no part of its name has a `:`. No part has a
`\` either, unless among the segments that its name falls into at `/` and `\` there is a link that goes on to it. -/
structure IsReadable (d : DirSource t) (l : Location) : Prop where
  isWalkable : t.IsWalkable d.root
  ne_root : l ≠ d.root
  no_colon : ∀ s ∈ l.drop d.root.length, ':' ∉ s.toList
  no_backslash : (∃ s ∈ l.drop d.root.length, '\\' ∈ s.toList) →
    ∃ segments, Names (d.relative l) segments ∧ d.ByLink segments l

/-! ## Names and paths -/

/-- Without `:` and `\` the name of an entry is a path already. -/
theorem leadsTo_relative (hroot : d.root <+: l) (hreach : t.IsReachable l) (hne : l ≠ d.root)
    (hcolon : ∀ s ∈ l.drop d.root.length, ':' ∉ s.toList)
    (hbackslash : ∀ s ∈ l.drop d.root.length, '\\' ∉ s.toList) : d.LeadsTo (d.relative l) l := by
  obtain ⟨segments, rfl⟩ := hroot
  obtain ⟨n, hn, -⟩ := hreach.exists_node
  rw [List.drop_left] at hcolon hbackslash
  have hsegments : ∀ s ∈ segments, IsSegment s := by
    intro s hs
    obtain ⟨hempty, hdot, hdots, hslash, -⟩ := FileTree.isFileName_of_node? hn (List.mem_append_right _ hs)
    exact ⟨hempty, hdot, hdots, hslash, hcolon s hs, hbackslash s hs⟩
  have hnil : segments ≠ [] := by
    rintro rfl
    exact hne (List.append_nil _)
  have hnames := names_joinSlash hnil hsegments
  rw [relative_append]
  refine ⟨_, hnames.normalize_eq, ?_, List.prefix_append ..⟩
  rw [hnames.splitSlash_eq]
  exact FileTree.realPath_of_isReachable hreach

/-- The name of an entry that leads somewhere has no `:`. -/
theorem no_colon_of_leadsTo {l' : Location} (hroot : d.root <+: l) (h : d.LeadsTo (d.relative l) l') :
    ∀ s ∈ l.drop d.root.length, ':' ∉ s.toList := by
  obtain ⟨rel, hrel, -⟩ := h
  intro s hs hc
  rw [relative_of_under d hroot] at hrel
  exact (normalize_eq_ok_iff.mp hrel).2.1 (colon_mem_trimmed (mem_toList_joinSlash hs hc))

theorem ne_root_of_leadsTo {l' : Location} (h : d.LeadsTo (d.relative l) l') : l ≠ d.root := by
  rintro rfl
  obtain ⟨rel, hrel, -⟩ := h
  rw [relative_of_under d List.prefix_rfl, List.drop_length] at hrel
  cases hrel

/-- A name with a `\` leads back to its entry only by a link. -/
theorem byLink_of_leadsTo (hdir : t.IsDirAt d.root)
    (hbackslash : ∃ s ∈ l.drop d.root.length, '\\' ∈ s.toList) (h : d.LeadsTo (d.relative l) l) :
    ∃ segments, Names (d.relative l) segments ∧ d.ByLink segments l := by
  obtain ⟨rel, hrel, hreal, -⟩ := h
  obtain ⟨segments, hnames, rfl⟩ := exists_names hrel
  rw [hnames.splitSlash_eq] at hreal
  have hnul : ∀ s ∈ segments, '\x00' ∉ s.toList := by
    intro s hs hc
    rw [FileTree.realPath_of_nul (List.mem_append_right _ hs) hc] at hreal
    cases hreal
  have hfile : ∀ s ∈ segments, IsFileName s := fun s hs => (hnames.isSegment s hs).isFileName (hnul s hs)
  rw [FileTree.realPath_append hdir d.isReachable.passes hnul] at hreal
  obtain ⟨k, hk, hleads⟩ := FileTree.followLinks_eq_ok_iff.mp hreal
  rcases hleads.of_names hfile with rfl | ⟨p, name, rest, target, k', hsplit, hn, rfl, hnext⟩
  · -- Without a link it would be the entry of the normalized name, which has no `\`.
    obtain ⟨s, hs, hc⟩ := hbackslash
    rw [List.drop_left] at hs
    exact absurd hc (hnames.isSegment s hs).no_backslash
  · exact ⟨segments, hnames, p, name, rest, target, k', hsplit, hn, hk, hnext⟩

theorem no_nul_of_names {n : Node} (hroot : d.root <+: l) (hn : t.node? l = some n) {segments : List String}
    (hnames : Names (d.relative l) segments) : ∀ s ∈ segments, '\x00' ∉ s.toList := by
  intro s hs hc
  have hmem := hnames.mem_toList hs hc
  rw [relative_of_under d hroot] at hmem
  rcases mem_joinSlash hmem with hslash | ⟨name, hname, hnul⟩
  · exact absurd hslash (by decide)
  · exact (FileTree.isFileName_of_node? hn (List.mem_of_mem_drop hname)).no_nul hnul

theorem leadsTo_of_byLink (hroot : d.root <+: l) (hwalk : t.IsWalkable d.root) {segments : List String}
    (hnames : Names (d.relative l) segments) (hnul : ∀ s ∈ segments, '\x00' ∉ s.toList) (h : d.ByLink segments l) :
    d.LeadsTo (d.relative l) l := by
  obtain ⟨p, name, rest, target, k, rfl, hn, hk, hnext⟩ := h
  have hlast : t.IsDirAt (d.root ++ p) := FileTree.isDirAt_of_append hn (List.cons_ne_nil name [])
  obtain ⟨n, hdirn, -⟩ := id hlast
  have hdir : t.IsDirAt d.root := by
    rw [List.append_assoc] at hn
    exact FileTree.isDirAt_of_append hn (by simp)
  have hpasses : t.Passes d.root (p ++ [name]) :=
    FileTree.passes_of_isWalkable hwalk (by rwa [← List.append_assoc])
  obtain ⟨hp, hname⟩ := FileTree.passes_append_iff.mp hpasses
  refine ⟨_, hnames.normalize_eq, ?_, hroot⟩
  rw [hnames.splitSlash_eq, FileTree.realPath_append hdir d.isReachable.passes hnul,
    FileTree.followLinks_congr (FileTree.followSegments_append hp hdirn (hlast.isSymlink hdirn) _),
    FileTree.followLinks_eq_ok_iff]
  exact ⟨k + 1, hk, .link ((FileTree.passes_singleton_iff hlast).mp hname) hn hnext⟩

/-! ## Files -/

/-- **A readable file under the root is listed, and read as itself with its own executable bit, exactly if the tree can
be listed and its name has no `:`, and no `\` either unless a link in its place leads back to it.** -/
theorem readsBack_iff (d : DirSource t) {l : Location} (hroot : d.root <+: l) {mode : UInt32} {data : List UInt8}
    (hn : t.node? l = some (.file mode true data)) {fuel : Nat} (hfuel : t.depth < fuel) :
    d.ReadsBack fuel l mode data ↔ d.IsReadable l := by
  have hlist : d.list fuel "" = d.listFrom fuel d.root := if_pos (Or.inl rfl)
  have hdir : l ≠ d.root → t.IsDirAt d.root := by
    obtain ⟨below, rfl⟩ := hroot
    intro hne
    exact FileTree.isDirAt_of_append hn fun h => hne (by rw [h, List.append_nil])
  constructor
  · rintro ⟨⟨all, hall, -⟩, hfound, -, -⟩
    rw [hlist, d.listFrom_eq_ok_iff d.isReachable List.prefix_rfl hfuel] at hall
    have hne := ne_root_of_leadsTo hfound
    exact ⟨hall.1, hne, no_colon_of_leadsTo hroot hfound, fun h => byLink_of_leadsTo (hdir hne) h hfound⟩
  · rintro ⟨hwalk, hne, hcolon, hbackslash⟩
    have hfound : d.LeadsTo (d.relative l) l := by
      by_cases h : ∃ s ∈ l.drop d.root.length, '\\' ∈ s.toList
      · obtain ⟨segments, hnames, hlink⟩ := hbackslash h
        exact leadsTo_of_byLink hroot hwalk hnames (no_nul_of_names hroot hn hnames) hlink
      · obtain ⟨below, rfl⟩ := hroot
        have hpasses := FileTree.passes_append_iff.mpr ⟨d.isReachable.passes, FileTree.passes_of_isWalkable hwalk hn⟩
        exact leadsTo_relative (List.prefix_append ..) ⟨⟨_, hn, rfl⟩, hpasses⟩ hne hcolon fun s hs hc => h ⟨s, hs, hc⟩
    obtain ⟨r, hr, hok, hout⟩ := d.listFrom_result d.isReachable List.prefix_rfl hfuel
    obtain ⟨all, rfl⟩ := hok.mpr hwalk
    refine ⟨⟨all, hlist ▸ hr, ?_⟩, hfound, read_eq_ok_iff.mpr ⟨l, mode, hfound, hn⟩,
      isExecutable_eq_ok_iff.mpr ⟨l, _, hfound, hn, rfl⟩⟩
    rw [(hout all rfl).2]
    exact List.mem_map_of_mem (FileTree.mem_filesUnder_iff.mpr ⟨hroot, _, hn, rfl⟩)

/-- A file `a\b` beside a directory `a` with a file `b`. -/
def slashedTree : FileTree where
  entries := ⟨[([], .dir 0o755 true true), (["a\\b"], .file 0o644 true [1]), (["a"], .dir 0o755 true true),
    (["a", "b"], .file 0o755 true [2])], by decide⟩
  linkLimit := 40
  nameLimit := 255
  pathLimit := 4095
  root_dir := by decide
  parent_dir := by decide
  fileName := by decide

/-- The same with a link `b` to that file in its place, and a file `c`. -/
def mirroredTree : FileTree where
  entries := ⟨[([], .dir 0o755 true true), (["a\\b"], .file 0o644 true [1]), (["a"], .dir 0o755 true true),
    (["a", "b"], .symlink "../a\\b"), (["a", "c"], .file 0o755 true [2])], by decide⟩
  linkLimit := 40
  nameLimit := 255
  pathLimit := 4095
  root_dir := by decide
  parent_dir := by decide
  fileName := by decide

def slashed : DirSource slashedTree := ⟨[], FileTree.isReachable_root⟩

def mirrored : DirSource mirroredTree := ⟨[], FileTree.isReachable_root⟩

theorem isWalkable_slashed : ∀ l, slashedTree.IsWalkable l := FileTree.isWalkable_of_forall (by decide +kernel)

theorem isWalkable_mirrored : ∀ l, mirroredTree.IsWalkable l := FileTree.isWalkable_of_forall (by decide +kernel)

theorem byLink_mirrored : mirrored.ByLink ["a", "b"] ["a\\b"] := by
  refine ⟨["a"], "b", [], "../a\\b", 0, rfl, by decide, by decide, ?_⟩
  rw [show splitSlash "../a\\b" ++ [] = ["..", "a\\b"] by decide +kernel]
  refine .dots ⟨_, (by decide : mirroredTree.node? ["a"] = some (.dir 0o755 true true)), rfl⟩ (by decide) ?_
  exact .entry (by decide +kernel) (by decide : mirroredTree.node? ["a\\b"] = some (.file 0o644 true [1])) rfl .here

/-- With the link both files read back. -/
theorem readsBack_mirrored : mirrored.ReadsBack 3 ["a", "c"] 0o755 [2] ∧ mirrored.ReadsBack 3 ["a\\b"] 0o644 [1] := by
  constructor
  · refine (readsBack_iff mirrored List.nil_prefix (by decide : mirroredTree.node? ["a", "c"] = _) (by decide)).mpr
      ⟨isWalkable_mirrored _, by decide, by decide, ?_⟩
    intro h
    exact absurd h (by decide)
  · refine (readsBack_iff mirrored List.nil_prefix (by decide : mirroredTree.node? ["a\\b"] = _) (by decide)).mpr
      ⟨isWalkable_mirrored _, by decide, by decide, ?_⟩
    intro _
    exact ⟨["a", "b"], ⟨by decide +kernel, by decide, by decide⟩, byLink_mirrored⟩

/-- Without it the first one is listed as well, and what is read is the one in the directory. -/
theorem not_readsBack_slashed : slashedTree.node? ["a\\b"] = some (.file 0o644 true [1]) ∧
    (∃ all, (slashed.list 3 "").result = some (.ok all) ∧ "a\\b" ∈ all) ∧ slashed.read "a\\b" = .ok [2] ∧
      slashed.isExecutable "a\\b" = .ok true ∧ ¬ slashed.ReadsBack 3 ["a\\b"] 0o644 [1] := by
  refine ⟨by decide, ?_, by decide +kernel, by decide +kernel, fun h => ?_⟩
  · obtain ⟨r, hr, hok, hout⟩ := slashed.listFrom_result slashed.isReachable List.prefix_rfl
      (by decide : slashedTree.depth < 3)
    obtain ⟨all, rfl⟩ := hok.mpr (isWalkable_slashed _)
    refine ⟨all, hr, ((hout all rfl).2 "a\\b").mpr (List.mem_map.mpr ⟨["a\\b"], ?_, by decide +kernel⟩)⟩
    exact FileTree.mem_filesUnder_iff.mpr ⟨List.nil_prefix, .file 0o644 true [1], by decide, rfl⟩
  · have hread := h.read
    rw [show slashed.read (slashed.relative ["a\\b"]) = .ok [2] by decide +kernel] at hread
    cases hread

end Satunera.Contracts.DirSource
