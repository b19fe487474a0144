import Satunera.Contracts.DirSource

/-!
# A directory source stays inside its root

Links may be absolute, contain `..`, dangle or form cycles: what is read and reported is at the root or below it, and
a listing ends there.

* `LeadsTo` : where a path leads under the root; `read_eq_ok_iff`, `isExecutable_eq_ok_iff` : what is read and reported
  is what is there;
* `lookup_of_no_links` : how looking a path up ends where there are no links;
* `list_contained` : listings; `contained` : the three calls.
-/

namespace Satunera.Contracts.DirSource

open Satunera.Base

variable {t : FileTree} {d : DirSource t} {path : String} {segments : List String}

/-- The location that a path leads to under the root. -/
def LeadsTo (d : DirSource t) (path : String) (l : Location) : Prop :=
  ∃ rel, normalize path = .ok rel ∧ t.realPath (d.root ++ splitSlash rel) = .ok l ∧ d.root <+: l

theorem LeadsTo.isReachable {l : Location} (h : d.LeadsTo path l) : t.IsReachable l := by
  obtain ⟨rel, -, hl, -⟩ := h
  exact FileTree.isReachable_of_realPath hl

/-- Nothing keeps the segments from being looked up under the root, but that there may be nothing there. -/
structure IsClear (d : DirSource t) (segments : List String) : Prop where
  no_nul : ∀ s ∈ segments, '\x00' ∉ s.toList
  not_throughFile : ¬ t.RunsThroughFile d.root segments
  passes : t.Passes d.root segments

/-- How looking up the segments under the root ends. -/
inductive Lookup (d : DirSource t) (segments : List String) : Except IoKind Location → Prop
  | found {n : Node} (hclear : d.IsClear segments) (hn : t.node? (d.root ++ segments) = some n) :
      d.Lookup segments (.ok (d.root ++ segments))
  | refused {e : IoKind} (he : e ≠ .notFound) (hclear : ¬ d.IsClear segments) : d.Lookup segments (.error e)
  | missing (hclear : d.IsClear segments) (hn : t.node? (d.root ++ segments) = none) :
      d.Lookup segments (.error .notFound)

/-- Under a root without links a path leads to itself or nowhere. -/
theorem lookup_of_no_links (hdir : t.IsDirAt d.root)
    (hlinks : ∀ l n, d.root <+: l → t.node? l = some n → n.isSymlink = false)
    (hsegments : ∀ s ∈ segments, IsSegment s) :
    d.Lookup segments (t.realPath (d.root ++ segments)) := by
  by_cases hnul : ∃ s ∈ segments, '\x00' ∈ s.toList
  · obtain ⟨s, hs, hnul⟩ := hnul
    rw [FileTree.realPath_of_nul (List.mem_append_right _ hs) hnul]
    exact .refused (by decide) fun hclear => hclear.no_nul s hs hnul
  · have hno : ∀ s ∈ segments, '\x00' ∉ s.toList := fun s hs hc => hnul ⟨s, hs, hc⟩
    have hname : ∀ s ∈ segments, IsFileName s := fun s hs => (hsegments s hs).isFileName (hno s hs)
    have hfollowed := FileTree.followed_of_no_links hdir hname fun p n _ => hlinks _ n (List.prefix_append ..)
    rw [FileTree.realPath_append hdir d.isReachable.passes hno]
    generalize hr : t.followSegments d.root segments = r at hfollowed
    cases hfollowed with
    | found hn hpasses =>
      rw [FileTree.followLinks_of_inl hr]
      exact .found ⟨hno, FileTree.not_runsThroughFile hn, hpasses⟩ hn
    | refused he h =>
      rw [FileTree.followLinks_of_error hr]
      exact .refused he fun hclear => h.elim hclear.not_throughFile fun hrefused => hrefused hclear.passes
    | missing hthrough hpasses hn =>
      rw [FileTree.followLinks_of_error hr]
      exact .missing ⟨hno, hthrough, hpasses⟩ hn

/-- What is read is the file that the path leads to. -/
theorem read_eq_ok_iff {data : List UInt8} : d.read path = .ok data ↔
    ∃ l mode, d.LeadsTo path l ∧ t.node? l = some (.file mode true data) := by
  rw [read, bind_eq_ok_iff]
  constructor
  · rintro ⟨l, hl, h⟩
    have hleads : d.LeadsTo path l := resolve_eq_ok_iff.mp hl
    split at h
    · cases hrel : normalize path <;> rw [hrel] at h <;> cases h
    · split at h
      · rename_i data' hdata
        cases h
        obtain ⟨mode, hn⟩ := (FileTree.readFile_eq_ok_iff hleads.isReachable).mp hdata
        exact ⟨l, mode, hleads, hn⟩
      · cases h
  · rintro ⟨l, mode, hleads, hn⟩
    refine ⟨l, resolve_eq_ok_iff.mpr hleads, ?_⟩
    have hdir : t.isDir l = false := FileTree.isDir_of_isReachable hleads.isReachable hn
    rw [hdir, (FileTree.readFile_eq_ok_iff hleads.isReachable).mpr ⟨mode, hn⟩]
    rfl

/-- What is reported is the mode of the entry that the path leads to. -/
theorem isExecutable_eq_ok_iff {x : Bool} : d.isExecutable path = .ok x ↔
    ∃ l n, d.LeadsTo path l ∧ t.node? l = some n ∧ x = modeIsExecutable n.mode := by
  rw [isExecutable, bind_eq_ok_iff]
  constructor
  · rintro ⟨l, hl, h⟩
    have hleads : d.LeadsTo path l := resolve_eq_ok_iff.mp hl
    obtain ⟨n, hn, -⟩ := hleads.isReachable.exists_node
    rw [FileTree.metadata_of_isReachable hleads.isReachable hn] at h
    exact ⟨l, n, hleads, hn, (Except.ok.inj h).symm⟩
  · rintro ⟨l, n, hleads, hn, rfl⟩
    refine ⟨l, resolve_eq_ok_iff.mpr hleads, ?_⟩
    rw [FileTree.metadata_of_isReachable hleads.isReachable hn]
    rfl

/-- The walk stayed under the root, on paths without links, and its names are those of entries there, in order. -/
structure StaysInside (d : DirSource t) (w : Walk) : Prop where
  ended : w.result.isSome
  opened : ∀ p ∈ w.opened, p.1 = p.2 ∧ d.root <+: p.2 ∧ t.IsDirAt p.2
  names : ∀ out, w.result = some (.ok out) → out.Pairwise (· < ·) ∧
    ∀ name ∈ out, ∃ l n, d.root <+: l ∧ t.node? l = some n ∧ name = d.relative l

theorem staysInside_listFrom {start : Location} (hstart : t.IsReachable start) (hroot : d.root <+: start) {fuel : Nat}
    (hfuel : t.depth < fuel) : d.StaysInside (d.listFrom fuel start) := by
  obtain ⟨r, hr, -, hout⟩ := d.listFrom_result hstart hroot hfuel
  refine ⟨by rw [hr]; rfl, fun p hp => ?_, fun out ho => ?_⟩
  · obtain ⟨heq, hpre, hdir⟩ := d.listFrom_opens hstart fuel p hp
    exact ⟨heq, hroot.trans hpre, hdir⟩
  · rw [hr] at ho
    obtain ⟨hsorted, hmem⟩ := hout out (Option.some.inj ho)
    refine ⟨hsorted, fun name hname => ?_⟩
    obtain ⟨l, hl, rfl⟩ := List.mem_map.mp ((hmem name).mp hname)
    obtain ⟨hpre, n, hn, -⟩ := FileTree.mem_filesUnder_iff.mp hl
    exact ⟨l, n, hroot.trans hpre, hn, rfl⟩

theorem staysInside_fail (e : SourceError) : d.StaysInside (.fail e) :=
  ⟨rfl, nofun, nofun⟩

theorem staysInside_found_nil : d.StaysInside (.found []) := by
  refine ⟨rfl, nofun, fun out ho => ?_⟩
  obtain rfl := Except.ok.inj (Option.some.inj ho)
  exact ⟨.nil, nofun⟩

/-- With fuel for the depth of the tree a listing ends, inside the root, and more fuel changes nothing. -/
theorem list_contained (d : DirSource t) (path : String) :
    ∃ w : Walk, (∀ fuel, t.depth < fuel → d.list fuel path = w) ∧ d.StaysInside w := by
  by_cases hpath : path = "" ∨ path = "."
  · refine ⟨d.listFrom (t.depth + 1) d.root, fun fuel hfuel => ?_, ?_⟩
    · rw [list, if_pos hpath, d.listFrom_eq_of_depth_lt d.isReachable hfuel (Nat.lt_succ_self _)]
    · exact staysInside_listFrom d.isReachable List.prefix_rfl (Nat.lt_succ_self _)
  · cases hresolve : d.resolve path with
    | ok start =>
      have hleads : d.LeadsTo path start := resolve_eq_ok_iff.mp hresolve
      obtain ⟨rel, -, -, hroot⟩ := id hleads
      refine ⟨d.listFrom (t.depth + 1) start, fun fuel hfuel => ?_, ?_⟩
      · rw [list, if_neg hpath, hresolve]
        exact d.listFrom_eq_of_depth_lt hleads.isReachable hfuel (Nat.lt_succ_self _)
      · exact staysInside_listFrom hleads.isReachable hroot (Nat.lt_succ_self _)
    | error e =>
      cases e with
      | notFound p =>
        refine ⟨.found [], fun fuel _ => ?_, staysInside_found_nil⟩
        rw [list, if_neg hpath, hresolve]
      | isDirectory p =>
        refine ⟨.fail (.isDirectory p), fun fuel _ => ?_, staysInside_fail _⟩
        rw [list, if_neg hpath, hresolve]
      | escapes p =>
        refine ⟨.fail (.escapes p), fun fuel _ => ?_, staysInside_fail _⟩
        rw [list, if_neg hpath, hresolve]
      | io p k =>
        refine ⟨.fail (.io p k), fun fuel _ => ?_, staysInside_fail _⟩
        rw [list, if_neg hpath, hresolve]

/-- **Whatever the links, what is read or reported is an entry at the root or below it, and a listing ends, enters only
directories there by paths without links, and returns names of entries there, sorted and without repetition.** -/
theorem contained (t : FileTree) (d : DirSource t) (path : String) :
    (∀ data, d.read path = .ok data →
      ∃ l mode, d.LeadsTo path l ∧ d.root <+: l ∧ t.node? l = some (.file mode true data)) ∧
    (∀ x, d.isExecutable path = .ok x →
      ∃ l n, d.LeadsTo path l ∧ d.root <+: l ∧ t.node? l = some n ∧ x = modeIsExecutable n.mode) ∧
    ∃ w : Walk, (∀ fuel, t.depth < fuel → d.list fuel path = w) ∧ d.StaysInside w := by
  refine ⟨fun data h => ?_, fun x h => ?_, d.list_contained path⟩
  · obtain ⟨l, mode, hleads, hn⟩ := read_eq_ok_iff.mp h
    obtain ⟨-, -, -, hroot⟩ := id hleads
    exact ⟨l, mode, hleads, hroot, hn⟩
  · obtain ⟨l, n, hleads, hn, hx⟩ := isExecutable_eq_ok_iff.mp h
    obtain ⟨-, -, -, hroot⟩ := id hleads
    exact ⟨l, n, hleads, hroot, hn, hx⟩

end Satunera.Contracts.DirSource
