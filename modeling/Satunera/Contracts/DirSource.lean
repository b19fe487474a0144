import Satunera.Contracts.Source

/-!
# A problem directory on disk

* `DirSource` : a root, resolved once;
* `DirSource.resolve` : the location of a path, refused when it leaves the root;
* `DirSource.walk`, `DirSource.read`, `DirSource.list`, `DirSource.isExecutable` : the code. A walk takes fuel and
  records the directories it enters;
* `walk_lists`, `walk_opens`, `walk_eq_of_depth_lt` : what a walk with enough fuel returns, where it goes, and that
  more fuel changes nothing.
-/

namespace Satunera.Contracts

open Satunera.Base

/-! ## Walks -/

/-- What a walk did: the directories it entered, each with the path it took and the location it led to, and the names
it found. There is no result where the fuel ran out. -/
structure Walk where
  opened : List (List String × Location)
  result : Option (Except SourceError (List String))

namespace Walk

def found (out : List String) : Walk := ⟨[], some (.ok out)⟩

def fail (e : SourceError) : Walk := ⟨[], some (.error e)⟩

/-- One after the other; the second does not start unless the first succeeds. -/
def andThen (w w' : Walk) : Walk :=
  match w.result with
  | some (.ok out) => ⟨w.opened ++ w'.opened, w'.result.map fun r => r.map (out ++ ·)⟩
  | _ => w

end Walk

/-! ## The source -/

/-- A problem directory on disk. Its root was resolved. -/
structure DirSource (t : FileTree) where
  root : Location
  isReachable : t.IsReachable root

namespace DirSource
variable {t : FileTree}

def new (t : FileTree) (root : String) : Except SourceError (DirSource t) :=
  match h : t.realPath (splitSlash root) with
  | .ok canonical => .ok ⟨canonical, FileTree.isReachable_of_realPath h⟩
  | .error e => .error (.io root e)

variable (d : DirSource t)

/-- Where a path leads, if it stays under the root. -/
def resolve (path : String) : Except SourceError Location := do
  let rel ← normalize path
  match t.realPath (d.root ++ splitSlash rel) with
  | .error .notFound => .error (.notFound rel)
  | .error e => .error (.io rel e)
  | .ok canonical => if d.root <+: canonical then return canonical else .error (.escapes rel)

/-- A location as seen from the root. -/
def relative (path : Location) : String := joinSlash (if d.root <+: path then path.drop d.root.length else path)

/-- Every name below a directory. A link is listed and not followed. -/
def walk : Nat → Location → Walk
  | 0, _ => ⟨[], none⟩
  | fuel + 1, dir =>
    match t.readDir dir with
    | .error e => .fail (.io (d.relative dir) e)
    | .ok (location, names) =>
      let entry (name : String) : Walk :=
        match t.symlinkMetadata dir name with
        | .error e => .fail (.io (d.relative (dir ++ [name])) e)
        | .ok node =>
          if node.isDir then walk fuel (dir ++ [name]) else .found [d.relative (dir ++ [name])]
      Walk.andThen ⟨[(dir, location)], some (.ok [])⟩
        (names.foldr (fun name rest => (entry name).andThen rest) (.found []))

def read (path : String) : Except SourceError (List UInt8) := do
  let resolved ← d.resolve path
  if t.isDir resolved then
    let rel ← normalize path
    .error (.isDirectory rel)
  else
    match t.readFile resolved with
    | .ok data => return data
    | .error e => .error (.io ((normalize path).toOption.getD path) e)

def sort (w : Walk) : Walk := ⟨w.opened, w.result.map fun r => r.map fun out => out.mergeSort fun a b => a ≤ b⟩

/-- Every file at a location or below it. -/
def listFrom (fuel : Nat) (start : Location) : Walk :=
  sort (if t.isDir start then d.walk fuel start else .found [d.relative start])

def list (fuel : Nat) (path : String) : Walk :=
  if path = "" ∨ path = "." then d.listFrom fuel d.root
  else
    match d.resolve path with
    | .ok start => d.listFrom fuel start
    | .error (.notFound _) => .found []
    | .error e => .fail e

def isExecutable (path : String) : Except SourceError Bool := do
  let resolved ← d.resolve path
  match t.metadata resolved with
  | .ok node => return modeIsExecutable node.mode
  | .error e => .error (.io ((normalize path).toOption.getD path) e)

end DirSource

/-! ## What a walk returns -/

namespace Walk
variable {w w' : Walk} {good good' : Prop} {files files' : List String}

/-- The walk ended. It succeeded if `good`, and then found `files` in some order. -/
def Lists (w : Walk) (good : Prop) (files : List String) : Prop :=
  ∃ r, w.result = some r ∧ ((∃ out, r = .ok out) ↔ good) ∧ ∀ out, r = .ok out → out.Perm files

theorem Lists.congr (h : w.Lists good files) (hgood : good ↔ good') (hfiles : files.Perm files') :
    w.Lists good' files' := by
  obtain ⟨r, hr, hok, hout⟩ := h
  exact ⟨r, hr, hok.trans hgood, fun out ho => (hout out ho).trans hfiles⟩

theorem lists_found (out : List String) : (found out).Lists True out :=
  ⟨_, rfl, ⟨fun _ => trivial, fun _ => ⟨out, rfl⟩⟩, fun _ ho => Except.ok.inj ho ▸ .refl _⟩

theorem lists_fail (e : SourceError) (hgood : ¬ good) : (fail e).Lists good files :=
  ⟨_, rfl, ⟨nofun, fun h => absurd h hgood⟩, nofun⟩

theorem Lists.andThen (h : w.Lists good files) (h' : w'.Lists good' files') :
    (w.andThen w').Lists (good ∧ good') (files ++ files') := by
  obtain ⟨r, hr, hok, hout⟩ := h
  obtain ⟨r', hr', hok', hout'⟩ := h'
  cases r with
  | error e =>
    refine ⟨.error e, by simp only [Walk.andThen, hr], ⟨nofun, fun hg => ?_⟩, nofun⟩
    obtain ⟨out, ho⟩ := hok.mpr hg.1
    cases ho
  | ok out =>
    refine ⟨r'.map (out ++ ·), by simp only [Walk.andThen, hr, hr', Option.map_some], ?_, fun out' ho => ?_⟩
    · rw [and_iff_right (hok.mp ⟨out, rfl⟩), ← hok']
      simp only [map_eq_ok_iff]
      exact ⟨fun ⟨_, a, ha, _⟩ => ⟨a, ha⟩, fun ⟨a, ha⟩ => ⟨_, a, ha, rfl⟩⟩
    · obtain ⟨a, ha, rfl⟩ := map_eq_ok_iff.mp ho
      exact (hout out rfl).append (hout' a ha)

theorem lists_foldr {entry : String → Walk} {goodOf : String → Prop} {filesOf : String → List String}
    {names : List String} (h : ∀ name ∈ names, (entry name).Lists (goodOf name) (filesOf name)) :
    (names.foldr (fun name rest => (entry name).andThen rest) (.found [])).Lists (∀ name ∈ names, goodOf name)
      (names.flatMap filesOf) := by
  induction names with
  | nil => exact (lists_found []).congr (by simp) (.refl _)
  | cons name names ih =>
    obtain ⟨hname, hnames⟩ := List.forall_mem_cons.mp h
    exact (hname.andThen (ih hnames)).congr (by rw [List.forall_mem_cons]) (by rw [List.flatMap_cons])

/-- Every directory the walk entered is as `P` says, the path it took first. -/
def Opens (w : Walk) (P : List String → Location → Prop) : Prop := ∀ p ∈ w.opened, P p.1 p.2

theorem Opens.andThen {P : List String → Location → Prop} (h : w.Opens P) (h' : w'.Opens P) :
    (w.andThen w').Opens P := by
  unfold Walk.andThen
  split
  · intro p hp
    rcases List.mem_append.mp hp with hp | hp
    · exact h p hp
    · exact h' p hp
  · exact h

theorem opens_foldr {entry : String → Walk} {P : List String → Location → Prop} {names : List String}
    (h : ∀ name ∈ names, (entry name).Opens P) :
    (names.foldr (fun name rest => (entry name).andThen rest) (.found [])).Opens P := by
  induction names with
  | nil => nofun
  | cons name names ih =>
    obtain ⟨hname, hnames⟩ := List.forall_mem_cons.mp h
    exact hname.andThen (ih hnames)

end Walk

namespace DirSource
variable {t : FileTree} (d : DirSource t)

/-- What a walk does about an entry. -/
def walkEntry (fuel : Nat) (dir : Location) (name : String) : Walk :=
  match t.symlinkMetadata dir name with
  | .error e => .fail (.io (d.relative (dir ++ [name])) e)
  | .ok node => if node.isDir then d.walk fuel (dir ++ [name]) else .found [d.relative (dir ++ [name])]

section Steps
variable {d} {fuel : Nat} {dir : Location} {n : Node}

theorem walk_of_readable (hreach : t.IsReachable dir) (hn : t.node? dir = some n) (hdir : n.isDir = true)
    (hread : n.readable = true) :
    d.walk (fuel + 1) dir = Walk.andThen ⟨[(dir, dir)], some (.ok [])⟩
      ((t.children dir).foldr (fun name rest => (d.walkEntry fuel dir name).andThen rest) (.found [])) := by
  rw [walk, FileTree.readDir_of_isReachable hreach hn hdir, if_pos hread]
  rfl

theorem walk_of_unreadable (hreach : t.IsReachable dir) (hn : t.node? dir = some n) (hdir : n.isDir = true)
    (hread : n.readable = false) : d.walk (fuel + 1) dir = .fail (.io (d.relative dir) .permissionDenied) := by
  rw [walk, FileTree.readDir_of_isReachable hreach hn hdir, hread]
  rfl

theorem walkEntry_of_refused (hreach : t.IsReachable dir) {name : String} (h : ¬ t.Admits dir name) :
    ∃ e, ∀ fuel, d.walkEntry fuel dir name = .fail e := by
  obtain ⟨e, -, he⟩ := FileTree.lookup_of_not_admits h
  refine ⟨.io (d.relative (dir ++ [name])) e, fun fuel => ?_⟩
  rw [walkEntry, FileTree.symlinkMetadata_of_isReachable hreach, he]

theorem walkEntry_of_dir (hreach : t.IsReachable dir) {name : String} (hadmits : t.Admits dir name)
    (hn : t.node? (dir ++ [name]) = some n) (h : n.isDir = true) :
    d.walkEntry fuel dir name = d.walk fuel (dir ++ [name]) := by
  rw [walkEntry, FileTree.symlinkMetadata_of_isReachable hreach, FileTree.lookup_eq_ok_iff.mpr ⟨hadmits, hn⟩]
  exact if_pos h

theorem walkEntry_of_file (hreach : t.IsReachable dir) {name : String} (hadmits : t.Admits dir name)
    (hn : t.node? (dir ++ [name]) = some n) (h : n.isDir = false) :
    d.walkEntry fuel dir name = .found [d.relative (dir ++ [name])] := by
  rw [walkEntry, FileTree.symlinkMetadata_of_isReachable hreach, FileTree.lookup_eq_ok_iff.mpr ⟨hadmits, hn⟩]
  simp only [h, Bool.false_eq_true, if_false]

end Steps

/-- The directories in a directory are reached through it. -/
theorem isReachable_child {dir : Location} (hreach : t.IsReachable dir) (hdir : t.IsDirAt dir) {name : String}
    (hadmits : t.Admits dir name) {m : Node} (hm : t.node? (dir ++ [name]) = some m) (hmdir : m.isDir = true) :
    t.IsReachable (dir ++ [name]) :=
  .child hreach.passes hdir hadmits hm (FileTree.IsDirAt.isSymlink ⟨m, hm, hmdir⟩ hm)

/-- With fuel for the depth of the tree a walk ends. It succeeds if every directory can be read and searched, and then
found every file below. -/
theorem walk_lists {fuel : Nat} {dir : Location} (hreach : t.IsReachable dir) (hdir : t.IsDirAt dir)
    (hfuel : t.depth < fuel + dir.length) :
    (d.walk fuel dir).Lists (t.IsWalkable dir) ((t.filesUnder dir).map d.relative) := by
  induction fuel generalizing dir with
  | zero =>
    obtain ⟨n, hn, -⟩ := hdir
    have := FileTree.length_le_depth hn
    omega
  | succ fuel ih =>
    obtain ⟨n, hn, hisDir⟩ := id hdir
    cases hread : n.readable with
    | false =>
      rw [walk_of_unreadable hreach hn hisDir hread]
      refine Walk.lists_fail _ fun h => ?_
      rw [(h dir n List.prefix_rfl hn hisDir).1] at hread
      cases hread
    | true =>
      rw [walk_of_readable hreach hn hisDir hread]
      have hentry : ∀ name ∈ t.children dir, (d.walkEntry fuel dir name).Lists
          (t.Admits dir name ∧ t.IsWalkable (dir ++ [name])) ((t.filesUnder (dir ++ [name])).map d.relative) := by
        intro name hname
        obtain ⟨m, hm⟩ := FileTree.mem_children_iff.mp hname
        by_cases hadmits : t.Admits dir name
        · cases hmdir : m.isDir with
          | true =>
            rw [walkEntry_of_dir hreach hadmits hm hmdir, and_iff_right hadmits]
            refine ih (isReachable_child hreach hdir hadmits hm hmdir) ⟨m, hm, hmdir⟩ ?_
            rw [List.length_append, List.length_singleton]
            omega
          | false =>
            rw [walkEntry_of_file hreach hadmits hm hmdir]
            exact (Walk.lists_found _).congr
              (iff_of_true trivial ⟨hadmits, FileTree.isWalkable_of_file hm hmdir⟩)
              ((FileTree.filesUnder_of_file hm hmdir).map d.relative).symm
        · obtain ⟨e, he⟩ := d.walkEntry_of_refused hreach hadmits
          rw [he]
          exact Walk.lists_fail _ fun h => hadmits h.1
      have hstart : Walk.Lists ⟨[(dir, dir)], some (.ok [])⟩ True [] := Walk.lists_found []
      refine (hstart.andThen (Walk.lists_foldr hentry)).congr ?_ ?_
      · rw [FileTree.isWalkable_iff hn hisDir, and_iff_right trivial, and_iff_right hread]
      · rw [List.nil_append, ← List.map_flatMap]
        exact ((FileTree.filesUnder_of_dir hdir).map d.relative).symm

/-- A walk enters only directories below the one it starts from, by paths without links. -/
theorem walk_opens {fuel : Nat} {dir : Location} (hreach : t.IsReachable dir) (hdir : t.IsDirAt dir) :
    (d.walk fuel dir).Opens fun path l => path = l ∧ dir <+: l ∧ t.IsDirAt l := by
  induction fuel generalizing dir with
  | zero => nofun
  | succ fuel ih =>
    obtain ⟨n, hn, hisDir⟩ := id hdir
    cases hread : n.readable with
    | false =>
      rw [walk_of_unreadable hreach hn hisDir hread]
      nofun
    | true =>
      rw [walk_of_readable hreach hn hisDir hread]
      refine Walk.Opens.andThen ?_ (Walk.opens_foldr fun name hname => ?_)
      · intro p hp
        obtain rfl := List.mem_singleton.mp hp
        exact ⟨rfl, List.prefix_rfl, hdir⟩
      · obtain ⟨m, hm⟩ := FileTree.mem_children_iff.mp hname
        by_cases hadmits : t.Admits dir name
        · cases hmdir : m.isDir with
          | true =>
            rw [walkEntry_of_dir hreach hadmits hm hmdir]
            intro p hp
            obtain ⟨heq, hpre, hl⟩ := ih (isReachable_child hreach hdir hadmits hm hmdir) ⟨m, hm, hmdir⟩ p hp
            exact ⟨heq, (List.prefix_append dir [name]).trans hpre, hl⟩
          | false =>
            rw [walkEntry_of_file hreach hadmits hm hmdir]
            nofun
        · obtain ⟨e, he⟩ := d.walkEntry_of_refused hreach hadmits
          rw [he]
          nofun

/-- More fuel changes nothing. -/
theorem walk_eq_of_depth_lt {fuel fuel' : Nat} {dir : Location} (hreach : t.IsReachable dir) (hdir : t.IsDirAt dir)
    (h : t.depth < fuel + dir.length) (h' : t.depth < fuel' + dir.length) : d.walk fuel dir = d.walk fuel' dir := by
  induction fuel generalizing fuel' dir with
  | zero =>
    obtain ⟨n, hn, -⟩ := hdir
    have := FileTree.length_le_depth hn
    omega
  | succ fuel ih =>
    obtain ⟨n, hn, hisDir⟩ := id hdir
    cases fuel' with
    | zero =>
      have := FileTree.length_le_depth hn
      omega
    | succ fuel' =>
      cases hread : n.readable with
      | false => rw [walk_of_unreadable hreach hn hisDir hread, walk_of_unreadable hreach hn hisDir hread]
      | true =>
        rw [walk_of_readable hreach hn hisDir hread, walk_of_readable hreach hn hisDir hread]
        congr 1
        refine List.foldr_ext _ _ _ fun name hname rest => ?_
        obtain ⟨m, hm⟩ := FileTree.mem_children_iff.mp hname
        by_cases hadmits : t.Admits dir name
        · cases hmdir : m.isDir with
          | true =>
            have hlen : (dir ++ [name]).length = dir.length + 1 := by simp
            have hlt : t.depth < fuel + (dir ++ [name]).length := by omega
            have hlt' : t.depth < fuel' + (dir ++ [name]).length := by omega
            rw [walkEntry_of_dir hreach hadmits hm hmdir, walkEntry_of_dir hreach hadmits hm hmdir,
              ih (isReachable_child hreach hdir hadmits hm hmdir) ⟨m, hm, hmdir⟩ hlt hlt']
          | false =>
            rw [walkEntry_of_file hreach hadmits hm hmdir, walkEntry_of_file hreach hadmits hm hmdir]
        · obtain ⟨e, he⟩ := d.walkEntry_of_refused hreach hadmits
          rw [he, he]

/-! ## What a listing returns -/

theorem resolve_eq_ok_iff {d : DirSource t} {path : String} {l : Location} : d.resolve path = .ok l ↔
    ∃ rel, normalize path = .ok rel ∧ t.realPath (d.root ++ splitSlash rel) = .ok l ∧ d.root <+: l := by
  rw [resolve, bind_eq_ok_iff]
  refine exists_congr fun rel => and_congr_right fun _ => ?_
  cases h : t.realPath (d.root ++ splitSlash rel) with
  | error e => cases e <;> exact ⟨nofun, nofun⟩
  | ok canonical =>
    show (if d.root <+: canonical then Except.ok canonical else _) = .ok l ↔ _
    rw [Except.ok.injEq]
    split
    · rename_i hroot
      rw [Except.ok.injEq]
      exact ⟨fun heq => ⟨heq, heq ▸ hroot⟩, And.left⟩
    · rename_i hroot
      refine ⟨nofun, ?_⟩
      rintro ⟨rfl, hl⟩
      exact absurd hl hroot

/-- Where a path that names segments leads. -/
theorem resolve_of_names {d : DirSource t} {path : String} {segments : List String} (hnames : Names path segments) :
    d.resolve path =
    match t.realPath (d.root ++ segments) with
    | .error .notFound => .error (.notFound (joinSlash segments))
    | .error e => .error (.io (joinSlash segments) e)
    | .ok l => if d.root <+: l then .ok l else .error (.escapes (joinSlash segments)) := by
  have hsplit := congrArg (d.root ++ ·) hnames.splitSlash_eq
  rw [resolve, hnames.normalize_eq]
  show (match t.realPath (d.root ++ splitSlash (joinSlash segments)) with
    | .error .notFound => _
    | .error e => _
    | .ok l => _) = _
  rw [hsplit]
  rfl

theorem relative_of_under {l : Location} (h : d.root <+: l) : d.relative l = joinSlash (l.drop d.root.length) := by
  rw [relative, if_pos h]

theorem relative_append (segments : List String) :
    d.relative (d.root ++ segments) = joinSlash segments := by
  rw [relative_of_under d (List.prefix_append ..), List.drop_left]

theorem relative_inj {l l' : Location} {n n' : Node} (hl : d.root <+: l) (hn : t.node? l = some n)
    (hl' : d.root <+: l') (hn' : t.node? l' = some n') (h : d.relative l = d.relative l') : l = l' := by
  rw [relative_of_under d hl, relative_of_under d hl'] at h
  have hdrop := joinSlash_injective (fun s hs => FileTree.nameable_of_node? hn s (List.mem_of_mem_drop hs))
    (fun s hs => FileTree.nameable_of_node? hn' s (List.mem_of_mem_drop hs)) h
  obtain ⟨rest, rfl⟩ := hl
  obtain ⟨rest', rfl⟩ := hl'
  rw [List.drop_left, List.drop_left] at hdrop
  rw [hdrop]

/-- Of the names of the files under the root, those that go on from a path are the names of the files below it. -/
theorem mem_below_iff {d : DirSource t} {path : String} {names segments : List String}
    (hmem : ∀ name, name ∈ names ↔ name ∈ (t.filesUnder d.root).map d.relative) (hnames : Names path segments)
    {name : String} :
    name ∈ names.filter (fun p => p = joinSlash segments ∨ ((joinSlash segments).toList ++ ['/']) <+: p.toList) ↔
      name ∈ (t.filesUnder (d.root ++ segments)).map d.relative := by
  have hname : ∀ {below : List String} {n}, t.node? (d.root ++ below) = some n →
      ∀ s ∈ below, s ≠ "" ∧ '/' ∉ s.toList :=
    fun hn s hs => FileTree.nameable_of_node? hn s (List.mem_append_right _ hs)
  rw [List.mem_filter, decide_eq_true_eq, hmem, List.mem_map, List.mem_map]
  simp only [FileTree.mem_filesUnder_iff]
  constructor
  · rintro ⟨⟨l, ⟨⟨below, rfl⟩, n, hn, hfile⟩, rfl⟩, hbelow⟩
    rw [relative_append, joinSlash_prefix_iff hnames.ne_nil hnames.nameable (hname hn)] at hbelow
    exact ⟨_, ⟨(List.prefix_append_right_inj _).mpr hbelow, n, hn, hfile⟩, rfl⟩
  · rintro ⟨l, ⟨⟨below, rfl⟩, n, hn, hfile⟩, rfl⟩
    rw [List.append_assoc] at hn ⊢
    refine ⟨⟨_, ⟨List.prefix_append .., n, hn, hfile⟩, rfl⟩, ?_⟩
    rw [relative_append, joinSlash_prefix_iff hnames.ne_nil hnames.nameable (hname hn)]
    exact List.prefix_append ..

theorem nodup_relative {start : Location} (h : d.root <+: start) : ((t.filesUnder start).map d.relative).Nodup := by
  refine List.Nodup.map_on (fun l hl l' hl' heq => ?_) (t.nodup_filesUnder start)
  obtain ⟨hpre, n, hn, -⟩ := FileTree.mem_filesUnder_iff.mp hl
  obtain ⟨hpre', n', hn', -⟩ := FileTree.mem_filesUnder_iff.mp hl'
  exact relative_inj d (h.trans hpre) hn (h.trans hpre') hn' heq

/-- Sorting what was found without repetition. -/
theorem sort_of_lists {w : Walk} {good : Prop} {files : List String} (h : w.Lists good files) (hnodup : files.Nodup) :
    ∃ r, (sort w).result = some r ∧ ((∃ out, r = .ok out) ↔ good) ∧
      ∀ out, r = .ok out → out.Pairwise (· < ·) ∧ ∀ name, name ∈ out ↔ name ∈ files := by
  obtain ⟨r, hr, hok, hout⟩ := h
  refine ⟨r.map fun out => out.mergeSort fun a b => a ≤ b, by rw [sort, hr, Option.map_some], ?_, fun out ho => ?_⟩
  · rw [← hok]
    simp only [map_eq_ok_iff]
    exact ⟨fun ⟨_, a, ha, _⟩ => ⟨a, ha⟩, fun ⟨a, ha⟩ => ⟨_, a, ha, rfl⟩⟩
  · obtain ⟨a, ha, rfl⟩ := map_eq_ok_iff.mp ho
    have hperm := (List.mergeSort_perm a fun a b => a ≤ b).trans (hout a ha)
    refine ⟨?_, fun name => hperm.mem_iff⟩
    have hsorted : (a.mergeSort fun a b => a ≤ b).Pairwise (· ≤ ·) := List.pairwise_mergeSort' (· ≤ ·) a
    exact (hsorted.and (hperm.nodup_iff.mpr hnodup)).imp fun h => lt_of_le_of_ne h.1 h.2

/-- With fuel for the depth of the tree a listing ends. It succeeds if every directory can be read and searched, and
then returns every file at its start or below, in order. -/
theorem listFrom_result {start : Location} (hstart : t.IsReachable start) (hroot : d.root <+: start) {fuel : Nat}
    (hfuel : t.depth < fuel) :
    ∃ r, (d.listFrom fuel start).result = some r ∧ ((∃ out, r = .ok out) ↔ t.IsWalkable start) ∧
      ∀ out, r = .ok out → out.Pairwise (· < ·) ∧ ∀ name, name ∈ out ↔ name ∈ (t.filesUnder start).map d.relative := by
  refine sort_of_lists ?_ (d.nodup_relative hroot)
  by_cases hdir : t.IsDirAt start
  · rw [if_pos ((FileTree.isDir_eq_true_iff hstart).mpr hdir)]
    exact d.walk_lists hstart hdir (by omega)
  · rw [if_neg (mt (FileTree.isDir_eq_true_iff hstart).mp hdir)]
    obtain ⟨n, hn, -⟩ := hstart.exists_node
    have hfile : n.isDir = false := by
      rw [Bool.eq_false_iff]
      exact fun h => hdir ⟨n, hn, h⟩
    exact (Walk.lists_found _).congr (iff_of_true trivial (FileTree.isWalkable_of_file hn hfile))
      ((FileTree.filesUnder_of_file hn hfile).map d.relative).symm

theorem listFrom_eq_ok_iff {start : Location} (hstart : t.IsReachable start) (hroot : d.root <+: start) {fuel : Nat}
    (hfuel : t.depth < fuel) {out : List String} : (d.listFrom fuel start).result = some (.ok out) ↔
      t.IsWalkable start ∧ out.Pairwise (· < ·) ∧ ∀ name, name ∈ out ↔ name ∈ (t.filesUnder start).map d.relative := by
  obtain ⟨r, hr, hok, hout⟩ := d.listFrom_result hstart hroot hfuel
  rw [hr, Option.some.injEq, ← hok]
  constructor
  · rintro rfl
    exact ⟨⟨out, rfl⟩, hout out rfl⟩
  · rintro ⟨⟨out', rfl⟩, hsorted, hmem⟩
    obtain ⟨hsorted', hmem'⟩ := hout out' rfl
    rw [hsorted'.eq_of_mem_iff hsorted fun name => (hmem' name).trans (hmem name).symm]

theorem listFrom_opens {start : Location} (hstart : t.IsReachable start) (fuel : Nat) :
    (d.listFrom fuel start).Opens fun path l => path = l ∧ start <+: l ∧ t.IsDirAt l := by
  suffices h : (if t.isDir start then d.walk fuel start else .found [d.relative start]).Opens
      fun path l => path = l ∧ start <+: l ∧ t.IsDirAt l from h
  split
  · rename_i hdir
    exact d.walk_opens hstart ((FileTree.isDir_eq_true_iff hstart).mp hdir)
  · nofun

theorem listFrom_eq_of_depth_lt {start : Location} (hstart : t.IsReachable start) {fuel fuel' : Nat}
    (h : t.depth < fuel) (h' : t.depth < fuel') : d.listFrom fuel start = d.listFrom fuel' start := by
  rw [listFrom, listFrom]
  split
  · rename_i hdir
    rw [d.walk_eq_of_depth_lt hstart ((FileTree.isDir_eq_true_iff hstart).mp hdir) (by omega)
      (by omega : t.depth < fuel' + _)]
  · rfl

end DirSource

end Satunera.Contracts
