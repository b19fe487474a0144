import Satunera.Base.Label
import Satunera.Base.PathText
import Satunera.Base.Table

/-!
# A file system at rest

Directories, regular files and symbolic links, and what the calls that only read them return.

* `FileTree` : the entries of a file system under their physical locations;
* `FileTree.lookup`, `FileTree.Admits`, `FileTree.Passes` : looking up a name, and where that is permitted;
* `FileTree.realPath` : where a path leads when links are followed, at most `linkLimit` of them
  (`realPath_of_isReachable`, `isReachable_of_realPath`);
* `FileTree.Leads` : the same as a relation, with the number of links (`followLinks_eq_ok_iff`);
* `FileTree.metadata`, `FileTree.symlinkMetadata`, `FileTree.readDir`, `FileTree.readFile` : the calls, and what they
  return at physical locations;
* `FileTree.filesUnder`, `FileTree.IsWalkable` : the files below a location, and whether they can be walked through.
-/

namespace Satunera.Base

/-! ## Entries -/

/-- What can name an entry of a directory. -/
structure IsFileName (name : String) : Prop where
  ne_empty : name ≠ ""
  ne_dot : name ≠ "."
  ne_dotdot : name ≠ ".."
  no_slash : '/' ∉ name.toList
  no_nul : '\x00' ∉ name.toList

instance (name : String) : Decidable (IsFileName name) :=
  decidable_of_iff (name ≠ "" ∧ name ≠ "." ∧ name ≠ ".." ∧ '/' ∉ name.toList ∧ '\x00' ∉ name.toList)
    ⟨fun ⟨h1, h2, h3, h4, h5⟩ => ⟨h1, h2, h3, h4, h5⟩, fun ⟨h1, h2, h3, h4, h5⟩ => ⟨h1, h2, h3, h4, h5⟩⟩

/-- The names from the root of the file system down. -/
abbrev Location := List String

inductive Node
  | file (mode : UInt32) (readable : Bool) (data : List UInt8)
  | dir (mode : UInt32) (readable searchable : Bool)
  | symlink (target : String)
  deriving DecidableEq

namespace Node

def isDir : Node → Bool
  | dir .. => true
  | _ => false

def isSymlink : Node → Bool
  | symlink _ => true
  | _ => false

/-- The mode bits; those of a link are never asked for. -/
def mode : Node → UInt32
  | file m .. => m
  | dir m .. => m
  | symlink _ => 0

def readable : Node → Bool
  | file _ r _ => r
  | dir _ r _ => r
  | symlink _ => true

end Node

inductive IoKind
  | notFound
  | notADirectory
  | isADirectory
  | filesystemLoop
  | permissionDenied
  | alreadyExists
  | invalidFilename
  | invalidInput
  deriving DecidableEq

/-- Every entry under its physical location: the parent of an entry is a directory, never a link to one. -/
structure FileTree where
  entries : Table (Location × Node) Prod.fst
  /-- How many links a path may lead through. -/
  linkLimit : Nat
  /-- The bytes of the longest name that is looked up. -/
  nameLimit : Nat
  /-- The bytes of the longest path that is looked up. -/
  pathLimit : Nat
  root_dir : ∃ e ∈ entries.rows, e.1 = [] ∧ e.2.isDir = true
  parent_dir : ∀ e ∈ entries.rows, e.1 ≠ [] → ∃ d ∈ entries.rows, d.1 = e.1.dropLast ∧ d.2.isDir = true
  fileName : ∀ e ∈ entries.rows, ∀ name ∈ e.1, IsFileName name

namespace FileTree
variable {t : FileTree}

/-- What is at a location. -/
def node? (t : FileTree) (l : Location) : Option Node := (t.entries.find? l).map Prod.snd

theorem node?_eq_some_iff {l : Location} {n : Node} : t.node? l = some n ↔ (l, n) ∈ t.entries.rows := by
  rw [node?, Option.map_eq_some_iff]
  constructor
  · rintro ⟨⟨l', n'⟩, h, rfl⟩
    obtain ⟨hmem, rfl⟩ := Table.find?_eq_some_iff.mp h
    exact hmem
  · intro h
    exact ⟨(l, n), Table.find?_eq_some_iff.mpr ⟨h, rfl⟩, rfl⟩

/-- There is a directory at the location. -/
def IsDirAt (t : FileTree) (l : Location) : Prop := ∃ n, t.node? l = some n ∧ n.isDir = true

theorem isDirAt_root : t.IsDirAt [] := by
  obtain ⟨⟨l, n⟩, he, rfl, hn⟩ := t.root_dir
  exact ⟨n, node?_eq_some_iff.mpr he, hn⟩

theorem isDirAt_dropLast {l : Location} {n : Node} (h : t.node? l = some n) (hl : l ≠ []) : t.IsDirAt l.dropLast := by
  obtain ⟨⟨l', n'⟩, hd, rfl, hn⟩ := t.parent_dir _ (node?_eq_some_iff.mp h) hl
  exact ⟨n', node?_eq_some_iff.mpr hd, hn⟩

/-- Every location above an entry is a directory. -/
theorem isDirAt_of_append {l rest : Location} {n : Node} (h : t.node? (l ++ rest) = some n) (hrest : rest ≠ []) :
    t.IsDirAt l := by
  induction rest using List.reverseRecOn generalizing n with
  | nil => exact absurd rfl hrest
  | append_singleton rest name ih =>
    have hd := isDirAt_dropLast h (by simp)
    rw [← List.append_assoc, List.dropLast_concat] at hd
    by_cases hr : rest = []
    · rwa [hr, List.append_nil] at hd
    · obtain ⟨n', hn', -⟩ := hd
      exact ih hn' hr

theorem node?_of_missing_above {l l' : Location} (h : t.node? l = none) (hl : l <+: l') : t.node? l' = none := by
  obtain ⟨rest, rfl⟩ := hl
  by_cases hrest : rest = []
  · rw [hrest, List.append_nil, h]
  · refine Option.eq_none_iff_forall_not_mem.mpr fun n hn => ?_
    obtain ⟨m, hm, -⟩ := isDirAt_of_append hn hrest
    cases h.symm.trans hm

theorem isFileName_of_node? {l : Location} {n : Node} (h : t.node? l = some n) {name : String} (hname : name ∈ l) :
    IsFileName name :=
  t.fileName _ (node?_eq_some_iff.mp h) name hname

theorem nameable_of_node? {l : Location} {n : Node} (h : t.node? l = some n) :
    ∀ name ∈ l, name ≠ "" ∧ '/' ∉ name.toList := fun _ hname =>
  ⟨(isFileName_of_node? h hname).ne_empty, (isFileName_of_node? h hname).no_slash⟩

/-! ## Looking up a name -/

/-- The bytes of the absolute path to a location. -/
def pathSize (l : Location) : Nat := (l.map fun name => name.utf8ByteSize + 1).sum

/-- The entry `name` of what is at the location `here`. -/
def lookup (t : FileTree) (here : Location) (name : String) : Except IoKind Node :=
  if t.pathLimit < pathSize (here ++ [name]) then .error .invalidFilename
  else
    match t.node? here with
    | some (.dir _ _ searchable) =>
      if !searchable then .error .permissionDenied
      else if t.nameLimit < name.utf8ByteSize then .error .invalidFilename
      else okOr (t.node? (here ++ [name])) .notFound
    | _ => .error .notADirectory

/-- The directory at the location can be searched, and neither the name nor the path to it is too long. -/
structure Admits (t : FileTree) (here : Location) (name : String) : Prop where
  searchable : ∃ mode readable, t.node? here = some (.dir mode readable true)
  name_le : name.utf8ByteSize ≤ t.nameLimit
  path_le : pathSize (here ++ [name]) ≤ t.pathLimit

instance (t : FileTree) (here : Location) (name : String) : Decidable (t.Admits here name) :=
  decidable_of_iff ((match t.node? here with
      | some (.dir _ _ true) => true
      | _ => false) = true ∧ name.utf8ByteSize ≤ t.nameLimit ∧ pathSize (here ++ [name]) ≤ t.pathLimit) <| by
    constructor
    · rintro ⟨hdir, hname, hpath⟩
      refine ⟨?_, hname, hpath⟩
      split at hdir
      · rename_i mode readable hn
        exact ⟨mode, readable, hn⟩
      · cases hdir
    · rintro ⟨⟨mode, readable, hn⟩, hname, hpath⟩
      exact ⟨by rw [hn], hname, hpath⟩

theorem lookup_of_admits {here : Location} {name : String} (h : t.Admits here name) :
    t.lookup here name = okOr (t.node? (here ++ [name])) .notFound := by
  obtain ⟨⟨mode, readable, hn⟩, hname, hpath⟩ := h
  rw [lookup, if_neg (Nat.not_lt.mpr hpath), hn]
  show (if t.nameLimit < name.utf8ByteSize then _ else _) = _
  rw [if_neg (Nat.not_lt.mpr hname)]

theorem lookup_of_not_admits {here : Location} {name : String} (h : ¬ t.Admits here name) :
    ∃ e, e ≠ .notFound ∧ t.lookup here name = .error e := by
  unfold lookup
  split
  · exact ⟨_, by decide, rfl⟩
  · rename_i hpath
    split
    · rename_i mode readable searchable hn
      split
      · exact ⟨_, by decide, rfl⟩
      · rename_i hsearch
        split
        · exact ⟨_, by decide, rfl⟩
        · rename_i hname
          obtain rfl : searchable = true := by simpa using hsearch
          exact absurd ⟨⟨mode, readable, hn⟩, Nat.not_lt.mp hname, Nat.not_lt.mp hpath⟩ h
    · exact ⟨_, by decide, rfl⟩

theorem lookup_eq_ok_iff {here : Location} {name : String} {n : Node} :
    t.lookup here name = .ok n ↔ t.Admits here name ∧ t.node? (here ++ [name]) = some n := by
  by_cases h : t.Admits here name
  · rw [lookup_of_admits h, okOr_eq_ok_iff, and_iff_right h]
  · obtain ⟨e, -, he⟩ := lookup_of_not_admits h
    rw [he]
    exact iff_of_false (fun heq => by cases heq) fun hand => h hand.1

/-- Each directory that the segments lead through from the location `here` admits the next one. -/
def Passes (t : FileTree) (here : Location) (segments : List String) : Prop :=
  ∀ p name rest, segments = p ++ name :: rest → t.IsDirAt (here ++ p) → t.Admits (here ++ p) name

theorem passes_nil {here : Location} : t.Passes here [] := fun _ _ _ h => absurd h (by simp)

theorem passes_append_iff {here : Location} {p q : List String} :
    t.Passes here (p ++ q) ↔ t.Passes here p ∧ t.Passes (here ++ p) q := by
  constructor
  · intro h
    constructor
    · rintro p' name rest rfl
      exact h p' name (rest ++ q) (by simp)
    · rintro p' name rest rfl hdir
      rw [List.append_assoc] at hdir ⊢
      exact h (p ++ p') name rest (by simp) hdir
  · rintro ⟨hp, hq⟩ p' name rest heq hdir
    rcases List.append_eq_append_iff.mp heq with ⟨p'', rfl, hq'⟩ | ⟨rest', rfl, hrest⟩
    · rw [← List.append_assoc] at hdir ⊢
      exact hq p'' name rest hq' hdir
    · cases rest' with
      | nil =>
        rw [List.append_nil] at hq
        have := hq [] name rest hrest.symm
        rw [List.append_nil] at this
        exact this hdir
      | cons name' rest' =>
        obtain ⟨rfl, -⟩ := List.cons.inj hrest
        exact hp p' name rest' rfl hdir

theorem passes_singleton_iff {here : Location} (hdir : t.IsDirAt here) {name : String} :
    t.Passes here [name] ↔ t.Admits here name := by
  constructor
  · intro h
    have := h [] name [] rfl
    rw [List.append_nil] at this
    exact this hdir
  · rintro h p name' rest heq -
    cases p with
    | nil =>
      obtain ⟨rfl, -⟩ := List.cons.inj heq
      rwa [List.append_nil]
    | cons s p => cases p <;> cases heq

theorem passes_cons_iff {here : Location} (hdir : t.IsDirAt here) {name : String} {rest : List String} :
    t.Passes here (name :: rest) ↔ t.Admits here name ∧ t.Passes (here ++ [name]) rest := by
  rw [← List.singleton_append, passes_append_iff, passes_singleton_iff hdir]

/-! ## Resolving a path -/

/-- Where the target of a link in the directory `here` starts. -/
def linkStart (here : Location) (target : String) : Location :=
  if target.toList.head? = some '/' then [] else here

/-- Go from the location `here` along the segments, up to the first link. Returns where the path leads, or where to go
on from and along which segments. -/
def followSegments (t : FileTree) : Location → List String → Except IoKind (Location ⊕ Location × List String)
  | here, [] => .ok (.inl here)
  | here, segment :: rest =>
    if segment = "" ∨ segment = "." ∨ segment = ".." then
      match t.node? here with
      | some (.dir ..) => t.followSegments (if segment = ".." then here.dropLast else here) rest
      | _ => .error .notADirectory
    else
      match t.lookup here segment with
      | .error e => .error e
      | .ok (.symlink target) => .ok (.inr (linkStart here target, splitSlash target ++ rest))
      | .ok _ => t.followSegments (here ++ [segment]) rest

/-- The same through at most `budget` links. -/
def followLinks (t : FileTree) : Nat → Location → List String → Except IoKind Location
  | budget, here, segments =>
    match t.followSegments here segments with
    | .error e => .error e
    | .ok (.inl l) => .ok l
    | .ok (.inr (here', segments')) =>
      match budget with
      | 0 => .error .filesystemLoop
      | budget + 1 => t.followLinks budget here' segments'

/-- Where an absolute path leads. A path with a NUL is never looked up. -/
def realPath (t : FileTree) (path : List String) : Except IoKind Location :=
  if path.any fun segment => segment.toList.contains '\x00' then .error .invalidInput
  else t.followLinks t.linkLimit [] path

/-- There is a file or directory at the location, not a link, and a path can go down to it. -/
structure IsReachable (t : FileTree) (l : Location) : Prop where
  exists_node : ∃ n, t.node? l = some n ∧ n.isSymlink = false
  passes : t.Passes [] l

theorem IsDirAt.isSymlink {l : Location} (h : t.IsDirAt l) {n : Node} (hn : t.node? l = some n) :
    n.isSymlink = false := by
  obtain ⟨m, hm, hdir⟩ := h
  cases hn.symm.trans hm
  cases n <;> first | rfl | cases hdir

theorem IsDirAt.isReachable {l : Location} (h : t.IsDirAt l) (hpasses : t.Passes [] l) : t.IsReachable l := by
  obtain ⟨n, hn, -⟩ := id h
  exact ⟨⟨n, hn, h.isSymlink hn⟩, hpasses⟩

theorem isReachable_root : t.IsReachable [] := isDirAt_root.isReachable passes_nil

theorem IsDirAt.dropLast {l : Location} (h : t.IsDirAt l) : t.IsDirAt l.dropLast := by
  by_cases hl : l = []
  · subst hl
    exact h
  · obtain ⟨n, hn, -⟩ := h
    exact isDirAt_dropLast hn hl

theorem Passes.dropLast {l : Location} (h : t.Passes [] l) : t.Passes [] l.dropLast := by
  by_cases hl : l = []
  · rw [hl]
    exact passes_nil
  · rw [← List.dropLast_append_getLast hl] at h
    exact (passes_append_iff.mp h).1

/-- What a directory admits is one step further down. -/
theorem IsReachable.child {l : Location} (h : t.Passes [] l) (hdir : t.IsDirAt l) {name : String}
    (hadmits : t.Admits l name) {n : Node} (hn : t.node? (l ++ [name]) = some n) (hlink : n.isSymlink = false) :
    t.IsReachable (l ++ [name]) := by
  refine ⟨⟨n, hn, hlink⟩, passes_append_iff.mpr ⟨h, ?_⟩⟩
  rw [List.nil_append]
  exact (passes_singleton_iff hdir).mpr hadmits

theorem followSegments_cons_of_dots {here : Location} (h : t.IsDirAt here) {segment : String}
    (hdots : segment = "" ∨ segment = "." ∨ segment = "..") (rest : List String) :
    t.followSegments here (segment :: rest) =
      t.followSegments (if segment = ".." then here.dropLast else here) rest := by
  obtain ⟨n, hn, hdir⟩ := h
  rw [followSegments, if_pos hdots, hn]
  cases n with
  | dir mode readable searchable => rfl
  | _ => cases hdir

theorem followSegments_cons_of_fileName {segment : String} (hname : IsFileName segment) (here : Location)
    (rest : List String) :
    t.followSegments here (segment :: rest) =
      match t.lookup here segment with
      | .error e => .error e
      | .ok (.symlink target) => .ok (.inr (linkStart here target, splitSlash target ++ rest))
      | .ok _ => t.followSegments (here ++ [segment]) rest := by
  rw [followSegments, if_neg (not_or_intro hname.ne_empty (not_or_intro hname.ne_dot hname.ne_dotdot))]

theorem followSegments_cons_of_refused {segment : String} (hname : IsFileName segment) {here : Location}
    (h : ¬ t.Admits here segment) (rest : List String) :
    ∃ e, e ≠ .notFound ∧ t.followSegments here (segment :: rest) = .error e := by
  obtain ⟨e, hne, he⟩ := lookup_of_not_admits h
  exact ⟨e, hne, by rw [followSegments_cons_of_fileName hname, he]⟩

theorem followSegments_cons_of_node {segment : String} (hname : IsFileName segment) {here : Location}
    (h : t.Admits here segment) {n : Node} (hn : t.node? (here ++ [segment]) = some n) (hlink : n.isSymlink = false)
    (rest : List String) :
    t.followSegments here (segment :: rest) = t.followSegments (here ++ [segment]) rest := by
  rw [followSegments_cons_of_fileName hname, lookup_eq_ok_iff.mpr ⟨h, hn⟩]
  cases n with
  | symlink target => cases hlink
  | _ => rfl

theorem followSegments_cons_of_link {segment : String} (hname : IsFileName segment) {here : Location}
    (h : t.Admits here segment) {target : String} (hn : t.node? (here ++ [segment]) = some (.symlink target))
    (rest : List String) :
    t.followSegments here (segment :: rest) =
      .ok (.inr (linkStart here target, splitSlash target ++ rest)) := by
  rw [followSegments_cons_of_fileName hname, lookup_eq_ok_iff.mpr ⟨h, hn⟩]

/-- Down to an entry there are no links to follow. -/
theorem followSegments_append {p : List String} {here : Location} (hpasses : t.Passes here p) {n : Node}
    (hn : t.node? (here ++ p) = some n) (hlink : n.isSymlink = false) (rest : List String) :
    t.followSegments here (p ++ rest) = t.followSegments (here ++ p) rest := by
  induction p generalizing here with
  | nil => rw [List.nil_append, List.append_nil]
  | cons segment p ih =>
    have hname : IsFileName segment := isFileName_of_node? hn (by simp)
    have hhere : t.IsDirAt here := isDirAt_of_append hn (by simp)
    obtain ⟨hadmits, hrest⟩ := (passes_cons_iff hhere).mp hpasses
    rw [List.append_cons] at hn
    have hnext : ∃ m, t.node? (here ++ [segment]) = some m ∧ m.isSymlink = false := by
      by_cases hp : p = []
      · rw [hp, List.append_nil] at hn
        exact ⟨n, hn, hlink⟩
      · have hdir := isDirAt_of_append hn hp
        obtain ⟨m, hm, -⟩ := id hdir
        exact ⟨m, hm, hdir.isSymlink hm⟩
    obtain ⟨m, hm, hmlink⟩ := hnext
    rw [List.cons_append, followSegments_cons_of_node hname hadmits hm hmlink, ih hrest hn, ← List.append_cons]

/-- A path leads on from a file. -/
def RunsThroughFile (t : FileTree) (here : Location) (segments : List String) : Prop :=
  ∃ p rest n, segments = p ++ rest ∧ rest ≠ [] ∧ t.node? (here ++ p) = some n ∧ n.isDir = false

theorem not_runsThroughFile {here : Location} {segments : List String} {n : Node}
    (h : t.node? (here ++ segments) = some n) : ¬ t.RunsThroughFile here segments := by
  rintro ⟨p, rest, m, rfl, hne, hm, hfile⟩
  rw [← List.append_assoc] at h
  obtain ⟨m', hm', hdir⟩ := isDirAt_of_append h hne
  cases hm.symm.trans hm'
  rw [hfile] at hdir
  cases hdir

theorem runsThroughFile_cons_iff {here : Location} (hdir : t.IsDirAt here) {segment : String} {rest : List String} :
    t.RunsThroughFile here (segment :: rest) ↔ t.RunsThroughFile (here ++ [segment]) rest := by
  constructor
  · rintro ⟨p, rest', n, heq, hne, hn, hfile⟩
    cases p with
    | nil =>
      obtain ⟨m, hm, hmdir⟩ := hdir
      rw [List.append_nil, hm] at hn
      cases hn
      rw [hfile] at hmdir
      cases hmdir
    | cons s p =>
      obtain ⟨rfl, rfl⟩ := List.cons.inj heq
      exact ⟨p, rest', n, rfl, hne, by rwa [List.append_cons] at hn, hfile⟩
  · rintro ⟨p, rest', n, rfl, hne, hn, hfile⟩
    exact ⟨segment :: p, rest', n, rfl, hne, by rwa [List.append_cons], hfile⟩

/-- How following names ends where no link is on the way. -/
inductive Followed (t : FileTree) (here : Location) (segments : List String) :
    Except IoKind (Location ⊕ Location × List String) → Prop
  | found {n : Node} (hn : t.node? (here ++ segments) = some n) (hpasses : t.Passes here segments) :
      t.Followed here segments (.ok (.inl (here ++ segments)))
  | refused {e : IoKind} (he : e ≠ .notFound) (h : t.RunsThroughFile here segments ∨ ¬ t.Passes here segments) :
      t.Followed here segments (.error e)
  | missing (hthrough : ¬ t.RunsThroughFile here segments) (hpasses : t.Passes here segments)
      (hn : t.node? (here ++ segments) = none) : t.Followed here segments (.error .notFound)

theorem followed_nil {here : Location} {n : Node} (hn : t.node? here = some n) :
    t.Followed here [] (t.followSegments here []) := by
  have hfound : t.Followed here [] (.ok (.inl (here ++ []))) := .found (by rwa [List.append_nil]) passes_nil
  rwa [List.append_nil] at hfound

/-- Below a directory that admits the first name it ends as it does from there. -/
theorem Followed.cons {here : Location} (hdir : t.IsDirAt here) {segment : String} (hadmits : t.Admits here segment)
    {rest : List String} {r : Except IoKind (Location ⊕ Location × List String)}
    (h : t.Followed (here ++ [segment]) rest r) : t.Followed here (segment :: rest) r := by
  have hpasses_iff : t.Passes here (segment :: rest) ↔ _ := passes_cons_iff hdir
  have hthrough_iff : t.RunsThroughFile here (segment :: rest) ↔ _ := runsThroughFile_cons_iff hdir
  rw [and_iff_right hadmits] at hpasses_iff
  cases h with
  | found hn hpasses =>
    rw [← List.append_cons] at hn ⊢
    exact .found hn (hpasses_iff.mpr hpasses)
  | refused he h => exact .refused he (h.imp hthrough_iff.mpr (mt hpasses_iff.mp))
  | missing hthrough hpasses hn =>
    rw [← List.append_cons] at hn
    exact .missing (mt hthrough_iff.mp hthrough) (hpasses_iff.mpr hpasses) hn

/-- Below what is missing there is nothing to run through and nothing to be refused. -/
theorem followed_of_missing {here : Location} (hn : t.node? here = none) (segments : List String) :
    t.Followed here segments (.error .notFound) := by
  have hbelow : ∀ p, t.node? (here ++ p) = none := fun p => node?_of_missing_above hn (List.prefix_append ..)
  refine .missing ?_ ?_ (hbelow segments)
  · rintro ⟨p, -, n, -, -, hp, -⟩
    cases hp.symm.trans (hbelow p)
  · rintro p name rest - ⟨n, hp, -⟩
    cases hp.symm.trans (hbelow p)

/-- From a file no name leads on. -/
theorem followed_of_file {here : Location} {n : Node} (hn : t.node? here = some n) (hfile : n.isDir = false)
    {segments : List String} (hname : ∀ s ∈ segments, IsFileName s) :
    t.Followed here segments (t.followSegments here segments) := by
  cases segments with
  | nil => exact followed_nil hn
  | cons segment rest =>
    have hrefused : ¬ t.Admits here segment := by
      rintro ⟨⟨mode, readable, hn'⟩, -, -⟩
      cases hn.symm.trans hn'
      cases hfile
    obtain ⟨e, he, hfollow⟩ := followSegments_cons_of_refused (hname segment List.mem_cons_self) hrefused rest
    rw [hfollow]
    exact .refused he (Or.inl ⟨[], segment :: rest, n, rfl, List.cons_ne_nil _ _, by rwa [List.append_nil], hfile⟩)

theorem followed_of_no_links {segments : List String} {here : Location} (hdir : t.IsDirAt here)
    (hname : ∀ s ∈ segments, IsFileName s)
    (hlink : ∀ p n, p <+: segments → t.node? (here ++ p) = some n → n.isSymlink = false) :
    t.Followed here segments (t.followSegments here segments) := by
  induction segments generalizing here with
  | nil =>
    obtain ⟨n, hn, -⟩ := hdir
    exact followed_nil hn
  | cons segment rest ih =>
    obtain ⟨hsegment, hrest⟩ := List.forall_mem_cons.mp hname
    by_cases hadmits : t.Admits here segment
    · cases hn : t.node? (here ++ [segment]) with
      | none =>
        rw [followSegments_cons_of_fileName hsegment, lookup_of_admits hadmits, hn]
        exact (followed_of_missing hn rest).cons hdir hadmits
      | some n =>
        rw [followSegments_cons_of_node hsegment hadmits hn (hlink [segment] n (by simp) hn)]
        refine Followed.cons hdir hadmits ?_
        by_cases hn' : n.isDir = true
        · refine ih ⟨n, hn, hn'⟩ hrest fun p m hp hm => ?_
          rw [← List.append_cons] at hm
          exact hlink _ m (List.cons_prefix_cons.mpr ⟨rfl, hp⟩) hm
        · exact followed_of_file hn (by simpa using hn') hrest
    · obtain ⟨e, he, hfollow⟩ := followSegments_cons_of_refused hsegment hadmits rest
      rw [hfollow]
      exact .refused he (Or.inr fun hpasses => hadmits ((passes_cons_iff hdir).mp hpasses).1)

theorem followLinks_of_inl {budget : Nat} {here l : Location} {segments : List String}
    (h : t.followSegments here segments = .ok (.inl l)) : t.followLinks budget here segments = .ok l := by
  rw [followLinks, h]

theorem followLinks_congr {budget : Nat} {here here' : Location} {segments segments' : List String}
    (h : t.followSegments here segments = t.followSegments here' segments') :
    t.followLinks budget here segments = t.followLinks budget here' segments' := by
  unfold followLinks
  rw [h]

theorem followLinks_of_error {budget : Nat} {here : Location} {segments : List String} {e : IoKind}
    (h : t.followSegments here segments = .error e) : t.followLinks budget here segments = .error e := by
  rw [followLinks, h]

theorem realPath_of_no_nul {path : List String} (h : ∀ segment ∈ path, '\x00' ∉ segment.toList) :
    t.realPath path = t.followLinks t.linkLimit [] path := by
  rw [realPath, if_neg]
  simpa using h

theorem realPath_of_nul {path : List String} {segment : String} (h : segment ∈ path) (hnul : '\x00' ∈ segment.toList) :
    t.realPath path = .error .invalidInput := by
  rw [realPath, if_pos]
  exact List.any_eq_true.mpr ⟨segment, h, List.contains_iff_mem.mpr hnul⟩

/-- A location that can be reached leads to itself. -/
theorem realPath_of_isReachable {l : Location} (h : t.IsReachable l) : t.realPath l = .ok l := by
  obtain ⟨⟨n, hn, hlink⟩, hpasses⟩ := h
  rw [realPath_of_no_nul fun segment hs => (isFileName_of_node? hn hs).no_nul]
  apply followLinks_of_inl
  have happend := followSegments_append hpasses (by rwa [List.nil_append]) hlink []
  rw [List.append_nil, List.nil_append] at happend
  exact happend

/-- A path that goes down to a directory and on from there. -/
theorem realPath_append {l : Location} (hdir : t.IsDirAt l) (hpasses : t.Passes [] l) {segments : List String}
    (hnul : ∀ s ∈ segments, '\x00' ∉ s.toList) :
    t.realPath (l ++ segments) = t.followLinks t.linkLimit l segments := by
  obtain ⟨n, hn, -⟩ := id hdir
  have hall : ∀ s ∈ l ++ segments, '\x00' ∉ s.toList := by
    intro s hs
    rcases List.mem_append.mp hs with hs | hs
    · exact (isFileName_of_node? hn hs).no_nul
    · exact hnul s hs
  have happend := followSegments_append hpasses (by rwa [List.nil_append]) (hdir.isSymlink hn) segments
  rw [List.nil_append] at happend
  rw [realPath_of_no_nul hall, followLinks_congr happend]

/-- On the way to an entry and on below it, where there are no links. -/
theorem followed_of_node {l : Location} {n : Node} (hn : t.node? l = some n) {segments : List String}
    (hname : ∀ s ∈ segments, IsFileName s)
    (hlinks : ∀ p m, p <+: segments → t.node? (l ++ p) = some m → m.isSymlink = false) :
    t.Followed [] (l ++ segments) (t.followSegments [] (l ++ segments)) := by
  refine followed_of_no_links isDirAt_root (fun s hs => ?_) fun p m hp hm => ?_
  · exact (List.mem_append.mp hs).elim (isFileName_of_node? hn) (hname s)
  · rw [List.nil_append] at hm
    obtain ⟨rest, heq⟩ := hp
    rcases List.append_eq_append_iff.mp heq with ⟨above, rfl, -⟩ | ⟨below, rfl, hbelow⟩
    · by_cases habove : above = []
      · rw [habove, List.append_nil] at hlinks
        exact hlinks [] m List.nil_prefix (by rwa [List.append_nil])
      · exact (isDirAt_of_append hn habove).isSymlink hm
    · exact hlinks below m ⟨rest, hbelow.symm⟩ hm

/-- At an entry that cannot be reached a path ends in an error, but not because nothing was found. -/
theorem realPath_of_not_passes {l : Location} {n : Node} (hn : t.node? l = some n) (hlink : n.isSymlink = false)
    (h : ¬ t.Passes [] l) : ∃ e, e ≠ .notFound ∧ t.realPath l = .error e := by
  have hlinks : ∀ p m, p <+: ([] : List String) → t.node? (l ++ p) = some m → m.isSymlink = false := by
    intro p m hp hm
    rw [List.prefix_nil.mp hp, List.append_nil] at hm
    cases hn.symm.trans hm
    exact hlink
  have hfollowed := followed_of_node hn (fun s hs => absurd hs List.not_mem_nil) hlinks
  rw [List.append_nil] at hfollowed
  rw [realPath_of_no_nul fun segment hs => (isFileName_of_node? hn hs).no_nul]
  generalize hr : t.followSegments [] l = r at hfollowed
  cases hfollowed with
  | found _ hpasses => exact absurd hpasses h
  | refused he _ => exact ⟨_, he, followLinks_of_error hr⟩
  | missing _ hpasses _ => exact absurd hpasses h

/-- The path to an entry leads to it, or ends in an error that something was in the way. -/
theorem realPath_of_node {l : Location} {n : Node} (hn : t.node? l = some n) (hlink : n.isSymlink = false) :
    t.realPath l = .ok l ∨ ∃ e, e ≠ .notFound ∧ t.realPath l = .error e := by
  by_cases hpasses : t.Passes [] l
  · exact Or.inl (realPath_of_isReachable ⟨⟨n, hn, hlink⟩, hpasses⟩)
  · exact Or.inr (realPath_of_not_passes hn hlink hpasses)

/-- Below an entry without links a path leads to itself, if anywhere. -/
theorem eq_of_realPath {l l' : Location} {n : Node} (hn : t.node? l = some n) {segments : List String}
    (hname : ∀ s ∈ segments, IsFileName s)
    (hlinks : ∀ p m, p <+: segments → t.node? (l ++ p) = some m → m.isSymlink = false)
    (h : t.realPath (l ++ segments) = .ok l') : l' = l ++ segments := by
  have hfollowed := followed_of_node hn hname hlinks
  rw [realPath_of_no_nul fun s hs => ((List.mem_append.mp hs).elim (isFileName_of_node? hn) (hname s)).no_nul] at h
  generalize hr : t.followSegments [] (l ++ segments) = r at hfollowed
  cases hfollowed with
  | found _ _ =>
    rw [followLinks_of_inl hr] at h
    exact (Except.ok.inj h).symm
  | refused _ _ | missing _ _ _ =>
    rw [followLinks_of_error hr] at h
    cases h

/-- The segments lead from a location to another one, through so many links. -/
inductive Leads (t : FileTree) : Nat → Location → List String → Location → Prop
  | here {l : Location} : t.Leads 0 l [] l
  | dots {k : Nat} {here l : Location} {segment : String} {rest : List String} (hdir : t.IsDirAt here)
      (hdots : segment = "" ∨ segment = "." ∨ segment = "..")
      (h : t.Leads k (if segment = ".." then here.dropLast else here) rest l) : t.Leads k here (segment :: rest) l
  | entry {k : Nat} {here l : Location} {segment : String} {rest : List String} {n : Node}
      (hadmits : t.Admits here segment) (hn : t.node? (here ++ [segment]) = some n) (hlink : n.isSymlink = false)
      (h : t.Leads k (here ++ [segment]) rest l) : t.Leads k here (segment :: rest) l
  | link {k : Nat} {here l : Location} {segment : String} {rest : List String} {target : String}
      (hadmits : t.Admits here segment) (hn : t.node? (here ++ [segment]) = some (.symlink target))
      (h : t.Leads k (linkStart here target) (splitSlash target ++ rest) l) : t.Leads (k + 1) here (segment :: rest) l

/-- What following the segments returns is where they lead, at once or through one more link. -/
theorem leads_of_followSegments {segments : List String} {here : Location} {r : Location ⊕ Location × List String}
    (hr : t.followSegments here segments = .ok r) {k : Nat} {l : Location}
    (hl : r.elim (fun l' => k = 0 ∧ l = l') fun next => ∃ k', k = k' + 1 ∧ t.Leads k' next.1 next.2 l) :
    t.Leads k here segments l := by
  induction segments generalizing here with
  | nil =>
    cases hr
    obtain ⟨rfl, rfl⟩ := hl
    exact .here
  | cons segment rest ih =>
    by_cases hdots : segment = "" ∨ segment = "." ∨ segment = ".."
    · by_cases hdir : t.IsDirAt here
      · rw [followSegments_cons_of_dots hdir hdots] at hr
        exact .dots hdir hdots (ih hr)
      · rw [followSegments, if_pos hdots] at hr
        split at hr
        · rename_i hn
          exact absurd ⟨_, hn, rfl⟩ hdir
        · cases hr
    · rw [followSegments, if_neg hdots] at hr
      split at hr
      · cases hr
      · rename_i target hn
        cases hr
        obtain ⟨k', rfl, h⟩ := hl
        obtain ⟨hadmits, hn⟩ := lookup_eq_ok_iff.mp hn
        exact .link hadmits hn h
      · rename_i n hlink hn
        obtain ⟨hadmits, hn⟩ := lookup_eq_ok_iff.mp hn
        refine .entry hadmits hn ?_ (ih hr)
        cases n with
        | symlink target => exact absurd rfl (hlink target)
        | _ => rfl

theorem exists_leads_of_followLinks {budget : Nat} {segments : List String} {here l : Location}
    (h : t.followLinks budget here segments = .ok l) : ∃ k ≤ budget, t.Leads k here segments l := by
  induction budget generalizing here segments with
  | zero =>
    rw [followLinks] at h
    split at h
    · cases h
    · rename_i l' hr
      cases h
      exact ⟨0, le_rfl, leads_of_followSegments hr ⟨rfl, rfl⟩⟩
    · cases h
  | succ budget ih =>
    rw [followLinks] at h
    split at h
    · cases h
    · rename_i l' hr
      cases h
      exact ⟨0, Nat.zero_le _, leads_of_followSegments hr ⟨rfl, rfl⟩⟩
    · rename_i here' segments' hr
      obtain ⟨k, hk, hleads⟩ := ih h
      exact ⟨k + 1, Nat.succ_le_succ hk, leads_of_followSegments hr ⟨k, rfl, hleads⟩⟩

theorem followLinks_of_leads {k : Nat} {segments : List String} {here l : Location} (h : t.Leads k here segments l)
    {budget : Nat} (hk : k ≤ budget) : t.followLinks budget here segments = .ok l := by
  induction h generalizing budget with
  | here => exact followLinks_of_inl rfl
  | dots hdir hdots _ ih => rw [followLinks_congr (followSegments_cons_of_dots hdir hdots _), ih hk]
  | entry hadmits hn hlink _ ih =>
    have hname := isFileName_of_node? hn (List.mem_append_right _ (List.mem_singleton_self _))
    rw [followLinks_congr (followSegments_cons_of_node hname hadmits hn hlink _), ih hk]
  | link hadmits hn _ ih =>
    have hname := isFileName_of_node? hn (List.mem_append_right _ (List.mem_singleton_self _))
    obtain ⟨budget, rfl⟩ := Nat.exists_eq_add_of_le' (Nat.one_le_of_lt hk)
    rw [followLinks, followSegments_cons_of_link hname hadmits hn]
    exact ih (Nat.le_of_succ_le_succ hk)

/-- **Following links arrives exactly where the segments lead through no more links than allowed.** -/
theorem followLinks_eq_ok_iff {budget : Nat} {segments : List String} {here l : Location} :
    t.followLinks budget here segments = .ok l ↔ ∃ k ≤ budget, t.Leads k here segments l :=
  ⟨exists_leads_of_followLinks, fun ⟨_, hk, h⟩ => followLinks_of_leads h hk⟩

/-- Names lead down to themselves, or to a link among them and on along its target. -/
theorem Leads.of_names {k : Nat} {segments : List String} {here l : Location} (h : t.Leads k here segments l)
    (hname : ∀ s ∈ segments, IsFileName s) : l = here ++ segments ∨ ∃ p name rest target k',
      segments = p ++ name :: rest ∧ t.node? (here ++ p ++ [name]) = some (.symlink target) ∧ k = k' + 1 ∧
        t.Leads k' (linkStart (here ++ p) target) (splitSlash target ++ rest) l := by
  induction h with
  | here => exact Or.inl (by rw [List.append_nil])
  | dots _ hdots _ _ =>
    have hsegment := (List.forall_mem_cons.mp hname).1
    rcases hdots with rfl | rfl | rfl
    · exact absurd rfl hsegment.ne_empty
    · exact absurd rfl hsegment.ne_dot
    · exact absurd rfl hsegment.ne_dotdot
  | @entry _ _ _ segment _ _ _ _ _ _ ih =>
    rcases ih (List.forall_mem_cons.mp hname).2 with rfl | ⟨p, name, rest, target, k', rfl, hn, rfl, h⟩
    · exact Or.inl (by rw [← List.append_cons])
    · rw [← List.append_cons] at hn h
      exact Or.inr ⟨segment :: p, name, rest, target, k', rfl, hn, rfl, h⟩
  | @link k' here _ segment rest target _ hn h _ =>
    refine Or.inr ⟨[], segment, rest, target, k', rfl, ?_, rfl, ?_⟩ <;> rw [List.append_nil]
    · exact hn
    · exact h

/-- Going along segments stays among what can be reached. -/
theorem Leads.isReachable {k : Nat} {segments : List String} {here l : Location} (h : t.Leads k here segments l)
    (hhere : t.IsReachable here) : t.IsReachable l := by
  induction h with
  | here => exact hhere
  | dots hdir _ _ ih =>
    refine ih ?_
    split
    · exact hdir.dropLast.isReachable hhere.passes.dropLast
    · exact hhere
  | entry hadmits hn hlink _ ih =>
    obtain ⟨mode, readable, hdir⟩ := hadmits.searchable
    exact ih (IsReachable.child hhere.passes ⟨_, hdir, rfl⟩ hadmits hn hlink)
  | link _ _ _ ih =>
    refine ih ?_
    unfold linkStart
    split
    · exact isReachable_root
    · exact hhere

/-- A path leads to a file or a directory that can be reached, never to a link. -/
theorem isReachable_of_realPath {path : List String} {l : Location} (h : t.realPath path = .ok l) :
    t.IsReachable l := by
  rw [realPath] at h
  split at h
  · cases h
  · obtain ⟨k, -, hleads⟩ := followLinks_eq_ok_iff.mp h
    exact hleads.isReachable isReachable_root

/-! ## The calls -/

def metadata (t : FileTree) (path : List String) : Except IoKind Node := do
  let l ← t.realPath path
  okOr (t.node? l) .notFound

/-- `Path::is_dir`; an error counts as no. -/
def isDir (t : FileTree) (path : List String) : Bool :=
  match t.metadata path with
  | .ok n => n.isDir
  | .error _ => false

/-- The entry `name` of the directory `dir`, itself and not what it may link to. -/
def symlinkMetadata (t : FileTree) (dir : List String) (name : String) : Except IoKind Node := do
  let l ← t.realPath dir
  t.lookup l name

/-- The names in the directory at a location, in the order the file system keeps them. -/
def children (t : FileTree) (l : Location) : List String :=
  t.entries.rows.filterMap fun e => if e.1 ≠ [] ∧ e.1.dropLast = l then e.1.getLast? else none

/-- The directory a path leads to and its names. -/
def readDir (t : FileTree) (path : List String) : Except IoKind (Location × List String) := do
  let l ← t.realPath path
  match t.node? l with
  | some (.dir _ readable _) => if readable then return (l, t.children l) else .error .permissionDenied
  | some _ => .error .notADirectory
  | none => .error .notFound

theorem mem_children_iff {l : Location} {name : String} :
    name ∈ t.children l ↔ ∃ n, t.node? (l ++ [name]) = some n := by
  simp only [children, List.mem_filterMap, node?_eq_some_iff]
  constructor
  · rintro ⟨⟨l', n⟩, he, hname⟩
    split at hname
    · rename_i hl'
      obtain ⟨init, rfl⟩ := List.getLast?_eq_some_iff.mp hname
      rw [List.dropLast_concat] at hl'
      exact ⟨n, hl'.2 ▸ he⟩
    · cases hname
  · rintro ⟨n, hn⟩
    refine ⟨_, hn, ?_⟩
    rw [if_pos ⟨by simp, List.dropLast_concat⟩, List.getLast?_concat]

theorem nodup_children (t : FileTree) (l : Location) : (t.children l).Nodup := by
  have hmap : t.children l = (t.entries.rows.map Prod.fst).filterMap fun l' =>
      if l' ≠ [] ∧ l'.dropLast = l then l'.getLast? else none := by
    rw [List.filterMap_map]
    rfl
  have heq : ∀ (l' : Location) (name : String),
      name ∈ (if l' ≠ [] ∧ l'.dropLast = l then l'.getLast? else none) → l' = l ++ [name] := by
    intro l' name h
    split at h
    · rename_i hl'
      obtain ⟨init, rfl⟩ := List.getLast?_eq_some_iff.mp h
      rw [← hl'.2, List.dropLast_concat]
    · cases h
  rw [hmap]
  exact t.entries.nodup.filterMap fun l' l'' name h h' => (heq l' name h).trans (heq l'' name h').symm

def readFile (t : FileTree) (path : List String) : Except IoKind (List UInt8) := do
  let l ← t.realPath path
  match t.node? l with
  | some (.file _ readable data) => if readable then return data else .error .permissionDenied
  | some _ => .error .isADirectory
  | none => .error .notFound

/-! ## The calls where a location can be reached -/

section Reachable
variable {l : Location} {n : Node}

theorem metadata_of_isReachable (h : t.IsReachable l) (hn : t.node? l = some n) : t.metadata l = .ok n := by
  rw [metadata, realPath_of_isReachable h]
  show okOr (t.node? l) _ = _
  rw [hn, okOr]

theorem isDir_of_isReachable (h : t.IsReachable l) (hn : t.node? l = some n) : t.isDir l = n.isDir := by
  rw [isDir, metadata_of_isReachable h hn]

/-- A path leads to a directory if there is one where it leads. -/
theorem isDir_eq_true_iff_of_realPath {path : List String} (h : t.realPath path = .ok l) :
    t.isDir path = true ↔ t.IsDirAt l := by
  obtain ⟨n, hn, -⟩ := (isReachable_of_realPath h).exists_node
  have hmeta : t.metadata path = .ok n := by
    rw [metadata, h]
    show okOr (t.node? l) _ = _
    rw [hn, okOr]
  rw [isDir, hmeta]
  constructor
  · intro hdir
    exact ⟨n, hn, hdir⟩
  · rintro ⟨m, hm, hdir⟩
    cases hn.symm.trans hm
    exact hdir

theorem isDir_eq_true_iff (h : t.IsReachable l) : t.isDir l = true ↔ t.IsDirAt l :=
  isDir_eq_true_iff_of_realPath (realPath_of_isReachable h)

/-- A path that leads nowhere leads to no directory. -/
theorem isDir_of_error {path : List String} {e : IoKind} (h : t.realPath path = .error e) : t.isDir path = false := by
  have hmeta : t.metadata path = .error e := by
    rw [metadata, h]
    rfl
  rw [isDir, hmeta]

theorem symlinkMetadata_of_isReachable (h : t.IsReachable l) (name : String) :
    t.symlinkMetadata l name = t.lookup l name := by
  rw [symlinkMetadata, realPath_of_isReachable h]
  rfl

theorem readDir_of_isReachable (h : t.IsReachable l) (hn : t.node? l = some n) (hdir : n.isDir = true) :
    t.readDir l = if n.readable then .ok (l, t.children l) else .error .permissionDenied := by
  rw [readDir, realPath_of_isReachable h]
  cases n with
  | dir mode readable searchable =>
    show (match t.node? l with
      | some (.dir _ readable _) => if readable then _ else _
      | some _ => _
      | none => _) = _
    rw [hn]
    rfl
  | _ => cases hdir

theorem readFile_eq_ok_iff (h : t.IsReachable l) {data : List UInt8} :
    t.readFile l = .ok data ↔ ∃ mode, t.node? l = some (.file mode true data) := by
  rw [readFile, realPath_of_isReachable h]
  show (match t.node? l with
    | some (.file _ readable data) => if readable then pure data else _
    | some _ => _
    | none => _) = _ ↔ _
  cases t.node? l with
  | none => simp
  | some n =>
    cases n with
    | file mode readable data' =>
      cases readable <;> simp [pure, Except.pure]
    | _ => simp

end Reachable

/-! ## Below a location -/

/-- The longest location there is. -/
def depth (t : FileTree) : Nat := (t.entries.rows.map fun e => e.1.length).foldr max 0

theorem length_le_depth {l : Location} {n : Node} (h : t.node? l = some n) : l.length ≤ t.depth := by
  rw [node?_eq_some_iff] at h
  unfold depth
  generalize t.entries.rows = rows at h
  induction rows with
  | nil => cases h
  | cons e rows ih =>
    rw [List.map_cons, List.foldr_cons]
    rcases List.mem_cons.mp h with rfl | h
    · exact le_max_left ..
    · exact (ih h).trans (le_max_right ..)

/-- Every directory at the location or below it can be read, and admits its entries. -/
def IsWalkable (t : FileTree) (l : Location) : Prop :=
  ∀ l' n, l <+: l' → t.node? l' = some n → n.isDir = true → n.readable = true ∧ ∀ name ∈ t.children l', t.Admits l' name

/-- What is at the location or below it and is not a directory. -/
def filesUnder (t : FileTree) (l : Location) : List Location :=
  (t.entries.rows.filter fun e => l <+: e.1 ∧ e.2.isDir = false).map Prod.fst

theorem mem_filesUnder_iff {l l' : Location} :
    l' ∈ t.filesUnder l ↔ l <+: l' ∧ ∃ n, t.node? l' = some n ∧ n.isDir = false := by
  simp only [filesUnder, List.mem_map, List.mem_filter, decide_eq_true_eq, node?_eq_some_iff]
  constructor
  · rintro ⟨⟨l'', n⟩, ⟨hmem, hl, hn⟩, rfl⟩
    exact ⟨hl, n, hmem, hn⟩
  · rintro ⟨hl, n, hmem, hn⟩
    exact ⟨(l', n), ⟨hmem, hl, hn⟩, rfl⟩

theorem nodup_filesUnder (t : FileTree) (l : Location) : (t.filesUnder l).Nodup :=
  t.entries.nodup.sublist (List.filter_sublist.map _)

/-- Nothing is below what is not a directory. -/
theorem eq_of_file_above {l l' : Location} {n n' : Node} (hn : t.node? l = some n) (hfile : n.isDir = false)
    (hl : l <+: l') (hn' : t.node? l' = some n') : l' = l := by
  obtain ⟨rest, rfl⟩ := hl
  by_contra hne
  obtain ⟨m, hm, hdir⟩ := isDirAt_of_append hn' fun h => hne (by rw [h, List.append_nil])
  cases hn.symm.trans hm
  rw [hfile] at hdir
  cases hdir

theorem filesUnder_of_missing {l : Location} (h : t.node? l = none) : t.filesUnder l = [] := by
  refine List.eq_nil_iff_forall_not_mem.mpr fun l' hl' => ?_
  obtain ⟨hpre, n, hn, -⟩ := mem_filesUnder_iff.mp hl'
  cases hn.symm.trans (node?_of_missing_above h hpre)

theorem filesUnder_of_file {l : Location} {n : Node} (hn : t.node? l = some n) (hfile : n.isDir = false) :
    (t.filesUnder l).Perm [l] := by
  refine (List.perm_ext_iff_of_nodup (t.nodup_filesUnder l) (List.nodup_singleton l)).mpr fun l' => ?_
  rw [mem_filesUnder_iff, List.mem_singleton]
  constructor
  · rintro ⟨hl, n', hn', -⟩
    exact eq_of_file_above hn hfile hl hn'
  · rintro rfl
    exact ⟨List.prefix_rfl, n, hn, hfile⟩

/-- Below a directory is what is below its entries. -/
theorem exists_child {l l' : Location} {n : Node} (hl : l <+: l') (hne : l' ≠ l) (hn : t.node? l' = some n) :
    ∃ name ∈ t.children l, l ++ [name] <+: l' := by
  obtain ⟨rest, rfl⟩ := hl
  cases rest with
  | nil => exact absurd (List.append_nil l) hne
  | cons name rest =>
    refine ⟨name, mem_children_iff.mpr ?_, rest, by rw [List.append_assoc]; rfl⟩
    rw [List.append_cons] at hn
    by_cases hrest : rest = []
    · rw [hrest, List.append_nil] at hn
      exact ⟨n, hn⟩
    · obtain ⟨m, hm, -⟩ := isDirAt_of_append hn hrest
      exact ⟨m, hm⟩

theorem filesUnder_of_dir {l : Location} (h : t.IsDirAt l) :
    (t.filesUnder l).Perm ((t.children l).flatMap fun name => t.filesUnder (l ++ [name])) := by
  refine (List.perm_ext_iff_of_nodup (t.nodup_filesUnder l) ?_).mpr fun l' => ?_
  · refine List.nodup_flatMap.mpr ⟨fun name _ => t.nodup_filesUnder _, (t.nodup_children l).imp fun hne => ?_⟩
    intro l' h1 h2
    have hp1 := (mem_filesUnder_iff.mp h1).1
    have hp2 := (mem_filesUnder_iff.mp h2).1
    have heq := (List.prefix_of_prefix_length_le hp1 hp2 (by simp)).eq_of_length (by simp)
    simp only [List.append_cancel_left_eq, List.cons.injEq, and_true] at heq
    exact hne heq
  · rw [List.mem_flatMap, mem_filesUnder_iff]
    simp only [mem_filesUnder_iff]
    constructor
    · rintro ⟨hl, n, hn, hfile⟩
      have hne : l' ≠ l := by
        rintro rfl
        obtain ⟨m, hm, hdir⟩ := h
        cases hn.symm.trans hm
        rw [hfile] at hdir
        cases hdir
      obtain ⟨name, hname, hpre⟩ := exists_child hl hne hn
      exact ⟨name, hname, hpre, n, hn, hfile⟩
    · rintro ⟨name, -, hpre, hn⟩
      exact ⟨(List.prefix_append l [name]).trans hpre, hn⟩

theorem isWalkable_of_forall (h : ∀ e ∈ t.entries.rows, e.2.isDir = true →
    e.2.readable = true ∧ ∀ name ∈ t.children e.1, t.Admits e.1 name) (l : Location) : t.IsWalkable l :=
  fun l' n _ hn => h (l', n) (node?_eq_some_iff.mp hn)

theorem isWalkable_iff {l : Location} {n : Node} (hn : t.node? l = some n) (hdir : n.isDir = true) :
    t.IsWalkable l ↔ n.readable = true ∧ ∀ name ∈ t.children l, t.Admits l name ∧ t.IsWalkable (l ++ [name]) := by
  constructor
  · intro h
    obtain ⟨hread, hadmits⟩ := h l n List.prefix_rfl hn hdir
    exact ⟨hread, fun name hname => ⟨hadmits name hname,
      fun l' n' hl => h l' n' ((List.prefix_append l [name]).trans hl)⟩⟩
  · rintro ⟨hread, hchildren⟩ l' n' hl hn' hdir'
    by_cases hne : l' = l
    · subst hne
      cases hn.symm.trans hn'
      exact ⟨hread, fun name hname => (hchildren name hname).1⟩
    · obtain ⟨name, hname, hpre⟩ := exists_child hl hne hn'
      exact (hchildren name hname).2 l' n' hpre hn' hdir'

theorem isWalkable_of_not_dir {l : Location} (h : ¬ t.IsDirAt l) : t.IsWalkable l := by
  rintro l' n ⟨rest, rfl⟩ hn hdir
  by_cases hrest : rest = []
  · rw [hrest, List.append_nil] at hn
    exact absurd ⟨n, hn, hdir⟩ h
  · exact absurd (isDirAt_of_append hn hrest) h

theorem isWalkable_of_file {l : Location} {n : Node} (hn : t.node? l = some n) (hfile : n.isDir = false) :
    t.IsWalkable l := by
  refine isWalkable_of_not_dir fun ⟨m, hm, hdir⟩ => ?_
  cases hn.symm.trans hm
  rw [hfile] at hdir
  cases hdir

/-- What is walked through is passed down to every entry. -/
theorem passes_of_isWalkable {l rest : Location} (h : t.IsWalkable l) {n : Node} (hn : t.node? (l ++ rest) = some n) :
    t.Passes l rest := by
  rintro p name rest' rfl ⟨m, hm, hdir⟩
  refine (h _ m (List.prefix_append l p) hm hdir).2 name (mem_children_iff.mpr ?_)
  rw [List.append_cons p, ← List.append_assoc, ← List.append_assoc] at hn
  by_cases hrest : rest' = []
  · rw [hrest, List.append_nil] at hn
    exact ⟨n, hn⟩
  · obtain ⟨k, hk, -⟩ := isDirAt_of_append hn hrest
    exact ⟨k, hk⟩

end FileTree

end Satunera.Base
