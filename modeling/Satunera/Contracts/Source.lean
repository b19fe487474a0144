import Satunera.Base.FileTree

/-!
# Reading a problem directory without knowing where it came from

* `normalize` : a path with its noise removed, or refused (`normalize_eq_ok_iff`);
* `TarSource` : a tree held in memory, built from an uploaded archive (`TarSource.get_eq_ok_iff`).
-/

namespace Satunera.Contracts

open Satunera.Base

inductive SourceError
  | notFound (path : String)
  | isDirectory (path : String)
  | escapes (path : String)
  | io (path : String) (source : IoKind)
  deriving DecidableEq

/-! ## Paths -/

/-- `trim_start_matches("./")` -/
def trimDotSlash : List Char → List Char
  | '.' :: '/' :: cs => trimDotSlash cs
  | cs => cs

/-- A path with `/` for every `\`, and without the `./` it starts with. -/
def trimmed (path : String) : List Char := trimDotSlash (path.toList.map fun c => if c = '\\' then '/' else c)

/-- The loop over the segments of a path. -/
def collectSegments (path : String) : List String → List String → Except SourceError (List String)
  | out, [] => .ok out
  | out, segment :: rest =>
    if segment = "" ∨ segment = "." then collectSegments path out rest
    else if segment = ".." then .error (.escapes path)
    else collectSegments path (out ++ [segment]) rest

/-- The path from the root of a source, or a refusal of what could point outside it. -/
def normalize (path : String) : Except SourceError String :=
  if trimmed path = [] then .error (.notFound path)
  else if (trimmed path).head? = some '/' ∨ ':' ∈ trimmed path then .error (.escapes path)
  else do
    let out ← collectSegments path [] (splitSlash (String.ofList (trimmed path)))
    if out = [] then .error (.notFound path) else return joinSlash out

/-- What a normalized path is made of. -/
structure IsSegment (s : String) : Prop where
  ne_empty : s ≠ ""
  ne_dot : s ≠ "."
  ne_dotdot : s ≠ ".."
  no_slash : '/' ∉ s.toList
  no_colon : ':' ∉ s.toList
  no_backslash : '\\' ∉ s.toList

instance (s : String) : Decidable (IsSegment s) :=
  decidable_of_iff (s ≠ "" ∧ s ≠ "." ∧ s ≠ ".." ∧ '/' ∉ s.toList ∧ ':' ∉ s.toList ∧ '\\' ∉ s.toList)
    ⟨fun ⟨h1, h2, h3, h4, h5, h6⟩ => ⟨h1, h2, h3, h4, h5, h6⟩,
      fun ⟨h1, h2, h3, h4, h5, h6⟩ => ⟨h1, h2, h3, h4, h5, h6⟩⟩

theorem IsSegment.isFileName {s : String} (h : IsSegment s) (hnul : '\x00' ∉ s.toList) : IsFileName s :=
  ⟨h.ne_empty, h.ne_dot, h.ne_dotdot, h.no_slash, hnul⟩

theorem collectSegments_eq_ok_iff {path : String} {segments out out' : List String} :
    collectSegments path out segments = .ok out' ↔
      ".." ∉ segments ∧ out' = out ++ segments.filter fun s => s ≠ "" ∧ s ≠ "." := by
  induction segments generalizing out with
  | nil => simp [collectSegments, eq_comm]
  | cons segment rest ih =>
    rw [collectSegments, List.mem_cons]
    split
    · rename_i hnoise
      have hne : ".." ≠ segment := by
        rintro rfl
        revert hnoise
        decide
      have hdrop : ¬ (segment ≠ "" ∧ segment ≠ ".") := by simpa [or_iff_not_imp_left] using hnoise
      rw [ih, List.filter_cons_of_neg (by simpa using hdrop)]
      simp [hne]
    · rename_i hkeep
      split
      · rename_i hdots
        simp [hdots]
      · rename_i hdots
        rw [ih, List.filter_cons_of_pos (by simpa using not_or.mp hkeep), List.append_assoc, List.singleton_append]
        simp [Ne.symm hdots]

theorem trimDotSlash_suffix (cs : List Char) : trimDotSlash cs <:+ cs := by
  fun_induction trimDotSlash cs with
  | case1 cs ih => exact ih.trans ((List.suffix_cons '/' cs).trans (List.suffix_cons '.' _))
  | case2 cs => exact List.suffix_rfl

theorem mem_trimDotSlash {cs : List Char} {c : Char} (hdot : c ≠ '.') (hslash : c ≠ '/') (h : c ∈ cs) :
    c ∈ trimDotSlash cs := by
  fun_induction trimDotSlash cs with
  | case1 cs ih =>
    apply ih
    simpa [hdot, hslash] using h
  | case2 cs => exact h

/-- A `:` in a path stays there. -/
theorem colon_mem_trimmed {path : String} (h : ':' ∈ path.toList) : ':' ∈ trimmed path :=
  mem_trimDotSlash (by decide) (by decide) (List.mem_map.mpr ⟨':', h, if_neg (by decide)⟩)

theorem backslash_not_mem_trimmed (path : String) : '\\' ∉ trimmed path := by
  intro h
  obtain ⟨c, -, hc⟩ := List.mem_map.mp ((trimDotSlash_suffix _).mem h)
  split at hc
  · cases hc
  · contradiction

/-- The segments of a path that are not noise. -/
def keptSegments (path : String) : List String :=
  (splitSlash (String.ofList (trimmed path))).filter fun s => s ≠ "" ∧ s ≠ "."

theorem normalize_eq_ok_iff {path rel : String} : normalize path = .ok rel ↔
    (trimmed path).head? ≠ some '/' ∧ ':' ∉ trimmed path ∧ ".." ∉ splitSlash (String.ofList (trimmed path)) ∧
      keptSegments path ≠ [] ∧ rel = joinSlash (keptSegments path) := by
  rw [normalize]
  split
  · rename_i hempty
    have hkept : keptSegments path = [] := by
      rw [keptSegments, hempty]
      decide
    exact iff_of_false nofun fun h => h.2.2.2.1 hkept
  · split
    · rename_i hrefused
      refine iff_of_false nofun fun ⟨hhead, hcolon, _⟩ => ?_
      exact hrefused.elim hhead hcolon
    · rename_i haccepted
      obtain ⟨hhead, hcolon⟩ := not_or.mp haccepted
      rw [and_iff_right hhead, and_iff_right hcolon, bind_eq_ok_iff]
      simp only [collectSegments_eq_ok_iff, List.nil_append]
      constructor
      · rintro ⟨out, ⟨hdots, rfl⟩, h⟩
        split at h
        · cases h
        · rename_i hne
          exact ⟨hdots, hne, (Except.ok.inj h).symm⟩
      · rintro ⟨hdots, hne, rfl⟩
        exact ⟨_, ⟨hdots, rfl⟩, if_neg hne⟩

theorem isSegment_of_mem_keptSegments {path : String} (hcolon : ':' ∉ trimmed path)
    (hdots : ".." ∉ splitSlash (String.ofList (trimmed path))) {s : String} (hs : s ∈ keptSegments path) :
    IsSegment s := by
  obtain ⟨hmem, hkept⟩ := List.mem_filter.mp hs
  obtain ⟨hempty, hdot⟩ := of_decide_eq_true hkept
  have htrimmed : ∀ c ∈ s.toList, c ∈ trimmed path ∧ c ≠ '/' := fun c hc => by
    simpa using mem_splitSlash hmem hc
  exact ⟨hempty, hdot, fun h => hdots (h ▸ hmem), fun h => (htrimmed _ h).2 rfl, fun h => hcolon (htrimmed _ h).1,
    fun h => backslash_not_mem_trimmed path (htrimmed _ h).1⟩

/-- The path is normalized to these segments. -/
structure Names (path : String) (segments : List String) : Prop where
  normalize_eq : normalize path = .ok (joinSlash segments)
  ne_nil : segments ≠ []
  isSegment : ∀ s ∈ segments, IsSegment s

theorem exists_names {path rel : String} (h : normalize path = .ok rel) :
    ∃ segments, Names path segments ∧ rel = joinSlash segments := by
  obtain ⟨-, hcolon, hdots, hne, rfl⟩ := normalize_eq_ok_iff.mp h
  exact ⟨keptSegments path, ⟨h, hne, fun s => isSegment_of_mem_keptSegments hcolon hdots⟩, rfl⟩

namespace Names
variable {path : String} {segments segments' : List String}

theorem nameable (h : Names path segments) : ∀ s ∈ segments, s ≠ "" ∧ '/' ∉ s.toList := fun s hs =>
  ⟨(h.isSegment s hs).ne_empty, (h.isSegment s hs).no_slash⟩

theorem splitSlash_eq (h : Names path segments) : splitSlash (joinSlash segments) = segments :=
  splitSlash_joinSlash h.ne_nil fun s hs => (h.isSegment s hs).no_slash

theorem unique (h : Names path segments) (h' : Names path segments') : segments = segments' := by
  have heq := Except.ok.inj (h.normalize_eq.symm.trans h'.normalize_eq)
  rw [← h.splitSlash_eq, heq, h'.splitSlash_eq]

theorem eq_keptSegments (h : Names path segments) : segments = keptSegments path := by
  obtain ⟨-, hcolon, hdots, hne, hrel⟩ := normalize_eq_ok_iff.mp h.normalize_eq
  exact h.unique ⟨hrel ▸ h.normalize_eq, hne, fun s => isSegment_of_mem_keptSegments hcolon hdots⟩

/-- The segments have no characters but those of the path. -/
theorem mem_toList (h : Names path segments) {s : String} (hs : s ∈ segments) {c : Char} (hc : c ∈ s.toList) :
    c ∈ path.toList := by
  rw [h.eq_keptSegments] at hs
  obtain ⟨htrimmed, hslash⟩ := mem_splitSlash (List.mem_filter.mp hs).1 hc
  rw [String.toList_ofList] at htrimmed
  obtain ⟨c', hc', heq⟩ := List.mem_map.mp ((trimDotSlash_suffix _).mem htrimmed)
  split at heq
  · exact absurd heq.symm hslash
  · rwa [← heq]

end Names

theorem trimDotSlash_of_not_mem {s : String} (h : "." ∉ splitSlash s) : trimDotSlash s.toList = s.toList := by
  rw [splitSlash] at h
  generalize s.toList = cs at h ⊢
  unfold trimDotSlash
  split
  · rename_i rest
    refine absurd ?_ h
    have hsplit : ('.' :: '/' :: rest).splitOn '/' = ['.'] :: rest.splitOn '/' :=
      List.splitOn_append_cons_self_of_not_mem (by decide : '/' ∉ ['.']) rest
    rw [hsplit]
    exact List.mem_cons_self
  · rfl

theorem head?_ne_slash_of_not_mem {s : String} (h : "" ∉ splitSlash s) : s.toList.head? ≠ some '/' := by
  rw [splitSlash] at h
  generalize s.toList = cs at h ⊢
  rintro hhead
  obtain ⟨rest, rfl⟩ := List.head?_eq_some_iff.mp hhead
  rw [List.splitOn_cons_eq_if_modifyHead, if_pos (by decide)] at h
  exact h List.mem_cons_self

/-- A path of segments is normalized already. -/
theorem names_joinSlash {segments : List String} (hne : segments ≠ []) (h : ∀ s ∈ segments, IsSegment s) :
    Names (joinSlash segments) segments := by
  have hsplit : splitSlash (joinSlash segments) = segments := splitSlash_joinSlash hne fun s hs => (h s hs).no_slash
  have hmem : ∀ c ∈ (joinSlash segments).toList, c ≠ '\\' ∧ c ≠ ':' := by
    intro c hc
    rcases mem_joinSlash hc with rfl | ⟨s, hs, hcs⟩
    · decide
    · exact ⟨fun heq => (h s hs).no_backslash (heq ▸ hcs), fun heq => (h s hs).no_colon (heq ▸ hcs)⟩
  have htrimmed : trimmed (joinSlash segments) = (joinSlash segments).toList := by
    rw [trimmed, List.map_congr_left fun c hc => if_neg (hmem c hc).1, List.map_id']
    exact trimDotSlash_of_not_mem fun hdot => (h "." (hsplit ▸ hdot)).ne_dot rfl
  have hkept : keptSegments (joinSlash segments) = segments := by
    rw [keptSegments, htrimmed, String.ofList_toList, hsplit, List.filter_eq_self]
    exact fun s hs => decide_eq_true ⟨(h s hs).ne_empty, (h s hs).ne_dot⟩
  refine ⟨normalize_eq_ok_iff.mpr ⟨?_, ?_, ?_, by rwa [hkept], by rw [hkept]⟩, hne, h⟩
  · rw [htrimmed]
    exact head?_ne_slash_of_not_mem fun hempty => (h "" (hsplit ▸ hempty)).ne_empty rfl
  · rw [htrimmed]
    exact fun hc => (hmem ':' hc).2 rfl
  · rw [htrimmed, String.ofList_toList, hsplit]
    exact fun hdots => (h ".." hdots).ne_dotdot rfl

def modeIsExecutable (mode : UInt32) : Bool := mode &&& 0o111 != 0

/-! ## An archive -/

/-- One file inside a `TarSource`. -/
structure TarEntry where
  mode : UInt32
  data : List UInt8
  deriving DecidableEq

/-- A problem tree held in memory. -/
structure TarSource where
  entries : Std.TreeMap String TarEntry

namespace TarSource

def new : TarSource := ⟨∅⟩

def insert (s : TarSource) (path : String) (mode : UInt32) (data : List UInt8) : Except SourceError TarSource := do
  let key ← normalize path
  return ⟨s.entries.insert key ⟨mode, data⟩⟩

/-- `insert` as its caller sees it: the result, and the source afterwards. -/
def insertInPlace (s : TarSource) (path : String) (mode : UInt32) (data : List UInt8) :
    Except SourceError Unit × TarSource :=
  match normalize path with
  | .error e => (.error e, s)
  | .ok key => (.ok (), ⟨s.entries.insert key ⟨mode, data⟩⟩)

/-- The archive with the given files, each a name, its mode and its bytes. -/
def fromEntries (entries : List (String × UInt32 × List UInt8)) : Except SourceError TarSource :=
  entries.foldlM (fun s e => s.insert e.1 e.2.1 e.2.2) new

def len (s : TarSource) : Nat := s.entries.size

def totalBytes (s : TarSource) : Nat := (s.entries.toList.map fun e => e.2.data.length).sum

def get (s : TarSource) (path : String) : Except SourceError TarEntry := do
  let key ← normalize path
  okOr s.entries[key]? (.notFound key)

def read (s : TarSource) (path : String) : Except SourceError (List UInt8) := do
  let entry ← s.get path
  return entry.data

/-- Every file at `path` or under it; every file at all for the empty path and `.`. -/
def list (s : TarSource) (path : String) : Except SourceError (List String) :=
  if path = "" ∨ path = "." then return s.entries.keys
  else do
    let key ← normalize path
    return s.entries.keys.filter fun p => p = key ∨ (key.toList ++ ['/']) <+: p.toList

def isExecutable (s : TarSource) (path : String) : Except SourceError Bool := do
  let entry ← s.get path
  return modeIsExecutable entry.mode

theorem get_eq_ok_iff {s : TarSource} {path : String} {e : TarEntry} :
    s.get path = .ok e ↔ ∃ rel, normalize path = .ok rel ∧ s.entries[rel]? = some e := by
  rw [get, bind_eq_ok_iff]
  simp only [okOr_eq_ok_iff]

theorem pairwise_keys (s : TarSource) : s.entries.keys.Pairwise (· < ·) :=
  Std.TreeMap.ordered_keys.imp compare_lt_iff_lt.mp

end TarSource

end Satunera.Contracts
