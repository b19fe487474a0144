import Satunera.Contracts.Source

/-!
# What a normalized path looks like

* `Trims`, `trims_iff` : a path with `/` for every `\`, less the repetitions of `./` that it starts with;
* `normalize_eq_error_iff` : which paths are refused, and how;
* `resolveSegments`, `resolveSegments_of_isSegment` : segments that are followed without looking anything up stay below
  where they start;
* `prefix_of_names` : so does what a path is normalized to, after segments that need no normalizing;
* `IsCanonical`, `normalize_canonical` : normalizing accepts exactly the relative paths that stay inside, and returns
  them in one form.
-/

namespace Satunera.Contracts

open Satunera.Base

/-! ## Trimming -/

/-- What is left of a path with `/` for every `\` after the repetitions of `./` at its start. -/
def Trims (path : String) (cs : List Char) : Prop :=
  ∃ n, (path.toList.map fun c => if c = '\\' then '/' else c) = (List.replicate n ['.', '/']).flatten ++ cs ∧
    ¬ ['.', '/'] <+: cs

theorem trimDotSlash_of_not_prefix {cs : List Char} (h : ¬ ['.', '/'] <+: cs) : trimDotSlash cs = cs := by
  unfold trimDotSlash
  split
  · rename_i rest
    exact absurd (List.prefix_append ['.', '/'] rest) h
  · rfl

theorem trimDotSlash_replicate (n : Nat) (cs : List Char) :
    trimDotSlash ((List.replicate n ['.', '/']).flatten ++ cs) = trimDotSlash cs := by
  induction n with
  | zero => rfl
  | succ n ih =>
    rw [List.replicate_succ, List.flatten_cons, List.append_assoc]
    exact ih

theorem exists_replicate (cs : List Char) : ∃ n, cs = (List.replicate n ['.', '/']).flatten ++ trimDotSlash cs ∧
    ¬ ['.', '/'] <+: trimDotSlash cs := by
  fun_induction trimDotSlash cs with
  | case1 cs ih =>
    obtain ⟨n, hcs, hnot⟩ := ih
    refine ⟨n + 1, ?_, hnot⟩
    rw [List.replicate_succ, List.flatten_cons, List.append_assoc, ← hcs]
    rfl
  | case2 cs hne =>
    refine ⟨0, rfl, ?_⟩
    rintro ⟨rest, rfl⟩
    exact hne rest rfl

theorem trims_iff {path : String} {cs : List Char} : Trims path cs ↔ cs = trimmed path := by
  constructor
  · rintro ⟨n, hpath, hnot⟩
    rw [trimmed, hpath, trimDotSlash_replicate, trimDotSlash_of_not_prefix hnot]
  · rintro rfl
    exact exists_replicate _

/-! ## Refusals -/

theorem collectSegments_eq_error_iff {path : String} {segments out : List String} {e : SourceError} :
    collectSegments path out segments = .error e ↔ ".." ∈ segments ∧ e = .escapes path := by
  induction segments generalizing out with
  | nil =>
    rw [collectSegments]
    refine iff_of_false (fun h => by cases h) fun h => ?_
    cases h.1
  | cons segment rest ih =>
    rw [collectSegments, List.mem_cons]
    split
    · rename_i hnoise
      have hne : ".." ≠ segment := by
        rintro rfl
        revert hnoise
        decide
      rw [ih, or_iff_right hne]
    · split
      · rename_i hdots
        rw [Except.error.injEq, and_iff_right (Or.inl hdots.symm), eq_comm]
      · rename_i hdots
        rw [ih, or_iff_right (Ne.symm hdots)]

theorem normalize_eq_error_iff {path : String} {e : SourceError} : normalize path = .error e ↔
    if (trimmed path).head? = some '/' ∨ ':' ∈ trimmed path ∨ ".." ∈ splitSlash (String.ofList (trimmed path))
      then e = .escapes path else keptSegments path = [] ∧ e = .notFound path := by
  rw [normalize]
  split
  · rename_i hempty
    have hsplit : splitSlash (String.ofList []) = [""] := by decide
    have hkept : keptSegments path = [] := by
      rw [keptSegments, hempty]
      decide
    rw [if_neg (by rw [hempty, hsplit]; decide), and_iff_right hkept, Except.error.injEq, eq_comm]
  · split
    · rename_i hrefused
      rw [if_pos (or_assoc.mp (Or.inl hrefused)), Except.error.injEq, eq_comm]
    · rename_i haccepted
      cases hcollect : collectSegments path [] (splitSlash (String.ofList (trimmed path))) with
      | error e' =>
        obtain ⟨hdots, rfl⟩ := collectSegments_eq_error_iff.mp hcollect
        rw [if_pos (Or.inr (Or.inr hdots))]
        show Except.error (SourceError.escapes path) = Except.error e ↔ _
        rw [Except.error.injEq, eq_comm]
      | ok out =>
        obtain ⟨hdots, hout⟩ := collectSegments_eq_ok_iff.mp hcollect
        rw [List.nil_append] at hout
        rw [if_neg fun h => (or_assoc.mpr h).elim haccepted hdots, keptSegments, ← hout]
        show (if out = [] then Except.error _ else _) = _ ↔ _
        split
        · rename_i hnil
          rw [and_iff_right hnil, Except.error.injEq, eq_comm]
        · rename_i hne
          exact iff_of_false (fun h => by cases h) fun h => hne h.1

/-! ## Staying below -/

/-- One segment further, with nothing looked up. -/
def resolveSegment (here : Location) (segment : String) : Location :=
  if segment = "" ∨ segment = "." then here
  else if segment = ".." then here.dropLast
  else here ++ [segment]

def resolveSegments (root : Location) (segments : List String) : Location := segments.foldl resolveSegment root

theorem resolveSegments_of_isSegment {root : Location} {segments : List String} (h : ∀ s ∈ segments, IsSegment s) :
    resolveSegments root segments = root ++ segments := by
  induction segments generalizing root with
  | nil => exact (List.append_nil root).symm
  | cons s segments ih =>
    obtain ⟨hs, hsegments⟩ := List.forall_mem_cons.mp h
    have hstep : resolveSegment root s = root ++ [s] := by
      rw [resolveSegment, if_neg (not_or_intro hs.ne_empty hs.ne_dot), if_neg hs.ne_dotdot]
    rw [resolveSegments, List.foldl_cons, hstep]
    exact (ih hsegments).trans (List.append_cons root s segments).symm

/-- What follows segments that are in order is normalized behind them. -/
theorem prefix_of_names {p q segments : List String} (hne : p ≠ []) (hp : ∀ s ∈ p, IsSegment s)
    (hnames : Names (joinSlash (p ++ q)) segments) : p <+: segments := by
  set f : Char → Char := fun c => if c = '\\' then '/' else c with hf
  have hmap : (joinSlash p).toList.map f = (joinSlash p).toList := by
    refine (List.map_congr_left fun c hc => if_neg ?_).trans (List.map_id' _)
    rcases mem_joinSlash hc with rfl | ⟨s, hs, hcs⟩
    · decide
    · exact fun heq => (hp s hs).no_backslash (heq ▸ hcs)
  have hsplit : splitSlash (joinSlash p) = p := splitSlash_joinSlash hne fun s hs => (hp s hs).no_slash
  have hstart : ∃ rest, splitSlash (String.ofList ((joinSlash (p ++ q)).toList.map f)) = p ++ rest := by
    by_cases hq : q = []
    · exact ⟨[], by rw [hq, List.append_nil, hmap, String.ofList_toList, hsplit]⟩
    · refine ⟨(((joinSlash q).toList.map f).splitOn '/').map String.ofList, ?_⟩
      have hslash : f '/' = '/' := rfl
      rw [toList_joinSlash_append hne hq, List.map_append, hmap, List.map_cons, hslash, splitSlash,
        String.toList_ofList, List.splitOn_append_cons_self, List.map_append, ← splitSlash, hsplit]
  obtain ⟨rest, hrest⟩ := hstart
  have htrimmed : trimmed (joinSlash (p ++ q)) = (joinSlash (p ++ q)).toList.map f := by
    refine trimDotSlash_of_not_prefix ?_
    rintro ⟨rest', hdot⟩
    have hhead : splitSlash (String.ofList (['.', '/'] ++ rest')) = "." :: (rest'.splitOn '/').map String.ofList := by
      rw [splitSlash, String.toList_ofList]
      exact congrArg (List.map String.ofList)
        (List.splitOn_append_cons_self_of_not_mem (by decide : '/' ∉ ['.']) rest')
    rw [← hdot, hhead] at hrest
    obtain ⟨s, p', rfl⟩ := List.exists_cons_of_ne_nil hne
    exact (hp s List.mem_cons_self).ne_dot (List.cons.inj hrest).1.symm
  rw [hnames.eq_keptSegments, keptSegments, htrimmed, hrest, List.filter_append, List.filter_eq_self.mpr fun s hs =>
    decide_eq_true ⟨(hp s hs).ne_empty, (hp s hs).ne_dot⟩]
  exact List.prefix_append ..

/-! ## The form -/

/-- The path goes down from any root, says so in one way only, and is normalized already. -/
structure IsCanonical (q : String) : Prop where
  ne_empty : q ≠ ""
  no_leading : q.toList.head? ≠ some '/'
  no_trailing : q.toList.getLast? ≠ some '/'
  no_doubled : ¬ ['/', '/'] <:+: q.toList
  no_dots : ∀ s ∈ splitSlash q, s ≠ "." ∧ s ≠ ".."
  no_backslash : '\\' ∉ q.toList
  no_colon : ':' ∉ q.toList
  below : ∀ root segments, segments <+: splitSlash q → segments ≠ [] →
    root <+: resolveSegments root segments ∧ resolveSegments root segments ≠ root
  normalize_eq : normalize q = .ok q

theorem getLast?_ne_slash_of_not_mem {s : String} (h : "" ∉ splitSlash s) : s.toList.getLast? ≠ some '/' := by
  intro hlast
  obtain ⟨init, hinit⟩ := List.getLast?_eq_some_iff.mp hlast
  rw [splitSlash, hinit, List.splitOn_append_cons_self, List.splitOn_nil, List.map_append] at h
  exact h (List.mem_append_right _ List.mem_cons_self)

theorem not_doubled_of_not_mem {s : String} (h : "" ∉ splitSlash s) : ¬ ['/', '/'] <:+: s.toList := by
  rintro ⟨before, rest, hs⟩
  have hsplit : ('/' :: rest).splitOn '/' = [] :: rest.splitOn '/' := by
    rw [List.splitOn_cons_eq_if_modifyHead, if_pos (by decide)]
  rw [splitSlash, ← hs, List.append_assoc, List.cons_append, List.cons_append, List.nil_append,
    List.splitOn_append_cons_self, hsplit, List.map_append] at h
  exact h (List.mem_append_right _ List.mem_cons_self)

theorem Names.isCanonical {path : String} {segments : List String} (h : Names path segments) :
    IsCanonical (joinSlash segments) := by
  have hsplit := h.splitSlash_eq
  have hempty : "" ∉ splitSlash (joinSlash segments) := by
    rw [hsplit]
    exact fun hmem => (h.isSegment "" hmem).ne_empty rfl
  have hchars : ∀ c ∈ (joinSlash segments).toList, c ≠ '\\' ∧ c ≠ ':' := by
    intro c hc
    rcases mem_joinSlash hc with rfl | ⟨s, hs, hcs⟩
    · decide
    · exact ⟨fun heq => (h.isSegment s hs).no_backslash (heq ▸ hcs), fun heq => (h.isSegment s hs).no_colon (heq ▸ hcs)⟩
  refine ⟨?_, head?_ne_slash_of_not_mem hempty, getLast?_ne_slash_of_not_mem hempty, not_doubled_of_not_mem hempty,
    fun s hs => ?_, fun hc => (hchars _ hc).1 rfl, fun hc => (hchars _ hc).2 rfl, fun root below hbelow hne => ?_,
    (names_joinSlash h.ne_nil h.isSegment).normalize_eq⟩
  · intro heq
    rw [heq] at hempty
    exact hempty (by decide)
  · rw [hsplit] at hs
    exact ⟨(h.isSegment s hs).ne_dot, (h.isSegment s hs).ne_dotdot⟩
  · rw [hsplit] at hbelow
    rw [resolveSegments_of_isSegment fun s hs => h.isSegment s (hbelow.subset hs)]
    exact ⟨List.prefix_append .., fun heq => hne (List.append_right_eq_self.mp heq)⟩

/-- **A path is accepted exactly if what is left of it after trimming does not start with `/`, has no `:` and no `..`
segment and some segment that is not noise; it is returned as the join of these segments, in canonical form; and it is
refused as escaping for the first three reasons, as not found for the last.** -/
theorem normalize_canonical (path : String) {cs : List Char} (hcs : Trims path cs) :
    (∀ q, normalize path = .ok q ↔ cs.head? ≠ some '/' ∧ ':' ∉ cs ∧ ".." ∉ splitSlash (String.ofList cs) ∧
      (∃ s ∈ splitSlash (String.ofList cs), s ≠ "" ∧ s ≠ ".") ∧
      q = joinSlash ((splitSlash (String.ofList cs)).filter fun s => s ≠ "" ∧ s ≠ ".")) ∧
    (∀ q, normalize path = .ok q → IsCanonical q) ∧
    ∀ e, normalize path = .error e →
      e = if cs.head? = some '/' ∨ ':' ∈ cs ∨ ".." ∈ splitSlash (String.ofList cs) then .escapes path
        else .notFound path := by
  obtain rfl := trims_iff.mp hcs
  refine ⟨fun q => ?_, fun q hq => ?_, fun e he => ?_⟩
  · have hkept : keptSegments path ≠ [] ↔ ∃ s ∈ splitSlash (String.ofList (trimmed path)), s ≠ "" ∧ s ≠ "." := by
      rw [keptSegments, ne_eq, List.filter_eq_nil_iff]
      push Not
      simp
    rw [normalize_eq_ok_iff, hkept]
    rfl
  · obtain ⟨segments, hnames, rfl⟩ := exists_names hq
    exact hnames.isCanonical
  · rw [normalize_eq_error_iff] at he
    split at he
    · rename_i hrefused
      rw [if_pos hrefused, he]
    · rename_i haccepted
      rw [if_neg haccepted, he.2]

/-- Noise before a path, in both separators. -/
theorem normalize_canonical_noise : Trims "./.\\srcs//rust/." "srcs//rust/.".toList ∧
    normalize "./.\\srcs//rust/." = .ok "srcs/rust" ∧ IsCanonical "srcs/rust" := by
  have htrims : Trims "./.\\srcs//rust/." "srcs//rust/.".toList := ⟨2, by decide, by decide⟩
  obtain ⟨hok, hcanonical, -⟩ := normalize_canonical _ htrims
  have hnormalize : normalize "./.\\srcs//rust/." = .ok "srcs/rust" :=
    (hok "srcs/rust").mpr (by decide +kernel)
  exact ⟨htrims, hnormalize, hcanonical _ hnormalize⟩

end Satunera.Contracts
