import Satunera.Contracts.Source

/-!
# An archive and the entries it was made from

Names are normalized on the way in and on the way out, so that all spellings of a path are one key.

* `insertAll`, `lastEntry`, `getElem?_insertAll` : under each key is the last entry whose name is normalized to it;
* `fromEntries_eq_ok_iff` : an archive is made unless a name is refused;
* `Holds`, `exists_fromEntries` : files of different normalized names, in any order;
* `IsLastWriter`, `fromEntries_lastWriter` : what the calls return in terms of the entries.
-/

namespace Satunera.Contracts.TarSource

open Satunera.Base

variable {s src : TarSource} {path key : String} {entries : List (String × UInt32 × List UInt8)}

/-! ## Insertions -/

/-- Insert one file after another, whatever is refused. -/
def insertAll (s : TarSource) (entries : List (String × UInt32 × List UInt8)) : TarSource :=
  entries.foldl (fun s e => (s.insertInPlace e.1 e.2.1 e.2.2).2) s

/-- The last entry whose name is normalized to the key. -/
def lastEntry (entries : List (String × UInt32 × List UInt8)) (key : String) : Option TarEntry :=
  (entries.reverse.find? fun e => normalize e.1 = .ok key).map fun e => ⟨e.2.1, e.2.2⟩

theorem insertInPlace_of_refused {e : SourceError} (h : normalize path = .error e) (mode : UInt32) (data : List UInt8) :
    s.insertInPlace path mode data = (.error e, s) := by
  rw [insertInPlace, h]

/-- The two forms of `insert` are one. -/
theorem insert_eq_ok_iff {mode : UInt32} {data : List UInt8} : s.insert path mode data = .ok src ↔
    (∃ key, normalize path = .ok key) ∧ (s.insertInPlace path mode data).2 = src := by
  rw [insert, bind_eq_ok_iff, insertInPlace]
  constructor
  · rintro ⟨key, hkey, h⟩
    rw [hkey]
    exact ⟨⟨key, rfl⟩, Except.ok.inj h⟩
  · rintro ⟨⟨key, hkey⟩, h⟩
    rw [hkey] at h
    exact ⟨key, hkey, congrArg Except.ok h⟩

theorem lastEntry_concat {e : String × UInt32 × List UInt8} :
    lastEntry (entries ++ [e]) key =
      if normalize e.1 = .ok key then some ⟨e.2.1, e.2.2⟩ else lastEntry entries key := by
  rw [lastEntry, List.reverse_append, List.reverse_singleton, List.singleton_append, List.find?_cons]
  by_cases h : normalize e.1 = .ok key
  · rw [if_pos h, decide_eq_true h]
    rfl
  · rw [if_neg h, decide_eq_false h]
    rfl

theorem isSome_lastEntry : (lastEntry entries key).isSome ↔ ∃ entry ∈ entries, normalize entry.1 = .ok key := by
  rw [lastEntry, Option.isSome_map, List.find?_isSome]
  simp only [List.mem_reverse, decide_eq_true_eq]

theorem getElem?_insertInPlace {mode : UInt32} {data : List UInt8} :
    (s.insertInPlace path mode data).2.entries[key]? =
      if normalize path = .ok key then some ⟨mode, data⟩ else s.entries[key]? := by
  rw [insertInPlace]
  cases hpath : normalize path with
  | error e =>
    rw [if_neg fun h => by cases h]
  | ok key' =>
    refine Std.TreeMap.getElem?_insert.trans ?_
    simp only [compare_eq_iff_eq, Except.ok.injEq]

/-- Under each key is the last entry whose name is normalized to it. -/
theorem getElem?_insertAll : (insertAll new entries).entries[key]? = lastEntry entries key := by
  induction entries using List.reverseRecOn with
  | nil => exact Std.TreeMap.getElem?_emptyc
  | append_singleton entries e ih =>
    rw [insertAll, List.foldl_append]
    exact getElem?_insertInPlace.trans (by rw [lastEntry_concat, ← ih]; rfl)

/-- An archive is made exactly if no name is refused, and then by inserting every entry. -/
theorem fromEntries_eq_ok_iff :
    fromEntries entries = .ok src ↔ (∀ e ∈ entries, ∃ key, normalize e.1 = .ok key) ∧ insertAll new entries = src := by
  induction entries using List.reverseRecOn generalizing src with
  | nil =>
    rw [and_iff_right (List.forall_mem_nil _)]
    exact ⟨Except.ok.inj, congrArg Except.ok⟩
  | append_singleton entries e ih =>
    rw [fromEntries, List.foldlM_append, bind_eq_ok_iff, List.forall_mem_append, List.forall_mem_singleton]
    show (∃ s, fromEntries entries = .ok s ∧ (s.insert e.1 e.2.1 e.2.2 >>= pure) = .ok src) ↔ _
    simp only [bind_pure, ih, insert_eq_ok_iff]
    constructor
    · rintro ⟨s, ⟨hall, rfl⟩, hlast, hsrc⟩
      exact ⟨⟨hall, hlast⟩, (List.foldl_append ..).trans hsrc⟩
    · rintro ⟨⟨hall, hlast⟩, hsrc⟩
      exact ⟨_, ⟨hall, rfl⟩, hlast, (List.foldl_append ..).symm.trans hsrc⟩

theorem fromEntries_eq_error_iff :
    (∃ e, fromEntries entries = .error e) ↔ ∃ entry ∈ entries, ∃ e, normalize entry.1 = .error e := by
  have hok : ∀ {α : Type} {x : Except SourceError α}, (∃ e, x = .error e) ↔ ¬ ∃ a, x = .ok a := by
    intro α x
    cases x <;> simp
  simp only [hok, fromEntries_eq_ok_iff]
  simp

/-! ## Files -/

/-- The archive has these files, each a name, its mode and its bytes. -/
def Holds (s : TarSource) (files : List (String × UInt32 × List UInt8)) : Prop :=
  ∀ key e, s.entries[key]? = some e ↔ (key, e.mode, e.data) ∈ files

/-- Files of different normalized names make an archive of these files, in any order. -/
theorem exists_fromEntries {files : List (String × UInt32 × List UInt8)} (hnodup : (files.map Prod.fst).Nodup)
    (hnames : ∀ e ∈ files, normalize e.1 = .ok e.1) : ∃ s, fromEntries files = .ok s ∧ s.Holds files := by
  refine ⟨_, fromEntries_eq_ok_iff.mpr ⟨fun e he => ⟨e.1, hnames e he⟩, rfl⟩, fun key e => ?_⟩
  rw [getElem?_insertAll, lastEntry, Option.map_eq_some_iff]
  have hfound : ∀ {x}, files.reverse.find? (fun e => normalize e.1 = .ok key) = some x → x ∈ files ∧ x.1 = key := by
    intro x hx
    have hmem := List.mem_reverse.mp (List.mem_of_find?_eq_some hx)
    have hkey : normalize x.1 = .ok key := by simpa using List.find?_some hx
    exact ⟨hmem, Except.ok.inj ((hnames x hmem).symm.trans hkey)⟩
  constructor
  · rintro ⟨x, hx, rfl⟩
    obtain ⟨hmem, rfl⟩ := hfound hx
    exact hmem
  · intro hmem
    have hsome : (files.reverse.find? fun e => normalize e.1 = .ok key).isSome := by
      rw [List.find?_isSome]
      exact ⟨_, List.mem_reverse.mpr hmem, decide_eq_true (hnames _ hmem)⟩
    obtain ⟨x, hx⟩ := Option.isSome_iff_exists.mp hsome
    obtain ⟨hmem', hkey⟩ := hfound hx
    obtain rfl := List.inj_on_of_nodup_map hnodup hmem' hmem hkey
    exact ⟨_, hx, rfl⟩

theorem mem_keys_iff : key ∈ s.entries.keys ↔ ∃ e, s.entries[key]? = some e := by
  rw [Std.TreeMap.mem_keys, Std.TreeMap.mem_iff_isSome_getElem?, Option.isSome_iff_exists]

theorem Holds.mem_keys_iff {files : List (String × UInt32 × List UInt8)} (h : s.Holds files) :
    key ∈ s.entries.keys ↔ key ∈ files.map Prod.fst := by
  rw [TarSource.mem_keys_iff, List.mem_map]
  constructor
  · rintro ⟨e, he⟩
    exact ⟨_, (h key e).mp he, rfl⟩
  · rintro ⟨⟨key, mode, data⟩, hmem, rfl⟩
    exact ⟨⟨mode, data⟩, (h key ⟨mode, data⟩).mpr hmem⟩

/-! ## What the calls return -/

/-- The archive is the tree in which the last entry of each normalized name counts; `names` are these names. -/
structure IsLastWriter (src : TarSource) (entries : List (String × UInt32 × List UInt8)) (names : List String) :
    Prop where
  found : ∀ path key e, normalize path = .ok key → lastEntry entries key = some e →
    src.read path = .ok e.data ∧ src.isExecutable path = .ok (modeIsExecutable e.mode)
  absent : ∀ path key, normalize path = .ok key → lastEntry entries key = none →
    src.read path = .error (.notFound key) ∧ src.isExecutable path = .error (.notFound key)
  refused : ∀ path e, normalize path = .error e → src.read path = .error e ∧ src.isExecutable path = .error e
  list : src.list "" = .ok names
  sorted : names.Pairwise (· < ·)
  mem : ∀ name, name ∈ names ↔ ∃ entry ∈ entries, normalize entry.1 = .ok name
  reads_back : ∀ name ∈ names, ∃ e, lastEntry entries name = some e ∧ src.read name = .ok e.data
  len : src.len = names.length
  totalBytes : src.totalBytes = (names.map fun name => ((lastEntry entries name).map fun e => e.data.length).getD 0).sum
  below : ∀ path key, normalize path = .ok key →
    src.list path = .ok (names.filter fun name => splitSlash key <+: splitSlash name)

theorem get_of_normalize (h : normalize path = .ok key) : src.get path = okOr src.entries[key]? (.notFound key) := by
  rw [get, h]
  rfl

theorem read_of_get {e : TarEntry} (h : src.get path = .ok e) :
    src.read path = .ok e.data ∧ src.isExecutable path = .ok (modeIsExecutable e.mode) := by
  rw [read, isExecutable, h]
  exact ⟨rfl, rfl⟩

theorem read_of_get_error {e : SourceError} (h : src.get path = .error e) :
    src.read path = .error e ∧ src.isExecutable path = .error e := by
  rw [read, isExecutable, h]
  exact ⟨rfl, rfl⟩

/-- The bytes under the keys. -/
theorem totalBytes_eq_sum_keys :
    src.totalBytes = (src.entries.keys.map fun key => (src.entries[key]?.map fun e => e.data.length).getD 0).sum := by
  rw [TarSource.totalBytes, ← Std.TreeMap.map_fst_toList_eq_keys, List.map_map]
  refine congrArg List.sum (List.map_congr_left fun p hp => ?_)
  obtain ⟨key, e⟩ := p
  rw [Function.comp_apply, Std.TreeMap.mem_toList_iff_getElem?_eq_some.mp hp]
  rfl

/-- Where every key is normalized, the names that go on from a path are those whose segments do. -/
theorem list_of_normalize (hkeys : ∀ name ∈ src.entries.keys, ∃ path, normalize path = .ok name)
    (h : normalize path = .ok key) :
    src.list path = .ok (src.entries.keys.filter fun name => splitSlash key <+: splitSlash name) := by
  obtain ⟨segments, hnames, rfl⟩ := exists_names h
  have hpath : ¬ (path = "" ∨ path = ".") := by
    rintro (rfl | rfl) <;> cases h
  rw [list, if_neg hpath, h]
  refine congrArg Except.ok (List.filter_congr fun name hname => ?_)
  obtain ⟨path', hname⟩ := hkeys name hname
  obtain ⟨segments', hnames', rfl⟩ := exists_names hname
  rw [hnames.splitSlash_eq, hnames'.splitSlash_eq, decide_eq_decide]
  exact joinSlash_prefix_iff hnames.ne_nil hnames.nameable hnames'.nameable

theorem isLastWriter_insertAll : IsLastWriter (insertAll new entries) entries (insertAll new entries).entries.keys := by
  have hmem : ∀ name, name ∈ (insertAll new entries).entries.keys ↔
      ∃ entry ∈ entries, normalize entry.1 = .ok name := by
    intro name
    rw [mem_keys_iff, getElem?_insertAll, ← Option.isSome_iff_exists, isSome_lastEntry]
  have hfound : ∀ path key e, normalize path = .ok key → lastEntry entries key = some e →
      (insertAll new entries).get path = .ok e := by
    intro path key e hkey he
    rw [get_of_normalize hkey, getElem?_insertAll, he]
    rfl
  refine {
    found := fun path key e hkey he => read_of_get (hfound path key e hkey he)
    absent := fun path key hkey hnone => read_of_get_error ?_
    refused := fun path e he => read_of_get_error ?_
    list := if_pos (Or.inl rfl)
    sorted := pairwise_keys _
    mem := hmem
    reads_back := fun name hname => ?_
    len := Std.TreeMap.length_keys.symm
    totalBytes := ?_
    below := fun path key hkey => list_of_normalize (fun name hname => ?_) hkey }
  · rw [get_of_normalize hkey, getElem?_insertAll, hnone]
    rfl
  · rw [get, he]
    rfl
  · obtain ⟨entry, hentry, hnormalize⟩ := (hmem name).mp hname
    obtain ⟨e, he⟩ := Option.isSome_iff_exists.mp (isSome_lastEntry.mpr ⟨entry, hentry, hnormalize⟩)
    obtain ⟨segments, hnames, rfl⟩ := exists_names hnormalize
    exact ⟨e, he, (read_of_get (hfound _ _ e (names_joinSlash hnames.ne_nil hnames.isSegment).normalize_eq he)).1⟩
  · simp only [totalBytes_eq_sum_keys, getElem?_insertAll]
  · obtain ⟨entry, -, hnormalize⟩ := (hmem name).mp hname
    exact ⟨entry.1, hnormalize⟩

/-- **An archive fails to be made exactly if a name is refused, an insertion that is refused changes nothing, and an
archive that was made answers every path as the tree in which the last entry of each normalized name counts.** -/
theorem fromEntries_lastWriter (entries : List (String × UInt32 × List UInt8)) :
    ((∃ e, fromEntries entries = .error e) ↔ ∃ entry ∈ entries, ∃ e, normalize entry.1 = .error e) ∧
    (∀ (s : TarSource) path mode data e, normalize path = .error e →
      s.insertInPlace path mode data = (.error e, s)) ∧
    ∀ src, fromEntries entries = .ok src → ∃ names, IsLastWriter src entries names := by
  refine ⟨fromEntries_eq_error_iff, fun s path mode data e he => insertInPlace_of_refused he mode data,
    fun src hsrc => ?_⟩
  obtain ⟨-, rfl⟩ := fromEntries_eq_ok_iff.mp hsrc
  exact ⟨_, isLastWriter_insertAll⟩

/-- The second spelling of a path replaces the first. -/
example : (fromEntries [("./a\\b", 0o755, [1]), ("a//b", 0o644, [2])]).toOption.map TarSource.totalBytes = some 1 := by
  decide +kernel

end Satunera.Contracts.TarSource
