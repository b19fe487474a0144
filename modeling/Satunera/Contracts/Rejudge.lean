import Satunera.Base.JsonMap
import Satunera.Base.SchemaModel
import Satunera.Base.Utf8
import Satunera.Contracts.Verdict

/-!
# The stored output, judged again

A run row keeps the verdict object as the text that serde writes for it. The text has two readers: the derived
deserializer, and `ValidationOutput.fromLine`, which does not know the key `unknown_keys`.

* `truncateAt` : truncation by byte offsets, as the source has it (`truncateAt_eq`, `truncate_truncate`);
* `ValidationOutput.members`, `ValidationOutput.IsText` : what is written;
* `ValidationOutput.fromJson` : the derived deserializer (`fromJson_members`);
* `accepted`, `rejected`, `fromLine_text_eq_ok_iff` : which outputs are read as a verdict once they are written;
* `rejudge` : both readers on the text of an output.
-/

namespace Satunera.Contracts

open Satunera.Base

/-! ## Truncation -/

/-- The text up to its character number `n`, found by its byte offset; nothing where the slice panics. -/
def cutAt (n : Nat) (s : String) : Option String :=
  match (charIndices 0 s.toList)[n]? with
  | none => some s
  | some (index, _) => (sliceTo index s.toList).map fun own => String.ofList own ++ "…"

def truncateAt (message : String) : Option String := cutAt maxMessageChars message

/-- The offset found is always the start of a character. -/
theorem cutAt_eq (n : Nat) (s : String) : cutAt n s = some (cut n s) := by
  rw [cutAt, getElem?_charIndices]
  by_cases h : s.length ≤ n
  · rw [List.getElem?_eq_none (by rwa [String.length_toList]), cut, if_pos h]
    rfl
  · rw [List.getElem?_eq_getElem (by rw [String.length_toList]; omega), cut, if_neg h]
    show (sliceTo (0 + utf8Size (s.toList.take n)) s.toList).map _ = _
    rw [Nat.zero_add, sliceTo_eq_some_iff.mpr ⟨s.toList.drop n, (List.take_append_drop n _).symm, rfl⟩]
    rfl

theorem truncateAt_eq (message : String) : truncateAt message = some (truncate message) := cutAt_eq _ message

theorem cut_cut (n : Nat) (s : String) : cut n (cut n s) = cut n s := by
  by_cases h : s.length ≤ n
  · rw [ValidationOutput.cut_of_le h, ValidationOutput.cut_of_le h]
  · have hcut : cut n s = String.ofList (s.toList.take n) ++ "…" := if_neg h
    have hlen : (s.toList.take n).length = n := by
      rw [List.length_take, String.length_toList]
      omega
    have hlong : ¬(cut n s).length ≤ n := by
      rw [← String.length_toList, ValidationOutput.toList_cut, if_neg h, List.length_append, hlen]
      simp
    rw [cut, if_neg hlong, ValidationOutput.toList_cut, if_neg h, List.take_append_of_le_length hlen.ge,
      List.take_take, Nat.min_self, hcut]

theorem truncate_truncate (message : String) : truncate (truncate message) = truncate message := cut_cut _ message

namespace ValidationOutput

/-! ## What is written -/

/-- The fields in declaration order; the empty ones are left out. -/
def members (o : ValidationOutput) : List (String × Json) :=
  [("ok", .bool o.ok)] ++ (o.message.map fun m => ("message", Json.str m)).toList ++
    (o.testcase.map fun n => ("testcase", serU32 n)).toList ++
    if o.unknownKeys = [] then [] else [("unknown_keys", .arr (o.unknownKeys.map .str))]

/-- `text` is what serializing an output gives, for a parser that reads it back. -/
structure IsText (fromStr : String → Option Json) (o : ValidationOutput) (text : String) : Prop where
  /-- There is no white space around the braces. -/
  trim_eq : trim text = text
  /-- The members are read as they were written. -/
  fromStr_eq : fromStr text = some (.obj (Json.ofMembers o.members))

/-! ## The derived deserializer -/

def fromJson : Json → Except DeError ValidationOutput :=
  deOpenStruct "struct ValidationOutput" (Visitor.of ValidationOutput.mk
    |>.field "ok" deBool none
    |>.field "message" (deOption deString) (some none)
    |>.field "testcase" (deOption deU32) (some none)
    |>.field "unknown_keys" (deVec deString) (some []))

/-- `serde_json::from_str::<ValidationOutput>`, without its errors. -/
def deserialize (fromStr : String → Option Json) (text : String) : Option ValidationOutput :=
  (fromStr text).bind fun d => (fromJson d).toOption

section Members
variable (o : ValidationOutput)

theorem nodup_members : (o.members.map Prod.fst).Nodup := by
  obtain ⟨ok, message, testcase, unknownKeys⟩ := o
  cases message <;> cases testcase <;> by_cases h : unknownKeys = [] <;> simp [members, h]

theorem find_ok : Json.find "ok" (Json.ofMembers o.members) = some (.bool o.ok) := by
  rw [Json.find_ofMembers o.nodup_members, members, List.append_assoc, List.append_assoc, Json.find_append]
  rfl

theorem find_message : Json.find "message" (Json.ofMembers o.members) = o.message.map .str := by
  rw [Json.find_ofMembers o.nodup_members]
  obtain ⟨ok, message, testcase, unknownKeys⟩ := o
  cases message <;> cases testcase <;> by_cases h : unknownKeys = [] <;> simp [members, Json.find_cons, h]

theorem find_testcase : Json.find "testcase" (Json.ofMembers o.members) =
    o.testcase.map serU32 := by
  rw [Json.find_ofMembers o.nodup_members]
  obtain ⟨ok, message, testcase, unknownKeys⟩ := o
  cases message <;> cases testcase <;> by_cases h : unknownKeys = [] <;> simp [members, Json.find_cons, h]

theorem find_unknownKeys : Json.find "unknown_keys" (Json.ofMembers o.members) =
    if o.unknownKeys = [] then none else some (.arr (o.unknownKeys.map .str)) := by
  rw [Json.find_ofMembers o.nodup_members]
  obtain ⟨ok, message, testcase, unknownKeys⟩ := o
  cases message <;> cases testcase <;> by_cases h : unknownKeys = [] <;> simp [members, Json.find_cons, h]

/-- The deserializer reads every output back. -/
theorem fromJson_members : fromJson (.obj (Json.ofMembers o.members)) = .ok o := by
  have hmessage : (Members.map (Json.ofMembers o.members)).read 1 "message" (deOption deString) (some none) =
      .ok o.message := by
    rw [Members.read, o.find_message]
    cases o.message <;> rfl
  have htestcase : (Members.map (Json.ofMembers o.members)).read 2 "testcase" (deOption deU32) (some none) =
      .ok o.testcase := by
    rw [Members.read, o.find_testcase]
    cases o.testcase with
    | none => rfl
    | some n =>
      show (deU32 (serU32 n)).map some = _
      rw [deU32_serU32]
      rfl
  have hunknown : (Members.map (Json.ofMembers o.members)).read 3 "unknown_keys" (deVec deString) (some []) =
      .ok o.unknownKeys := by
    rw [Members.read, o.find_unknownKeys]
    by_cases h : o.unknownKeys = []
    · rw [if_pos h, h]
      rfl
    · have hstring : ∀ s, deString (.str s) = .ok s := fun _ => rfl
      rw [if_neg h]
      exact Fits.mapM_map_ser hstring o.unknownKeys
  have hok : (Members.map (Json.ofMembers o.members)).read 0 "ok" deBool none = .ok o.ok := by
    rw [Members.read, o.find_ok]
    rfl
  rw [fromJson, deOpenStruct, Visitor.visitMap_eq_ok_iff]
  refine ⟨fun _ _ _ => rfl, ?_⟩
  simp only [Visitor.build_field, Visitor.build_of, bind_assoc, pure_bind]
  exact bind_eq_ok_iff.mpr ⟨_, hok, bind_eq_ok_iff.mpr ⟨_, hmessage, bind_eq_ok_iff.mpr ⟨_, htestcase,
    bind_eq_ok_iff.mpr ⟨_, hunknown, rfl⟩⟩⟩⟩

/-! ## Reading it as a verdict -/

theorem mem_keys_members {key : String} (h : key ∉ ["ok", "message", "testcase"]) :
    key ∈ o.members.map Prod.fst ↔ key = "unknown_keys" ∧ o.unknownKeys ≠ [] := by
  obtain ⟨ok, message, testcase, unknownKeys⟩ := o
  simp only [List.mem_cons, List.not_mem_nil, or_false, not_or] at h
  cases message <;> cases testcase <;> by_cases hkeys : unknownKeys = [] <;> simp [members, h, hkeys]

/-- The key that the strict parser does not know. -/
theorem unknown_members : unknown (Json.ofMembers o.members) = if o.unknownKeys = [] then [] else ["unknown_keys"] := by
  have hsorted : (unknown (Json.ofMembers o.members)).Pairwise (· < ·) :=
    (Json.sortedKeys_ofMembers o.members).filter _
  have hright : (if o.unknownKeys = [] then [] else ["unknown_keys"]).Pairwise (· < ·) := by
    split
    · exact .nil
    · exact List.pairwise_singleton ..
  refine hsorted.eq_of_mem_iff hright fun key => ?_
  rw [unknown, List.mem_filter, decide_eq_true_eq, Json.mem_keys_ofMembers]
  by_cases h : key ∈ ["ok", "message", "testcase"]
  · refine iff_of_false (fun hmem => hmem.2 h) fun hmem => ?_
    split at hmem
    · cases hmem
    · rw [List.mem_singleton.mp hmem] at h
      exact absurd h (by decide)
  · rw [and_iff_left h, o.mem_keys_members h]
    by_cases hkeys : o.unknownKeys = [] <;> simp [hkeys]

end Members

/-! ## Outputs that are written -/

/-- An acceptance with no further detail. -/
def accepted : ValidationOutput := ⟨true, none, none, []⟩

/-- A rejection carrying the author's message. -/
def rejected (message : String) : ValidationOutput := ⟨false, some message, none, []⟩

/-- What the strict parser makes of the text of an output. -/
def reread (o : ValidationOutput) : ValidationOutput :=
  ⟨o.ok, o.message.map truncate, o.testcase, if o.unknownKeys = [] then [] else ["unknown_keys"]⟩

section Written
variable {fromStr : String → Option Json} {o o' : ValidationOutput} {line text : String}

theorem parseMessage_members : parseMessage (Json.ofMembers o.members) = .ok (o.message.map truncate) := by
  rw [parseMessage_eq_ok_iff, o.find_message]
  cases o.message with
  | none => exact Or.inl ⟨Or.inl rfl, rfl⟩
  | some m => exact Or.inr ⟨m, rfl, rfl⟩

/-- A number of 32 bits is a test case unless it is zero. -/
theorem validTestcase_serU32 {t : UInt32} {n : UInt64} :
    ValidTestcase (some (serU32 t)) n ↔ t ≠ 0 ∧ n = t.toUInt64 := by
  have hzero : t ≠ 0 ↔ 1 ≤ t.toNat := by
    rw [ne_eq, ← UInt32.toNat_inj, UInt32.toNat_zero]
    omega
  have hlt : t.toNat < 4294967296 := t.toNat_lt
  constructor
  · rintro ⟨hn, hpos, -⟩
    obtain rfl : t.toUInt64 = n := by simpa [serU32] using hn
    rw [UInt32.toNat_toUInt64] at hpos
    exact ⟨hzero.mpr hpos, rfl⟩
  · rintro ⟨hne, rfl⟩
    refine ⟨rfl, ?_, ?_⟩ <;> rw [UInt32.toNat_toUInt64]
    · exact hzero.mp hne
    · omega

theorem parseTestcase_members_eq_ok_iff {t : Option UInt32} :
    parseTestcase (Json.ofMembers o.members) = .ok t ↔ o.testcase ≠ some 0 ∧ t = o.testcase := by
  rw [parseTestcase_eq_ok_iff, o.find_testcase]
  cases o.testcase with
  | none => simp [Absent, ValidTestcase]
  | some n =>
    have habsent : ¬ Absent (some (serU32 n)) := by simp [Absent, serU32]
    simp only [Option.map_some, habsent, false_and, false_or, validTestcase_serU32]
    constructor
    · rintro ⟨_, ⟨hne, rfl⟩, rfl⟩
      exact ⟨by simpa using hne, by simp⟩
    · rintro ⟨hne, rfl⟩
      exact ⟨_, ⟨by simpa using hne, rfl⟩, by simp⟩

/-- An output that is written is read as a verdict unless its test case is zero or it rejects without a message. -/
theorem fromLine_text_eq_ok_iff (h : IsText fromStr o text) :
    fromLine fromStr text = .ok o' ↔ o.testcase ≠ some 0 ∧
      (o.ok = false → ∃ m, o.message = some m ∧ (trim (truncate m)).isEmpty = false) ∧ o' = o.reread := by
  have hblank : (∃ m, o.message.map truncate = some m ∧ (trim m).isEmpty = false) ↔
      ∃ m, o.message = some m ∧ (trim (truncate m)).isEmpty = false := by
    cases o.message <;> simp
  rw [fromLine_eq_ok_iff, h.trim_eq, h.fromStr_eq]
  constructor
  · rintro ⟨_, ⟨⟩, hok, hmessage, htestcase, hlast, hkeys⟩
    have hok : o.ok = o'.ok := by simpa [o.find_ok] using parseOk_eq_ok_iff.mp hok
    obtain ⟨hne, htestcase⟩ := parseTestcase_members_eq_ok_iff.mp htestcase
    have hmessage : o.message.map truncate = o'.message := Except.ok.inj (parseMessage_members.symm.trans hmessage)
    rw [unknown_members] at hkeys
    refine ⟨hne, fun hfalse => hblank.mp ?_, ?_⟩
    · rw [hmessage]
      exact hlast (hok ▸ hfalse)
    · rw [reread, hok, hmessage, ← htestcase, ← hkeys]
  · rintro ⟨hne, hlast, rfl⟩
    exact ⟨_, rfl, parseOk_eq_ok_iff.mpr o.find_ok, parseMessage_members,
      parseTestcase_members_eq_ok_iff.mpr ⟨hne, rfl⟩, fun hfalse => hblank.mpr (hlast hfalse), o.unknown_members.symm⟩

theorem fromLine_accepted (h : IsText fromStr accepted text) : fromLine fromStr text = .ok accepted :=
  (fromLine_text_eq_ok_iff h).mpr ⟨by decide, fun h => absurd h (by decide), rfl⟩

/-- A rejection is read back with its message cut, and is refused when that is blank. -/
theorem fromLine_rejected_eq_ok_iff {message : String} (h : IsText fromStr (rejected message) text) :
    fromLine fromStr text = .ok o' ↔ (trim (truncate message)).isEmpty = false ∧ o' = rejected (truncate message) := by
  rw [fromLine_text_eq_ok_iff h]
  simp [rejected, reread]

/-- What `fromLine` has once read, it reads again from the text of its output. -/
theorem fromLine_text (ho : fromLine fromStr line = .ok o) (h : IsText fromStr o text) :
    fromLine fromStr text = .ok { o with unknownKeys := if o.unknownKeys = [] then [] else ["unknown_keys"] } := by
  obtain ⟨fields, -, -, hm, ht, hlast, -⟩ := fromLine_eq_ok_iff.mp ho
  -- A message that has been cut is cut where it was.
  have hcut : ∀ m, o.message = some m → truncate m = m := by
    intro m hsome
    rcases parseMessage_eq_ok_iff.mp hm with ⟨-, hnone⟩ | ⟨long, -, hlong⟩
    · rw [hnone] at hsome
      cases hsome
    · obtain rfl := Option.some.inj (hsome.symm.trans hlong)
      exact truncate_truncate long
  refine (fromLine_text_eq_ok_iff h).mpr ⟨fun hzero => ?_, fun hfalse => ?_, ?_⟩
  · rcases parseTestcase_eq_ok_iff.mp ht with ⟨-, hnone⟩ | ⟨n, ⟨-, hpos, hle⟩, hsome⟩
    · rw [hnone] at hzero
      cases hzero
    · have hn : n.toUInt32.toNat = 0 := by rw [Option.some.inj (hsome.symm.trans hzero)]; rfl
      rw [UInt64.toNat_toUInt32, Nat.mod_eq_of_lt (by omega)] at hn
      omega
  · obtain ⟨m, hsome, hblank⟩ := hlast hfalse
    exact ⟨m, hsome, by rwa [hcut m hsome]⟩
  · have hmessage : o.message.map truncate = o.message := by
      cases hsome : o.message with
      | none => rfl
      | some m => rw [Option.map_some, hcut m hsome]
    rw [reread, hmessage]

end Written

end ValidationOutput

open ValidationOutput

/-- **An output is read back from its own text, and judged again with the same answer.** -/
theorem rejudge (fromStr : String → Option Json) :
    (∀ line o text, fromLine fromStr line = .ok o → IsText fromStr o text → deserialize fromStr text = some o ∧
      ∃ o₂, fromLine fromStr text = .ok o₂ ∧ o₂.ok = o.ok ∧ o₂.message = o.message ∧ o₂.testcase = o.testcase ∧
        o₂.unknownKeys = if o.unknownKeys = [] then [] else ["unknown_keys"]) ∧
    ∀ m : String, (m.length ≤ 500 → truncate m = m) ∧
      (500 < m.length → truncate m = String.ofList (m.toList.take 500) ++ "…") ∧
      truncateAt m = some (truncate m) ∧ truncate (truncate m) = truncate m := by
  refine ⟨fun line o text ho htext => ⟨?_, _, fromLine_text ho htext, rfl, rfl, rfl, rfl⟩, fun m => ?_⟩
  · rw [deserialize, htext.fromStr_eq, Option.bind_some, fromJson_members]
    rfl
  · exact ⟨fun h => cut_of_le (n := maxMessageChars) h, fun h => if_neg (Nat.not_le.mpr h), truncateAt_eq m,
      truncate_truncate m⟩

/-- A rejection with a misspelled key beside its message. -/
def misspelled : List (String × Json) := [("message", .str "wrong fee"), ("msg", .str "fee"), ("ok", .bool false)]

def misspelledLine : String := "\x7b\"ok\": false, \"message\": \"wrong fee\", \"msg\": \"fee\"\x7d"

def misspelledOutput : ValidationOutput := ⟨false, some "wrong fee", none, ["msg"]⟩

def misspelledText : String := "\x7b\"ok\":false,\"message\":\"wrong fee\",\"unknown_keys\":[\"msg\"]\x7d"

/-- A parser that has seen the two lines. -/
def readMisspelled (s : String) : Option Json :=
  if s = misspelledLine then some (.obj misspelled)
  else if s = misspelledText then some (.obj (Json.ofMembers misspelledOutput.members))
  else none

theorem rejudge_misspelled :
    deserialize readMisspelled misspelledText = some misspelledOutput ∧
      ∃ o₂, fromLine readMisspelled misspelledText = .ok o₂ ∧ o₂.ok = false ∧
        o₂.message = some "wrong fee" ∧ o₂.testcase = none ∧ o₂.unknownKeys = ["unknown_keys"] :=
  (rejudge readMisspelled).1 misspelledLine misspelledOutput misspelledText rfl ⟨rfl, rfl⟩

end Satunera.Contracts
