import Satunera.Base.JsonSchema
import Satunera.Contracts.Verdict

/-!
# The authoring schema against the run-time parser

`judgectl` holds authors to `schemas/verdict.schema.json`; at run time `ValidationOutput.fromLine` reads the verdict.

* `verdictSchema`, `valid_verdictSchema_iff` : the schema and what it says;
* `Agrees` : an output says what the document says;
* `fromLine_agrees_iff` : when a document of the schema is read as it stands;
* `fromLine_floatTestcase` : one that is refused.
-/

namespace Satunera.Contracts

open Satunera.Base

/-- `schemas/verdict.schema.json`. -/
def verdictSchema : Schema :=
  .allOf [
    .object ["ok"] [
      ("ok", .type .boolean),
      ("message", .allOf [.type .string, .minLength 1, .maxLength 500]),
      ("testcase", .allOf [.type .integer, .minimum 1])],
    .ifThen (.allOf [.property "ok" (.const (.bool false)), .required ["ok"]]) (.required ["message"])]

theorem valid_verdictSchema_iff {d : Json} : verdictSchema.valid d = true ↔ ∃ fields, d = .obj fields ∧
    (∃ b, Json.find "ok" fields = some (.bool b)) ∧
    (∀ f ∈ fields, f.1 ∈ ["ok", "message", "testcase"]) ∧
    (∀ v, Json.find "message" fields = some v → ∃ m, v = .str m ∧ 1 ≤ m.length ∧ m.length ≤ 500) ∧
    (∀ v, Json.find "testcase" fields = some v → ∃ n, v = .num n ∧ n.isInteger = true ∧ 1 ≤ n.value) ∧
    (Json.find "ok" fields = some (.bool false) → (Json.find "message" fields).isSome) := by
  have hok : ∀ fields : List (String × Json), ((Json.find "ok" fields).isSome ∧
      ∀ v, Json.find "ok" fields = some v → ∃ b, v = .bool b) ↔ ∃ b, Json.find "ok" fields = some (.bool b) := by
    intro fields
    cases Json.find "ok" fields <;> simp
  have hif : ∀ fields : List (String × Json),
      (Schema.allOf [.property "ok" (.const (.bool false)), .required ["ok"]]).valid (.obj fields) = true ↔
        Json.find "ok" fields = some (.bool false) := by
    intro fields
    simp only [Schema.valid_allOf_iff, List.forall_mem_cons, List.not_mem_nil, false_imp_iff, implies_true, and_true,
      Schema.valid_property_obj, Schema.valid_required_obj, Schema.valid_const, Json.equal_bool]
    cases Json.find "ok" fields <;> simp
  rw [verdictSchema, Schema.valid_allOf_iff]
  simp only [List.forall_mem_cons, Schema.valid_object_iff, List.not_mem_nil, false_imp_iff, implies_true, and_true,
    List.map_cons, List.map_nil, Schema.valid_boolean_iff, Schema.valid_string_iff, Schema.valid_integer_iff,
    Schema.valid_minLength_str, Schema.valid_maxLength_str, Schema.valid_minimum_num, Schema.valid_ifThen]
  constructor
  · rintro ⟨⟨fields, rfl, hsome, hkeys, hbool, hmsg, htest⟩, hthen⟩
    refine ⟨fields, rfl, (hok fields).mp ⟨hsome, hbool⟩, hkeys, hmsg, htest, fun hfalse => ?_⟩
    exact Schema.valid_required_obj.mp (hthen ((hif fields).mpr hfalse)) "message" (List.mem_singleton_self _)
  · rintro ⟨fields, rfl, hb, hkeys, hmsg, htest, hthen⟩
    obtain ⟨hsome, hbool⟩ := (hok fields).mpr hb
    refine ⟨⟨fields, rfl, hsome, hkeys, hbool, hmsg, htest⟩, fun hcond => ?_⟩
    rw [Schema.valid_required_obj, List.forall_mem_singleton]
    exact hthen ((hif fields).mp hcond)

/-! ## Agreement -/

/-- The output says what the document says; a test case is compared as a number. -/
structure Agrees (d : Json) (o : ValidationOutput) : Prop where
  ok : d.get? "ok" = some (.bool o.ok)
  message : d.get? "message" = o.message.map Json.str
  no_testcase : o.testcase = none → d.get? "testcase" = none
  testcase : ∀ n, o.testcase = some n → ∃ m, d.get? "testcase" = some (.num m) ∧ m.value = n.toNat
  unknownKeys : o.unknownKeys = []

/-- Any test case is an integer token that fits 32 bits, and a rejection has a message that is not blank. -/
def ReadsAsWritten (d : Json) : Prop :=
  (∀ v, d.get? "testcase" = some v → ∃ n : UInt64, v = .num (.posInt n) ∧ n.toNat ≤ 4294967295) ∧
    (d.get? "ok" = some (.bool false) → ∃ m, d.get? "message" = some (.str m) ∧ (trim m).isEmpty = false)

namespace ValidationOutput
variable {fields : List (String × Json)}

theorem parseMessage_of_schema
    (h : ∀ v, Json.find "message" fields = some v → ∃ m, v = .str m ∧ 1 ≤ m.length ∧ m.length ≤ 500) :
    ∃ m : Option String, parseMessage fields = .ok m ∧ Json.find "message" fields = m.map Json.str := by
  cases hv : Json.find "message" fields with
  | none => exact ⟨none, parseMessage_eq_ok_iff.mpr (.inl ⟨.inl hv, rfl⟩), rfl⟩
  | some v =>
    obtain ⟨m, rfl, -, hle⟩ := h v hv
    have hcut : truncate m = m := cut_of_le (n := maxMessageChars) hle
    exact ⟨some m, parseMessage_eq_ok_iff.mpr (.inr ⟨m, hv, by rw [hcut]⟩), rfl⟩

/-- A test case of the schema that is an integer token within 32 bits is read as it stands. -/
theorem parseTestcase_of_schema
    (htoken : ∀ v, Json.find "testcase" fields = some v → ∃ n : UInt64, v = .num (.posInt n) ∧ n.toNat ≤ 4294967295)
    (h : ∀ v, Json.find "testcase" fields = some v → ∃ n, v = .num n ∧ n.isInteger = true ∧ 1 ≤ n.value) :
    ∃ t, parseTestcase fields = .ok t ∧ (t = none → Json.find "testcase" fields = none) ∧
      ∀ n, t = some n → ∃ k, Json.find "testcase" fields = some (.num k) ∧ k.value = n.toNat := by
  cases hv : Json.find "testcase" fields with
  | none => exact ⟨none, parseTestcase_eq_ok_iff.mpr (.inl ⟨.inl hv, rfl⟩), fun _ => rfl, nofun⟩
  | some v =>
    obtain ⟨n, rfl, hle⟩ := htoken v hv
    obtain ⟨k, hk, -, hpos⟩ := h _ hv
    cases hk
    rw [JsonNumber.value_posInt] at hpos
    have hpos : 1 ≤ n.toNat := by exact_mod_cast hpos
    refine ⟨some n.toUInt32, parseTestcase_eq_ok_iff.mpr (.inr ⟨n, ⟨hv, hpos, hle⟩, rfl⟩), nofun, ?_⟩
    rintro _ ⟨⟩
    refine ⟨_, rfl, ?_⟩
    rw [JsonNumber.value_posInt, UInt64.toNat_toUInt32, Nat.mod_eq_of_lt (by omega)]

/-- Nothing but such a token is read. -/
theorem token_of_parseTestcase {t : Option UInt32} (h : parseTestcase fields = .ok t) {m : JsonNumber}
    (hm : Json.find "testcase" fields = some (.num m)) : ∃ n : UInt64, m = .posInt n ∧ n.toNat ≤ 4294967295 := by
  rcases parseTestcase_eq_ok_iff.mp h with ⟨habsent | hnull, -⟩ | ⟨n, ⟨hn, -, hle⟩, -⟩
  · rw [hm] at habsent
    cases habsent
  · rw [hm] at hnull
    cases hnull
  · exact ⟨n, Json.num.inj (Option.some.inj (hm.symm.trans hn)), hle⟩

end ValidationOutput

open ValidationOutput

/-- **A document of the schema is read as it stands exactly when its test case is an integer token of 32 bits and its
rejection message is not blank.** -/
theorem fromLine_agrees_iff (fromStr : String → Option Json) (line : String) (d : Json)
    (hd : fromStr (trim line) = some d) (hs : verdictSchema.valid d = true) :
    (∃ o, fromLine fromStr line = .ok o ∧ Agrees d o) ↔ ReadsAsWritten d := by
  obtain ⟨fields, rfl, ⟨b, hb⟩, hkeys, hmsg, htest, hthen⟩ := valid_verdictSchema_iff.mp hs
  obtain ⟨m, hm, hfind⟩ := parseMessage_of_schema hmsg
  have hunknown : unknown fields = [] := by
    rw [unknown, List.filter_eq_nil_iff]
    intro k hk
    obtain ⟨f, hf, rfl⟩ := List.mem_map.mp hk
    simpa only [decide_eq_true_eq, not_not] using hkeys f hf
  constructor
  · rintro ⟨o, ho, hagree⟩
    obtain ⟨fields', hfields, hok, hmsg', htest', hrej, -⟩ := fromLine_eq_ok_iff.mp ho
    obtain rfl : fields = fields' := Json.obj.inj (Option.some.inj (hd.symm.trans hfields))
    refine ⟨fun v hv => ?_, fun hfalse => ?_⟩
    · obtain ⟨n, rfl, -, -⟩ := htest v hv
      obtain ⟨k, rfl, hk⟩ := token_of_parseTestcase htest' hv
      exact ⟨k, rfl, hk⟩
    · rw [parseOk_eq_ok_iff] at hok
      have hfalse' : o.ok = false := Json.bool.inj (Option.some.inj (hok.symm.trans hfalse))
      obtain ⟨s, hs, hne⟩ := hrej hfalse'
      exact ⟨s, by rw [hagree.message, hs]; rfl, hne⟩
  · rintro ⟨htoken, hblank⟩
    obtain ⟨t, ht, hnone, hsome⟩ := parseTestcase_of_schema htoken htest
    refine ⟨⟨b, m, t, []⟩, fromLine_eq_ok_iff.mpr ⟨fields, hd, parseOk_eq_ok_iff.mpr hb, hm, ht, ?_, hunknown.symm⟩,
      hb, hfind, hnone, hsome, rfl⟩
    intro hfalse
    obtain rfl : b = false := hfalse
    obtain ⟨s, hs, hne⟩ := hblank hb
    cases m with
    | none => rw [Json.get?, hfind] at hs; cases hs
    | some s' =>
      rw [Json.get?, hfind] at hs
      obtain rfl : s' = s := Json.str.inj (Option.some.inj hs)
      exact ⟨s', rfl, hne⟩

/-- `{"message": "wrong fee", "ok": false, "testcase": 2}`. -/
def wrongFee : Json :=
  .obj [("message", .str "wrong fee"), ("ok", .bool false), ("testcase", .num (.posInt 2))]

def wrongFeeLine : String := "\x7b\"message\": \"wrong fee\", \"ok\": false, \"testcase\": 2\x7d"

theorem fromLine_agrees_wrongFee :
    ∃ o, fromLine (fun s => if s = wrongFeeLine then some wrongFee else none) wrongFeeLine = .ok o ∧
      Agrees wrongFee o := by
  refine (fromLine_agrees_iff _ _ wrongFee (if_pos (by decide)) (by decide)).mpr ⟨fun v hv => ?_, fun _ => ?_⟩
  · obtain rfl : Json.num (.posInt 2) = v := Option.some.inj hv
    exact ⟨2, rfl, by decide⟩
  · exact ⟨"wrong fee", rfl, by decide⟩

/-! ## A verdict that is refused -/

/-- `{"message": "wrong fee", "ok": false, "testcase": 2.0}`. -/
def floatTestcase : Json :=
  .obj [("message", .str "wrong fee"), ("ok", .bool false), ("testcase", .num (.float 2))]

def floatTestcaseLine : String := "\x7b\"message\": \"wrong fee\", \"ok\": false, \"testcase\": 2.0\x7d"

/-- The schema admits `2.0` as an integer; the parser does not. -/
theorem fromLine_floatTestcase :
    verdictSchema.valid floatTestcase = true ∧
      fromLine (fun s => if s = floatTestcaseLine then some floatTestcase else none) floatTestcaseLine =
        .error (.wrongType "testcase" "a positive integer") :=
  ⟨by decide, rfl⟩

end Satunera.Contracts
