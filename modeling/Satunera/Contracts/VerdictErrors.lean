import Satunera.Contracts.Load
import Satunera.Contracts.VerdictSchema

/-!
# What is wrong with a verdict

* `Faults` : what a line has to hold for each error, the checks in their order; `fromLine_eq_error_iff` : `from_line`
  returns an error exactly when the line has its fault;
* `fromStdout_eq_error_iff` : so does `from_stdout`, with the last line that is not blank;
* `validateVerdict`, `fromLine_eq_error_iff_of_validated` : what is left of the faults once the authoring check passed.
-/

namespace Satunera.Contracts

open Satunera.Base

namespace ValidationOutput

/-! ## Faults -/

/-- Absent, or a string. -/
def MessageTyped (v : Option Json) : Prop := Absent v ∨ ∃ s, v = some (.str s)

/-- Absent, or a test case that is read. -/
def TestcaseTyped (v : Option Json) : Prop := Absent v ∨ ∃ n, ValidTestcase v n

/-- Absent, or blank once it is cut. -/
def MessageBlank (v : Option Json) : Prop := Absent v ∨ ∃ s, v = some (.str s) ∧ (trim (truncate s)).isEmpty = true

/-- The fault of a line that an error reports. -/
inductive Faults (fromStr : String → Option Json) (line : String) : VerdictError → Prop
  | notJson : fromStr (trim line) = none → Faults fromStr line (.notJson (excerpt line))
  | notAnObject {v} : fromStr (trim line) = some v → (∀ fields, v ≠ .obj fields) →
      Faults fromStr line (.notAnObject (excerpt line))
  | missingOk {fields} : fromStr (trim line) = some (.obj fields) → Json.find "ok" fields = none →
      Faults fromStr line .missingOk
  | okType {fields v} : fromStr (trim line) = some (.obj fields) → Json.find "ok" fields = some v →
      (∀ b, v ≠ .bool b) → Faults fromStr line (.wrongType "ok" "true or false")
  | messageType {fields b} : fromStr (trim line) = some (.obj fields) → Json.find "ok" fields = some (.bool b) →
      ¬ MessageTyped (Json.find "message" fields) → Faults fromStr line (.wrongType "message" "a string")
  | testcaseType {fields b} : fromStr (trim line) = some (.obj fields) → Json.find "ok" fields = some (.bool b) →
      MessageTyped (Json.find "message" fields) → ¬ TestcaseTyped (Json.find "testcase" fields) →
      Faults fromStr line (.wrongType "testcase" "a positive integer")
  | missingMessage {fields} : fromStr (trim line) = some (.obj fields) → Json.find "ok" fields = some (.bool false) →
      MessageBlank (Json.find "message" fields) → TestcaseTyped (Json.find "testcase" fields) →
      Faults fromStr line .missingMessage

section Fields
variable {fields : List (String × Json)} {e : VerdictError}

theorem parseOk_eq_error_iff : parseOk fields = .error e ↔ Json.find "ok" fields = none ∧ e = .missingOk ∨
    ∃ v, Json.find "ok" fields = some v ∧ (∀ b, v ≠ .bool b) ∧ e = .wrongType "ok" "true or false" := by
  unfold parseOk
  cases Json.find "ok" fields with
  | none => simp [eq_comm]
  | some v => cases v <;> simp [Json.asBool, okOr, eq_comm]

theorem exists_parseMessage_iff : (∃ m, parseMessage fields = .ok m) ↔ MessageTyped (Json.find "message" fields) := by
  simp only [parseMessage_eq_ok_iff]
  constructor
  · rintro ⟨m, ⟨habsent, -⟩ | ⟨s, hs, -⟩⟩
    · exact Or.inl habsent
    · exact Or.inr ⟨s, hs⟩
  · rintro (habsent | ⟨s, hs⟩)
    · exact ⟨none, Or.inl ⟨habsent, rfl⟩⟩
    · exact ⟨_, Or.inr ⟨s, hs, rfl⟩⟩

theorem exists_parseTestcase_iff :
    (∃ t, parseTestcase fields = .ok t) ↔ TestcaseTyped (Json.find "testcase" fields) := by
  simp only [parseTestcase_eq_ok_iff]
  constructor
  · rintro ⟨t, ⟨habsent, -⟩ | ⟨n, hn, -⟩⟩
    · exact Or.inl habsent
    · exact Or.inr ⟨n, hn⟩
  · rintro (habsent | ⟨n, hn⟩)
    · exact ⟨none, Or.inl ⟨habsent, rfl⟩⟩
    · exact ⟨_, Or.inr ⟨n, hn, rfl⟩⟩

/-- A field that is not read is reported with one error. -/
theorem eq_error_iff_of_const {α : Type} {x : Except VerdictError α} {e₀ : VerdictError}
    (h : ∀ e, x = .error e → e = e₀) : x = .error e ↔ (¬ ∃ a, x = .ok a) ∧ e = e₀ := by
  cases x with
  | ok a => simp
  | error e' =>
    obtain rfl := h e' rfl
    simp [eq_comm]

theorem parseMessage_eq_error_iff : parseMessage fields = .error e ↔
    ¬ MessageTyped (Json.find "message" fields) ∧ e = .wrongType "message" "a string" := by
  rw [← exists_parseMessage_iff]
  refine eq_error_iff_of_const fun e he => ?_
  unfold parseMessage at he
  split at he
  · cases he
  · cases he
  · rename_i v _ _
    cases v <;> cases he <;> rfl

theorem parseTestcase_eq_error_iff : parseTestcase fields = .error e ↔
    ¬ TestcaseTyped (Json.find "testcase" fields) ∧ e = .wrongType "testcase" "a positive integer" := by
  rw [← exists_parseTestcase_iff]
  refine eq_error_iff_of_const fun e he => ?_
  unfold parseTestcase at he
  split at he
  · cases he
  · cases he
  · split at he
    · cases he
      rfl
    · split at he
      · cases he
        rfl
      · cases he

/-- Where the message is read, the last check finds it blank. -/
theorem blank_iff {m : Option String} (h : parseMessage fields = .ok m) :
    (m.all fun s => (trim s).isEmpty) = true ↔ MessageBlank (Json.find "message" fields) := by
  rcases parseMessage_eq_ok_iff.mp h with ⟨habsent, rfl⟩ | ⟨s, hs, rfl⟩
  · exact iff_of_true rfl (Or.inl habsent)
  · rw [hs]
    constructor
    · exact fun hblank => Or.inr ⟨s, rfl, hblank⟩
    · rintro (habsent | ⟨s', hs', hblank⟩)
      · rcases habsent with h | h <;> cases h
      · cases hs'
        exact hblank

end Fields

theorem messageTyped_of_blank {v : Option Json} (h : MessageBlank v) : MessageTyped v :=
  h.imp_right fun ⟨s, hs, _⟩ => ⟨s, hs⟩

theorem asObject_eq_some_iff {v : Json} {fields : List (String × Json)} :
    v.asObject = some fields ↔ v = .obj fields := by
  cases v <;> simp [Json.asObject]

/-- The checks of a line that holds an object. -/
theorem fromLine_of_fields {fromStr : String → Option Json} {line : String} {fields : List (String × Json)}
    (h : fromStr (trim line) = some (.obj fields)) : fromLine fromStr line = (do
      let ok ← parseOk fields
      let message ← parseMessage fields
      let testcase ← parseTestcase fields
      if !ok && message.all fun m => (trim m).isEmpty then .error .missingMessage
      else return ⟨ok, message, testcase, unknown fields⟩) := by
  rw [fromLine, h]
  rfl

/-- **`from_line` returns an error exactly when the line has its fault.** -/
theorem fromLine_eq_error_iff {fromStr : String → Option Json} {line : String} {e : VerdictError} :
    fromLine fromStr line = .error e ↔ Faults fromStr line e := by
  constructor
  · intro h
    rcases bind_eq_error_iff.mp h with h | ⟨v, hv, hobj⟩
    · obtain ⟨hnone, rfl⟩ := okOr_eq_error_iff.mp h
      exact .notJson hnone
    have hv := okOr_eq_ok_iff.mp hv
    rcases bind_eq_error_iff.mp hobj with h | ⟨fields, hfields, hchecks⟩
    · obtain ⟨hnone, rfl⟩ := okOr_eq_error_iff.mp h
      refine .notAnObject hv ?_
      rintro fields rfl
      cases hnone
    rw [asObject_eq_some_iff.mp (okOr_eq_ok_iff.mp hfields)] at hv
    rcases bind_eq_error_iff.mp hchecks with h | ⟨b, hb, hchecks⟩
    · rcases parseOk_eq_error_iff.mp h with ⟨hnone, rfl⟩ | ⟨w, hw, hbool, rfl⟩
      · exact .missingOk hv hnone
      · exact .okType hv hw hbool
    have hb := parseOk_eq_ok_iff.mp hb
    rcases bind_eq_error_iff.mp hchecks with h | ⟨m, hm, hchecks⟩
    · obtain ⟨htype, rfl⟩ := parseMessage_eq_error_iff.mp h
      exact .messageType hv hb htype
    have hmessage := exists_parseMessage_iff.mp ⟨m, hm⟩
    rcases bind_eq_error_iff.mp hchecks with h | ⟨t, ht, hlast⟩
    · obtain ⟨htype, rfl⟩ := parseTestcase_eq_error_iff.mp h
      exact .testcaseType hv hb hmessage htype
    split at hlast
    · rename_i hblank
      cases hlast
      obtain ⟨hfalse, hblank⟩ := Bool.and_eq_true_iff.mp hblank
      obtain rfl : b = false := by simpa using hfalse
      exact .missingMessage hv hb ((blank_iff hm).mp hblank) (exists_parseTestcase_iff.mp ⟨t, ht⟩)
    · cases hlast
  · intro h
    cases h with
    | notJson hnone => exact bind_eq_error_iff.mpr (Or.inl (okOr_eq_error_iff.mpr ⟨hnone, rfl⟩))
    | notAnObject hv hobj =>
      refine bind_eq_error_iff.mpr (Or.inr ⟨_, okOr_eq_ok_iff.mpr hv, ?_⟩)
      refine bind_eq_error_iff.mpr (Or.inl (okOr_eq_error_iff.mpr ⟨?_, rfl⟩))
      refine Option.eq_none_iff_forall_ne_some.mpr fun fields hfields => ?_
      exact hobj fields (asObject_eq_some_iff.mp hfields)
    | missingOk hv hnone =>
      rw [fromLine_of_fields hv]
      exact bind_eq_error_iff.mpr (Or.inl (parseOk_eq_error_iff.mpr (Or.inl ⟨hnone, rfl⟩)))
    | okType hv hw hbool =>
      rw [fromLine_of_fields hv]
      exact bind_eq_error_iff.mpr (Or.inl (parseOk_eq_error_iff.mpr (Or.inr ⟨_, hw, hbool, rfl⟩)))
    | messageType hv hb htype =>
      rw [fromLine_of_fields hv, parseOk_eq_ok_iff.mpr hb, ok_bind]
      exact bind_eq_error_iff.mpr (Or.inl (parseMessage_eq_error_iff.mpr ⟨htype, rfl⟩))
    | testcaseType hv hb hmessage htype =>
      obtain ⟨m, hm⟩ := exists_parseMessage_iff.mpr hmessage
      rw [fromLine_of_fields hv, parseOk_eq_ok_iff.mpr hb, ok_bind, hm, ok_bind]
      exact bind_eq_error_iff.mpr (Or.inl (parseTestcase_eq_error_iff.mpr ⟨htype, rfl⟩))
    | missingMessage hv hb hblank htype =>
      obtain ⟨m, hm⟩ := exists_parseMessage_iff.mpr (messageTyped_of_blank hblank)
      obtain ⟨t, ht⟩ := exists_parseTestcase_iff.mpr htype
      rw [fromLine_of_fields hv, parseOk_eq_ok_iff.mpr hb, ok_bind, hm, ok_bind, ht, ok_bind]
      exact if_pos (Bool.and_eq_true_iff.mpr ⟨rfl, (blank_iff hm).mpr hblank⟩)

/-- **`from_stdout` returns an error exactly when there is only blank space, or the last line that is not blank has its
fault.** -/
theorem fromStdout_eq_error_iff (fromStr : String → Option Json) (stdout : String) (e : VerdictError) :
    fromStdout fromStr stdout = .error e ↔
      (∀ c ∈ stdout.toList, isWhitespace c = true) ∧ e = .noOutput ∨
        ∃ before v ws, stdout.toList = before ++ v ++ ws ∧ (before = [] ∨ ∃ a, before = a ++ ['\n']) ∧ '\n' ∉ v ∧
          (∃ c ∈ v, isWhitespace c = false) ∧ (∀ c ∈ ws, isWhitespace c = true) ∧
          Faults fromStr (String.ofList v) e := by
  by_cases hne : ∃ c ∈ stdout.toList, isWhitespace c = false
  · constructor
    · intro h
      obtain ⟨before, v, ws, hsplit, hbefore, hv, hvne, hws⟩ := exists_lastLine hne
      refine Or.inr ⟨before, v, ws, hsplit, hbefore, hv, hvne, hws, fromLine_eq_error_iff.mp ?_⟩
      rw [← fromStdout_of_line fromStr hbefore hv hvne hws, ← hsplit, String.ofList_toList, h]
    · rintro (⟨hblank, -⟩ | ⟨before, v, ws, hsplit, hbefore, hv, hvne, hws, hfault⟩)
      · obtain ⟨c, hc, hcw⟩ := hne
        rw [hblank c hc] at hcw
        cases hcw
      · rw [← fromLine_eq_error_iff, ← fromStdout_of_line fromStr hbefore hv hvne hws, ← hsplit,
          String.ofList_toList] at hfault
        exact hfault
  · have hblank : ∀ c ∈ stdout.toList, isWhitespace c = true := by simpa using hne
    rw [fromStdout, lastNonBlank_eq_none hblank]
    constructor
    · rintro ⟨⟩
      exact Or.inl ⟨hblank, rfl⟩
    · rintro (⟨-, rfl⟩ | ⟨before, v, ws, hsplit, -, -, ⟨c, hc, hcw⟩, -, -⟩)
      · rfl
      · exact absurd ⟨c, by rw [hsplit]; simp [hc], hcw⟩ hne

end ValidationOutput

/-! ## Verdicts that were checked before -/

/-- The strict check that authors run. -/
def validateVerdict (v : Validator) (document : Json) : List SchemaViolation := collect v verdictSchema document

/-- Of a verdict that passed the check, the run-time parser refuses a test case that is no integer token of 32 bits, and
then a rejection whose message is blank. -/
theorem fromLine_eq_error_iff_of_validated {v : Validator} {fromStr : String → Option Json} {line : String} {d : Json}
    {e : VerdictError} (hd : fromStr (trim line) = some d) (hv : validateVerdict v d = []) :
    ValidationOutput.fromLine fromStr line = .error e ↔
      ¬ ValidationOutput.TestcaseTyped (d.get? "testcase") ∧ e = .wrongType "testcase" "a positive integer" ∨
        ValidationOutput.TestcaseTyped (d.get? "testcase") ∧ d.get? "ok" = some (.bool false) ∧
          (∃ m, d.get? "message" = some (.str m) ∧ (trim m).isEmpty = true) ∧ e = .missingMessage := by
  obtain ⟨fields, rfl, ⟨b, hb⟩, -, hmsg, -, hthen⟩ := valid_verdictSchema_iff.mp (collect_eq_nil_iff.mp hv)
  have hfields : ∀ fields', fromStr (trim line) = some (.obj fields') → fields = fields' := fun _ h =>
    Json.obj.inj (Option.some.inj (hd.symm.trans h))
  have htyped : ValidationOutput.MessageTyped (Json.find "message" fields) := by
    cases hm : Json.find "message" fields with
    | none => exact Or.inl (Or.inl rfl)
    | some x =>
      obtain ⟨m, rfl, -⟩ := hmsg x hm
      exact Or.inr ⟨m, rfl⟩
  -- The check leaves no message that is cut.
  have hcut : ∀ m, m.length ≤ 500 → truncate m = m := fun m hle => ValidationOutput.cut_of_le (n := maxMessageChars) hle
  rw [ValidationOutput.fromLine_eq_error_iff]
  constructor
  · intro h
    cases h with
    | notJson hnone => cases hd.symm.trans hnone
    | notAnObject hv hobj => exact absurd (Option.some.inj (hv.symm.trans hd)) (hobj fields)
    | missingOk hv hnone =>
      obtain rfl := hfields _ hv
      cases hb.symm.trans hnone
    | okType hv hw hbool =>
      obtain rfl := hfields _ hv
      exact absurd (Option.some.inj (hw.symm.trans hb)) (hbool b)
    | messageType hv _ htype =>
      obtain rfl := hfields _ hv
      exact absurd htyped htype
    | testcaseType hv _ _ htype =>
      obtain rfl := hfields _ hv
      exact Or.inl ⟨htype, rfl⟩
    | missingMessage hv hfalse hblank htype =>
      obtain rfl := hfields _ hv
      obtain ⟨x, hx⟩ := Option.isSome_iff_exists.mp (hthen hfalse)
      obtain ⟨m, rfl, -, hle⟩ := hmsg x hx
      refine Or.inr ⟨htype, hfalse, ⟨m, hx, ?_⟩, rfl⟩
      rcases hblank with (hnone | hnull) | ⟨s, hs, hempty⟩
      · cases hx.symm.trans hnone
      · cases hx.symm.trans hnull
      · obtain rfl := Json.str.inj (Option.some.inj (hx.symm.trans hs))
        rwa [hcut m hle] at hempty
  · rintro (⟨htype, rfl⟩ | ⟨htype, hfalse, ⟨m, hm, hempty⟩, rfl⟩)
    · exact .testcaseType hd hb htyped htype
    · refine .missingMessage hd hfalse (Or.inr ⟨m, hm, ?_⟩) htype
      obtain ⟨_, hm', -, hle⟩ := hmsg _ hm
      obtain rfl := Json.str.inj hm'
      rwa [hcut m hle]

end Satunera.Contracts
