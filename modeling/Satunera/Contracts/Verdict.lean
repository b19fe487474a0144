import Satunera.Base.Json
import Satunera.Base.Text
import Satunera.Contracts.Id

/-!
# The verdict of `validation.sh`

An exit code decides acceptance and a JSON object on the last line of stdout explains it; everything before that line
is logs. The JSON parser `fromStr` is a parameter.

* `ValidationOutput.fromLine`, `ValidationOutput.fromStdout` : reading the object;
* `ValidationOutput.reconcile`, `ValidationOutput.verdict` : exit code and object;
* `fromStdout_of_line` : only the last line that is not blank is read;
* `stdout_decides` : that line and the exit code decide the verdict.
-/

namespace Satunera.Contracts

open Satunera.Base

/-- Longest message the judge forwards. -/
def maxMessageChars : Nat := 500

/-- The JSON object on the last line of stdout. -/
structure ValidationOutput where
  ok : Bool
  message : Option String
  testcase : Option UInt32
  unknownKeys : List String
  deriving DecidableEq

inductive VerdictError
  | noOutput
  | notJson (excerpt : String)
  | notAnObject (excerpt : String)
  | missingOk
  | wrongType (field expected : String)
  | missingMessage
  | exitCodeMismatch (ok : Bool) (exitCode : Int32)
  deriving DecidableEq

/-- The first `n` characters, with an ellipsis if there are more. -/
def cut (n : Nat) (s : String) : String := if s.length ≤ n then s else String.ofList (s.toList.take n) ++ "…"

def truncate (message : String) : String := cut maxMessageChars message

def excerpt (line : String) : String := cut 120 (trim line)

namespace ValidationOutput

section Parsing
variable (fromStr : String → Option Json)

def parseOk (object : List (String × Json)) : Except VerdictError Bool :=
  match Json.find "ok" object with
  | none => .error .missingOk
  | some v => okOr v.asBool (.wrongType "ok" "true or false")

def parseMessage (object : List (String × Json)) : Except VerdictError (Option String) :=
  match Json.find "message" object with
  | none | some .null => .ok none
  | some v => (okOr v.asStr (.wrongType "message" "a string")).map fun m => some (truncate m)

def parseTestcase (object : List (String × Json)) : Except VerdictError (Option UInt32) :=
  match Json.find "testcase" object with
  | none | some .null => .ok none
  | some v =>
    match v.asU64 with
    | none => .error (.wrongType "testcase" "a positive integer")
    | some n =>
      if n.toNat = 0 ∨ 4294967295 < n.toNat then .error (.wrongType "testcase" "a positive integer")
      else .ok (some n.toUInt32)

/-- The keys the judge does not recognize. -/
def unknown (object : List (String × Json)) : List String :=
  (object.map Prod.fst).filter fun k => k ∉ ["ok", "message", "testcase"]

/-- Parse one line as a verdict object. -/
def fromLine (line : String) : Except VerdictError ValidationOutput := do
  let value ← okOr (fromStr (trim line)) (.notJson (excerpt line))
  let object ← okOr value.asObject (.notAnObject (excerpt line))
  let ok ← parseOk object
  let message ← parseMessage object
  let testcase ← parseTestcase object
  if !ok && message.all fun m => (trim m).isEmpty then
    .error .missingMessage
  else
    return ⟨ok, message, testcase, unknown object⟩

/-- The last line that is not blank, with everything before it treated as logs. -/
def fromStdout (stdout : String) : Except VerdictError ValidationOutput := do
  let line ← okOr (lastNonBlank stdout.toList) .noOutput
  fromLine fromStr (String.ofList line)

end Parsing

/-- Confirm that the exit code and the `ok` field tell the same story. -/
def reconcile (o : ValidationOutput) (exitCode : Int32) : Except VerdictError Unit :=
  if o.ok = decide (exitCode = 0) then .ok () else .error (.exitCodeMismatch o.ok exitCode)

def verdict (o : ValidationOutput) : Verdict := if o.ok then .ac else .wa

variable {fromStr : String → Option Json}

/-! ## Cutting -/

theorem cut_of_le {n : Nat} {s : String} (h : s.length ≤ n) : cut n s = s := if_pos h

/-- The characters kept, and the ellipsis. -/
theorem toList_cut (n : Nat) (s : String) :
    (cut n s).toList = s.toList.take n ++ if s.length ≤ n then [] else ['…'] := by
  unfold cut
  split
  · rename_i h
    rw [List.append_nil, List.take_of_length_le (by rwa [String.length_toList])]
  · rw [String.toList_append, String.toList_ofList]
    rfl

/-! ## What a line says -/

/-- Missing or `null`. -/
def Absent (v : Option Json) : Prop := v = none ∨ v = some .null

theorem fromLine_trim (line : String) : fromLine fromStr (trim line) = fromLine fromStr line := by
  rw [fromLine, fromLine, excerpt, excerpt, trim_trim]

/-- What an accepted line holds, field by field. -/
theorem fromLine_eq_ok_iff {line : String} {o : ValidationOutput} :
    fromLine fromStr line = .ok o ↔ ∃ fields, fromStr (trim line) = some (.obj fields) ∧ parseOk fields = .ok o.ok ∧
      parseMessage fields = .ok o.message ∧ parseTestcase fields = .ok o.testcase ∧
      (o.ok = false → ∃ m, o.message = some m ∧ (trim m).isEmpty = false) ∧ o.unknownKeys = unknown fields := by
  obtain ⟨ok, message, testcase, unknownKeys⟩ := o
  have hlast : ∀ (b : Bool) (m : Option String), (!b && m.all fun s => (trim s).isEmpty) = false ↔
      (b = false → ∃ s, m = some s ∧ (trim s).isEmpty = false) := by
    intro b m
    cases b <;> cases m <;> simp
  simp only [fromLine, bind_eq_ok_iff, okOr_eq_ok_iff]
  constructor
  · rintro ⟨value, hvalue, fields, hobj, b, hb, m, hm, t, ht, hend⟩
    split at hend
    · cases hend
    · rename_i hmsg
      cases hend
      cases value with
      | obj fields' =>
        cases hobj
        exact ⟨fields, hvalue, hb, hm, ht, (hlast _ _).mp (by simpa using hmsg), rfl⟩
      | _ => cases hobj
  · rintro ⟨fields, hvalue, hb, hm, ht, hmsg, hkeys⟩
    refine ⟨_, hvalue, fields, rfl, ok, hb, message, hm, testcase, ht, ?_⟩
    rw [if_neg (by rw [(hlast _ _).mpr hmsg]; exact Bool.false_ne_true), ← hkeys]
    rfl

theorem parseOk_eq_ok_iff {fields : List (String × Json)} {b : Bool} :
    parseOk fields = .ok b ↔ Json.find "ok" fields = some (.bool b) := by
  unfold parseOk
  cases Json.find "ok" fields with
  | none => simp
  | some v => cases v <;> simp [Json.asBool]

theorem parseMessage_eq_ok_iff {fields : List (String × Json)} {m : Option String} :
    parseMessage fields = .ok m ↔ Absent (Json.find "message" fields) ∧ m = none ∨
      ∃ s, Json.find "message" fields = some (.str s) ∧ m = some (truncate s) := by
  unfold parseMessage
  cases Json.find "message" fields with
  | none => simp [Absent, eq_comm]
  | some v => cases v <;> simp [Absent, Json.asStr, okOr, Except.map, eq_comm]

/-- A test case that is read: an unsigned token from 1 to `u32::MAX`. -/
def ValidTestcase (v : Option Json) (n : UInt64) : Prop :=
  v = some (.num (.posInt n)) ∧ 1 ≤ n.toNat ∧ n.toNat ≤ 4294967295

theorem parseTestcase_eq_ok_iff {fields : List (String × Json)} {t : Option UInt32} :
    parseTestcase fields = .ok t ↔ Absent (Json.find "testcase" fields) ∧ t = none ∨
      ∃ n, ValidTestcase (Json.find "testcase" fields) n ∧ t = some n.toUInt32 := by
  unfold parseTestcase
  cases Json.find "testcase" fields with
  | none => simp [Absent, ValidTestcase, eq_comm]
  | some v =>
    cases v with
    | num k =>
      cases k with
      | posInt n =>
        simp only [Json.asU64]
        split
        · rename_i h
          simp [Absent, ValidTestcase]
          omega
        · rename_i h
          have hn : 1 ≤ n.toNat ∧ n.toNat ≤ 4294967295 := by omega
          simp [Absent, ValidTestcase, hn, eq_comm]
      | negInt n => simp [Json.asU64, Absent, ValidTestcase]
      | float q => simp [Json.asU64, Absent, ValidTestcase]
    | _ => simp [Json.asU64, Absent, ValidTestcase, eq_comm]

theorem verdict_eq_ac_iff {o : ValidationOutput} : o.verdict = .ac ↔ o.ok = true := by
  cases h : o.ok <;> simp [verdict, h]

theorem verdict_eq_wa_iff {o : ValidationOutput} : o.verdict = .wa ↔ o.ok = false := by
  cases h : o.ok <;> simp [verdict, h]

theorem reconcile_eq_ok_iff {o : ValidationOutput} {exitCode : Int32} :
    o.reconcile exitCode = .ok () ↔ (o.ok = true ↔ exitCode = 0) := by
  unfold reconcile
  cases o.ok <;> by_cases h : exitCode = 0 <;> simp [h]

/-! ## Logs and the last line -/

/-- The last line that is not blank, wherever it stands. -/
theorem fromStdout_of_line (fromStr : String → Option Json) {before v ws : List Char}
    (hbefore : before = [] ∨ ∃ a, before = a ++ ['\n']) (hv : '\n' ∉ v)
    (hne : ∃ c ∈ v, isWhitespace c = false) (hws : ∀ c ∈ ws, isWhitespace c = true) :
    fromStdout fromStr (String.ofList (before ++ v ++ ws)) = fromLine fromStr (String.ofList v) := by
  rw [fromStdout, String.toList_ofList, lastNonBlank_line hbefore hv hne hws]
  show fromLine fromStr (String.ofList (trimChars v)) = _
  rw [← fromLine_trim (String.ofList v), trim, String.toList_ofList]

/-- **Only the last line that is not blank and the exit code decide.** -/
theorem stdout_decides (fromStr : String → Option Json) :
    (∀ logs v ws : String, '\n' ∉ v.toList → (∃ c ∈ v.toList, isWhitespace c = false) →
      (∀ c ∈ ws.toList, isWhitespace c = true) →
        fromStdout fromStr (logs ++ "\n" ++ v ++ ws) = fromStdout fromStr v ∧
          fromStdout fromStr v = fromLine fromStr v) ∧
    (∀ (stdout : String) (exitCode : Int32) (o : ValidationOutput), fromStdout fromStr stdout = .ok o →
      o.reconcile exitCode = .ok () →
        (o.verdict = .ac ↔ exitCode = 0) ∧ (o.verdict = .wa ↔ exitCode ≠ 0) ∧
        (o.verdict = .ac → ∃ before v ws fields, stdout.toList = before ++ v ++ ws ∧
          (before = [] ∨ ∃ a, before = a ++ ['\n']) ∧ '\n' ∉ v ∧ (∃ c ∈ v, isWhitespace c = false) ∧
          (∀ c ∈ ws, isWhitespace c = true) ∧ fromStr (String.ofList (trimChars v)) = some (.obj fields) ∧
          Json.find "ok" fields = some (.bool true))) ∧
    ∀ stdout : String, (∀ c ∈ stdout.toList, isWhitespace c = true) → fromStdout fromStr stdout = .error .noOutput := by
  refine ⟨fun logs v ws hv hne hws => ?_, fun stdout exitCode o ho hr => ?_, fun stdout h => ?_⟩
  · have hline : fromStdout fromStr v = fromLine fromStr v := by
      have := fromStdout_of_line fromStr (.inl rfl) hv hne (nofun : ∀ c ∈ [], isWhitespace c = true)
      simpa using this
    refine ⟨?_, hline⟩
    rw [hline]
    have hbefore : logs.toList ++ ['\n'] = [] ∨ ∃ a, logs.toList ++ ['\n'] = a ++ ['\n'] := .inr ⟨_, rfl⟩
    have := fromStdout_of_line fromStr hbefore hv hne hws
    simpa [String.append_assoc] using this
  · have hcode := reconcile_eq_ok_iff.mp hr
    refine ⟨verdict_eq_ac_iff.trans hcode, ?_, fun hac => ?_⟩
    · rw [verdict_eq_wa_iff, ne_eq, ← hcode, Bool.not_eq_true]
    · have hne : ∃ c ∈ stdout.toList, isWhitespace c = false := by
        by_contra hblank
        rw [fromStdout, lastNonBlank_eq_none (by simpa using hblank)] at ho
        cases ho
      obtain ⟨before, v, ws, hsplit, hbefore, hv, hne, hws⟩ := exists_lastLine hne
      have hline := fromStdout_of_line fromStr hbefore hv hne hws
      rw [← hsplit, String.ofList_toList, ho] at hline
      obtain ⟨fields, hfields, hok, -⟩ := fromLine_eq_ok_iff.mp hline.symm
      rw [trim, String.toList_ofList] at hfields
      rw [verdict_eq_ac_iff.mp hac, parseOk_eq_ok_iff] at hok
      exact ⟨before, v, ws, fields, hsplit, hbefore, hv, hne, hws, hfields, hok⟩
  · rw [fromStdout, lastNonBlank_eq_none h]
    rfl

end ValidationOutput

end Satunera.Contracts
