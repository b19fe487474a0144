import Satunera.Base.JsonMap
import Satunera.Contracts.VerdictSchema

/-!
# Strict at authoring time, forgiving at run time

What the run-time parser accepts and the authoring schema refuses, and what the parser does not look at.

* `Relaxed` : the ways in which the parser is forgiving;
* `relaxed_of_fromLine` : there is no other;
* `fromLine_of_sameFields` : keys that the parser does not know leave the outcome alone;
* `forgiving_only` : both, for every document.
-/

namespace Satunera.Contracts

open Satunera.Base ValidationOutput

/-- What the schema refuses and the parser lets through. -/
inductive Relaxed (fields : List (String × Json)) : Prop
  | unknownKey {key : String} (hkey : key ∈ fields.map Prod.fst) (hunknown : key ∉ ["ok", "message", "testcase"])
  | nullMessage (h : Json.find "message" fields = some .null)
  | nullTestcase (h : Json.find "testcase" fields = some .null)
  | emptyMessage (hok : Json.find "ok" fields = some (.bool true)) (h : Json.find "message" fields = some (.str ""))
  | longMessage {m : String} (h : Json.find "message" fields = some (.str m)) (hlong : 500 < m.length)

section Fields
variable {fromStr : String → Option Json} {line line' : String} {fields fields' extra : List (String × Json)}

/-! ## What the schema refuses -/

/-- A message that is read and not relaxed is one of the schema. -/
theorem valid_message (hread : ∃ m, parseMessage fields = .ok m) (h : ¬Relaxed fields)
    (hempty : Json.find "message" fields = some (.str "") → Json.find "ok" fields = some (.bool true)) :
    ∀ v, Json.find "message" fields = some v → ∃ m, v = .str m ∧ 1 ≤ m.length ∧ m.length ≤ 500 := by
  intro v hv
  obtain ⟨_, hm⟩ := hread
  rcases parseMessage_eq_ok_iff.mp hm with ⟨habsent | hnull, -⟩ | ⟨s, hs, -⟩
  · rw [hv] at habsent
    cases habsent
  · exact absurd (.nullMessage hnull) h
  · obtain rfl : v = .str s := Option.some.inj (hv.symm.trans hs)
    refine ⟨s, rfl, ?_, Nat.le_of_not_lt fun hlong => h (.longMessage hs hlong)⟩
    by_contra hlen
    obtain rfl : s = "" := String.length_eq_zero_iff.mp (by omega)
    exact h (.emptyMessage (hempty hs) hs)

theorem valid_testcase (hread : ∃ t, parseTestcase fields = .ok t) (h : ¬Relaxed fields) :
    ∀ v, Json.find "testcase" fields = some v → ∃ n, v = .num n ∧ n.isInteger = true ∧ 1 ≤ n.value := by
  intro v hv
  obtain ⟨_, ht⟩ := hread
  rcases parseTestcase_eq_ok_iff.mp ht with ⟨habsent | hnull, -⟩ | ⟨n, ⟨hn, hpos, -⟩, -⟩
  · rw [hv] at habsent
    cases habsent
  · exact absurd (.nullTestcase hnull) h
  · refine ⟨.posInt n, Option.some.inj (hv.symm.trans hn), JsonNumber.isInteger_posInt n, ?_⟩
    rw [JsonNumber.value_posInt]
    exact_mod_cast hpos

/-- Whatever is read against the schema is relaxed. -/
theorem relaxed_of_fromLine {d : Json} {o : ValidationOutput} (hd : fromStr (trim line) = some d)
    (ho : fromLine fromStr line = .ok o) (hinvalid : verdictSchema.valid d = false) :
    ∃ fields, d = .obj fields ∧ Relaxed fields := by
  obtain ⟨fields, hfields, hok, hm, ht, hrej, -⟩ := fromLine_eq_ok_iff.mp ho
  obtain rfl : d = .obj fields := Option.some.inj (hd.symm.trans hfields)
  refine ⟨fields, rfl, ?_⟩
  by_contra h
  rw [parseOk_eq_ok_iff] at hok
  have hmessage : o.ok = false → ∃ s, Json.find "message" fields = some (.str s) ∧ s ≠ "" := by
    intro hfalse
    obtain ⟨s, hs, hne⟩ := hrej hfalse
    rcases parseMessage_eq_ok_iff.mp hm with ⟨-, hnone⟩ | ⟨m, hm, hsome⟩
    · rw [hs] at hnone
      cases hnone
    · refine ⟨m, hm, ?_⟩
      rintro rfl
      obtain rfl : s = truncate "" := Option.some.inj (hs.symm.trans hsome)
      exact absurd hne (by decide)
  have hvalid : verdictSchema.valid (.obj fields) = true := by
    refine valid_verdictSchema_iff.mpr ⟨fields, rfl, ⟨o.ok, hok⟩, fun f hf => ?_, ?_, valid_testcase ⟨_, ht⟩ h, ?_⟩
    · by_contra hkey
      exact h (.unknownKey (List.mem_map_of_mem hf) hkey)
    · refine valid_message ⟨_, hm⟩ h fun hempty => ?_
      cases hval : o.ok with
      | true => rw [hok, hval]
      | false =>
        obtain ⟨s, hs, hne⟩ := hmessage hval
        exact absurd (Json.str.inj (Option.some.inj (hs.symm.trans hempty))) hne
    · intro hfalse
      obtain ⟨s, hs, -⟩ := hmessage (Json.bool.inj (Option.some.inj (hok.symm.trans hfalse)))
      rw [hs]
      rfl
  rw [hinvalid] at hvalid
  cases hvalid

/-! ## What the parser does not look at -/

/-- Objects that agree on the three fields have the same outcome, up to the keys that are reported. -/
theorem fromLine_of_sameFields (hline : fromStr (trim line) = some (.obj fields))
    (hline' : fromStr (trim line') = some (.obj fields'))
    (hsame : ∀ k ∈ ["ok", "message", "testcase"], Json.find k fields' = Json.find k fields) :
    fromLine fromStr line' =
      (fromLine fromStr line).map fun o => { o with unknownKeys := unknown fields' } := by
  have hok : parseOk fields' = parseOk fields := by
    rw [parseOk, parseOk, hsame _ (by simp)]
  have hmessage : parseMessage fields' = parseMessage fields := by
    rw [parseMessage, parseMessage, hsame _ (by simp)]
  have htestcase : parseTestcase fields' = parseTestcase fields := by
    rw [parseTestcase, parseTestcase, hsame _ (by simp)]
  rw [fromLine, fromLine, hline, hline']
  simp only [okOr, ok_bind, Json.asObject, hok, hmessage, htestcase]
  cases parseOk fields with
  | error e => rfl
  | ok b =>
    cases parseMessage fields with
    | error e => rfl
    | ok m =>
      cases parseTestcase fields with
      | error e => rfl
      | ok t =>
        simp only [ok_bind]
        split <;> rfl

/-- The keys that are reported are the others, in order. -/
theorem mem_unknown {key : String} :
    key ∈ unknown fields ↔ key ∈ fields.map Prod.fst ∧ key ∉ ["ok", "message", "testcase"] := by
  rw [unknown, List.mem_filter, decide_eq_true_eq]

theorem pairwise_unknown (h : Json.SortedKeys fields) : (unknown fields).Pairwise (· < ·) := h.filter _

end Fields

/-- **The parser is forgiving in the known ways only, and unknown keys are reported and change nothing else.** -/
theorem forgiving_only (fromStr : String → Option Json) :
    (∀ line d o, fromStr (trim line) = some d → fromLine fromStr line = .ok o → verdictSchema.valid d = false →
      ∃ fields, d = .obj fields ∧ Relaxed fields) ∧
    ∀ line line' fields extra, Json.SortedKeys fields → (∀ f ∈ extra, f.1 ∉ ["ok", "message", "testcase"]) →
      fromStr (trim line) = some (.obj fields) → fromStr (trim line') = some (.obj (Json.extend fields extra)) →
        fromLine fromStr line' = (fromLine fromStr line).map
          (fun o => { o with unknownKeys := unknown (Json.extend fields extra) }) ∧
        (unknown (Json.extend fields extra)).Pairwise (· < ·) ∧
        ∀ key, key ∈ unknown (Json.extend fields extra) ↔
          (key ∈ fields.map Prod.fst ∨ key ∈ extra.map Prod.fst) ∧ key ∉ ["ok", "message", "testcase"] := by
  refine ⟨fun _ _ _ => relaxed_of_fromLine, fun line line' fields extra hsorted hextra hline hline' => ?_⟩
  refine ⟨fromLine_of_sameFields hline hline' fun k hk => ?_, pairwise_unknown hsorted.extend, fun key => ?_⟩
  · apply Json.find_extend
    intro hmem
    obtain ⟨f, hf, rfl⟩ := List.mem_map.mp hmem
    exact hextra f hf hk
  · rw [mem_unknown, Json.mem_keys_extend]

end Satunera.Contracts
