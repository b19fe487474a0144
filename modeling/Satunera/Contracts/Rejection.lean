import Satunera.Contracts.Verdict

/-!
# What a rejection tells the learner

A rejection without a message is refused, since every rejection must tell the learner what is wrong. The message is
looked at after it has been cut to 500 characters and marked with an ellipsis, so what is looked at need not be the
author's.

* `Rejecting`, `Silent` : verdict objects that reject, and those of them that say nothing;
* `kept` : what the learner sees of the author's message;
* `Speaks` : a line that is refused or tells the learner something;
* `speaks_iff` : these are the lines whose message shows something before it is cut.
-/

namespace Satunera.Contracts

open Satunera.Base

namespace ValidationOutput

/-- An object that rejects, with no test case or a valid one. -/
structure Rejecting (fields : List (String × Json)) : Prop where
  ok : Json.find "ok" fields = some (.bool false)
  testcase : Absent (Json.find "testcase" fields) ∨ ∃ n, ValidTestcase (Json.find "testcase" fields) n

/-- No message, or one of white space only. -/
def Silent (fields : List (String × Json)) : Prop :=
  Absent (Json.find "message" fields) ∨
    ∃ m, Json.find "message" fields = some (.str m) ∧ ∀ c ∈ m.toList, isWhitespace c = true

/-- The author's part of the message that is delivered; the rest of it is the judge's ellipsis. -/
def kept (m : String) : List Char := m.toList.take maxMessageChars

/-- The line is refused or tells the learner something of what its author wrote. -/
structure Speaks (fromStr : String → Option Json) (line : String) : Prop where
  delivered : ∀ o, fromLine fromStr line = .ok o → o.ok = false → ∃ fields m, fromStr (trim line) = some (.obj fields) ∧
    Json.find "message" fields = some (.str m) ∧ o.message = some (truncate m) ∧ ∃ c ∈ kept m, isWhitespace c = false
  silent : ∀ fields, fromStr (trim line) = some (.obj fields) → Rejecting fields → Silent fields →
    fromLine fromStr line = .error .missingMessage

/-! ## The part that is kept -/

theorem toList_truncate (m : String) :
    (truncate m).toList = kept m ++ if m.length ≤ maxMessageChars then [] else ['…'] := toList_cut _ m

/-- The ellipsis makes any message that is cut look like one that says something. -/
theorem trim_truncate_isEmpty_iff {m : String} :
    (trim (truncate m)).isEmpty = false ↔ maxMessageChars < m.length ∨ ∃ c ∈ kept m, isWhitespace c = false := by
  rw [trim_isEmpty_eq_false_iff, toList_truncate]
  by_cases h : m.length ≤ maxMessageChars
  · rw [if_pos h, List.append_nil, or_iff_right (Nat.not_lt.mpr h)]
  · rw [if_neg h]
    exact iff_of_true ⟨'…', by simp, by decide⟩ (.inl (Nat.lt_of_not_le h))

/-! ## Reading a rejection -/

section Read
variable {fromStr : String → Option Json} {line : String} {fields : List (String × Json)}

theorem Rejecting.parseTestcase (h : Rejecting fields) : ∃ t, parseTestcase fields = .ok t := by
  rcases h.testcase with habsent | ⟨n, hn⟩
  · exact ⟨none, parseTestcase_eq_ok_iff.mpr (.inl ⟨habsent, rfl⟩)⟩
  · exact ⟨_, parseTestcase_eq_ok_iff.mpr (.inr ⟨n, hn, rfl⟩)⟩

/-- A rejection without a message is refused. -/
theorem fromLine_of_absent (hline : fromStr (trim line) = some (.obj fields)) (h : Rejecting fields)
    (hm : Absent (Json.find "message" fields)) : fromLine fromStr line = .error .missingMessage := by
  obtain ⟨t, ht⟩ := h.parseTestcase
  rw [fromLine, hline, okOr, ok_bind, Json.asObject, okOr, ok_bind, parseOk_eq_ok_iff.mpr h.ok, ok_bind,
    parseMessage_eq_ok_iff.mpr (.inl ⟨hm, rfl⟩), ok_bind, ht, ok_bind]
  rfl

/-- A rejection with a message is refused when what is left after the cut is blank. -/
theorem fromLine_of_message (hline : fromStr (trim line) = some (.obj fields))
    (hok : Json.find "ok" fields = some (.bool false)) {t : Option UInt32} (ht : parseTestcase fields = .ok t)
    {m : String} (hm : Json.find "message" fields = some (.str m)) : fromLine fromStr line =
      if (trim (truncate m)).isEmpty then .error .missingMessage
      else .ok ⟨false, some (truncate m), t, unknown fields⟩ := by
  rw [fromLine, hline, okOr, ok_bind, Json.asObject, okOr, ok_bind, parseOk_eq_ok_iff.mpr hok, ok_bind,
    parseMessage_eq_ok_iff.mpr (.inr ⟨m, hm, rfl⟩), ok_bind, ht, ok_bind]
  rfl

/-- What is delivered with a rejection is what its author wrote, cut. -/
theorem rejecting_of_fromLine {o : ValidationOutput} (ho : fromLine fromStr line = .ok o) (hok : o.ok = false) :
    ∃ fields m, fromStr (trim line) = some (.obj fields) ∧ Rejecting fields ∧
      Json.find "message" fields = some (.str m) ∧ o.message = some (truncate m) ∧
      (trim (truncate m)).isEmpty = false := by
  obtain ⟨fields, hline, hparse, hm, ht, hblank, -⟩ := fromLine_eq_ok_iff.mp ho
  obtain ⟨s, hs, hne⟩ := hblank hok
  have htestcase : Absent (Json.find "testcase" fields) ∨ ∃ n, ValidTestcase (Json.find "testcase" fields) n :=
    (parseTestcase_eq_ok_iff.mp ht).imp And.left fun ⟨n, hn, _⟩ => ⟨n, hn⟩
  rw [parseOk_eq_ok_iff, hok] at hparse
  rcases parseMessage_eq_ok_iff.mp hm with ⟨-, hnone⟩ | ⟨m, hm, hsome⟩
  · rw [hs] at hnone
    cases hnone
  · obtain rfl : s = truncate m := Option.some.inj (hs.symm.trans hsome)
    exact ⟨fields, m, hline, ⟨hparse, htestcase⟩, hm, hs, hne⟩

end Read

/-! ## The law and its exception -/

/-- **A line is refused or tells the learner something, unless it rejects with a message that is cut before anything
in it can be seen.** -/
theorem speaks_iff (fromStr : String → Option Json) (line : String) : Speaks fromStr line ↔
    ∀ fields m, fromStr (trim line) = some (.obj fields) → Rejecting fields →
      Json.find "message" fields = some (.str m) → maxMessageChars < m.length →
        ∃ c ∈ m.toList.take maxMessageChars, isWhitespace c = false := by
  constructor
  · intro h fields m hline hrej hm hlong
    obtain ⟨t, ht⟩ := hrej.parseTestcase
    have hok := fromLine_of_message hline hrej.ok ht hm
    rw [trim_truncate_isEmpty_iff.mpr (.inl hlong), if_neg Bool.false_ne_true] at hok
    obtain ⟨fields', m', hline', hm', -, hvisible⟩ := h.delivered _ hok rfl
    obtain rfl : fields = fields' := Json.obj.inj (Option.some.inj (hline.symm.trans hline'))
    obtain rfl : m = m' := Json.str.inj (Option.some.inj (hm.symm.trans hm'))
    exact hvisible
  · intro h
    refine ⟨fun o ho hok => ?_, fun fields hline hrej hsilent => ?_⟩
    · obtain ⟨fields, m, hline, hrej, hm, hmsg, hne⟩ := rejecting_of_fromLine ho hok
      refine ⟨fields, m, hline, hm, hmsg, ?_⟩
      exact (trim_truncate_isEmpty_iff.mp hne).elim (h fields m hline hrej hm) id
    · rcases hsilent with habsent | ⟨m, hm, hblank⟩
      · exact fromLine_of_absent hline hrej habsent
      · have hempty : (trim (truncate m)).isEmpty = true := by
          by_contra hne
          rw [Bool.not_eq_true, trim_truncate_isEmpty_iff] at hne
          obtain ⟨c, hc, hvisible⟩ := hne.elim (h fields m hline hrej hm) id
          rw [hblank c (List.mem_of_mem_take hc)] at hvisible
          cases hvisible
        obtain ⟨t, ht⟩ := hrej.parseTestcase
        rw [fromLine_of_message hline hrej.ok ht hm, if_pos hempty]

/-! ## A rejection that tells nothing -/

/-- `{"message": m, "ok": false}` -/
def rejection (m : String) : List (String × Json) := [("message", .str m), ("ok", .bool false)]

/-- The same as a line, for a message that needs no escapes. -/
def rejectionLine (m : String) : String :=
  String.ofList ('\x7b' :: (("\"ok\": false, \"message\": \"" ++ m ++ "\"").toList ++ ['\x7d']))

/-- A parser that has seen this line. -/
def readRejection (m s : String) : Option Json := if s = rejectionLine m then some (.obj (rejection m)) else none

section Rejection
variable (m : String)

theorem readRejection_trim : readRejection m (trim (rejectionLine m)) = some (.obj (rejection m)) := by
  rw [rejectionLine, trim_eq_self (by decide) (by decide)]
  exact if_pos rfl

theorem rejecting_rejection : Rejecting (rejection m) := ⟨rfl, .inl (.inl rfl)⟩

/-- A blank message that is too long is delivered. -/
theorem fromLine_rejection (hlong : maxMessageChars < m.length) :
    fromLine (readRejection m) (rejectionLine m) =
      .ok ⟨false, some (String.ofList (m.toList.take 500) ++ "…"), none, []⟩ := by
  rw [fromLine_of_message (readRejection_trim m) (rejecting_rejection m).ok rfl rfl,
    trim_truncate_isEmpty_iff.mpr (.inl hlong), if_neg Bool.false_ne_true, truncate, cut, if_neg (Nat.not_le.mpr hlong)]
  rfl

end Rejection

/-- `n` spaces. -/
def spaces (n : Nat) : String := String.ofList (List.replicate n ' ')

theorem silent_spaces (n : Nat) : Silent (rejection (spaces n)) := by
  refine .inr ⟨spaces n, rfl, fun c hc => ?_⟩
  rw [spaces, String.toList_ofList] at hc
  rw [List.eq_of_mem_replicate hc]
  rfl

/-- Of too many spaces the learner is shown 500 and an ellipsis. -/
theorem fromLine_spaces {n : Nat} (hn : maxMessageChars < n) :
    fromLine (readRejection (spaces n)) (rejectionLine (spaces n)) =
      .ok ⟨false, some (spaces 500 ++ "…"), none, []⟩ := by
  have hlong : maxMessageChars < (spaces n).length := by rwa [spaces, String.length_ofList, List.length_replicate]
  have htake : (spaces n).toList.take 500 = List.replicate 500 ' ' := by
    rw [spaces, String.toList_ofList, List.take_replicate, Nat.min_eq_left (show 500 ≤ n from Nat.le_of_lt hn)]
  rw [fromLine_rejection _ hlong, htake, spaces]

theorem not_speaks_of_spaces {n : Nat} (hn : maxMessageChars < n) :
    ¬Speaks (readRejection (spaces n)) (rejectionLine (spaces n)) := by
  intro h
  have herr := h.silent _ (readRejection_trim _) (rejecting_rejection _) (silent_spaces n)
  rw [fromLine_spaces hn] at herr
  cases herr

/-- A rejection of 501 spaces is delivered. -/
theorem not_speaks_spaces :
    fromLine (readRejection (spaces 501)) (rejectionLine (spaces 501)) =
      .ok ⟨false, some (spaces 500 ++ "…"), none, []⟩ ∧
    Rejecting (rejection (spaces 501)) ∧ Silent (rejection (spaces 501)) ∧
    ¬Speaks (readRejection (spaces 501)) (rejectionLine (spaces 501)) :=
  ⟨fromLine_spaces (by decide), rejecting_rejection _, silent_spaces _, not_speaks_of_spaces (by decide)⟩

end ValidationOutput

end Satunera.Contracts
