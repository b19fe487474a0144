import Satunera.Base.Digits
import Satunera.Store.Model

/-!
# Text forms that run

An instance of `TextForms`, so that the store can be run: ULIDs in Crockford's base 32, and the timestamps of the first
minute of 1970 in RFC 3339.

* `ulidText`, `parseUlidText` : the 26 letters of a ULID (`parseUlidText_ulidText`, `ulidText_lt_iff`);
* `secondText` : a second of that minute;
* `TextForms.crockford` : the instance.
-/

namespace Satunera.Store

open Satunera.Base

/-! ## ULIDs -/

/-- Crockford's letters, in order. -/
def crockfordAlphabet : List Char := "0123456789ABCDEFGHJKMNPQRSTVWXYZ".toList

def crockfordDigit (i : Nat) : Char := crockfordAlphabet.getD i '0'

/-- The value of a letter, in either case. -/
def crockfordValue (c : Char) : Option Nat := crockfordAlphabet.findIdx? fun d => d == c.toUpper

def ulidText (u : Ulid) : String := String.ofList (digits 32 crockfordDigit 26 u.toNat)

/-- Bits past the 128 are shifted out. -/
def parseUlidText (s : String) : Option Ulid :=
  if s.toList.length = 26 then (ofDigits 32 crockfordValue s.toList).map (BitVec.ofNat 128) else none

theorem ulid_lt_pow (u : Ulid) : u.toNat < 32 ^ 26 := u.isLt.trans (by norm_num)

theorem crockfordDigit_lt_iff : ∀ i < 32, ∀ j < 32, (crockfordDigit i < crockfordDigit j ↔ i < j) := by decide

theorem crockfordValue_digit : ∀ i < 32, crockfordValue (crockfordDigit i) = some i := by decide

theorem crockfordDigit_isAlphanum : ∀ i < 32, (crockfordDigit i).isAlphanum = true := by decide

theorem parseUlidText_ulidText (u : Ulid) : parseUlidText (ulidText u) = some u := by
  unfold parseUlidText ulidText
  rw [String.toList_ofList, length_digits, if_pos rfl, ofDigits_digits crockfordValue_digit (ulid_lt_pow u)]
  simp

theorem ulidText_lt_iff (u v : Ulid) : ulidText u < ulidText v ↔ u < v := by
  rw [ulidText, ulidText, String.lt_iff_toList_lt, String.toList_ofList, String.toList_ofList,
    digits_lt_iff crockfordDigit_lt_iff (ulid_lt_pow u) (ulid_lt_pow v), BitVec.lt_def]

theorem ulidText_alphanumeric (u : Ulid) : ∀ c ∈ (ulidText u).toList, c.isAlphanum = true := by
  intro c hc
  rw [ulidText, String.toList_ofList] at hc
  obtain ⟨i, hi, rfl⟩ := mem_digits (ulid_lt_pow u) hc
  exact crockfordDigit_isAlphanum i hi

/-! ## Timestamps -/

/-- Second `k` of the first minute of 1970. -/
def secondText (k : Fin 60) : String :=
  "1970-01-01T00:00:" ++ String.ofList [Nat.digitChar (k / 10), Nat.digitChar (k % 10)] ++ "Z"

def secondTime (k : Fin 60) : OffsetDateTime := ⟨k * 1000000000, 0⟩

theorem digitChar_inj : ∀ i < 10, ∀ j < 10, Nat.digitChar i = Nat.digitChar j → i = j := by decide

theorem between_inj {pre post : String} {cs ds : List Char}
    (h : pre ++ String.ofList cs ++ post = pre ++ String.ofList ds ++ post) : cs = ds := by
  have h := congrArg String.toList h
  simpa only [String.toList_append, String.toList_ofList, List.append_assoc, List.append_cancel_left_eq,
    List.append_cancel_right_eq] using h

theorem secondText_injective : Function.Injective secondText := by
  intro j k h
  have h := between_inj h
  rw [List.cons.injEq, List.cons.injEq] at h
  have hdiv := digitChar_inj _ (by omega) _ (by omega) h.1
  have hmod := digitChar_inj _ (by omega) _ (by omega) h.2.1
  omega

theorem secondTime_injective : Function.Injective secondTime := by
  intro j k h
  have h := congrArg OffsetDateTime.unixNanos h
  simp only [secondTime] at h
  omega

def formatSecond (t : OffsetDateTime) : Except String String :=
  okOr ((parseLabel (List.finRange 60) secondTime t).map secondText) "cannot format"

def parseSecond (s : String) : Except String OffsetDateTime :=
  okOr ((parseLabel (List.finRange 60) secondText s).map secondTime) "cannot parse"

theorem parseSecond_formatSecond (t : OffsetDateTime) (s : String) (h : formatSecond t = .ok s) :
    parseSecond s = .ok t := by
  rw [formatSecond, okOr_eq_ok_iff, Option.map_eq_some_iff] at h
  obtain ⟨k, hk, rfl⟩ := h
  have ht := (parseLabel_eq_some_iff List.mem_finRange secondTime_injective).mp hk
  rw [parseSecond, okOr_eq_ok_iff, (parseLabel_eq_some_iff List.mem_finRange secondText_injective).mpr rfl]
  exact congrArg some ht

/-! ## The instance -/

def TextForms.crockford : TextForms where
  ulid := ulidText
  parseUlid := parseUlidText
  rfc3339 := formatSecond
  parseRfc3339 := parseSecond
  debug s := "\"" ++ s ++ "\""
  parse_ulid := parseUlidText_ulidText
  parse_rfc3339 := parseSecond_formatSecond
  ulid_lt_iff := ulidText_lt_iff
  ulid_alphanumeric := ulidText_alphanumeric

/-- The clock at second `k` of 1970. -/
def secondClock (k : Fin 60) : Clock .crockford where
  time := secondTime k
  text := secondText k
  formats := by
    show formatSecond (secondTime k) = .ok (secondText k)
    rw [formatSecond, (parseLabel_eq_some_iff List.mem_finRange secondTime_injective).mpr rfl]
    rfl

end Satunera.Store
