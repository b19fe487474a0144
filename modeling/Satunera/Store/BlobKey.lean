import Satunera.Store.Blob

/-!
# Keys of blobs

* `hexEncode` : lowercase hexadecimal; the hashes are the digests of 32 bytes in it (`isHex_iff`), and
  `Sha256Hash.fromHex`, which looks at bytes, accepts just these (`isHexBytes_iff`);
* `components` : a path as the platform takes it apart (`BlobKind.components_key`);
* `keys_injective` : keys and temporary files are told apart and stay below the root.
-/

namespace Satunera.Store

open Satunera.Base

/-! ## Hexadecimal -/

def hexPair (b : UInt8) : List Char := [Nat.digitChar (b.toNat / 16), Nat.digitChar (b.toNat % 16)]

/-- `hex::encode` -/
def hexEncode (bytes : List UInt8) : String := String.ofList (bytes.flatMap hexPair)

theorem isHexDigit_iff {c : Char} :
    isHexDigit c = true ↔ 48 ≤ c.toNat ∧ c.toNat ≤ 57 ∨ 97 ≤ c.toNat ∧ c.toNat ≤ 102 := by
  simp only [isHexDigit, Char.isDigit, Char.le_def, UInt32.le_iff_toNat_le, Bool.or_eq_true, Bool.and_eq_true,
    decide_eq_true_eq]
  rfl

theorem isHexDigit_digitChar : ∀ i < 16, isHexDigit (Nat.digitChar i) = true := by decide

theorem exists_digitChar {c : Char} (h : isHexDigit c = true) : ∃ i < 16, Nat.digitChar i = c := by
  have hdecimal : ∀ n ≤ 57, 48 ≤ n → (Nat.digitChar (n - 48)).toNat = n := by decide
  have hletter : ∀ n ≤ 102, 97 ≤ n → (Nat.digitChar (n - 87)).toNat = n := by decide
  rcases isHexDigit_iff.mp h with ⟨hlo, hhi⟩ | ⟨hlo, hhi⟩
  · exact ⟨c.toNat - 48, by omega, Char.toNat_inj.mp (hdecimal _ hhi hlo)⟩
  · exact ⟨c.toNat - 87, by omega, Char.toNat_inj.mp (hletter _ hhi hlo)⟩

/-- Two digits are a byte. -/
theorem exists_hexPair {c d : Char} (hc : isHexDigit c = true) (hd : isHexDigit d = true) :
    ∃ b, hexPair b = [c, d] := by
  obtain ⟨i, hi, rfl⟩ := exists_digitChar hc
  obtain ⟨j, hj, rfl⟩ := exists_digitChar hd
  refine ⟨UInt8.ofNat (16 * i + j), ?_⟩
  have hbyte : (UInt8.ofNat (16 * i + j)).toNat = 16 * i + j := by
    rw [UInt8.toNat_ofNat', Nat.mod_eq_of_lt (by omega)]
  rw [hexPair, hbyte, show (16 * i + j) / 16 = i by omega, show (16 * i + j) % 16 = j by omega]

theorem exists_bytes {n : Nat} {cs : List Char} (hlen : cs.length = 2 * n) (h : ∀ c ∈ cs, isHexDigit c = true) :
    ∃ bytes : List UInt8, bytes.length = n ∧ bytes.flatMap hexPair = cs := by
  induction n generalizing cs with
  | zero => exact ⟨[], rfl, (List.length_eq_zero_iff.mp hlen).symm⟩
  | succ n ih =>
    obtain ⟨c, d, rest, rfl⟩ : ∃ c d rest, cs = c :: d :: rest := by
      match cs, hlen with
      | c :: d :: rest, _ => exact ⟨c, d, rest, rfl⟩
    simp only [List.forall_mem_cons] at h
    obtain ⟨hc, hd, hrest⟩ := h
    simp only [List.length_cons] at hlen
    obtain ⟨b, hb⟩ := exists_hexPair hc hd
    obtain ⟨bytes, hbytes, hflat⟩ := ih (by omega) hrest
    exact ⟨b :: bytes, by rw [List.length_cons, hbytes], by rw [List.flatMap_cons, hb, hflat]; rfl⟩

theorem length_flatMap_hexPair (bytes : List UInt8) : (bytes.flatMap hexPair).length = 2 * bytes.length := by
  induction bytes with
  | nil => rfl
  | cons b bytes ih =>
    rw [List.flatMap_cons, List.length_append, ih, List.length_cons, hexPair]
    simp only [List.length_cons, List.length_nil]
    omega

theorem isHexDigit_of_mem_flatMap {bytes : List UInt8} {c : Char} (h : c ∈ bytes.flatMap hexPair) :
    isHexDigit c = true := by
  obtain ⟨b, -, hc⟩ := List.mem_flatMap.mp h
  have hb := b.toNat_lt
  rcases List.mem_pair.mp hc with rfl | rfl
  · exact isHexDigit_digitChar _ (by omega)
  · exact isHexDigit_digitChar _ (by omega)

/-- The hashes are the digests of 32 bytes, written in hexadecimal. -/
theorem isHex_iff {value : String} : (value.length = 64 ∧ value.toList.all isHexDigit = true) ↔
    ∃ digest : Vector UInt8 32, value = hexEncode digest.toList := by
  constructor
  · rintro ⟨hlen, hall⟩
    rw [← String.length_toList] at hlen
    obtain ⟨bytes, hbytes, hflat⟩ := exists_bytes (n := 32) hlen (List.all_eq_true.mp hall)
    refine ⟨⟨bytes.toArray, by simpa using hbytes⟩, ?_⟩
    rw [hexEncode, show (Vector.toList ⟨bytes.toArray, _⟩ : List UInt8) = bytes from rfl, hflat, String.ofList_toList]
  · rintro ⟨digest, rfl⟩
    rw [hexEncode, String.length_ofList, String.toList_ofList, length_flatMap_hexPair, Vector.length_toList]
    exact ⟨rfl, List.all_eq_true.mpr fun c => isHexDigit_of_mem_flatMap⟩

/-- Hash the given bytes; the hash function is a parameter. -/
def Sha256Hash.of (sha256 : List UInt8 → Vector UInt8 32) (bytes : List UInt8) : Sha256Hash :=
  ⟨hexEncode (sha256 bytes).toList, isHex_iff.mpr ⟨_, rfl⟩⟩

theorem Sha256Hash.fromHex_eq_some_iff {value : String} {hash : Sha256Hash} :
    fromHex value = some hash ↔ hash.asStr = value := by
  unfold fromHex
  split
  · constructor
    · rintro ⟨⟩
      rfl
    · rintro rfl
      rfl
  · rename_i h
    refine iff_of_false (fun h => by cases h) ?_
    rintro rfl
    exact h hash.isHex

theorem Sha256Hash.exists_fromHex_iff {value : String} :
    (∃ hash, fromHex value = some hash) ↔ ∃ digest : Vector UInt8 32, value = hexEncode digest.toList := by
  rw [← isHex_iff]
  constructor
  · rintro ⟨hash, h⟩
    rw [← fromHex_eq_some_iff.mp h]
    exact hash.isHex
  · intro h
    exact ⟨⟨value, h⟩, fromHex_eq_some_iff.mpr rfl⟩

/-! ## The check by bytes -/

/-- `b.is_ascii_digit() || (b'a'..=b'f').contains(&b)` -/
def isHexByte (b : UInt8) : Bool := 48 ≤ b && b ≤ 57 || 97 ≤ b && b ≤ 102

/-- The test of `from_hex`, on the bytes of the text. -/
def isHexBytes (value : String) : Bool :=
  let bytes := value.toList.flatMap String.utf8EncodeChar
  bytes.length = 64 && bytes.all isHexByte

theorem isHexByte_iff {b : UInt8} :
    isHexByte b = true ↔ 48 ≤ b.toNat ∧ b.toNat ≤ 57 ∨ 97 ≤ b.toNat ∧ b.toNat ≤ 102 := by
  simp only [isHexByte, UInt8.le_iff_toNat_le, Bool.or_eq_true, Bool.and_eq_true, decide_eq_true_eq]
  rfl

/-- The first byte of a character beyond ASCII. -/
theorem isHexByte_or (b k : UInt8) (hk : 128 ≤ k.toNat) : isHexByte (b ||| k) = false := by
  have hle : k.toNat ≤ (b ||| k).toNat := by
    rw [UInt8.toNat_or]
    exact Nat.right_le_or
  rw [← Bool.not_eq_true, isHexByte_iff]
  omega

theorem isHexByte_ascii {c : Char} (h : c.utf8Size = 1) : isHexByte c.val.toUInt8 = isHexDigit c := by
  have hle : c.toNat ≤ 127 := Char.utf8Size_eq_one_iff.mp h
  have hbyte : c.val.toUInt8.toNat = c.toNat := by
    rw [UInt32.toNat_toUInt8, Char.toNat_val, Nat.mod_eq_of_lt (by omega)]
  rw [Bool.eq_iff_iff, isHexByte_iff, isHexDigit_iff, hbyte]

theorem utf8Size_of_isHexDigit {c : Char} (h : isHexDigit c = true) : c.utf8Size = 1 := by
  have hle : c.toNat ≤ 127 := by
    have := isHexDigit_iff.mp h
    omega
  exact Char.utf8Size_eq_one_iff.mpr hle

/-- The bytes of a character are digits exactly when it is one. -/
theorem all_isHexByte_utf8 (c : Char) : (String.utf8EncodeChar c).all isHexByte = isHexDigit c := by
  by_cases hone : c.utf8Size = 1
  · rw [String.utf8EncodeChar_eq_singleton hone, List.all_cons, List.all_nil, Bool.and_true, isHexByte_ascii hone]
  · have hdigit : isHexDigit c = false := by
      rw [← Bool.not_eq_true]
      exact fun h => hone (utf8Size_of_isHexDigit h)
    have hsize : c.utf8Size = 2 ∨ c.utf8Size = 3 ∨ c.utf8Size = 4 := by
      have := c.utf8Size_pos
      have := c.utf8Size_le_four
      omega
    rw [hdigit]
    rcases hsize with h | h | h
    · rw [String.utf8EncodeChar_eq_cons_cons h, List.all_cons, isHexByte_or _ _ (by decide), Bool.false_and]
    · rw [String.utf8EncodeChar_eq_cons_cons_cons h, List.all_cons, isHexByte_or _ _ (by decide), Bool.false_and]
    · rw [String.utf8EncodeChar_eq_cons_cons_cons_cons h, List.all_cons, isHexByte_or _ _ (by decide), Bool.false_and]

theorem length_utf8_of_isHexDigit {cs : List Char} (h : ∀ c ∈ cs, isHexDigit c = true) :
    (cs.flatMap String.utf8EncodeChar).length = cs.length := by
  induction cs with
  | nil => rfl
  | cons c cs ih =>
    obtain ⟨hc, hcs⟩ := List.forall_mem_cons.mp h
    rw [List.flatMap_cons, List.length_append, String.length_utf8EncodeChar, utf8Size_of_isHexDigit hc, ih hcs,
      List.length_cons, Nat.add_comm]

/-- Testing bytes is testing characters. -/
theorem isHexBytes_iff {value : String} :
    isHexBytes value = true ↔ value.length = 64 ∧ value.toList.all isHexDigit = true := by
  have hall : (value.toList.flatMap String.utf8EncodeChar).all isHexByte = value.toList.all isHexDigit := by
    rw [List.all_flatMap]
    exact congrArg (value.toList.all ·) (funext all_isHexByte_utf8)
  rw [isHexBytes, Bool.and_eq_true, decide_eq_true_eq, hall]
  refine and_congr_left fun h => ?_
  rw [length_utf8_of_isHexDigit (List.all_eq_true.mp h), String.length_toList]

/-! ## Components -/

/-- `std::path::Component` -/
inductive Component
  | rootDir
  | curDir
  | parentDir
  | normal (name : String)
  deriving DecidableEq

/-- The segments without noise; `.` counts at the start only. -/
def components (path : String) : List Component :=
  (if path.toList.head? = some '/' then [.rootDir]
    else if (splitSlash path).head? = some "." then [.curDir]
    else []) ++
  ((splitSlash path).filter fun s => s ≠ "" ∧ s ≠ ".").map fun s => if s = ".." then .parentDir else .normal s

section Keys
variable {F : TextForms} {k l : BlobKind}

theorem BlobKind.splitSlash_key (k : BlobKind) : splitSlash (k.key F) = k.segments F := by
  rw [key_eq_joinSlash, splitSlash_joinSlash (by cases k <;> exact List.cons_ne_nil _ _)]
  exact fun segment h => not_mem_of_isAlphanum (fun c hc => isAlphanum_of_segments h hc) (by decide)

theorem BlobKind.ne_dots_of_segments {segment : String} (h : segment ∈ k.segments F) :
    segment ≠ "." ∧ segment ≠ ".." := by
  have hdot : '.' ∉ segment.toList := not_mem_of_isAlphanum (fun c hc => isAlphanum_of_segments h hc) (by decide)
  constructor
  · rintro rfl
    exact hdot (by decide)
  · rintro rfl
    exact hdot (by decide)

/-- A key is taken apart into names. -/
theorem BlobKind.components_key (k : BlobKind) :
    components (k.key F) = ((k.segments F).filter (· ≠ "")).map .normal := by
  have hroot : (k.key F).toList.head? ≠ some '/' := by
    cases k <;> simp [key]
  have hcur : (k.segments F).head? ≠ some "." := fun h =>
    (ne_dots_of_segments (List.mem_of_head? h)).1 rfl
  have hfilter : (k.segments F).filter (fun s => s ≠ "" ∧ s ≠ ".") = (k.segments F).filter (· ≠ "") :=
    List.filter_congr fun segment h => by simp [(ne_dots_of_segments h).1]
  rw [components, if_neg hroot, k.splitSlash_key, if_neg hcur, List.nil_append, hfilter]
  exact List.map_congr_left fun segment h => if_neg (ne_dots_of_segments (List.mem_of_mem_filter h)).2

theorem BlobKind.key_injective (h : k.key F = l.key F) : k = l := by
  have hpath : FsBlobStore.pathFor F ⟨[]⟩ k = FsBlobStore.pathFor F ⟨[]⟩ l := by
    rw [FsBlobStore.pathFor, FsBlobStore.pathFor, h]
  exact FsBlobStore.pathFor_injective hpath

end Keys

/-- **Hashes are digests in hexadecimal; keys, paths and temporary paths tell blobs apart; and all of them are below
the root.** -/
theorem keys_injective (F : TextForms) (sha256 : List UInt8 → Vector UInt8 32) :
    (∀ value, (∃ hash, Sha256Hash.fromHex value = some hash) ↔ isHexBytes value = true) ∧
    (∀ value, (∃ hash, Sha256Hash.fromHex value = some hash) ↔
      ∃ digest : Vector UInt8 32, value = hexEncode digest.toList) ∧
    (∀ value hash, Sha256Hash.fromHex value = some hash → hash.asStr = value) ∧
    (∀ hash : Sha256Hash, ∃ digest : Vector UInt8 32, hash.asStr = hexEncode digest.toList) ∧
    (∀ bytes, (Sha256Hash.of sha256 bytes).asStr = hexEncode (sha256 bytes).toList) ∧
    (∀ a b : BlobKind, a.key F = b.key F → a = b) ∧
    (∀ a : BlobKind, ∀ c ∈ components (a.key F), ∃ name, c = .normal name) ∧
    ∀ (s : FsBlobStore) (a b : BlobKind), s.root <+: s.pathFor F a ∧ s.root <+: s.tmpFor F a ∧
      s.tmpFor F a ≠ s.pathFor F b ∧ (s.tmpFor F a = s.tmpFor F b → a = b) := by
  refine ⟨fun value => ?_, fun _ => Sha256Hash.exists_fromHex_iff, fun _ _ => Sha256Hash.fromHex_eq_some_iff.mp,
    fun hash => isHex_iff.mp hash.isHex, fun _ => rfl, fun a b => BlobKind.key_injective, fun a c hc => ?_,
    fun s a b => ⟨FsBlobStore.root_prefix_pathFor, FsBlobStore.root_prefix_tmpFor, FsBlobStore.tmpFor_ne_pathFor,
      FsBlobStore.tmpFor_injective⟩⟩
  · rw [Sha256Hash.exists_fromHex_iff, isHexBytes_iff, isHex_iff]
  · rw [a.components_key] at hc
    obtain ⟨name, -, rfl⟩ := List.mem_map.mp hc
    exact ⟨name, rfl⟩

end Satunera.Store
