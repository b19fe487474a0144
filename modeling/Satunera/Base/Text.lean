import Mathlib

/-!
# Text: white space and lines

Rust's `str::trim` and `str::lines` on lists of characters.

* `isWhitespace` : the Unicode property White_Space;
* `trimChars`, `trim` : white space dropped at both ends (`trimChars_append`, `trimChars_trimChars`);
* `lines` : the lines of a text, without their `\n` or `\r\n` (`lines_append`);
* `lastNonBlank` : the last line that is not blank, trimmed (`lastNonBlank_line`, `lastNonBlank_eq_none`,
  `exists_lastLine`).
-/

namespace Satunera.Base

/-! ## White space -/

/-- The Unicode property White_Space. -/
def isWhitespace (c : Char) : Bool :=
  let n := c.toNat
  (9 ≤ n && n ≤ 13) || n == 0x20 || n == 0x85 || n == 0xA0 || n == 0x1680 || (0x2000 ≤ n && n ≤ 0x200A) ||
    n == 0x2028 || n == 0x2029 || n == 0x202F || n == 0x205F || n == 0x3000

/-- `str::trim`. -/
def trimChars (cs : List Char) : List Char := (cs.dropWhile isWhitespace).rdropWhile isWhitespace

theorem rdropWhile_append {cs ws : List Char} (h : ∀ c ∈ ws, isWhitespace c = true) :
    (cs ++ ws).rdropWhile isWhitespace = cs.rdropWhile isWhitespace := by
  induction ws using List.reverseRecOn with
  | nil => rw [List.append_nil]
  | append_singleton ws c ih =>
    rw [← List.append_assoc, List.rdropWhile_concat_pos _ _ _ (h c (by simp))]
    exact ih fun d hd => h d (by simp [hd])

theorem dropWhile_eq_nil {cs : List Char} (h : ∀ c ∈ cs, isWhitespace c = true) : cs.dropWhile isWhitespace = [] :=
  List.dropWhile_eq_nil_iff.mpr h

theorem trimChars_eq_nil_iff {cs : List Char} : trimChars cs = [] ↔ ∀ c ∈ cs, isWhitespace c = true := by
  constructor
  · intro h
    rw [trimChars, List.rdropWhile_eq_nil_iff] at h
    rw [← List.dropWhile_eq_nil_iff]
    by_contra hne
    have hhead := List.head_dropWhile_not isWhitespace hne
    rw [h _ (List.head_mem hne)] at hhead
    cases hhead
  · intro h
    rw [trimChars, dropWhile_eq_nil h]
    rfl

/-- White space after a text that is not blank is trimmed away. -/
theorem trimChars_append {cs ws : List Char} (h : ∀ c ∈ ws, isWhitespace c = true) :
    trimChars (cs ++ ws) = trimChars cs := by
  by_cases hblank : ∀ c ∈ cs, isWhitespace c = true
  · rw [trimChars_eq_nil_iff.mpr hblank, trimChars_eq_nil_iff]
    intro c hc
    exact (List.mem_append.mp hc).elim (hblank c) (h c)
  · have hne : cs.dropWhile isWhitespace ≠ [] := fun h' => hblank (List.dropWhile_eq_nil_iff.mp h')
    rw [trimChars, List.dropWhile_append, if_neg (by simpa using hne), rdropWhile_append h, trimChars]

theorem trimChars_trimChars (cs : List Char) : trimChars (trimChars cs) = trimChars cs := by
  have hdrop : (trimChars cs).dropWhile isWhitespace = trimChars cs := by
    obtain ⟨rest, hrest⟩ : trimChars cs <+: cs.dropWhile isWhitespace := List.rdropWhile_prefix ..
    cases htrim : trimChars cs with
    | nil => rfl
    | cons c l =>
      rw [htrim] at hrest
      have hc := List.head_dropWhile_not isWhitespace (l := cs) (by simp [← hrest])
      simp only [← hrest, List.cons_append, List.head_cons] at hc
      exact List.dropWhile_cons_of_neg (by simp [hc])
  rw [trimChars, hdrop]
  exact List.rdropWhile_idempotent ..

/-- `str::trim` on strings. -/
def trim (s : String) : String := String.ofList (trimChars s.toList)

@[simp] theorem toList_trim (s : String) : (trim s).toList = trimChars s.toList := String.toList_ofList

@[simp] theorem trim_trim (s : String) : trim (trim s) = trim s := by
  rw [trim, toList_trim, trimChars_trimChars, trim]

theorem trim_isEmpty_iff {s : String} : (trim s).isEmpty = true ↔ ∀ c ∈ s.toList, isWhitespace c = true := by
  rw [String.isEmpty_iff, ← String.toList_eq_nil_iff, toList_trim, trimChars_eq_nil_iff]

theorem trim_isEmpty_eq_false_iff {s : String} :
    (trim s).isEmpty = false ↔ ∃ c ∈ s.toList, isWhitespace c = false := by
  rw [← Bool.not_eq_true, trim_isEmpty_iff]
  simp

/-- A text with something visible at both ends is trimmed already. -/
theorem trim_eq_self {a b : Char} {cs : List Char} (ha : isWhitespace a = false) (hb : isWhitespace b = false) :
    trim (String.ofList (a :: (cs ++ [b]))) = String.ofList (a :: (cs ++ [b])) := by
  rw [trim, String.toList_ofList, trimChars, List.dropWhile_cons_of_neg (by simp [ha]), ← List.cons_append,
    List.rdropWhile_concat_neg _ _ _ (by simp [hb])]

/-! ## Lines -/

/-- One trailing carriage return dropped. -/
def stripCr (line : List Char) : List Char := if line.getLast? = some '\r' then line.dropLast else line

/-- The lines of a text whose first line starts with `acc`. -/
def linesFrom (acc : List Char) : List Char → List (List Char)
  | [] => if acc = [] then [] else [acc]
  | c :: cs => if c = '\n' then stripCr acc :: linesFrom [] cs else linesFrom (acc ++ [c]) cs

/-- `str::lines`. -/
def lines (cs : List Char) : List (List Char) := linesFrom [] cs

theorem linesFrom_append (acc a b : List Char) :
    linesFrom acc (a ++ '\n' :: b) = linesFrom acc (a ++ ['\n']) ++ lines b := by
  induction a generalizing acc with
  | nil => simp [linesFrom, lines]
  | cons c a ih =>
    simp only [List.cons_append, linesFrom, ih]
    split <;> rfl

/-- Lines before a newline are read off without looking past it. -/
theorem lines_append (a b : List Char) : lines (a ++ '\n' :: b) = lines (a ++ ['\n']) ++ lines b :=
  linesFrom_append [] a b

theorem linesFrom_of_not_mem {a : List Char} (h : '\n' ∉ a) (acc : List Char) :
    linesFrom acc a = if acc ++ a = [] then [] else [acc ++ a] := by
  induction a generalizing acc with
  | nil => simp [linesFrom]
  | cons c a ih =>
    obtain ⟨hc, ha⟩ := not_or.mp (List.mem_cons.not.mp h)
    rw [linesFrom, if_neg (Ne.symm hc), ih ha, List.append_assoc, List.singleton_append]

theorem linesFrom_newline {a : List Char} (h : '\n' ∉ a) (acc b : List Char) :
    linesFrom acc (a ++ '\n' :: b) = stripCr (acc ++ a) :: lines b := by
  induction a generalizing acc with
  | nil => simp [linesFrom, lines]
  | cons c a ih =>
    obtain ⟨hc, ha⟩ := not_or.mp (List.mem_cons.not.mp h)
    rw [List.cons_append, linesFrom, if_neg (Ne.symm hc), ih ha, List.append_assoc, List.singleton_append]

theorem stripCr_subset {line : List Char} {c : Char} (h : c ∈ stripCr line) : c ∈ line := by
  unfold stripCr at h
  split at h
  · exact List.mem_of_mem_dropLast h
  · exact h

theorem mem_linesFrom {acc cs line : List Char} (h : line ∈ linesFrom acc cs) {c : Char} (hc : c ∈ line) :
    c ∈ acc ++ cs := by
  induction cs generalizing acc with
  | nil =>
    simp only [linesFrom] at h
    split at h
    · cases h
    · rw [List.mem_singleton.mp h] at hc
      simpa using hc
  | cons d cs ih =>
    simp only [linesFrom] at h
    split at h
    · rcases List.mem_cons.mp h with rfl | h
      · exact List.mem_append_left _ (stripCr_subset hc)
      · exact List.mem_append_right _ (List.mem_cons_of_mem _ (by simpa using ih h))
    · simpa using ih h

/-- A trailing carriage return is white space, so trimming does not see it. -/
theorem trimChars_stripCr (line : List Char) : trimChars (stripCr line) = trimChars line := by
  unfold stripCr
  split
  · rename_i h
    obtain ⟨pre, rfl⟩ := List.getLast?_eq_some_iff.mp h
    rw [List.dropLast_concat, trimChars_append]
    intro c hc
    rw [List.mem_singleton.mp hc]
    rfl
  · rfl

/-! ## The last line that is not blank -/

/-- The last line with something on it, trimmed. -/
def lastNonBlank (cs : List Char) : Option (List Char) := ((lines cs).reverse.map trimChars).find? fun l => l ≠ []

/-- What stands after a newline decides, unless it is blank. -/
theorem lastNonBlank_append (a b : List Char) :
    lastNonBlank (a ++ '\n' :: b) = (lastNonBlank b).or (lastNonBlank (a ++ ['\n'])) := by
  rw [lastNonBlank, lines_append, List.reverse_append, List.map_append, List.find?_append, lastNonBlank, lastNonBlank]

theorem lastNonBlank_eq_none {cs : List Char} (h : ∀ c ∈ cs, isWhitespace c = true) : lastNonBlank cs = none := by
  rw [lastNonBlank, List.find?_eq_none]
  intro l hl
  obtain ⟨line, hline, rfl⟩ := List.mem_map.mp hl
  have : trimChars line = [] := trimChars_eq_nil_iff.mpr fun c hc => by
    simpa using h c (by simpa using mem_linesFrom (List.mem_reverse.mp hline) hc)
  simp [this]

/-- A line that is not blank, with white space after it. -/
theorem lastNonBlank_of_line {v ws : List Char} (hv : '\n' ∉ v) (hne : ∃ c ∈ v, isWhitespace c = false)
    (hws : ∀ c ∈ ws, isWhitespace c = true) : lastNonBlank (v ++ ws) = some (trimChars v) := by
  have htrim : trimChars v ≠ [] := by
    rw [ne_eq, trimChars_eq_nil_iff]
    obtain ⟨c, hc, hcw⟩ := hne
    exact fun h => by rw [h c hc] at hcw; cases hcw
  have hvne : v ≠ [] := by
    rintro rfl
    exact htrim rfl
  by_cases hmem : '\n' ∈ ws
  · -- The line ends at the first newline of `ws`; what follows is blank.
    obtain ⟨ws₁, ws₂, rfl, hws₁⟩ := List.eq_append_cons_of_mem hmem
    have hline : lines (v ++ (ws₁ ++ '\n' :: ws₂)) = stripCr (v ++ ws₁) :: lines ws₂ := by
      rw [lines, ← List.append_assoc, linesFrom_newline (by simp [hv, hws₁]), List.nil_append]
    have hfirst : trimChars (stripCr (v ++ ws₁)) = trimChars v := by
      rw [trimChars_stripCr, trimChars_append fun c hc => hws c (by simp [hc])]
    have hrest := lastNonBlank_eq_none fun c (hc : c ∈ ws₂) => hws c (by simp [hc])
    rw [lastNonBlank] at hrest ⊢
    rw [hline, List.reverse_cons, List.map_append, List.find?_append, hrest]
    simp [hfirst, htrim]
  · have hline : lines (v ++ ws) = [v ++ ws] := by
      rw [lines, linesFrom_of_not_mem (by simp [hv, hmem])]
      simp [hvne]
    rw [lastNonBlank, hline]
    simp [trimChars_append hws, htrim]

/-- A line that is not blank, with anything before it and white space after it. -/
theorem lastNonBlank_line {before v ws : List Char} (hbefore : before = [] ∨ ∃ a, before = a ++ ['\n'])
    (hv : '\n' ∉ v) (hne : ∃ c ∈ v, isWhitespace c = false) (hws : ∀ c ∈ ws, isWhitespace c = true) :
    lastNonBlank (before ++ v ++ ws) = some (trimChars v) := by
  rcases hbefore with rfl | ⟨a, rfl⟩
  · exact lastNonBlank_of_line hv hne hws
  · rw [List.append_assoc, List.append_assoc, List.singleton_append, lastNonBlank_append,
      lastNonBlank_of_line hv hne hws, Option.some_or]

/-- Every text is some whole lines and one more. -/
theorem exists_lineStart (cs : List Char) :
    ∃ before v, cs = before ++ v ∧ (before = [] ∨ ∃ a, before = a ++ ['\n']) ∧ '\n' ∉ v := by
  induction cs using List.reverseRecOn with
  | nil => exact ⟨[], [], rfl, Or.inl rfl, List.not_mem_nil⟩
  | append_singleton cs c ih =>
    by_cases hc : c = '\n'
    · exact ⟨cs ++ ['\n'], [], by rw [hc, List.append_nil], Or.inr ⟨cs, rfl⟩, List.not_mem_nil⟩
    · obtain ⟨before, v, rfl, hbefore, hv⟩ := ih
      exact ⟨before, v ++ [c], by rw [List.append_assoc], hbefore, by simp [hv, Ne.symm hc]⟩

/-- Every text that is not blank has a last line that is not blank. -/
theorem exists_lastLine {cs : List Char} (h : ∃ c ∈ cs, isWhitespace c = false) :
    ∃ before v ws, cs = before ++ v ++ ws ∧ (before = [] ∨ ∃ a, before = a ++ ['\n']) ∧ '\n' ∉ v ∧
      (∃ c ∈ v, isWhitespace c = false) ∧ ∀ c ∈ ws, isWhitespace c = true := by
  induction cs using List.reverseRecOn with
  | nil =>
    obtain ⟨c, hc, -⟩ := h
    cases hc
  | append_singleton cs c ih =>
    cases hc : isWhitespace c with
    | true =>
      obtain ⟨d, hd, hdw⟩ := h
      have hmem : d ∈ cs := by
        rcases List.mem_append.mp hd with hd | hd
        · exact hd
        · rw [List.mem_singleton.mp hd, hc] at hdw
          cases hdw
      obtain ⟨before, v, ws, rfl, hbefore, hv, hne, hws⟩ := ih ⟨d, hmem, hdw⟩
      refine ⟨before, v, ws ++ [c], by rw [List.append_assoc], hbefore, hv, hne, fun d hd => ?_⟩
      rcases List.mem_append.mp hd with hd | hd
      · exact hws d hd
      · rw [List.mem_singleton.mp hd, hc]
    | false =>
      obtain ⟨before, v, rfl, hbefore, hv⟩ := exists_lineStart cs
      have hnl : '\n' ≠ c := by
        rintro rfl
        cases hc
      exact ⟨before, v ++ [c], [], by simp, hbefore, by simp [hv, hnl], ⟨c, by simp, hc⟩, nofun⟩

end Satunera.Base
