import Satunera.Contracts.Load

/-!
# What an author reads

The text of an error starts with the file or the path it is about. The text of a report has one line for each error.

* `SourceError.display`, `SchemaViolation.display`, `ContractError.display` : the texts;
* `textLines_schema` : the text of a report, line by line;
* `load_told` : what is told when a manifest does not load.
-/

namespace Satunera.Contracts

open Satunera.Base

/-! ## Texts -/

def ContractFile.asStr : ContractFile → String
  | config => "config.json"
  | problem => "problem.json"

def SourceError.path : SourceError → String
  | notFound path | isDirectory path | escapes path | io path _ => path

def SchemaViolation.display (v : SchemaViolation) : String :=
  if v.pointer.isEmpty then v.message else v.pointer ++ ": " ++ v.message

def plural (n : Nat) : String := if n = 1 then "1 problem" else toString n ++ " problems"

def indent (violations : List SchemaViolation) : String :=
  "\n".intercalate (violations.map fun v => "  " ++ v.display)

section Texts
variable (ioText : IoKind → String) (deText : DeError → String)

def SourceError.display : SourceError → String
  | notFound path => path ++ ": no such file in the problem directory"
  | isDirectory path => path ++ ": is a directory, not a file"
  | escapes path => path ++ ": path escapes the problem directory. " ++
      "Absolute paths, `..` segments, and symlinks pointing outside the directory are refused."
  | io path cause => path ++ ": could not be read: " ++ ioText cause

def ContractError.display : ContractError → String
  | json file cause => file.asStr ++ ": not valid JSON: " ++ cause
  | schema file violations => file.asStr ++ ": " ++ plural violations.length ++ "\n" ++ indent violations
  | model file cause => file.asStr ++ ": passed schema validation but could not be loaded: " ++ deText cause ++
      "\nThis is a judge bug, not a problem with your file. Please report it."
  | source e => e.display ioText

end Texts

namespace ContractError

/-- The file the error is about, when it is about one. -/
def file : ContractError → Option ContractFile
  | json file _ | schema file _ | model file _ => some file
  | source _ => none

def violations : ContractError → List SchemaViolation
  | schema _ violations => violations
  | _ => []

end ContractError

/-! ## Lines -/

/-- The lines of a text, as they are broken. -/
def textLines (s : String) : List String := (s.toList.splitOn '\n').map String.ofList

theorem textLines_intercalate {ls : List String} (hne : ls ≠ []) (h : ∀ l ∈ ls, '\n' ∉ l.toList) :
    textLines ("\n".intercalate ls) = ls := by
  rw [textLines, String.toList_intercalate]
  have hsplit : (['\n'].intercalate (ls.map String.toList)).splitOn '\n' = ls.map String.toList :=
    List.splitOn_intercalate _ (by simpa using h) (by simpa using hne)
  rw [show "\n".toList = ['\n'] from rfl, hsplit, List.map_map]
  exact (List.map_congr_left fun s _ => String.ofList_toList).trans (List.map_id _)

theorem newline_not_mem_append {s t : String} (hs : '\n' ∉ s.toList) (ht : '\n' ∉ t.toList) :
    '\n' ∉ (s ++ t).toList := by
  rw [String.toList_append, List.mem_append]
  exact not_or.mpr ⟨hs, ht⟩

theorem newline_not_mem_plural (n : Nat) : '\n' ∉ (plural n).toList := by
  unfold plural
  split
  · decide
  · refine newline_not_mem_append ?_ (by decide)
    rw [Nat.toString_eq_repr, Nat.toList_repr]
    intro h
    exact absurd (Nat.isDigit_of_mem_toDigits (by decide) (by decide) h) (by decide)

theorem newline_not_mem_display {v : SchemaViolation} (hp : '\n' ∉ v.pointer.toList) (hm : '\n' ∉ v.message.toList) :
    '\n' ∉ v.display.toList := by
  unfold SchemaViolation.display
  split
  · exact hm
  · exact newline_not_mem_append (newline_not_mem_append hp (by decide)) hm

/-- The line of an error in a report. -/
def SchemaViolation.line (v : SchemaViolation) : String := "  " ++ v.display

/-- The first line of a report. -/
def reportHeader (file : ContractFile) (n : Nat) : String := file.asStr ++ ": " ++ plural n

/-- Where no pointer and no message is broken into lines, a report has its header and a line for each error. -/
theorem textLines_schema {ioText : IoKind → String} {deText : DeError → String} (file : ContractFile)
    {violations : List SchemaViolation} (hne : violations ≠ [])
    (h : ∀ v ∈ violations, '\n' ∉ v.pointer.toList ∧ '\n' ∉ v.message.toList) :
    textLines ((ContractError.schema file violations).display ioText deText) =
      reportHeader file violations.length :: violations.map SchemaViolation.line := by
  have hlines : violations.map SchemaViolation.line ≠ [] := by simpa using hne
  have htext : (ContractError.schema file violations).display ioText deText =
      "\n".intercalate (reportHeader file violations.length :: violations.map SchemaViolation.line) := by
    rw [String.intercalate_cons_of_ne_nil hlines]
    rfl
  have hfile : '\n' ∉ file.asStr.toList := by cases file <;> decide
  rw [htext]
  refine textLines_intercalate (List.cons_ne_nil _ _) fun l hl => ?_
  rcases List.mem_cons.mp hl with rfl | hl
  · exact newline_not_mem_append (newline_not_mem_append hfile (by decide)) (newline_not_mem_plural _)
  · obtain ⟨v, hv, rfl⟩ := List.mem_map.mp hl
    exact newline_not_mem_append (by decide) (newline_not_mem_display (h v hv).1 (h v hv).2)

theorem prefix_append (s t : String) : s.toList <+: (s ++ t).toList := by
  rw [String.toList_append]
  exact List.prefix_append _ _

theorem prefix_append_trans {p s : String} (h : p.toList <+: s.toList) (t : String) :
    p.toList <+: (s ++ t).toList := h.trans (prefix_append s t)

/-- The text of an error starts with the file it is about. -/
theorem starts_with_file {ioText : IoKind → String} {deText : DeError → String} {e : ContractError}
    {file : ContractFile} (h : e.file = some file) : file.asStr.toList <+: (e.display ioText deText).toList := by
  cases e with
  | json f cause =>
    cases h
    exact prefix_append_trans (prefix_append _ _) _
  | schema f violations =>
    cases h
    iterate 3 apply prefix_append_trans
    exact prefix_append _ _
  | model f cause =>
    cases h
    iterate 2 apply prefix_append_trans
    exact prefix_append _ _
  | source e => cases h

/-! ## A manifest that does not load -/

section Load
variable {α : Type} {fromSlice : List UInt8 → Except String Json} {v : Validator} {file : ContractFile}
  {fromValue : Json → Except DeError α} {bytes : List UInt8} {e : ContractError}

theorem file_of_load (h : load fromSlice v file fromValue bytes = .error e) : e.file = some file := by
  unfold load at h
  split at h
  · cases h
    rfl
  · split at h
    · split at h <;> cases h
      rfl
    · cases h
      rfl

/-- An author is told the file, and of its schema every error once: by pointer and then by message, a line for each,
under their number. -/
theorem load_told (ioText : IoKind → String) (deText : DeError → String)
    (h : load fromSlice v file fromValue bytes = .error e) :
    e.file = some file ∧ file.asStr.toList <+: (e.display ioText deText).toList ∧
      ∀ document, fromSlice bytes = .ok document → v.iterErrors (schemaFor file) document ≠ [] →
        e.violations.Pairwise SchemaViolation.Before ∧
        (∀ x, x ∈ e.violations ↔ x ∈ v.iterErrors (schemaFor file) document) ∧
        ((∀ x ∈ v.iterErrors (schemaFor file) document, '\n' ∉ x.pointer.toList ∧ '\n' ∉ x.message.toList) →
          textLines (e.display ioText deText) =
            reportHeader file e.violations.length :: e.violations.map SchemaViolation.line) := by
  refine ⟨file_of_load h, starts_with_file (file_of_load h), fun document hd hne => ?_⟩
  have hreport : load fromSlice v file fromValue bytes =
      .error (.schema file (report (v.iterErrors (schemaFor file) document))) :=
    load_eq_schema_iff.mpr ⟨document, hd, hne, rfl⟩
  obtain rfl := Except.error.inj (h.symm.trans hreport)
  refine ⟨pairwise_report _, fun x => mem_report, fun hlines => textLines_schema file ?_ ?_⟩
  · show report (v.iterErrors (schemaFor file) document) ≠ []
    obtain ⟨x, hx⟩ := List.exists_mem_of_ne_nil _ hne
    exact List.ne_nil_of_mem (mem_report.mpr hx)
  · exact fun x hx => hlines x (mem_report.mp hx)

end Load

/-- `{"difficulty": "brutal", "title": ""}` -/
def brokenManifest : Json := .obj [("difficulty", .str "brutal"), ("title", .str "")]

/-- A validator that finds three things wrong with a document, in no order and one of them twice. -/
def threeErrors : Validator where
  iterErrors s d := if s.valid d then [] else [⟨"/title", "\"\" is shorter than 1 character"⟩,
    ⟨"", "\"fixture\" is a required property"⟩, ⟨"/title", "\"\" is shorter than 1 character"⟩,
    ⟨"/difficulty", "\"brutal\" is not one of the levels"⟩]
  iterErrors_eq_nil_iff s d := by cases s.valid d <;> simp

theorem load_told_broken : ∃ e,
    load (fun _ => .ok brokenManifest) threeErrors .problem Problem.fromJson [] = .error e ∧
      textLines (e.display (fun _ => "") fun _ => "") = [
        "problem.json: 3 problems",
        "  \"fixture\" is a required property",
        "  /difficulty: \"brutal\" is not one of the levels",
        "  /title: \"\" is shorter than 1 character"] := by
  have herrors : report (threeErrors.iterErrors problemSchema brokenManifest) = [
      ⟨"", "\"fixture\" is a required property"⟩, ⟨"/difficulty", "\"brutal\" is not one of the levels"⟩,
      ⟨"/title", "\"\" is shorter than 1 character"⟩] := by
    have hinvalid : problemSchema.valid brokenManifest = false := by decide
    refine report_eq_of_pairwise (by decide) fun e => ?_
    simp only [threeErrors, hinvalid, Bool.false_eq_true, if_false, List.mem_cons, List.not_mem_nil, or_false]
    tauto
  have hload : load (fun _ => .ok brokenManifest) threeErrors .problem Problem.fromJson [] =
      .error (.schema .problem _) :=
    load_eq_schema_iff.mpr ⟨brokenManifest, rfl, by decide, herrors.symm⟩
  obtain ⟨-, -, htold⟩ := load_told (fun _ => "") (fun _ => "") hload
  refine ⟨_, hload, ((htold brokenManifest rfl (by decide)).2.2 (by decide)).trans ?_⟩
  rfl

end Satunera.Contracts
