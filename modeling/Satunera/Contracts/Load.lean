import Satunera.Base.Sorting
import Satunera.Contracts.Config
import Satunera.Contracts.Source

/-!
# Loading a manifest

A manifest is validated against its schema and then deserialized.

* `Validator` : the schema validator, of which only the errors are seen;
* `collect` : its errors as the author reads them (`collect_eq_nil_iff`, `report_exact`);
* `load`, `loadProblem`, `loadConfig` : the two steps (`load_eq_mapError_iff`);
* `load_never_model_iff` : when the types take what the schemas let through;
* `load_inverts_toJson` : loading inverts serializing on the well-formed values.
-/

namespace Satunera.Contracts

open Satunera.Base

/-! ## Errors -/

/-- Which file a diagnostic is about. -/
inductive ContractFile
  | config
  | problem
  deriving DecidableEq

/-- One schema rule the document broke. -/
structure SchemaViolation where
  /-- JSON Pointer to the failing value, empty for the root. -/
  pointer : String
  message : String
  deriving DecidableEq

inductive ContractError
  | json (file : ContractFile) (source : String)
  | schema (file : ContractFile) (violations : List SchemaViolation)
  /-- The document passed the schema but the typed model rejected it. -/
  | model (file : ContractFile) (source : DeError)
  | source (e : SourceError)
  deriving DecidableEq

/-! ## Validation -/

/-- A validator reports an error exactly when the document breaks the schema. -/
structure Validator where
  iterErrors : Schema → Json → List SchemaViolation
  iterErrors_eq_nil_iff : ∀ s d, iterErrors s d = [] ↔ s.valid d = true

/-- By pointer, then by message. -/
def SchemaViolation.le (a b : SchemaViolation) : Bool :=
  a.pointer < b.pointer || a.pointer = b.pointer && a.message ≤ b.message

/-- Every violation once, in order. -/
def collect (v : Validator) (s : Schema) (document : Json) : List SchemaViolation :=
  ((v.iterErrors s document).mergeSort SchemaViolation.le).destutter (· ≠ ·)

theorem collect_eq_nil_iff {v : Validator} {s : Schema} {document : Json} :
    collect v s document = [] ↔ s.valid document = true := by
  rw [collect, List.destutter_eq_nil, ← v.iterErrors_eq_nil_iff, ← List.length_eq_zero_iff, List.length_mergeSort,
    List.length_eq_zero_iff]

/-! ## Reports -/

/-- What `collect` makes of the errors of a validator. -/
def report (errors : List SchemaViolation) : List SchemaViolation := sortDedup SchemaViolation.le errors

theorem collect_eq_report (v : Validator) (s : Schema) (document : Json) :
    collect v s document = report (v.iterErrors s document) := rfl

namespace SchemaViolation

/-- All that is compared. -/
def key (e : SchemaViolation) : String ×ₗ String := toLex (e.pointer, e.message)

theorem key_injective : Function.Injective key := by
  rintro ⟨p, m⟩ ⟨q, n⟩ h
  cases toLex.injective h
  rfl

theorem le_iff (a b : SchemaViolation) : a.le b = true ↔ a.key ≤ b.key := by
  rw [key, key, Prod.Lex.toLex_le_toLex]
  simp [SchemaViolation.le]

/-- Strictly before, by pointer and then by message. -/
def Before (a b : SchemaViolation) : Prop := a.pointer < b.pointer ∨ a.pointer = b.pointer ∧ a.message < b.message

instance (a b : SchemaViolation) : Decidable (a.Before b) := inferInstanceAs (Decidable (_ ∨ _))

theorem before_iff (a b : SchemaViolation) : a.Before b ↔ a.key < b.key := by
  rw [key, key, Prod.Lex.toLex_lt_toLex]
  rfl

instance : Std.Irrefl Before := ⟨fun a h => lt_irrefl _ ((before_iff a a).mp h)⟩

instance : Std.Antisymm Before :=
  ⟨fun a b h h' => absurd (((before_iff a b).mp h).trans ((before_iff b a).mp h')) (lt_irrefl _)⟩

end SchemaViolation

theorem mem_report {errors : List SchemaViolation} {e : SchemaViolation} : e ∈ report errors ↔ e ∈ errors :=
  mem_sortDedup

theorem pairwise_report (errors : List SchemaViolation) : (report errors).Pairwise SchemaViolation.Before :=
  (pairwise_sortDedup SchemaViolation.le_iff SchemaViolation.key_injective errors).imp
    fun {a b} h => (SchemaViolation.before_iff a b).mpr h

/-- A list in order is the report of its errors. -/
theorem report_eq_of_pairwise {violations errors : List SchemaViolation}
    (h : violations.Pairwise SchemaViolation.Before) (hmem : ∀ e, e ∈ violations ↔ e ∈ errors) :
    report errors = violations := (pairwise_report errors).eq_of_mem_iff h fun e => mem_report.trans (hmem e).symm

theorem report_eq_of_mem_iff {errors errors' : List SchemaViolation} (h : ∀ e, e ∈ errors ↔ e ∈ errors') :
    report errors = report errors' :=
  sortDedup_eq_of_mem_iff SchemaViolation.le_iff SchemaViolation.key_injective h

def schemaFor : ContractFile → Schema
  | .config => configSchema
  | .problem => problemSchema

def validate (v : Validator) (file : ContractFile) (document : Json) : List SchemaViolation :=
  collect v (schemaFor file) document

/-! ## Loading -/

section Load
variable {α : Type} (fromSlice : List UInt8 → Except String Json) (v : Validator)

/-- Parse, validate, deserialize. -/
def load (file : ContractFile) (fromValue : Json → Except DeError α) (bytes : List UInt8) : Except ContractError α :=
  match fromSlice bytes with
  | .error e => .error (.json file e)
  | .ok document =>
    match validate v file document with
    | [] =>
      match fromValue document with
      | .error e => .error (.model file e)
      | .ok a => .ok a
    | violations => .error (.schema file violations)

def loadProblem (bytes : List UInt8) : Except ContractError Problem := load fromSlice v .problem Problem.fromJson bytes

def loadConfig (bytes : List UInt8) : Except ContractError Config := load fromSlice v .config Config.fromJson bytes

variable {fromSlice v} {file : ContractFile} {fromValue : Json → Except DeError α} {bytes : List UInt8} {d : Json}

theorem mapError_model_injective {r r' : Except DeError α}
    (h : r.mapError (ContractError.model file) = r'.mapError (.model file)) : r = r' := by
  cases r <;> cases r' <;> cases h <;> rfl

theorem load_of_valid (hd : fromSlice bytes = .ok d) (hv : (schemaFor file).valid d = true) :
    load fromSlice v file fromValue bytes = (fromValue d).mapError (.model file) := by
  rw [load, hd]
  simp only [validate, collect_eq_nil_iff.mpr hv]
  cases fromValue d <;> rfl

theorem load_of_invalid (v : Validator) (fromValue : Json → Except DeError α) (hd : fromSlice bytes = .ok d)
    (hv : (schemaFor file).valid d = false) :
    ∃ violations, load fromSlice v file fromValue bytes = .error (.schema file violations) := by
  rw [load, hd]
  simp only [validate]
  cases hc : collect v (schemaFor file) d with
  | nil =>
    rw [collect_eq_nil_iff, hv] at hc
    cases hc
  | cons x xs => exact ⟨x :: xs, rfl⟩

/-- Past the schema, loading is deserializing. -/
theorem load_eq_mapError_iff {r : Except DeError α} :
    load fromSlice v file fromValue bytes = r.mapError (.model file) ↔
      ∃ d, fromSlice bytes = .ok d ∧ (schemaFor file).valid d = true ∧ fromValue d = r := by
  constructor
  · intro h
    cases hd : fromSlice bytes with
    | error e =>
      rw [load, hd] at h
      cases r <;> cases h
    | ok d =>
      cases hv : (schemaFor file).valid d with
      | true =>
        rw [load_of_valid hd hv] at h
        exact ⟨d, rfl, hv, mapError_model_injective h⟩
      | false =>
        obtain ⟨violations, he⟩ := load_of_invalid v fromValue hd hv
        rw [he] at h
        cases r <;> cases h
  · rintro ⟨d, hd, hv, rfl⟩
    exact load_of_valid hd hv

/-- What loads is what the schema accepts and the type reads. -/
theorem load_eq_ok_iff {a : α} : load fromSlice v file fromValue bytes = .ok a ↔
    ∃ d, fromSlice bytes = .ok d ∧ (schemaFor file).valid d = true ∧ fromValue d = .ok a :=
  load_eq_mapError_iff (r := .ok a)

/-- The types disagree with the schema on a document that it accepts and they refuse. -/
theorem load_eq_model_iff {e : DeError} : load fromSlice v file fromValue bytes = .error (.model file e) ↔
    ∃ d, fromSlice bytes = .ok d ∧ (schemaFor file).valid d = true ∧ fromValue d = .error e :=
  load_eq_mapError_iff (r := .error e)

variable {toJson : α → Json} {wf : α → Prop} {readable : Json → Prop}

theorem load_ne_model_iff (file : ContractFile) (h : Fits (schemaFor file) fromValue toJson wf readable) :
    (∀ e, load fromSlice v file fromValue bytes ≠ .error (.model file e)) ↔
      ∀ d, fromSlice bytes = .ok d → (schemaFor file).valid d = true → readable d := by
  simp only [ne_eq, load_eq_model_iff]
  constructor
  · intro hne d hd hv
    rw [← h.de_iff d hv]
    cases hf : fromValue d with
    | ok a => exact ⟨a, rfl⟩
    | error e => exact absurd ⟨d, hd, hv, hf⟩ (hne e)
  · rintro hall e ⟨d, hd, hv, he⟩
    obtain ⟨a, ha⟩ := (h.de_iff d hv).mpr (hall d hd hv)
    rw [he] at ha
    cases ha

theorem load_toJson (file : ContractFile) (h : Fits (schemaFor file) fromValue toJson wf readable) {a : α}
    (ha : fromSlice bytes = .ok (toJson a)) :
    (wf a → load fromSlice v file fromValue bytes = .ok a) ∧
      (¬ wf a → ∃ violations, load fromSlice v file fromValue bytes = .error (.schema file violations)) := by
  refine ⟨fun hwf => load_eq_ok_iff.mpr ⟨_, ha, (h.valid_ser a).mpr hwf, h.de_ser a⟩, fun hwf => ?_⟩
  apply load_of_invalid v fromValue ha
  rw [Bool.eq_false_iff, ne_eq, h.valid_ser]
  exact hwf

theorem wf_of_load (file : ContractFile) (h : Fits (schemaFor file) fromValue toJson wf readable) {a : α}
    (ha : load fromSlice v file fromValue bytes = .ok a) : wf a ∧ (schemaFor file).valid (toJson a) = true := by
  obtain ⟨d, -, hv, hd⟩ := load_eq_ok_iff.mp ha
  have hwf := h.wf_of_de d a hv hd
  exact ⟨hwf, (h.valid_ser a).mpr hwf⟩

end Load

/-! ## The report of a load -/

theorem collect_eq_nil_iff_iterErrors {v : Validator} {s : Schema} {document : Json} :
    collect v s document = [] ↔ v.iterErrors s document = [] :=
  collect_eq_nil_iff.trans (v.iterErrors_eq_nil_iff s document).symm

/-- Loading stops at the schema with the report of the errors, when there are any. -/
theorem load_eq_schema_iff {α : Type} {fromSlice : List UInt8 → Except String Json} {v : Validator}
    {file : ContractFile} {fromValue : Json → Except DeError α} {bytes : List UInt8}
    {violations : List SchemaViolation} :
    load fromSlice v file fromValue bytes = .error (.schema file violations) ↔ ∃ document,
      fromSlice bytes = .ok document ∧ v.iterErrors (schemaFor file) document ≠ [] ∧
        violations = report (v.iterErrors (schemaFor file) document) := by
  unfold load validate
  cases hd : fromSlice bytes with
  | error e => simp
  | ok document =>
    simp only [Except.ok.injEq, exists_eq_left', ne_eq, ← collect_eq_nil_iff_iterErrors, ← collect_eq_report]
    cases collect v (schemaFor file) document with
    | nil =>
      simp only [not_true_eq_false, false_and, iff_false]
      cases fromValue document <;> simp
    | cons e es => simp [eq_comm]

/-- **The report lists every error once, in order, whatever the order and the repetitions in which the validator found
them; and loading reports when there is one.** -/
theorem report_exact :
    (∀ errors errors' : List SchemaViolation, (∀ e, e ∈ errors ↔ e ∈ errors') → report errors = report errors') ∧
    (∀ errors, (report errors).Pairwise SchemaViolation.Before ∧
      ∀ e, (report errors).count e = if e ∈ errors then 1 else 0) ∧
    (∀ v s document, collect v s document = report (v.iterErrors s document)) ∧
    ∀ {α : Type} fromSlice v file (fromValue : Json → Except DeError α) bytes,
      (∃ violations, load fromSlice v file fromValue bytes = .error (.schema file violations)) ↔
        ∃ document, fromSlice bytes = .ok document ∧ v.iterErrors (schemaFor file) document ≠ [] := by
  refine ⟨fun _ _ => report_eq_of_mem_iff, fun errors => ⟨pairwise_report errors, fun e => ?_⟩, collect_eq_report,
    fun fromSlice v file fromValue bytes => ?_⟩
  · have hnodup : (report errors).Nodup := (pairwise_report errors).imp fun {a b} h heq => by
      rw [SchemaViolation.before_iff, heq] at h
      exact lt_irrefl _ h
    rw [hnodup.count]
    simp only [mem_report]
  · simp only [load_eq_schema_iff]
    constructor
    · rintro ⟨_, document, hd, hne, -⟩
      exact ⟨document, hd, hne⟩
    · rintro ⟨document, hd, hne⟩
      exact ⟨_, document, hd, hne, rfl⟩

/-! ## Schema and types -/

/-- **The types take exactly those documents of the schemas whose integers are written as integers.** -/
theorem load_never_model_iff (fromSlice : List UInt8 → Except String Json) (v : Validator) :
    ((∀ d, problemSchema.valid d = true → ((∃ p, Problem.fromJson d = .ok p) ↔ Problem.IntegerTokens d)) ∧
      ∀ d, configSchema.valid d = true → ((∃ c, Config.fromJson d = .ok c) ↔ Config.IntegerTokens d)) ∧
    (∀ bytes, (∀ e, loadProblem fromSlice v bytes ≠ .error (.model .problem e)) ↔
      ∀ d, fromSlice bytes = .ok d → problemSchema.valid d = true → Problem.IntegerTokens d) ∧
    ∀ bytes, (∀ e, loadConfig fromSlice v bytes ≠ .error (.model .config e)) ↔
      ∀ d, fromSlice bytes = .ok d → configSchema.valid d = true → Config.IntegerTokens d :=
  ⟨⟨Problem.fits.de_iff, Config.fits.de_iff⟩, fun _ => load_ne_model_iff .problem Problem.fits,
    fun _ => load_ne_model_iff .config Config.fits⟩

/-- A validator that reports one error for the whole document. -/
def Validator.wholeDocument : Validator where
  iterErrors s d := if s.valid d then [] else [⟨"", "does not satisfy the schema"⟩]
  iterErrors_eq_nil_iff s d := by cases s.valid d <;> simp

/-- `{"schema_version": 1.0, ...}` -/
def floatVersion : Json :=
  .obj [
    ("category", .str "psbt"),
    ("difficulty", .str "easy"),
    ("fixture", .str "funded"),
    ("id", .str "week-1"),
    ("languages", .arr [.str "rust"]),
    ("schema_version", .num (.float 1)),
    ("title", .str "Spend an output")]

def floatVersionText : List UInt8 :=
  ("\x7b\"schema_version\": 1.0, \"id\": \"week-1\", \"title\": \"Spend an output\", \"category\": \"psbt\", " ++
    "\"difficulty\": \"easy\", \"languages\": [\"rust\"], \"fixture\": \"funded\"\x7d").toUTF8.toList

/-- To the schema `1.0` is the version 1; the types refuse it. -/
theorem loadProblem_floatVersion :
    problemSchema.valid floatVersion = true ∧ Problem.fromJson floatVersion = .error (.invalidType "u32") ∧
      loadProblem (fun bytes => if bytes = floatVersionText then .ok floatVersion else .error "not valid JSON")
        .wholeDocument floatVersionText = .error (.model .problem (.invalidType "u32")) := by
  have hvalid : problemSchema.valid floatVersion = true := by decide
  exact ⟨hvalid, rfl, load_eq_model_iff.mpr ⟨floatVersion, if_pos rfl, hvalid, rfl⟩⟩

/-! ## Loading and serializing -/

/-- **Loading inverts serializing on the well-formed values, refuses the others by the schema, and returns no
others.** -/
theorem load_inverts_toJson (fromSlice : List UInt8 → Except String Json) (v : Validator) :
    ((∀ (p : Problem) bytes, fromSlice bytes = .ok p.toJson →
        (p.WellFormed → loadProblem fromSlice v bytes = .ok p) ∧
          (¬ p.WellFormed → ∃ violations, loadProblem fromSlice v bytes = .error (.schema .problem violations))) ∧
      ∀ bytes p, loadProblem fromSlice v bytes = .ok p → p.WellFormed ∧ problemSchema.valid p.toJson = true) ∧
    (∀ (c : Config) bytes, fromSlice bytes = .ok c.toJson →
        (c.WellFormed → loadConfig fromSlice v bytes = .ok c) ∧
          (¬ c.WellFormed → ∃ violations, loadConfig fromSlice v bytes = .error (.schema .config violations))) ∧
      ∀ bytes c, loadConfig fromSlice v bytes = .ok c → c.WellFormed ∧ configSchema.valid c.toJson = true :=
  ⟨⟨fun _ _ => load_toJson .problem Problem.fits, fun _ _ => wf_of_load .problem Problem.fits⟩,
    fun _ _ => load_toJson .config Config.fits, fun _ _ => wf_of_load .config Config.fits⟩

end Satunera.Contracts
