import Satunera.Base.Pattern
import Satunera.Base.SchemaModel
import Satunera.Contracts.Id

/-!
# The problem manifest

The typed form of `problem.json` and its schema, which are written by hand and apart from each other.

* `Problem`, `Problem.fromJson`, `Problem.toJson` : the model; `toJson` is the document its text parses to;
* `problemSchema` : `schemas/problem.schema.json`;
* `Problem.WellFormed` : what the schema asks of a problem;
* `Problem.fits` : the two describe the same documents, up to the spelling of numbers.
-/

namespace Satunera.Contracts

open Satunera.Base

/-! ## Names and titles -/

/-- `[a-z0-9]` -/
def kebabChars : List Char := "abcdefghijklmnopqrstuvwxyz0123456789".toList

/-- `^[a-z0-9]+(-[a-z0-9]+)*$` -/
def kebab : RegularExpression Char := separated '-' (oneOrMore (charClass kebabChars))

/-- Groups of letters and digits joined by single hyphens. -/
def IsKebab (s : String) : Prop :=
  ∃ groups : List (List Char), groups ≠ [] ∧ (∀ g ∈ groups, g ≠ [] ∧ ∀ c ∈ g, c ∈ kebabChars) ∧
    s.toList = ['-'].intercalate groups

theorem kebab_rmatch_iff {s : String} : kebab.rmatch s.toList = true ↔ IsKebab s := by
  rw [kebab, separated_rmatch_iff]
  simp only [oneOrMore_charClass_rmatch_iff]
  rfl

theorem IsKebab.length_pos {s : String} (h : IsKebab s) : 1 ≤ s.length := by
  obtain ⟨groups, hne, hall, hs⟩ := h
  cases groups with
  | nil => exact absurd rfl hne
  | cons g gs =>
    have hg := List.length_pos_of_ne_nil (hall g (List.mem_cons_self ..)).1
    rw [← String.length_toList, hs, intercalate_cons, List.length_append]
    omega

/-- What an identifier has to be. -/
def IsName (s : String) : Prop := IsKebab s ∧ s.length ≤ 64

/-- What a title has to be. -/
def IsTitle (s : String) : Prop := 1 ≤ s.length ∧ s.length ≤ 120

def nameSchema : Schema := .allOf [.type .string, .pattern kebab, .maxLength 64]

/-- The same with a bound that the pattern already implies. -/
def nonemptyNameSchema : Schema := .allOf [.type .string, .pattern kebab, .minLength 1, .maxLength 64]

def titleSchema : Schema := .allOf [.type .string, .minLength 1, .maxLength 120]

theorem name_fits : Fits nameSchema deString .str IsName anyDocument :=
  (Fits.string _).of_wf_iff fun s => by
    rw [List.forall_mem_cons, List.forall_mem_singleton, Schema.valid_pattern_str, kebab_rmatch_iff,
      Schema.valid_maxLength_str, IsName]

theorem nonemptyName_fits : Fits nonemptyNameSchema deString .str IsName anyDocument :=
  (Fits.string _).of_wf_iff fun s => by
    simp only [List.forall_mem_cons, Schema.valid_pattern_str, kebab_rmatch_iff, Schema.valid_minLength_str,
      Schema.valid_maxLength_str, List.not_mem_nil, false_imp_iff, implies_true, and_true]
    exact ⟨fun h => ⟨h.1, h.2.2⟩, fun h => ⟨h.1, h.1.length_pos, h.2⟩⟩

theorem title_fits : Fits titleSchema deString .str IsTitle anyDocument :=
  (Fits.string _).of_wf_iff fun s => by simp [IsTitle]

/-! ## The model -/

inductive Difficulty
  | easy
  | medium
  | hard
  deriving DecidableEq

namespace Difficulty

def all : List Difficulty := [.easy, .medium, .hard]

def asStr : Difficulty → String
  | .easy => "easy"
  | .medium => "medium"
  | .hard => "hard"

theorem asStr_injective : Function.Injective asStr := by
  intro a b h
  cases a <;> cases b <;> first | rfl | exact absurd h (by decide)

def fromJson : Json → Except DeError Difficulty := deEnum (all.map asStr) (parseLabel all asStr)

def toJson (d : Difficulty) : Json := .str d.asStr

end Difficulty

namespace Language

def fromJson : Json → Except DeError Language := deEnum (all.map asStr) parse

def toJson (l : Language) : Json := .str l.asStr

end Language

/-- Which Bitcoin services join the job network. -/
structure Services where
  bitcoind : Bool
  lnd : Bool
  electrs : Bool
  deriving DecidableEq

namespace Services

def default : Services := ⟨true, false, false⟩

def fromJson : Json → Except DeError Services :=
  deStruct "struct Services" (Visitor.of Services.mk
    |>.field "bitcoind" deBool (some true)
    |>.field "lnd" deBool (some false)
    |>.field "electrs" deBool (some false))

def toJson (s : Services) : Json :=
  .obj [("bitcoind", .bool s.bitcoind), ("electrs", .bool s.electrs), ("lnd", .bool s.lnd)]

end Services

/-- Run-phase ceilings. -/
structure Limits where
  wallSec : UInt32
  memoryMb : UInt32
  deriving DecidableEq

def defaultWallSec : UInt32 := 30

def defaultMemoryMb : UInt32 := 512

namespace Limits

def default : Limits := ⟨defaultWallSec, defaultMemoryMb⟩

def fromJson : Json → Except DeError Limits :=
  deStruct "struct Limits" (Visitor.of Limits.mk
    |>.field "wall_sec" deU32 (some defaultWallSec)
    |>.field "memory_mb" deU32 (some defaultMemoryMb))

def toJson (l : Limits) : Json := .obj [("memory_mb", serU32 l.memoryMb), ("wall_sec", serU32 l.wallSec)]

end Limits

/-- One problem, as declared by its author. -/
structure Problem where
  schemaVersion : UInt32
  /-- Must equal the directory name, which the schema never sees. -/
  id : ProblemId
  title : String
  category : CategoryId
  difficulty : Difficulty
  languages : List Language
  fixture : FixtureName
  services : Services
  limits : Limits
  deriving DecidableEq

namespace Problem

def fromJson : Json → Except DeError Problem :=
  deStruct "struct Problem" (Visitor.of Problem.mk
    |>.field "schema_version" deU32 none
    |>.field "id" (fun d => (deString d).map ProblemId.mk) none
    |>.field "title" deString none
    |>.field "category" (fun d => (deString d).map CategoryId.mk) none
    |>.field "difficulty" Difficulty.fromJson none
    |>.field "languages" (deVec Language.fromJson) none
    |>.field "fixture" (fun d => (deString d).map FixtureName.mk) none
    |>.field "services" Services.fromJson (some Services.default)
    |>.field "limits" Limits.fromJson (some Limits.default))

def toJson (p : Problem) : Json :=
  .obj [
    ("category", .str p.category.asStr),
    ("difficulty", p.difficulty.toJson),
    ("fixture", .str p.fixture.asStr),
    ("id", .str p.id.asStr),
    ("languages", .arr (p.languages.map Language.toJson)),
    ("limits", p.limits.toJson),
    ("schema_version", serU32 p.schemaVersion),
    ("services", p.services.toJson),
    ("title", .str p.title)]

theorem canonical_toJson (p : Problem) : p.toJson.Canonical := by
  have hkeys : ["category", "difficulty", "fixture", "id", "languages", "limits", "schema_version", "services",
    "title"].Pairwise (· < ·) := by decide
  have hlimits : ["memory_mb", "wall_sec"].Pairwise (· < ·) := by decide
  have hservices : ["bitcoind", "electrs", "lnd"].Pairwise (· < ·) := by decide
  refine ⟨hkeys, trivial, trivial, trivial, trivial, ?_, ⟨hlimits, trivial, trivial, trivial⟩, trivial,
    ⟨hservices, trivial, trivial, trivial, trivial⟩, trivial, trivial⟩
  rw [Json.Canonical, Json.canonicalItems_iff, List.forall_mem_map]
  exact fun _ _ => trivial

end Problem

/-! ## The schema -/

def servicesSchema : Schema :=
  .object [] [("bitcoind", .const (.bool true)), ("lnd", .type .boolean), ("electrs", .type .boolean)]

def limitsSchema : Schema :=
  .object [] [
    ("wall_sec", .allOf [.type .integer, .minimum 5, .maximum 300]),
    ("memory_mb", .allOf [.type .integer, .minimum 128, .maximum 2048])]

/-- `schemas/problem.schema.json`. -/
def problemSchema : Schema :=
  .object ["schema_version", "id", "title", "category", "difficulty", "languages", "fixture"] [
    ("schema_version", .const (.num (.posInt 1))),
    ("id", nonemptyNameSchema),
    ("title", titleSchema),
    ("category", nameSchema),
    ("difficulty", .enum [.str "easy", .str "medium", .str "hard"]),
    ("languages",
      .allOf [.type .array, .items (.enum [.str "rust", .str "py", .str "cpp"]), .minItems 1, .uniqueItems]),
    ("fixture", nonemptyNameSchema),
    ("services", servicesSchema),
    ("limits", limitsSchema)]

/-! ## Agreement -/

/-- What the schema asks of the limits. -/
@[mk_iff]
structure Limits.WellFormed (l : Limits) : Prop where
  wallSec : 5 ≤ l.wallSec.toNat ∧ l.wallSec.toNat ≤ 300
  memoryMb : 128 ≤ l.memoryMb.toNat ∧ l.memoryMb.toNat ≤ 2048

/-- What the schema asks of a problem. -/
@[mk_iff]
structure Problem.WellFormed (p : Problem) : Prop where
  schemaVersion : p.schemaVersion = 1
  id : IsName p.id.asStr
  title : IsTitle p.title
  category : IsName p.category.asStr
  languages : p.languages ≠ [] ∧ p.languages.Nodup
  fixture : IsName p.fixture.asStr
  bitcoind : p.services.bitcoind = true
  limits : p.limits.WellFormed

/-- The limits are written as integers. -/
def Limits.IntegerTokens (d : Json) : Prop :=
  (∀ v, d.get? "wall_sec" = some v → IntegerToken v) ∧ ∀ v, d.get? "memory_mb" = some v → IntegerToken v

/-- Every number of a manifest is written as an integer. -/
def Problem.IntegerTokens (d : Json) : Prop :=
  (∀ v, d.get? "schema_version" = some v → IntegerToken v) ∧ ∀ v, d.get? "limits" = some v → Limits.IntegerTokens v

theorem Difficulty.fits : Fits (.enum [.str "easy", .str "medium", .str "hard"]) Difficulty.fromJson Difficulty.toJson
    (fun _ => True) anyDocument :=
  Fits.enum (by intro a; cases a <;> decide : ∀ a, a ∈ Difficulty.all) fun _ _ =>
    parseLabel_eq_some_iff (by intro a; cases a <;> decide) Difficulty.asStr_injective

theorem Language.fits : Fits (.enum [.str "rust", .str "py", .str "cpp"]) Language.fromJson Language.toJson
    (fun _ => True) anyDocument :=
  Fits.enum (by intro a; cases a <;> decide : ∀ a, a ∈ Language.all) fun _ _ => Language.parse_eq_some_iff

theorem Services.fits : Fits servicesSchema Services.fromJson Services.toJson (fun s => s.bitcoind = true)
    anyDocument := by
  have hbitcoind := Fits.constBool true
  refine Fits.object rfl (fun s => ?_) (fun s => ?_) (fun s => ?_) (fun fields _ hp => ⟨fun s hs => ?_, ?_⟩)
  · rfl
  · simp [Json.find_cons]
  · simp [Json.find_cons, hbitcoind.valid_ser, Fits.bool.valid_ser, -Schema.valid_const]
  · simp only [List.forall_mem_cons] at hp
    simp only [Visitor.build_field, Visitor.build_of, bind_assoc, pure_bind, bind_eq_ok_iff] at hs
    obtain ⟨b, hb, _, -, _, -, hs⟩ := hs
    cases hs
    exact hbitcoind.wf_of_read_default hp.1 rfl hb
  · simp only [List.forall_mem_cons] at hp
    simp only [Visitor.build_field, Visitor.build_of, bind_assoc, pure_bind, exists_bind_ok_iff, exists_pure_ok_iff,
      exists_and_right, and_true]
    rw [hbitcoind.exists_read_default_iff hp.1, Fits.bool.exists_read_default_iff hp.2.1,
      Fits.bool.exists_read_default_iff hp.2.2.1]
    simp [anyDocument]

theorem Limits.fits : Fits limitsSchema Limits.fromJson Limits.toJson Limits.WellFormed Limits.IntegerTokens := by
  have hwall : Fits (.allOf [.type .integer, .minimum 5, .maximum 300]) .. := Fits.rangeU32 5 300 (by norm_num)
  have hmemory : Fits (.allOf [.type .integer, .minimum 128, .maximum 2048]) .. :=
    Fits.rangeU32 128 2048 (by norm_num)
  refine Fits.object rfl (fun l => ?_) (fun l => ?_) (fun l => ?_) (fun fields _ hp => ⟨fun l hl => ?_, ?_⟩)
  · simp only [Visitor.build_field, Visitor.build_of, Members.read, Json.find_cons, String.reduceEq, if_true, if_false,
      deU32_serU32]
    rfl
  · simp [Json.find_cons]
  · simp [Json.find_cons, hwall.valid_ser, hmemory.valid_ser, Limits.wellFormed_iff, -Schema.valid_allOf_iff]
  · simp only [List.forall_mem_cons] at hp
    simp only [Visitor.build_field, Visitor.build_of, bind_assoc, pure_bind, bind_eq_ok_iff] at hl
    obtain ⟨w, hw, m, hm, hl⟩ := hl
    cases hl
    exact ⟨hwall.wf_of_read_default hp.1 (by decide) hw, hmemory.wf_of_read_default hp.2.1 (by decide) hm⟩
  · simp only [List.forall_mem_cons] at hp
    simp only [Visitor.build_field, Visitor.build_of, bind_assoc, pure_bind, exists_bind_ok_iff, exists_pure_ok_iff,
      exists_and_right, and_true]
    rw [hwall.exists_read_default_iff hp.1, hmemory.exists_read_default_iff hp.2.1]
    rfl

theorem Limits.default_wellFormed : Limits.default.WellFormed := ⟨by decide, by decide⟩

theorem languages_fits : Fits (.allOf [.type .array, .items (.enum [.str "rust", .str "py", .str "cpp"]),
      .minItems 1, .uniqueItems]) (deVec Language.fromJson) (fun ls => .arr (ls.map Language.toJson))
    (fun ls => ls ≠ [] ∧ ls.Nodup) anyDocument := by
  have hvec := Language.fits.uniqueVec 1 Language.asStr_injective fun _ _ =>
    Fits.eq_of_deEnum Language.all fun _ _ => Language.parse_eq_some_iff
  refine (hvec.of_wf_iff fun ls => ?_).of_readable_iff fun d _ => ?_
  · rw [and_iff_right fun _ _ => trivial]
    exact and_congr_left' List.length_pos_iff
  · simp [anyDocument]

/-- **The schema of problems and their type describe the same documents, up to how numbers are written.** -/
theorem Problem.fits : Fits problemSchema Problem.fromJson Problem.toJson Problem.WellFormed
    Problem.IntegerTokens := by
  have hversion : Fits (.const (.num (.posInt 1))) .. := Fits.constU32 1
  have hid := nonemptyName_fits.wrap ProblemId.mk ProblemId.asStr (fun _ => rfl) fun _ => rfl
  have hcategory := name_fits.wrap CategoryId.mk CategoryId.asStr (fun _ => rfl) fun _ => rfl
  have hfixture := nonemptyName_fits.wrap FixtureName.mk FixtureName.asStr (fun _ => rfl) fun _ => rfl
  refine Fits.object rfl (fun p => ?_) (fun p => ?_) (fun p => ?_) (fun fields hr hp => ⟨fun p hpok => ?_, ?_⟩)
  · simp only [Visitor.build_field, Visitor.build_of, Members.read, Json.find_cons, String.reduceEq, if_true, if_false,
      hversion.de_ser, title_fits.de_ser, Difficulty.fits.de_ser, languages_fits.de_ser, Services.fits.de_ser,
      Limits.fits.de_ser]
    rfl
  · simp [Json.find_cons]
  · simp only [List.forall_mem_cons, Json.find_cons, String.reduceEq, if_true, if_false, Option.some.injEq, forall_eq',
      List.not_mem_nil, false_imp_iff, implies_true, and_true, hversion.valid_ser, title_fits.valid_ser,
      Difficulty.fits.valid_ser, languages_fits.valid_ser, Services.fits.valid_ser, Limits.fits.valid_ser,
      name_fits.valid_ser, nonemptyName_fits.valid_ser, true_and, Problem.wellFormed_iff]
  · simp only [List.forall_mem_cons] at hp
    obtain ⟨hp0, hp1, hp2, hp3, hp4, hp5, hp6, hp7, hp8, -⟩ := hp
    simp only [Visitor.build_field, Visitor.build_of, bind_assoc, pure_bind, bind_eq_ok_iff] at hpok
    obtain ⟨_, h0, _, h1, _, h2, _, h3, _, h4, _, h5, _, h6, _, h7, _, h8, hpok⟩ := hpok
    cases hpok
    exact {
      schemaVersion := hversion.wf_of_read hp0 h0
      id := hid.wf_of_read hp1 h1
      title := title_fits.wf_of_read hp2 h2
      category := hcategory.wf_of_read hp3 h3
      languages := languages_fits.wf_of_read hp5 h5
      fixture := hfixture.wf_of_read hp6 h6
      bitcoind := Services.fits.wf_of_read_default hp7 rfl h7
      limits := Limits.fits.wf_of_read_default hp8 Limits.default_wellFormed h8 }
  · simp only [List.forall_mem_cons] at hp hr
    obtain ⟨hp0, hp1, hp2, hp3, hp4, hp5, hp6, hp7, hp8, -⟩ := hp
    obtain ⟨hr0, hr1, hr2, hr3, hr4, hr5, hr6, -⟩ := hr
    simp only [Visitor.build_field, Visitor.build_of, bind_assoc, pure_bind, exists_bind_ok_iff, exists_pure_ok_iff,
      exists_and_right, and_true]
    rw [hversion.exists_read_iff hp0 hr0, hid.exists_read_iff hp1 hr1, title_fits.exists_read_iff hp2 hr2,
      hcategory.exists_read_iff hp3 hr3, Difficulty.fits.exists_read_iff hp4 hr4,
      languages_fits.exists_read_iff hp5 hr5, hfixture.exists_read_iff hp6 hr6,
      Services.fits.exists_read_default_iff hp7, Limits.fits.exists_read_default_iff hp8]
    simp only [anyDocument, implies_true, true_and]
    rfl

end Satunera.Contracts
