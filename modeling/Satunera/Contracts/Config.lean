import Satunera.Base.FirstOccurrences
import Satunera.Contracts.Problem

/-!
# The instance configuration

The typed form of `content/config.json` and its schema.

* `Config`, `Config.fromJson`, `Config.toJson` : the model, with its features, categories and tracks;
* `configSchema` : `schemas/config.schema.json`;
* `Config.WellFormed` : what the schema asks of a configuration;
* `Config.fits` : the two describe the same documents, up to the spelling of numbers;
* `Config.referencedProblems` : the problems of all tracks (`Config.referencedProblems_exact`);
* `Config.category`, `Config.composeProfiles` : its categories, and the profiles that it deploys.
-/

namespace Satunera.Contracts

open Satunera.Base

/-! ## The model -/

/-- Optional service groups. -/
structure Features where
  lightning : Bool
  indexer : Bool
  objectstore : Bool
  observability : Bool
  deriving DecidableEq

namespace Features

def default : Features := ⟨false, false, false, false⟩

def fromJson : Json → Except DeError Features :=
  deStruct "struct Features" (Visitor.of Features.mk
    |>.field "lightning" deBool (some false)
    |>.field "indexer" deBool (some false)
    |>.field "objectstore" deBool (some false)
    |>.field "observability" deBool (some false))

def toJson (f : Features) : Json :=
  .obj [
    ("indexer", .bool f.indexer),
    ("lightning", .bool f.lightning),
    ("objectstore", .bool f.objectstore),
    ("observability", .bool f.observability)]

end Features

structure Category where
  id : CategoryId
  title : String
  description : Option String
  deriving DecidableEq

namespace Category

def fromJson : Json → Except DeError Category :=
  deStruct "struct Category" (Visitor.of Category.mk
    |>.field "id" (fun d => (deString d).map CategoryId.mk) none
    |>.field "title" deString none
    |>.field "description" (deOption deString) (some none))

/-- An absent description is not written. -/
def toFields (c : Category) : List (String × Json) :=
  match c.description with
  | some description => [("description", .str description), ("id", .str c.id.asStr), ("title", .str c.title)]
  | none => [("id", .str c.id.asStr), ("title", .str c.title)]

def toJson (c : Category) : Json := .obj c.toFields

end Category

/-- An ordered path through the catalog. A problem may appear in several tracks. -/
structure Track where
  id : TrackId
  title : String
  problems : List ProblemId
  deriving DecidableEq

namespace Track

def fromJson : Json → Except DeError Track :=
  deStruct "struct Track" (Visitor.of Track.mk
    |>.field "id" (fun d => (deString d).map TrackId.mk) none
    |>.field "title" deString none
    |>.field "problems" (deVec fun d => (deString d).map ProblemId.mk) none)

def toJson (t : Track) : Json :=
  .obj [("id", .str t.id.asStr), ("problems", .arr (t.problems.map fun p => .str p.asStr)), ("title", .str t.title)]

end Track

/-- What an instance's catalog contains and which optional services it deploys. -/
structure Config where
  schemaVersion : UInt32
  title : String
  features : Features
  categories : List Category
  tracks : List Track
  deriving DecidableEq

namespace Config

def fromJson : Json → Except DeError Config :=
  deStruct "struct Config" (Visitor.of Config.mk
    |>.field "schema_version" deU32 none
    |>.field "title" deString none
    |>.field "features" Features.fromJson (some Features.default)
    |>.field "categories" (deVec Category.fromJson) none
    |>.field "tracks" (deVec Track.fromJson) none)

def toJson (c : Config) : Json :=
  .obj [
    ("categories", .arr (c.categories.map Category.toJson)),
    ("features", c.features.toJson),
    ("schema_version", serU32 c.schemaVersion),
    ("title", .str c.title),
    ("tracks", .arr (c.tracks.map Track.toJson))]

theorem canonical_toJson (c : Config) : c.toJson.Canonical := by
  have hkeys : ["categories", "features", "schema_version", "title", "tracks"].Pairwise (· < ·) := by decide
  have hfeatures : ["indexer", "lightning", "objectstore", "observability"].Pairwise (· < ·) := by decide
  have hcategory : ["description", "id", "title"].Pairwise (· < ·) := by decide
  have htrack : ["id", "problems", "title"].Pairwise (· < ·) := by decide
  refine ⟨hkeys, ?_, ⟨hfeatures, trivial, trivial, trivial, trivial, trivial⟩, trivial, trivial, ?_, trivial⟩
  · rw [Json.Canonical, Json.canonicalItems_iff, List.forall_mem_map]
    rintro ⟨id, title, _ | description⟩ -
    · exact ⟨hcategory.tail, trivial, trivial, trivial⟩
    · exact ⟨hcategory, trivial, trivial, trivial, trivial⟩
  · rw [Json.Canonical, Json.canonicalItems_iff, List.forall_mem_map]
    refine fun t _ => ⟨htrack, trivial, ?_, trivial, trivial⟩
    rw [Json.Canonical, Json.canonicalItems_iff, List.forall_mem_map]
    exact fun _ _ => trivial

end Config

/-! ## The schema -/

def featuresSchema : Schema :=
  .object [] [("lightning", .type .boolean), ("indexer", .type .boolean), ("objectstore", .type .boolean),
    ("observability", .type .boolean)]

def categorySchema : Schema :=
  .object ["id", "title"] [("id", nameSchema), ("title", titleSchema),
    ("description", .allOf [.type .string, .maxLength 500])]

def trackSchema : Schema :=
  .object ["id", "title", "problems"] [("id", nameSchema), ("title", titleSchema),
    ("problems", .allOf [.type .array, .items nameSchema, .minItems 1, .uniqueItems])]

/-- `schemas/config.schema.json`. -/
def configSchema : Schema :=
  .object ["schema_version", "title", "categories", "tracks"] [
    ("schema_version", .const (.num (.posInt 1))),
    ("title", titleSchema),
    ("features", featuresSchema),
    ("categories", .allOf [.type .array, .items categorySchema, .minItems 1]),
    ("tracks", .allOf [.type .array, .items trackSchema, .minItems 1])]

/-! ## Agreement -/

/-- What the schema asks of a category. -/
@[mk_iff]
structure Category.WellFormed (c : Category) : Prop where
  id : IsName c.id.asStr
  title : IsTitle c.title
  description : ∀ d ∈ c.description, d.length ≤ 500

/-- What the schema asks of a track. -/
@[mk_iff]
structure Track.WellFormed (t : Track) : Prop where
  id : IsName t.id.asStr
  title : IsTitle t.title
  problems : (∀ p ∈ t.problems, IsName p.asStr) ∧ t.problems ≠ [] ∧ t.problems.Nodup

/-- What the schema asks of a configuration. -/
@[mk_iff]
structure Config.WellFormed (c : Config) : Prop where
  schemaVersion : c.schemaVersion = 1
  title : IsTitle c.title
  categories : (∀ k ∈ c.categories, k.WellFormed) ∧ c.categories ≠ []
  tracks : (∀ t ∈ c.tracks, t.WellFormed) ∧ c.tracks ≠ []

/-- The only number of a configuration is written as an integer. -/
def Config.IntegerTokens (d : Json) : Prop := ∀ v, d.get? "schema_version" = some v → IntegerToken v

theorem Features.fits : Fits featuresSchema Features.fromJson Features.toJson (fun _ => True) anyDocument := by
  refine Fits.object rfl (fun f => ?_) (fun f => ?_) (fun f => ?_) (fun fields _ hp => ⟨fun _ _ => trivial, ?_⟩)
  · rfl
  · exact ⟨List.forall_mem_nil _, by simp⟩
  · simp only [List.forall_mem_cons, List.not_mem_nil, false_imp_iff, implies_true, and_true]
    simp [Json.find_cons, Fits.bool.valid_ser]
  · simp only [List.forall_mem_cons] at hp
    obtain ⟨hp0, hp1, hp2, hp3, -⟩ := hp
    simp only [Visitor.build_field, Visitor.build_of, bind_assoc, pure_bind, exists_bind_ok_iff, exists_pure_ok_iff,
      exists_and_right, and_true]
    rw [Fits.bool.exists_read_default_iff hp0, Fits.bool.exists_read_default_iff hp1,
      Fits.bool.exists_read_default_iff hp2, Fits.bool.exists_read_default_iff hp3]
    simp [anyDocument]

theorem description_fits : Fits (.allOf [.type .string, .maxLength 500]) deString .str (fun s => s.length ≤ 500)
    anyDocument :=
  (Fits.string _).of_wf_iff fun s => by rw [List.forall_mem_singleton, Schema.valid_maxLength_str]

theorem Category.fits : Fits categorySchema Category.fromJson Category.toJson Category.WellFormed anyDocument := by
  have hid := name_fits.wrap CategoryId.mk CategoryId.asStr (fun _ => rfl) fun _ => rfl
  have hdescription := description_fits.option rfl
  refine Fits.object rfl (fun c => ?_) (fun c => ?_) (fun c => ?_) (fun fields hr hp => ⟨fun c hc => ?_, ?_⟩)
  · rcases c with ⟨id, title, _ | description⟩ <;> rfl
  · rcases c with ⟨id, title, _ | description⟩ <;> simp [Category.toFields, Json.find_cons]
  · rcases c with ⟨id, title, _ | description⟩ <;>
      simp only [Category.toFields, List.forall_mem_cons, Json.find_cons, Json.find_nil, String.reduceEq, if_true,
        if_false, Option.some.injEq, forall_eq', List.not_mem_nil, false_imp_iff, implies_true, and_true,
        name_fits.valid_ser, title_fits.valid_ser, description_fits.valid_ser, Category.wellFormed_iff,
        Option.mem_def, reduceCtorEq]
  · simp only [List.forall_mem_cons] at hp
    obtain ⟨hp0, hp1, hp2, -⟩ := hp
    simp only [Visitor.build_field, Visitor.build_of, bind_assoc, pure_bind, bind_eq_ok_iff] at hc
    obtain ⟨_, h0, _, h1, _, h2, hc⟩ := hc
    cases hc
    exact ⟨hid.wf_of_read hp0 h0, title_fits.wf_of_read hp1 h1, hdescription.wf_of_read_default hp2 (by simp) h2⟩
  · simp only [List.forall_mem_cons] at hp hr
    obtain ⟨hp0, hp1, hp2, -⟩ := hp
    simp only [Visitor.build_field, Visitor.build_of, bind_assoc, pure_bind, exists_bind_ok_iff, exists_pure_ok_iff,
      exists_and_right, and_true]
    rw [hid.exists_read_iff hp0 hr.1, title_fits.exists_read_iff hp1 hr.2.1, hdescription.exists_read_default_iff hp2]
    simp [anyDocument]

theorem problems_fits : Fits (.allOf [.type .array, .items nameSchema, .minItems 1, .uniqueItems])
    (deVec fun d => (deString d).map ProblemId.mk) (fun ps => .arr (ps.map fun p => .str p.asStr))
    (fun ps => (∀ p ∈ ps, IsName p.asStr) ∧ ps ≠ [] ∧ ps.Nodup) anyDocument := by
  have hid := name_fits.wrap ProblemId.mk ProblemId.asStr (fun _ => rfl) fun _ => rfl
  have hinj : Function.Injective ProblemId.asStr := fun p q h => by cases p; cases q; exact congrArg _ h
  have hvec := hid.uniqueVec 1 hinj fun d p hd hp => by
    obtain ⟨s, rfl, -⟩ := Schema.valid_string_iff.mp hd
    cases hp
    rfl
  refine (hvec.of_wf_iff fun ps => ?_).of_readable_iff fun d _ => ?_
  · exact and_congr_right' (and_congr_left' List.length_pos_iff)
  · simp [anyDocument]

theorem Track.fits : Fits trackSchema Track.fromJson Track.toJson Track.WellFormed anyDocument := by
  have hid := name_fits.wrap TrackId.mk TrackId.asStr (fun _ => rfl) fun _ => rfl
  refine Fits.object rfl (fun t => ?_) (fun t => ?_) (fun t => ?_) (fun fields hr hp => ⟨fun t ht => ?_, ?_⟩)
  · simp only [Visitor.build_field, Visitor.build_of, Members.read, Json.find_cons, String.reduceEq, if_true, if_false,
      title_fits.de_ser, problems_fits.de_ser]
    rfl
  · simp [Json.find_cons]
  · simp only [List.forall_mem_cons, Json.find_cons, String.reduceEq, if_true, if_false, Option.some.injEq, forall_eq',
      List.not_mem_nil, false_imp_iff, implies_true, and_true, name_fits.valid_ser, title_fits.valid_ser,
      problems_fits.valid_ser, Track.wellFormed_iff]
  · simp only [List.forall_mem_cons] at hp
    obtain ⟨hp0, hp1, hp2, -⟩ := hp
    simp only [Visitor.build_field, Visitor.build_of, bind_assoc, pure_bind, bind_eq_ok_iff] at ht
    obtain ⟨_, h0, _, h1, _, h2, ht⟩ := ht
    cases ht
    exact ⟨hid.wf_of_read hp0 h0, title_fits.wf_of_read hp1 h1, problems_fits.wf_of_read hp2 h2⟩
  · simp only [List.forall_mem_cons] at hp hr
    obtain ⟨hp0, hp1, hp2, -⟩ := hp
    simp only [Visitor.build_field, Visitor.build_of, bind_assoc, pure_bind, exists_bind_ok_iff, exists_pure_ok_iff,
      exists_and_right, and_true]
    rw [hid.exists_read_iff hp0 hr.1, title_fits.exists_read_iff hp1 hr.2.1, problems_fits.exists_read_iff hp2 hr.2.2.1]
    simp [anyDocument]

/-- **The schema of configurations and their type describe the same documents, up to how numbers are written.** -/
theorem Config.fits : Fits configSchema Config.fromJson Config.toJson Config.WellFormed Config.IntegerTokens := by
  have hversion : Fits (.const (.num (.posInt 1))) .. := Fits.constU32 1
  have hcategories := (Category.fits.vec 1).of_wf_iff fun _ => and_congr_right' List.length_pos_iff
  have htracks := (Track.fits.vec 1).of_wf_iff fun _ => and_congr_right' List.length_pos_iff
  refine Fits.object rfl (fun c => ?_) (fun c => ?_) (fun c => ?_) (fun fields hr hp => ⟨fun c hc => ?_, ?_⟩)
  · simp only [Visitor.build_field, Visitor.build_of, Members.read, Json.find_cons, String.reduceEq, if_true, if_false,
      hversion.de_ser, title_fits.de_ser, Features.fits.de_ser, hcategories.de_ser, htracks.de_ser]
    rfl
  · simp [Json.find_cons]
  · simp only [List.forall_mem_cons, Json.find_cons, String.reduceEq, if_true, if_false, Option.some.injEq, forall_eq',
      List.not_mem_nil, false_imp_iff, implies_true, and_true, hversion.valid_ser, title_fits.valid_ser,
      Features.fits.valid_ser, hcategories.valid_ser, htracks.valid_ser, true_and, Config.wellFormed_iff]
  · simp only [List.forall_mem_cons] at hp
    obtain ⟨hp0, hp1, hp2, hp3, hp4, -⟩ := hp
    simp only [Visitor.build_field, Visitor.build_of, bind_assoc, pure_bind, bind_eq_ok_iff] at hc
    obtain ⟨_, h0, _, h1, _, h2, _, h3, _, h4, hc⟩ := hc
    cases hc
    exact ⟨hversion.wf_of_read hp0 h0, title_fits.wf_of_read hp1 h1, hcategories.wf_of_read hp3 h3,
      htracks.wf_of_read hp4 h4⟩
  · simp only [List.forall_mem_cons] at hp hr
    obtain ⟨hp0, hp1, hp2, hp3, hp4, -⟩ := hp
    simp only [Visitor.build_field, Visitor.build_of, bind_assoc, pure_bind, exists_bind_ok_iff, exists_pure_ok_iff,
      exists_and_right, and_true]
    rw [hversion.exists_read_iff hp0 hr.1, title_fits.exists_read_iff hp1 hr.2.1,
      Features.fits.exists_read_default_iff hp2, hcategories.exists_read_iff hp3 hr.2.2.1,
      htracks.exists_read_iff hp4 hr.2.2.2.1]
    simp only [anyDocument, implies_true, and_true]
    rfl

/-! ## The problems of the tracks -/

namespace Config

/-- Every problem id any track references, in declaration order, without duplicates. -/
def referencedProblems (c : Config) : List ProblemId :=
  c.tracks.foldl (fun seen track => track.problems.foldl pushNew seen) []

/-- The two loops are one over the tracks' lists, one after the other. -/
theorem referencedProblems_eq (c : Config) : c.referencedProblems = collectNew [] (c.tracks.flatMap Track.problems) :=
  List.foldl_flatMap.symm

/-- **The problems of all tracks, each where it occurs first; one more track only appends.** -/
theorem referencedProblems_exact (c : Config) :
    c.referencedProblems.Nodup ∧
    (∀ id, id ∈ c.referencedProblems ↔ ∃ track ∈ c.tracks, id ∈ track.problems) ∧
    (∀ x ∈ c.referencedProblems, ∀ y ∈ c.referencedProblems,
      c.referencedProblems.idxOf x < c.referencedProblems.idxOf y ↔
        (c.tracks.flatMap Track.problems).idxOf x < (c.tracks.flatMap Track.problems).idxOf y) ∧
    ∀ track, c.referencedProblems <+: ({ c with tracks := c.tracks ++ [track] } : Config).referencedProblems := by
  have h := firstOccurrences_collectNew (c.tracks.flatMap Track.problems)
  refine ⟨?_, fun id => ?_, ?_, fun track => ?_⟩
  · rw [referencedProblems_eq]
    exact h.nodup
  · rw [referencedProblems_eq, h.mem_iff, List.mem_flatMap]
  · rw [referencedProblems_eq]
    exact h.before_iff
  · rw [referencedProblems_eq, referencedProblems_eq, List.flatMap_append, collectNew_append]
    exact prefix_collectNew ..

/-! ## Categories and profiles -/

def category (c : Config) (id : CategoryId) : Option Category := c.categories.find? fun k => k.id = id

def hasCategory (c : Config) (id : CategoryId) : Bool := (c.category id).isSome

/-- Compose profiles implied by the feature flags. `core` is always present. -/
def composeProfiles (c : Config) : List String :=
  let profiles := ["core"]
  let profiles := if c.features.lightning then profiles ++ ["lightning"] else profiles
  let profiles := if c.features.indexer then profiles ++ ["indexer"] else profiles
  let profiles := if c.features.objectstore then profiles ++ ["objectstore"] else profiles
  if c.features.observability then profiles ++ ["observability"] else profiles

theorem hasCategory_iff {c : Config} {id : CategoryId} : c.hasCategory id = true ↔ ∃ k ∈ c.categories, k.id = id := by
  rw [hasCategory, category, List.find?_isSome]
  simp only [decide_eq_true_eq]

end Config

end Satunera.Contracts
