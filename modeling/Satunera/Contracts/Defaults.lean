import Satunera.Base.Defaults
import Satunera.Contracts.Load
import Satunera.Contracts.Scaffold

/-!
# What an author leaves out

The schemas name a default for every setting that may be left out, and so do the types.

* `servicesDefaults`, `limitsDefaults`, `featuresDefaults` : the defaults of the schemas;
* `Problem.complete`, `Config.complete` : a manifest with its defaults written out;
* `Problem.restores`, `Config.restores` : what is read from a manifest is written as that;
* `Problem.reflects`, `Config.reflects` : and the schema accepts it only if it accepts the manifest;
* `manifests_keep_written` : what loading keeps;
* `accepts_of_load`, `profiles_of_load` : what a problem accepts and a configuration deploys, read off its document.
-/

namespace Satunera.Contracts

open Satunera.Base

/-! ## Problems -/

/-- The defaults of `services` in `schemas/problem.schema.json`. -/
def servicesDefaults : List (String × Json) :=
  [("bitcoind", .bool true), ("electrs", .bool false), ("lnd", .bool false)]

/-- The defaults of `limits` in `schemas/problem.schema.json`. -/
def limitsDefaults : List (String × Json) := [("memory_mb", .num (.posInt 512)), ("wall_sec", .num (.posInt 30))]

/-- The members of a problem's manifest with its defaults written out. -/
def Problem.completeFields (fields : List (String × Json)) : List (String × Json) :=
  Json.completeBlock "limits" limitsDefaults (Json.completeBlock "services" servicesDefaults fields)

/-- A problem's manifest with its defaults written out. -/
def Problem.complete : Json → Json := Json.mapFields Problem.completeFields

theorem Services.restores : Restores servicesSchema Services.fromJson Services.toJson
    (Json.complete servicesDefaults) := by
  have hsorted : ["bitcoind", "electrs", "lnd"].Pairwise (· < ·) := by decide
  refine Restores.object (.extend hsorted (by decide)) hsorted (by decide) (fun _ => .refl _)
    fun fields s hfields hordered hp hs => ?_
  simp only [List.forall_mem_cons] at hp
  simp only [Visitor.build_field, Visitor.build_of, bind_assoc, pure_bind, bind_eq_ok_iff] at hs
  obtain ⟨b, hb, l, hl, e, he, hs⟩ := hs
  cases hs
  have hbitcoind := Restores.bool.find_of_read_default servicesDefaults hordered hp.1 rfl hb
  have hlnd := Restores.bool.find_of_read_default servicesDefaults hordered hp.2.1 rfl hl
  have helectrs := Restores.bool.find_of_read_default servicesDefaults hordered hp.2.2.1 rfl he
  simp only [List.map_cons, List.map_nil, List.forall_mem_cons, Json.find_extend_or hfields.nodup, hbitcoind, hlnd,
    helectrs]
  exact ⟨rfl, rfl, rfl, List.forall_mem_nil _⟩

theorem Limits.restores : Restores limitsSchema Limits.fromJson Limits.toJson (Json.complete limitsDefaults) := by
  have hsorted : ["memory_mb", "wall_sec"].Pairwise (· < ·) := by decide
  refine Restores.object (.extend hsorted (by decide)) hsorted (by decide) (fun _ => .refl _)
    fun fields l hfields hordered hp hl => ?_
  simp only [List.forall_mem_cons] at hp
  simp only [Visitor.build_field, Visitor.build_of, bind_assoc, pure_bind, bind_eq_ok_iff] at hl
  obtain ⟨w, hw, m, hm, hl⟩ := hl
  cases hl
  have hwall := Restores.u32.find_of_read_default limitsDefaults hordered hp.1 rfl hw
  have hmemory := Restores.u32.find_of_read_default limitsDefaults hordered hp.2.1 rfl hm
  simp only [List.map_cons, List.map_nil, List.forall_mem_cons, Json.find_extend_or hfields.nodup, hwall, hmemory]
  exact ⟨rfl, rfl, List.forall_mem_nil _⟩

theorem Difficulty.restores : Restores (.enum [.str "easy", .str "medium", .str "hard"]) Difficulty.fromJson
    Difficulty.toJson id :=
  Restores.enum Difficulty.all fun _ _ =>
    parseLabel_eq_some_iff (by intro a; cases a <;> decide) Difficulty.asStr_injective

theorem Language.restores :
    Restores (.enum [.str "rust", .str "py", .str "cpp"]) Language.fromJson Language.toJson id :=
  Restores.enum Language.all fun _ _ => Language.parse_eq_some_iff

theorem Problem.completes {names : List String} (hservices : "services" ∈ names) (hlimits : "limits" ∈ names) :
    Json.Completes names Problem.completeFields :=
  (Json.Completes.block hlimits).comp (Json.Completes.block hservices)

theorem Problem.restores : Restores problemSchema Problem.fromJson Problem.toJson Problem.complete := by
  have hsorted : ["category", "difficulty", "fixture", "id", "languages", "limits", "schema_version", "services",
    "title"].Pairwise (· < ·) := by decide
  refine Restores.object (Problem.completes (by decide) (by decide)) hsorted (by decide) (fun _ => .refl _)
    fun fields p hfields hordered hp hpok => ?_
  simp only [List.forall_mem_cons] at hp
  obtain ⟨hp0, hp1, hp2, hp3, hp4, hp5, hp6, hp7, hp8, -⟩ := hp
  simp only [Visitor.build_field, Visitor.build_of, bind_assoc, pure_bind, bind_eq_ok_iff] at hpok
  obtain ⟨_, h0, _, h1, _, h2, _, h3, _, h4, _, h5, _, h6, _, h7, _, h8, hpok⟩ := hpok
  cases hpok
  have hid := (Restores.string.wrap ProblemId.mk ProblemId.asStr fun _ => rfl).find_of_read hordered hp1 h1
  have hcategory := (Restores.string.wrap CategoryId.mk CategoryId.asStr fun _ => rfl).find_of_read hordered hp3 h3
  have hfixture := (Restores.string.wrap FixtureName.mk FixtureName.asStr fun _ => rfl).find_of_read hordered hp6 h6
  have hservices := Services.restores.complete_of_read hordered hp7 rfl h7
  have hlimits := Limits.restores.complete_of_read hordered hp8 rfl h8
  simp only [List.map_cons, List.map_nil, List.forall_mem_cons, Problem.completeFields, Json.find_completeBlock,
    String.reduceEq, if_true, if_false, hid, hcategory, hfixture, hservices, hlimits,
    Restores.u32.find_of_read hordered hp0 h0, Restores.string.find_of_read hordered hp2 h2,
    Difficulty.restores.find_of_read hordered hp4 h4, Language.restores.vec.find_of_read hordered hp5 h5]
  exact ⟨rfl, rfl, rfl, rfl, rfl, rfl, rfl, rfl, rfl, List.forall_mem_nil _⟩

theorem Problem.find_completeFields {fields : List (String × Json)} {k : String} (hlimits : k ≠ "limits")
    (hservices : k ≠ "services") : Json.find k (completeFields fields) = Json.find k fields := by
  rw [completeFields, Json.find_completeBlock, if_neg hlimits, Json.find_completeBlock, if_neg hservices]

theorem Problem.find_services (fields : List (String × Json)) : Json.find "services" (completeFields fields) =
    some (Json.complete servicesDefaults ((Json.find "services" fields).getD (.obj []))) := by
  rw [completeFields, Json.find_completeBlock, if_neg (by decide), Json.find_completeBlock, if_pos rfl]

theorem Problem.find_limits (fields : List (String × Json)) : Json.find "limits" (completeFields fields) =
    some (Json.complete limitsDefaults ((Json.find "limits" fields).getD (.obj []))) := by
  rw [completeFields, Json.find_completeBlock, if_pos rfl, Json.find_completeBlock, if_neg (by decide)]

theorem Problem.reflects : Reflects problemSchema Problem.complete := by
  have hkeys : ∀ k ∈ ["schema_version", "id", "title", "category", "difficulty", "languages", "fixture"],
      k ≠ "limits" ∧ k ≠ "services" := by decide
  have hsame : ∀ k ∈ ["schema_version", "id", "title", "category", "difficulty", "languages", "fixture"],
      ∀ fields, Json.find k (Problem.completeFields fields) = Json.find k fields :=
    fun k hk _ => Problem.find_completeFields (hkeys k hk).1 (hkeys k hk).2
  refine Reflects.object hsame (fun fields k hk => ?_) ?_
  · exact Json.mem_keys_insert.mpr (Or.inr (Json.mem_keys_insert.mpr (Or.inr hk)))
  · simp only [List.forall_mem_cons] at hsame ⊢
    obtain ⟨h0, h1, h2, h3, h4, h5, h6, -⟩ := hsame
    exact ⟨.inl h0, .inl h1, .inl h2, .inl h3, .inl h4, .inl h5, .inl h6, .inr ⟨_, .complete, Problem.find_services⟩,
      .inr ⟨_, .complete, Problem.find_limits⟩, List.forall_mem_nil _⟩

/-- Integers that are written are kept. -/
theorem Problem.integerTokens_of_complete {d : Json} (hordered : d.Ordered)
    (h : Problem.IntegerTokens (Problem.complete d)) : Problem.IntegerTokens d := by
  cases d with
  | obj fields =>
    refine ⟨fun v hv => h.1 v ?_, fun v hv => ?_⟩
    · exact (Problem.find_completeFields (by decide) (by decide)).trans hv
    · have hv : Json.find "limits" fields = some v := hv
      have hlimits := h.2 _ (Problem.find_limits fields)
      rw [hv, Option.getD_some] at hlimits
      cases v with
      | obj limits =>
        have hnodup := (hordered.2.find hv).1.nodup
        refine ⟨fun w hw => hlimits.1 w ?_, fun w hw => hlimits.2 w ?_⟩
        · exact (Json.find_extend_or hnodup).trans (by rw [show Json.find "wall_sec" limits = some w from hw]; rfl)
        · exact (Json.find_extend_or hnodup).trans (by rw [show Json.find "memory_mb" limits = some w from hw]; rfl)
      | _ => exact hlimits
  | _ => exact h

/-! ## Configurations -/

/-- The defaults of `features` in `schemas/config.schema.json`. -/
def featuresDefaults : List (String × Json) :=
  [("indexer", .bool false), ("lightning", .bool false), ("objectstore", .bool false), ("observability", .bool false)]

/-- A configuration with its defaults written out. -/
def Config.complete : Json → Json := Json.mapFields (Json.completeBlock "features" featuresDefaults)

theorem Features.restores : Restores featuresSchema Features.fromJson Features.toJson
    (Json.complete featuresDefaults) := by
  have hsorted : ["indexer", "lightning", "objectstore", "observability"].Pairwise (· < ·) := by decide
  refine Restores.object (.extend hsorted (by decide)) hsorted (by decide) (fun _ => .refl _)
    fun fields f hfields hordered hp hf => ?_
  simp only [List.forall_mem_cons] at hp
  obtain ⟨hp0, hp1, hp2, hp3, -⟩ := hp
  simp only [Visitor.build_field, Visitor.build_of, bind_assoc, pure_bind, bind_eq_ok_iff] at hf
  obtain ⟨_, h0, _, h1, _, h2, _, h3, hf⟩ := hf
  cases hf
  have hlightning := Restores.bool.find_of_read_default featuresDefaults hordered hp0 rfl h0
  have hindexer := Restores.bool.find_of_read_default featuresDefaults hordered hp1 rfl h1
  have hobjectstore := Restores.bool.find_of_read_default featuresDefaults hordered hp2 rfl h2
  have hobservability := Restores.bool.find_of_read_default featuresDefaults hordered hp3 rfl h3
  simp only [List.map_cons, List.map_nil, List.forall_mem_cons, Json.find_extend_or hfields.nodup, hlightning,
    hindexer, hobjectstore, hobservability]
  exact ⟨rfl, rfl, rfl, rfl, List.forall_mem_nil _⟩

theorem category_restores : Restores categorySchema Category.fromJson Category.toJson id := by
  have hsorted : ["description", "id", "title"].Pairwise (· < ·) := by decide
  refine .of_unchanged (Restores.object .unchanged hsorted (by decide) (fun c => ?_)
    fun fields c hfields hordered hp hc => ?_)
  · rcases c with ⟨id, title, _ | description⟩
    · exact List.sublist_cons_self ..
    · exact .refl _
  · simp only [List.forall_mem_cons] at hp
    obtain ⟨hp0, hp1, hp2, -⟩ := hp
    simp only [Visitor.build_field, Visitor.build_of, bind_assoc, pure_bind, bind_eq_ok_iff] at hc
    obtain ⟨_, h0, _, h1, description, h2, hc⟩ := hc
    cases hc
    have hid := (Restores.string.wrap CategoryId.mk CategoryId.asStr fun _ => rfl).find_of_read hordered hp0 h0
    simp only [List.map_cons, List.map_nil, List.forall_mem_cons, id_eq, hid,
      Restores.string.find_of_read hordered hp1 h1, Restores.string.find_of_read_option rfl hordered hp2 h2]
    cases description <;> exact ⟨rfl, rfl, rfl, List.forall_mem_nil _⟩

theorem track_restores : Restores trackSchema Track.fromJson Track.toJson id := by
  have hsorted : ["id", "problems", "title"].Pairwise (· < ·) := by decide
  refine .of_unchanged (Restores.object .unchanged hsorted (by decide) (fun _ => .refl _)
    fun fields t hfields hordered hp ht => ?_)
  simp only [List.forall_mem_cons] at hp
  obtain ⟨hp0, hp1, hp2, -⟩ := hp
  simp only [Visitor.build_field, Visitor.build_of, bind_assoc, pure_bind, bind_eq_ok_iff] at ht
  obtain ⟨_, h0, _, h1, _, h2, ht⟩ := ht
  cases ht
  have hid := (Restores.string.wrap TrackId.mk TrackId.asStr fun _ => rfl).find_of_read hordered hp0 h0
  have hproblems :=
    (Restores.string.wrap ProblemId.mk ProblemId.asStr fun _ => rfl).vec.find_of_read hordered hp2 h2
  simp only [List.map_cons, List.map_nil, List.forall_mem_cons, id_eq, hid, hproblems,
    Restores.string.find_of_read hordered hp1 h1]
  exact ⟨rfl, rfl, rfl, List.forall_mem_nil _⟩

theorem Config.restores : Restores configSchema Config.fromJson Config.toJson Config.complete := by
  have hsorted : ["categories", "features", "schema_version", "title", "tracks"].Pairwise (· < ·) := by decide
  refine Restores.object (.block (by decide)) hsorted (by decide) (fun _ => .refl _)
    fun fields c hfields hordered hp hc => ?_
  simp only [List.forall_mem_cons] at hp
  obtain ⟨hp0, hp1, hp2, hp3, hp4, -⟩ := hp
  simp only [Visitor.build_field, Visitor.build_of, bind_assoc, pure_bind, bind_eq_ok_iff] at hc
  obtain ⟨_, h0, _, h1, _, h2, _, h3, _, h4, hc⟩ := hc
  cases hc
  have hfeatures := Features.restores.complete_of_read hordered hp2 rfl h2
  simp only [List.map_cons, List.map_nil, List.forall_mem_cons, Json.find_completeBlock, String.reduceEq, if_true,
    if_false, hfeatures, Restores.u32.find_of_read hordered hp0 h0,
    Restores.string.find_of_read hordered hp1 h1, category_restores.vec.find_of_read hordered hp3 h3,
    track_restores.vec.find_of_read hordered hp4 h4]
  exact ⟨rfl, rfl, rfl, rfl, rfl, List.forall_mem_nil _⟩

theorem Config.reflects : Reflects configSchema Config.complete := by
  have hkeys : ∀ k ∈ ["schema_version", "title", "categories", "tracks"], k ≠ "features" := by decide
  have hsame : ∀ k ∈ ["schema_version", "title", "categories", "tracks"], ∀ fields,
      Json.find k (Json.completeBlock "features" featuresDefaults fields) = Json.find k fields :=
    fun k hk _ => Json.find_completeBlock.trans (if_neg (hkeys k hk))
  refine Reflects.object hsame (fun fields k hk => Json.mem_keys_insert.mpr (Or.inr hk)) ?_
  simp only [List.forall_mem_cons] at hsame ⊢
  obtain ⟨h0, h1, h2, h3, -⟩ := hsame
  exact ⟨.inl h0, .inl h1, .inr ⟨_, .complete, fun _ => Json.find_completeBlock.trans (if_pos rfl)⟩, .inl h2, .inl h3,
    List.forall_mem_nil _⟩

theorem Config.integerTokens_of_complete {d : Json} (h : Config.IntegerTokens (Config.complete d)) :
    Config.IntegerTokens d := by
  cases d with
  | obj fields => exact fun v hv => h v ((Json.find_completeBlock.trans (if_neg (by decide))).trans hv)
  | _ => exact h

/-! ## Loading -/

/-- Loading keeps what is written, and adds the defaults of the schema and nothing else. -/
structure KeepsWritten {α : Type} (fromSlice : List UInt8 → Except String Json)
    (load : List UInt8 → Except ContractError α) (toJson : α → Json) (complete : Json → Json) : Prop where
  /-- What loads is written as the document with its defaults. -/
  toJson_eq : ∀ bytes d a, fromSlice bytes = .ok d → d.Ordered → load bytes = .ok a → toJson a = complete d
  /-- With its defaults written out a document loads as it does without. -/
  complete_iff : ∀ bytes bytes' d, fromSlice bytes = .ok d → d.Ordered → fromSlice bytes' = .ok (complete d) →
    ∀ a, load bytes' = .ok a ↔ load bytes = .ok a
  /-- Two documents load alike only if they are the same with their defaults. -/
  eq_iff : ∀ bytes bytes' d d' a a', fromSlice bytes = .ok d → d.Ordered → fromSlice bytes' = .ok d' → d'.Ordered →
    load bytes = .ok a → load bytes' = .ok a' → (a = a' ↔ complete d = complete d')

section Load
variable {α : Type} {fromSlice : List UInt8 → Except String Json} {v : Validator} {file : ContractFile}
  {fromValue : Json → Except DeError α} {toJson : α → Json} {wf : α → Prop} {readable : Json → Prop}
  {complete : Json → Json}

theorem toJson_of_load (file : ContractFile) (h : Restores (schemaFor file) fromValue toJson complete)
    {bytes : List UInt8} {d : Json} {a : α} (hd : fromSlice bytes = .ok d) (hordered : d.Ordered)
    (ha : load fromSlice v file fromValue bytes = .ok a) : toJson a = complete d := by
  obtain ⟨_, hd', hvalid, hde⟩ := load_eq_ok_iff.mp ha
  obtain rfl := Except.ok.inj (hd.symm.trans hd')
  exact h d a hordered hvalid hde

theorem keepsWritten (hfits : Fits (schemaFor file) fromValue toJson wf readable)
    (hrestores : Restores (schemaFor file) fromValue toJson complete) (hreflects : Reflects (schemaFor file) complete)
    (hreadable : ∀ d : Json, d.Ordered → readable (complete d) → readable d) :
    KeepsWritten fromSlice (load fromSlice v file fromValue) toJson complete := by
  have hinj : ∀ a a' : α, toJson a = toJson a' → a = a' := fun a a' h =>
    Except.ok.inj ((hfits.de_ser a).symm.trans (h ▸ hfits.de_ser a'))
  have hcomplete : ∀ bytes bytes' d, fromSlice bytes = .ok d → d.Ordered → fromSlice bytes' = .ok (complete d) →
      ∀ a, load fromSlice v file fromValue bytes = .ok a → load fromSlice v file fromValue bytes' = .ok a := by
    intro bytes bytes' d hd hordered hd' a ha
    have htext : fromSlice bytes' = .ok (toJson a) := by rw [toJson_of_load file hrestores hd hordered ha, hd']
    exact (load_toJson file hfits htext).1 (wf_of_load file hfits ha).1
  refine ⟨fun bytes d a => toJson_of_load file hrestores, fun bytes bytes' d hd hordered hd' a => ⟨fun ha => ?_, ?_⟩,
    fun bytes bytes' d d' a a' hd hordered hd' hordered' ha ha' => ?_⟩
  · obtain ⟨_, hd'', hvalid, hde⟩ := load_eq_ok_iff.mp ha
    obtain rfl := Except.ok.inj (hd'.symm.trans hd'')
    have hvalid' := hreflects d hordered hvalid
    obtain ⟨a', ha'⟩ := (hfits.de_iff d hvalid').mpr (hreadable d hordered ((hfits.de_iff _ hvalid).mp ⟨a, hde⟩))
    have hload : load fromSlice v file fromValue bytes = .ok a' := load_eq_ok_iff.mpr ⟨d, hd, hvalid', ha'⟩
    obtain rfl := Except.ok.inj (ha.symm.trans (hcomplete bytes bytes' d hd hordered hd' a' hload))
    exact hload
  · exact hcomplete bytes bytes' d hd hordered hd' a
  · rw [← toJson_of_load file hrestores hd hordered ha, ← toJson_of_load file hrestores hd' hordered' ha']
    exact ⟨congrArg toJson, hinj a a'⟩

end Load

/-- **Loading a manifest keeps what is written in it: serializing gives the document back, with the defaults of the
schema written out and nothing else changed; and whether the defaults are written out never matters.** -/
theorem manifests_keep_written (fromSlice : List UInt8 → Except String Json) (v : Validator) :
    KeepsWritten fromSlice (loadProblem fromSlice v) Problem.toJson Problem.complete ∧
      KeepsWritten fromSlice (loadConfig fromSlice v) Config.toJson Config.complete :=
  ⟨keepsWritten Problem.fits Problem.restores Problem.reflects fun _ => Problem.integerTokens_of_complete,
    keepsWritten Config.fits Config.restores Config.reflects fun _ _ => Config.integerTokens_of_complete⟩

/-- A manifest that leaves out the services and names one of the limits. -/
def plainManifest : Json :=
  .obj [
    ("category", .str "psbt"),
    ("difficulty", .str "easy"),
    ("fixture", .str "funded"),
    ("id", .str "week-1"),
    ("languages", .arr [.str "rust"]),
    ("limits", .obj [("wall_sec", .num (.posInt 60))]),
    ("schema_version", .num (.posInt 1)),
    ("title", .str "Spend an output")]

def plainProblem : Problem :=
  ⟨1, ⟨"week-1"⟩, "Spend an output", ⟨"psbt"⟩, .easy, [.rust], ⟨"funded"⟩, .default, ⟨60, defaultMemoryMb⟩⟩

/-- A parser that has seen the manifest and, as any other bytes, the manifest with its defaults. -/
def readPlain (bytes : List UInt8) : Except String Json :=
  if bytes = [] then .ok plainManifest else .ok (Problem.complete plainManifest)

theorem manifests_keep_written_plain :
    loadProblem readPlain .wholeDocument [] = .ok plainProblem ∧
      loadProblem readPlain .wholeDocument [0x7b] = .ok plainProblem ∧
      Problem.complete plainManifest = plainProblem.toJson := by
  have hordered : plainManifest.Ordered := by
    have hkeys : ["category", "difficulty", "fixture", "id", "languages", "limits", "schema_version",
      "title"].Pairwise (· < ·) := by decide
    exact ⟨hkeys, trivial, trivial, trivial, trivial, ⟨trivial, trivial⟩,
      ⟨List.pairwise_singleton _ _, trivial, trivial⟩, trivial, trivial, trivial⟩
  have hload : loadProblem readPlain .wholeDocument [] = .ok plainProblem :=
    load_eq_ok_iff.mpr ⟨plainManifest, rfl, by decide, rfl⟩
  obtain ⟨⟨hwritten, hcomplete, -⟩, -⟩ := manifests_keep_written readPlain .wholeDocument
  exact ⟨hload, (hcomplete [] [0x7b] plainManifest rfl hordered rfl plainProblem).mpr hload,
    (hwritten [] plainManifest plainProblem rfl hordered hload).symm⟩

/-! ## What a document says -/

/-- A problem that loads accepts the languages that its document names. -/
theorem accepts_of_load {fromSlice : List UInt8 → Except String Json} {v : Validator} {bytes : List UInt8} {d : Json}
    {p : Problem} (hd : fromSlice bytes = .ok d) (hordered : d.Ordered) (hp : loadProblem fromSlice v bytes = .ok p)
    {language : Language} : p.accepts language = true ↔
      ∃ items, d.get? "languages" = some (.arr items) ∧ .str language.asStr ∈ items := by
  have hwritten := toJson_of_load .problem Problem.restores hd hordered hp
  have hlanguages : d.get? "languages" = some (.arr (p.languages.map Language.toJson)) := by
    cases d with
    | obj fields =>
      have hfind := congrArg (Json.find "languages") (Json.obj.inj hwritten)
      rw [Problem.find_completeFields (by decide) (by decide)] at hfind
      exact hfind.symm
    | _ => cases hwritten
  rw [hlanguages, Problem.accepts, List.contains_iff_mem]
  constructor
  · exact fun h => ⟨_, rfl, List.mem_map_of_mem h⟩
  · rintro ⟨items, hitems, hmem⟩
    obtain rfl := Json.arr.inj (Option.some.inj hitems)
    obtain ⟨l, hl, hlabel⟩ := List.mem_map.mp hmem
    obtain rfl := Language.asStr_injective (Json.str.inj hlabel)
    exact hl

/-- A feature that a configuration turns on. -/
def turnsOn (d : Json) (name : String) : Bool :=
  ((d.get? "features").bind (Json.get? name)).bind Json.asBool = some true

/-- What the features of a configuration say is what its document turns on. -/
theorem turnsOn_of_complete {d : Json} {features : List (String × Json)} (hordered : d.Ordered)
    (h : Json.complete featuresDefaults ((d.get? "features").getD (.obj [])) = .obj features) {name : String} {b : Bool}
    (hname : Json.find name featuresDefaults = some (.bool false)) (hb : Json.find name features = some (.bool b)) :
    turnsOn d name = b := by
  unfold turnsOn
  cases hd : d.get? "features" with
  | none =>
    rw [hd] at h
    obtain rfl := Json.obj.inj h
    obtain rfl : false = b := Json.bool.inj (Option.some.inj (hname.symm.trans hb))
    rfl
  | some block =>
    rw [hd] at h
    cases block with
    | obj members =>
      obtain rfl := Json.obj.inj h
      have hmembers : Json.SortedKeys members := by
        cases d with
        | obj fields => exact (hordered.2.find hd).1
        | _ => cases hd
      rw [Json.find_extend_or hmembers.nodup, hname] at hb
      show decide ((Json.find name members).bind Json.asBool = some true) = b
      cases hmember : Json.find name members with
      | none =>
        rw [hmember] at hb
        cases hb
        rfl
      | some x =>
        rw [hmember] at hb
        cases hb
        cases b <;> rfl
    | _ => cases h

/-- The profiles of a configuration that loads are `core` and the features that its document turns on. -/
theorem profiles_of_load {fromSlice : List UInt8 → Except String Json} {v : Validator} {bytes : List UInt8} {d : Json}
    {c : Config} (hd : fromSlice bytes = .ok d) (hordered : d.Ordered) (hc : loadConfig fromSlice v bytes = .ok c) :
    c.composeProfiles = "core" :: ["lightning", "indexer", "objectstore", "observability"].filter (turnsOn d) := by
  have hwritten := toJson_of_load .config Config.restores hd hordered hc
  have hfeatures : Json.complete featuresDefaults ((d.get? "features").getD (.obj [])) = c.features.toJson := by
    cases d with
    | obj fields =>
      have hfind := congrArg (Json.find "features") (Json.obj.inj hwritten)
      rw [Json.find_completeBlock, if_pos rfl] at hfind
      exact (Option.some.inj hfind).symm
    | _ => cases hwritten
  have hlightning : turnsOn d "lightning" = c.features.lightning := turnsOn_of_complete hordered hfeatures rfl rfl
  have hindexer : turnsOn d "indexer" = c.features.indexer := turnsOn_of_complete hordered hfeatures rfl rfl
  have hobjectstore : turnsOn d "objectstore" = c.features.objectstore := turnsOn_of_complete hordered hfeatures rfl rfl
  have hobservability : turnsOn d "observability" = c.features.observability :=
    turnsOn_of_complete hordered hfeatures rfl rfl
  simp only [List.filter_cons, List.filter_nil, hlightning, hindexer, hobjectstore, hobservability]
  unfold Config.composeProfiles
  cases c.features.lightning <;> cases c.features.indexer <;> cases c.features.objectstore <;>
    cases c.features.observability <;> rfl

end Satunera.Contracts
