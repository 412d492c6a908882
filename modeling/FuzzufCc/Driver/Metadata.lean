import FuzzufCc.Driver.Command
import FuzzufCc.Driver.MapBounds
import FuzzufCc.Lib.Dict
import FuzzufCc.Lib.Json

/-!
# Metadata — what the driver writes into the file that it instruments

After the compiler has run, `Instrumentor.instrument` packs the metadata of the features and its own
into one JSON text and adds that to the output as the section `.fuzzing-config-…`.  A fuzzer has
nothing but this text to tell it what the bytes of the map mean.
-/

namespace FuzzufCc

open LLVM Libc FileName

namespace Driver

structure MetaData where
  name : String
  version : Int
  data : List (String × Json.Value)

def MEATDATA_VERSION : Int := 2

/-- `MetaData.pack`. -/
def MetaData.pack (metadata : List MetaData) (filename : String) : Json.Value :=
  .obj [
    ("version", .int MEATDATA_VERSION),
    ("filename", .str filename),
    ("versions", .obj (Dict.ofPairs (metadata.map fun data => (data.name, .int data.version)))),
    ("data", .obj (Dict.ofPairs (metadata.map fun data => (data.name, .obj data.data))))]

/-- The `metadata` of the features, from the attributes that `create` sets. -/
def FeatureName.metadata (args : Arguments) : FeatureName → MetaData
  | .bbIdAssigner => {
      name := "bb-id-assigner"
      version := 2
      data := [
        ("nodeGenerationStrategy", .str args.nodeSelectionStrategy.text),
        ("idGenerationStrategy", .str args.idGenerationStrategy.text),
        ("mapSize", match (createBBIDAssigner args).recordedMapSize with
          | none => .null
          | some mapSize => .int mapSize)] }
  | .bitMapFeedback => {
      name := "bitmap"
      version := 2
      data := [
        ("mapSizePow2", .int (createBitMapFeedback args).mapSizePow2),
        ("shmEnvVar", .str (createBitMapFeedback args).shmEnvVar),
        ("loadPoint", .str args.bitmapLoadPoint.text),
        ("instrumentationMethod", .str (instrumentationMethodText args.instrumentationMethod)),
        ("updateMethod", .str (updateMethodText args.updateMethod))] }
  | .cfgExporter => {
      name := "cfg-exporter"
      version := 2
      data := [("loadPoint", .str args.cfgExporterLoadPoint.text)] }
  | .ijonFeedback => {
      name := "ijon"
      version := 1
      data := [
        ("mapSizePow2", .int createIjonFeedback.mapSizePow2),
        ("shmEnvVar", .str createIjonFeedback.shmEnvVar)] }
  | .forkServer => {
      name := "forkserver"
      version := 1
      data := [
        ("version", .str "0.2.0"),
        ("channelRecv", .int createForkServer.channelRecv),
        ("channelSend", .int createForkServer.channelSend)] }

/-- The name and the version under which a driver script registers. -/
structure Instrumentor where
  name : String
  version : String

def Instrumentor.metadata (self : Instrumentor) : MetaData where
  name := "instrumentor"
  version := 1
  data := [
    ("ccName", .str "fuzzuf-cc"),
    ("ccVersion", .str "0.2.0"),
    ("name", .str self.name),
    ("version", .str self.version)]

/-- What is packed for the features `names` and the output `put`. -/
def Instrumentor.packed (self : Instrumentor) (args : Arguments) (names : List FeatureName)
    (put : String) : Json.Value :=
  MetaData.pack (names.map (FeatureName.metadata args) ++ [self.metadata])
    (String.ofList (basename put.toList))

/-- The content of the section `.fuzzing-config-…`. -/
def Instrumentor.fuzzingConfig (self : Instrumentor) (args : Arguments) (names : List FeatureName)
    (put : String) : List Char :=
  Json.dump (self.packed args names put)

/-! ## What the section lists -/

section Lists

variable (self : Instrumentor) (args : Arguments) (names : List FeatureName) (put : String)

theorem FeatureName.metadata_name_injective :
    Function.Injective fun name => (FeatureName.metadata args name).name := by
  intro name name' h
  cases name <;> cases name' <;> first | rfl | simp [FeatureName.metadata] at h

theorem FeatureName.metadata_name_ne (name : FeatureName) :
    (name.metadata args).name ≠ self.metadata.name := by
  cases name <;> simp [FeatureName.metadata, Instrumentor.metadata]

/-- A feature, or the driver itself. -/
theorem mem_packed {α : Type} (f : MetaData → α) {key : String} {value : α} :
    (key, value) ∈ (names.map (FeatureName.metadata args) ++ [self.metadata]).map
        (fun data => (data.name, f data)) ↔
      (key = "instrumentor" ∧ value = f self.metadata) ∨
        ∃ name ∈ names, key = (name.metadata args).name ∧ value = f (name.metadata args) := by
  simp only [List.map_append, List.map_map, List.mem_append, List.mem_map, Function.comp_apply,
    List.map_cons, List.map_nil, List.mem_singleton, Prod.mk.injEq]
  constructor
  · rintro (⟨name, hname, rfl, rfl⟩ | ⟨rfl, rfl⟩)
    · exact Or.inr ⟨name, hname, rfl, rfl⟩
    · exact Or.inl ⟨rfl, rfl⟩
  · rintro (⟨rfl, rfl⟩ | ⟨name, hname, rfl, rfl⟩)
    · exact Or.inr ⟨rfl, rfl⟩
    · exact Or.inl ⟨name, hname, rfl, rfl⟩

/-- A feature that is given twice has one record. -/
theorem lookup_packed {α : Type} (f : MetaData → α) {key : String} {value : α} :
    (Dict.ofPairs ((names.map (FeatureName.metadata args) ++ [self.metadata]).map
        fun data => (data.name, f data))).lookup key = some value ↔
      (key = "instrumentor" ∧ value = f self.metadata) ∨
        ∃ name ∈ names, key = (name.metadata args).name ∧ value = f (name.metadata args) := by
  rw [Dict.lookup_ofPairs_eq_some_iff, mem_packed]
  intro k v v' hv hv'
  rw [mem_packed] at hv hv'
  rcases hv with ⟨hk, rfl⟩ | ⟨name, _, rfl, rfl⟩
  · rcases hv' with ⟨_, rfl⟩ | ⟨name, _, hname, _⟩
    · rfl
    · exact absurd (hname.symm.trans hk) (name.metadata_name_ne self args)
  · rcases hv' with ⟨hk, _⟩ | ⟨name', _, hname, rfl⟩
    · exact absurd hk (name.metadata_name_ne self args)
    · rw [FeatureName.metadata_name_injective args hname]

/-- The records of all features and of the driver. -/
theorem packed_data_key (key : String) :
    (self.packed args names put).at? ["data", key] =
      (Dict.ofPairs ((names.map (FeatureName.metadata args) ++ [self.metadata]).map
        fun data => (data.name, Json.Value.obj data.data))).lookup key :=
  Json.Value.at?_pair _ "data" key

theorem packed_record {name : FeatureName} (hname : name ∈ names) (key : String) :
    (self.packed args names put).at? ["data", (name.metadata args).name, key] =
      (name.metadata args).data.lookup key := by
  have hdata : (self.packed args names put).at? ["data", (name.metadata args).name] =
      some (.obj (name.metadata args).data) := by
    rw [packed_data_key, lookup_packed]
    exact Or.inr ⟨name, hname, rfl, rfl⟩
  calc (self.packed args names put).at? ["data", (name.metadata args).name, key]
      = ((self.packed args names put).at? ["data", (name.metadata args).name]).bind
          fun w => w.at? [key] :=
        Json.Value.at?_append _ ["data", (name.metadata args).name] [key]
    _ = (Json.Value.obj (name.metadata args).data).at? [key] := by rw [hdata, Option.bind_some]
    _ = (name.metadata args).data.lookup key := Json.Value.at?_singleton _ key

end Lists

/-! ## What a reader makes of it -/

/-- What a reader of the section knows about the map. -/
structure MapFormat where
  instrumentationMethod : AFLCoverage.InstrumentationMethod
  updateMethod : AFLCoverage.UpdateMethod
  loadPoint : LoadPoint
  mapSizePow2 : Int
  /-- The bound of the ids; none if they count up. -/
  mapSize : Option Int

/-- The member of a list with this text. -/
def ofText {α : Type} (all : List α) (text : α → String) : Json.Value → Option α
  | .str s => all.find? fun a => text a == s
  | _ => none

def ofInt : Json.Value → Option Int
  | .int n => some n
  | _ => none

def ofNullable : Json.Value → Option (Option Int)
  | .null => some none
  | .int n => some (some n)
  | _ => none

/-- A reader of the section. -/
def MapFormat.read (text : List Char) : Option MapFormat := do
  let v ← Json.parse text
  let im ← v.at? ["data", "bitmap", "instrumentationMethod"]
  let um ← v.at? ["data", "bitmap", "updateMethod"]
  let loadPoint ← v.at? ["data", "bitmap", "loadPoint"]
  let mapSizePow2 ← v.at? ["data", "bitmap", "mapSizePow2"]
  let mapSize ← v.at? ["data", "bb-id-assigner", "mapSize"]
  return {
    instrumentationMethod := ← ofText [.hashedEdge, .node] instrumentationMethodText im
    updateMethod := ← ofText [.naive, .avoidZero, .capFF] updateMethodText um
    loadPoint := ← ofText [.optimizerLast, .fullLinkTimeOptimizationLast] LoadPoint.text loadPoint
    mapSizePow2 := ← ofInt mapSizePow2
    mapSize := ← ofNullable mapSize }

/-- The format that the arguments describe. -/
def Arguments.mapFormat (args : Arguments) : MapFormat where
  instrumentationMethod := args.instrumentationMethod
  updateMethod := args.updateMethod
  loadPoint := args.bitmapLoadPoint
  mapSizePow2 := (createBitMapFeedback args).mapSizePow2
  mapSize := (createBBIDAssigner args).recordedMapSize

/-- The section tells every argument that the format depends on. -/
theorem read_fuzzingConfig (self : Instrumentor) (args : Arguments) {names : List FeatureName}
    (put : String) (hassigner : FeatureName.bbIdAssigner ∈ names)
    (hbitmap : FeatureName.bitMapFeedback ∈ names) :
    MapFormat.read (self.fuzzingConfig args names put) = some args.mapFormat := by
  have hrecord := fun key => packed_record self args names put hbitmap key
  have him := hrecord "instrumentationMethod"
  have hum := hrecord "updateMethod"
  have hload := hrecord "loadPoint"
  have hpow := hrecord "mapSizePow2"
  have hids := packed_record self args names put hassigner "mapSize"
  have himText : ofText [.hashedEdge, .node] instrumentationMethodText
      (.str (instrumentationMethodText args.instrumentationMethod)) =
        some args.instrumentationMethod := by
    cases args.instrumentationMethod <;> rfl
  have humText : ofText [.naive, .avoidZero, .capFF] updateMethodText
      (.str (updateMethodText args.updateMethod)) = some args.updateMethod := by
    cases args.updateMethod <;> rfl
  have hloadText : ofText [.optimizerLast, .fullLinkTimeOptimizationLast] LoadPoint.text
      (.str args.bitmapLoadPoint.text) = some args.bitmapLoadPoint := by
    cases args.bitmapLoadPoint <;> rfl
  have hnullable : ofNullable (match (createBBIDAssigner args).recordedMapSize with
      | none => .null
      | some mapSize => .int mapSize) = some (createBBIDAssigner args).recordedMapSize := by
    cases (createBBIDAssigner args).recordedMapSize <;> rfl
  simp only [FeatureName.metadata] at hids him hum hload hpow
  simp [MapFormat.read, Instrumentor.fuzzingConfig, Json.parse_dump, him, hum, hload, hpow, hids,
    himText, humText, hloadText, hnullable, ofInt, Arguments.mapFormat, Dict.lookup_cons]

/-! ## What a run means to the reader -/

/-- Ids as the format has them. -/
def MapFormat.IdsIn (format : MapFormat) (blocks : List BlockRef) (ids : IdMap) : Prop :=
  match format.mapSize with
  | none => ∀ bb id, ids.find bb = some id ↔ ∃ i, blocks[i]? = some bb ∧ id = BitVec.ofNat 32 i
  | some size => ∀ bb id, ids.find bb = some id → (id.toNat : Int) < size

theorem mapSize_eq_pow (args : Arguments) :
    (Runtime.Bitmap.MAP_SIZE : Int) = 2 ^ args.mapFormat.mapSizePow2.toNat := by
  rw [mapSize_eq_recorded args]
  rfl

section Decoding

variable {cc : Compiler} {parent : Env} {args : Arguments} {names : List FeatureName}
  {step : Step} {p : Plan}

/-- Where the coverage pass runs, it finds the methods of the arguments. -/
theorem PlanSpec.coverage (h : PlanSpec cc parent args names step p)
    (hcoverage : Pass.aflCoverage ∈ p.passes) :
    FeatureName.bitMapFeedback ∈ names ∧ args.bitmapLoadPoint = step.point ∧
      AFLCoverage.instrumentationMethod p.env = .ok args.instrumentationMethod ∧
      AFLCoverage.updateMethod p.env = .ok args.updateMethod := by
  have hpasses := h.passes
  cases hloads : loadsPlugins args step with
  | false =>
      rw [hpasses, hloads] at hcoverage
      cases hcoverage
  | true =>
      rw [hpasses, hloads, if_pos rfl] at hcoverage
      rcases List.mem_filterMap.1 hcoverage with ⟨name, hname, hpass⟩
      obtain ⟨rfl, hpoint⟩ : name = .bitMapFeedback ∧ args.bitmapLoadPoint = step.point := by
        cases name <;> simp [FeatureName.passAt] at hpass ⊢
        exact hpass.1
      have hvars := bitMapFeedback_vars hloads hpoint
      have himVar : (AFLCoverage.instrumentationMethodKey,
          instrumentationMethodText args.instrumentationMethod) ∈
            FeatureName.bitMapFeedback.vars args := by
        rw [hvars]
        simp [AFLCoverage.instrumentationMethodKey]
      have humVar : (AFLCoverage.updateMethodKey, updateMethodText args.updateMethod) ∈
          FeatureName.bitMapFeedback.vars args := by
        rw [hvars]
        simp [AFLCoverage.updateMethodKey]
      have him := envvars_of_mem parent hname himVar
      have hum := envvars_of_mem parent hname humVar
      refine ⟨hname, hpoint, ?_, ?_⟩
      · rw [h.env, AFLCoverage.instrumentationMethod, him]
        cases args.instrumentationMethod <;> rfl
      · rw [h.env, AFLCoverage.updateMethod, hum]
        cases args.updateMethod <;> rfl

/-- An analysis that is registered belongs to a feature that was selected. -/
theorem PlanSpec.assigner (h : PlanSpec cc parent args names step p)
    (hreg : p.plugins.contains .bbIdAssigner) : FeatureName.bbIdAssigner ∈ names := by
  have hmem := List.contains_iff_mem.1 hreg
  rw [h.plugins] at hmem
  split at hmem
  · rcases List.mem_filterMap.1 hmem with ⟨name, hname, hplugin⟩
    cases name <;> simp [FeatureName.pluginAt] at hplugin
    exact hname
  · cases hmem

/-- Only random ids have a bound. -/
theorem mapFormat_mapSize (args : Arguments) :
    args.mapFormat.mapSize =
      match args.idGenerationStrategy with
      | .random => some args.mapSize
      | .sequential => none := by
  cases hcase : args.idGenerationStrategy <;>
    simp [Arguments.mapFormat, createBBIDAssigner, hcase, IdGenerationStrategy.text]

/-- The map size, if there is one, is a positive `int`. -/
def Arguments.SizeFits (args : Arguments) : Prop :=
  args.idGenerationStrategy = .random → 1 ≤ args.mapSize ∧ args.mapSize < 2 ^ 31

theorem PlanSpec.idsIn (h : PlanSpec cc parent args names step p)
    (hassigner : FeatureName.bbIdAssigner ∈ names) (hdraws : cc.toToolchain.DrawsInRange)
    (hsize : args.SizeFits) {M : Module} {res : BBIDAssigner.Result}
    (hrun : BBIDAssigner.run cc.toToolchain p.env M = .ok res) :
    args.mapFormat.IdsIn (blocksWithIds cc.toToolchain p.env M) res.ids := by
  have hstrategy := envvars_of_mem parent hassigner (generationStrategy_mem_vars args)
  rw [← h.env] at hstrategy
  rcases BBIDAssigner.run_spec hrun with ⟨hmodule, gen, hgen, hids⟩
  rw [hmodule] at hids
  cases hcase : args.idGenerationStrategy with
  | sequential =>
      rw [hcase] at hstrategy
      obtain rfl := Except.ok.inj ((BBIDAssigner.generator_sequential hstrategy).symm.trans hgen)
      have hnone : args.mapFormat.mapSize = none := by rw [mapFormat_mapSize, hcase]
      rw [MapFormat.IdsIn, hnone]
      exact hids
  | random =>
      have hmapSize := envvars_of_mem parent hassigner (mapSize_mem_vars hcase)
      rw [← h.env] at hmapSize
      rw [hcase] at hstrategy
      rcases BBIDAssigner.generator_random hstrategy hmapSize hgen with ⟨hpos, rfl⟩
      rcases hsize hcase with ⟨hone, hlt⟩
      have hsome : args.mapFormat.mapSize = some args.mapSize := by rw [mapFormat_mapSize, hcase]
      rw [MapFormat.IdsIn, hsome]
      intro bb id hfind
      rcases (hids bb id).1 hfind with ⟨i, _, rfl⟩
      -- the text of the size is read back as the size
      have hread : (atoi (pyStr args.mapSize).toList).toNat = args.mapSize.toNat := by
        obtain ⟨n, hn⟩ := Int.eq_ofNat_of_zero_le (by omega : 0 ≤ args.mapSize)
        rw [hn, atoi_pyStr (by omega), BitVec.toNat_ofNat, Nat.mod_eq_of_lt (by omega)]
        rfl
      have hdraw := hdraws res.module.name BBIDAssigner.name i
        (atoi (pyStr args.mapSize).toList - 1)
      have hbounds := BBIDAssigner.mapSize_bounds hpos
      dsimp only
      omega

/-- Ids as the format has them need no sign. -/
theorem MapFormat.IdsIn.lt {format : MapFormat} {blocks : List BlockRef} {ids : IdMap}
    (h : format.IdsIn blocks ids) (hsize : ∀ size, format.mapSize = some size → size < 2 ^ 31)
    (hblocks : blocks.length ≤ 2 ^ 31) {bb : BlockRef} {id : BitVec 32}
    (hfind : ids.find bb = some id) : id.toNat < 2 ^ 31 := by
  cases hcase : format.mapSize with
  | none =>
      rw [IdsIn, hcase] at h
      rcases (h bb id).1 hfind with ⟨i, hi, rfl⟩
      have hlt := (List.getElem?_eq_some_iff.1 hi).1
      rw [BitVec.toNat_ofNat, Nat.mod_eq_of_lt (by omega)]
      omega
  | some size =>
      rw [IdsIn, hcase] at h
      have hlt := h bb id hfind
      have hsmall := hsize size hcase
      omega

/-- **Decoding.** Whatever features, options and output a successful step had: where the coverage
pass ran, a reader of the section alone knows the size of the map, what the ids are, and for every
run of the instrumented program what each byte of the map counts and how. -/
theorem fuzzingConfig_decodes (self : Instrumentor) {keys : List String} {M : Module}
    {st : PassState} (put : String) (hplan : plan cc parent args keys step = .ok p)
    (hbuild : build cc parent args keys step M = .ok st)
    (hcoverage : Pass.aflCoverage ∈ p.passes) (hdraws : cc.toToolchain.DrawsInRange)
    (hsize : args.SizeFits) (hblocks : (blocksWithIds cc.toToolchain p.env M).length ≤ 2 ^ 31) :
    ∃ names format ids, selectFeatures keys = .ok names ∧
      MapFormat.read (self.fuzzingConfig args names put) = some format ∧
      format.loadPoint = step.point ∧
      (Runtime.Bitmap.MAP_SIZE : Int) = 2 ^ format.mapSizePow2.toNat ∧
      format.IdsIn (blocksWithIds cc.toToolchain p.env M) ids ∧
      ∀ {O : Type} [DecidableEq O] (bbs : List BlockRef) {s : IR.State O} {area : IR.Ptr O},
        AFLCoverage.Ready s area 0 →
          ∃ s', AFLCoverage.runBlocks st.code s bbs = some s' ∧
            AFLCoverage.Documented format.updateMethod area
              (format.instrumentationMethod.locations (AFLCoverage.idsOf ids bbs)) s s' := by
  rcases build_eq_ok.1 hbuild with ⟨p', hp', hrun⟩
  obtain rfl : p' = p := Except.ok.inj (hp'.symm.trans hplan)
  rcases plan_eq_ok hplan with ⟨names, hnames, hspec⟩
  rcases hspec.coverage hcoverage with ⟨hbitmap, hpoint, him, hum⟩
  rcases runPasses_eq_ok hspec.passes_nodup hrun with ⟨hnot, _⟩ | ⟨rest, st₁, _, _, hcov, hcode⟩
  · exact absurd hcoverage hnot
  · obtain ⟨hreg, im, um, res, him', hum', hres, rfl⟩ := AFLCoverage.run_initial_eq_ok.1 hcov
    obtain rfl : im = args.instrumentationMethod := Except.ok.inj (him'.symm.trans him)
    obtain rfl : um = args.updateMethod := Except.ok.inj (hum'.symm.trans hum)
    have hassigner := hspec.assigner hreg
    have hids := hspec.idsIn hassigner hdraws hsize hres
    have hlt : ∀ bb id, res.ids.find bb = some id → id.toNat < 2 ^ 31 := by
      intro bb id hfind
      refine hids.lt (fun size hsome => ?_) hblocks hfind
      rw [mapFormat_mapSize] at hsome
      cases hcase : args.idGenerationStrategy with
      | sequential =>
          rw [hcase] at hsome
          cases hsome
      | random =>
          rw [hcase] at hsome
          obtain rfl := Option.some.inj hsome
          exact (hsize hcase).2
    refine ⟨names, args.mapFormat, res.ids, hnames,
      read_fuzzingConfig self args put hassigner hbitmap, hpoint, mapSize_eq_pow args,
      hids, ?_⟩
    intro O _ bbs s area hs
    rw [hcode]
    exact AFLCoverage.runBlocks_documented _ _ hlt bbs hs

end Decoding

/-- The driver script `fuzzuf-cc`. -/
def fuzzufCC : Instrumentor where
  name := "fuzzuf-cc"
  version := "0.2.0"

/-- With the default options the reader learns that ids are below 65536. -/
theorem oneBlock_decoded :
    ∃ st names format ids,
      build largestDraws (fun _ => none) { remain := ["one.c"] } bitmapKeys .compile oneBlock =
        .ok st ∧
      selectFeatures bitmapKeys = .ok names ∧
      MapFormat.read (fuzzufCC.fuzzingConfig { remain := ["one.c"] } names "a.out") =
        some format ∧
      format.loadPoint = .optimizerLast ∧ format.IdsIn [⟨0, 0⟩] ids := by
  obtain ⟨p, hplan, hcoverage, hblocks⟩ :
      ∃ p, plan largestDraws (fun _ => none) { remain := ["one.c"] } bitmapKeys .compile = .ok p ∧
        Pass.aflCoverage ∈ p.passes ∧
        blocksWithIds largestDraws.toToolchain p.env oneBlock = [⟨0, 0⟩] :=
    ⟨_, rfl, by decide, rfl⟩
  obtain ⟨st, hst⟩ : ∃ st, build largestDraws (fun _ => none) { remain := ["one.c"] } bitmapKeys
      .compile oneBlock = .ok st := ⟨_, rfl⟩
  have hsize : Arguments.SizeFits { remain := ["one.c"] } := fun _ => by decide
  obtain ⟨names, format, ids, hnames, hread, hload, -, hids, -⟩ :=
    fuzzingConfig_decodes fuzzufCC "a.out" hplan hst hcoverage (fun _ _ _ _ => le_rfl) hsize
      (by rw [hblocks]; decide)
  rw [hblocks] at hids
  exact ⟨st, names, format, ids, hst, hnames, hread, hload, hids⟩

end Driver
end FuzzufCc
