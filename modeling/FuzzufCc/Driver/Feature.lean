import FuzzufCc.Passes.AFLCoverage
import FuzzufCc.Passes.CFGExporter

/-!
# Feature — what a feature of the driver adds to a compilation

The factories of `fuzzuf_cc/feature/` turn the parsed arguments into `Feature` records: objects to
link, pass plugins to load while compiling or while linking, headers, and environment variables
through which a pass reads its configuration.
-/

namespace FuzzufCc

open Libc

namespace Driver

/-! ## Arguments -/

inductive NodeSelectionStrategy
  | all
  | noMultiplePred
  deriving DecidableEq, Repr

def NodeSelectionStrategy.text : NodeSelectionStrategy → String
  | .all => "ALL"
  | .noMultiplePred => "NO_MULTIPLE_PRED"

inductive IdGenerationStrategy
  | random
  | sequential
  deriving DecidableEq, Repr

def IdGenerationStrategy.text : IdGenerationStrategy → String
  | .random => "RANDOM"
  | .sequential => "SEQUENTIAL"

/-- `TIMING`. -/
inductive LoadPoint
  | optimizerLast
  | fullLinkTimeOptimizationLast
  deriving DecidableEq, Repr

def LoadPoint.text : LoadPoint → String
  | .optimizerLast => "OptimizerLast"
  | .fullLinkTimeOptimizationLast => "FullLinkTimeOptimizationLast"

/-- `load_point in ON_LINK`. -/
def LoadPoint.onLink : LoadPoint → Bool
  | .optimizerLast => false
  | .fullLinkTimeOptimizationLast => true

def instrumentationMethodText : AFLCoverage.InstrumentationMethod → String
  | .hashedEdge => "HASHED_EDGE"
  | .node => "NODE"

def updateMethodText : AFLCoverage.UpdateMethod → String
  | .naive => "NAIVE"
  | .avoidZero => "AVOID_ZERO"
  | .capFF => "CAP_FF"

/-- What the driver parses out of its command line, with the defaults of the factories. -/
structure Arguments where
  disableLto : Bool := false
  linking : Option Bool := none
  pathSplitting : Bool := false
  nodeSelectionStrategy : NodeSelectionStrategy := .all
  idGenerationStrategy : IdGenerationStrategy := .random
  mapSize : Int := 65536
  bitmapLoadPoint : LoadPoint := .optimizerLast
  instrumentationMethod : AFLCoverage.InstrumentationMethod := .hashedEdge
  updateMethod : AFLCoverage.UpdateMethod := .naive
  cfgExporterLoadPoint : LoadPoint := .optimizerLast
  /-- The arguments for the base compiler. -/
  remain : List String := []

/-! ## Features -/

structure Feature where
  featureDir : String := ""
  objectPaths : List String := []
  llvmPassObjPaths : List String := []
  llvmLtoPassObjPaths : List String := []
  compileEnvvars : List (String × String) := []
  linkEnvvars : List (String × String) := []
  headers : List String := []
  deriving DecidableEq, Repr

structure BBIDAssignerFeature extends Feature where
  recordedMapSize : Option Int

/-- `BBIDAssignerFactory.create`. -/
def createBBIDAssigner (args : Arguments) : BBIDAssignerFeature :=
  let splitting := if args.pathSplitting then [("BB_ID_ASSIGNER_DO_PATH_SPLITTING", "")] else []
  let strategies :=
    [("BB_ID_ASSIGNER_NODE_SELECTION_STRATEGY", args.nodeSelectionStrategy.text),
      ("BB_ID_ASSIGNER_ID_GENERATION_STRATEGY", args.idGenerationStrategy.text)]
  let mapSize :=
    if args.idGenerationStrategy.text = "RANDOM" then
      [("BB_ID_ASSIGNER_MAP_SIZE", pyStr args.mapSize)]
    else []
  let envs := splitting ++ strategies ++ mapSize
  { featureDir := "features/bb-id-assigner"
    llvmPassObjPaths := ["bb-id-assigner-pass.so"]
    llvmLtoPassObjPaths := ["bb-id-assigner-pass.so"]
    compileEnvvars := envs
    linkEnvvars := envs
    recordedMapSize := if args.idGenerationStrategy.text = "RANDOM" then some args.mapSize else none }

structure BitMapFeedbackFeature extends Feature where
  mapSizePow2 : Nat
  shmEnvVar : String

/-- `BitMapFeedbackFactory.create`. -/
def createBitMapFeedback (args : Arguments) : BitMapFeedbackFeature :=
  let env :=
    [("BITMAP_PASS_LOAD_POINT", args.bitmapLoadPoint.text),
      ("BITMAP_UPDATE_METHOD", updateMethodText args.updateMethod),
      ("BITMAP_INSTRUMENTATION_METHOD", instrumentationMethodText args.instrumentationMethod)]
  let feature : Feature :=
    if args.bitmapLoadPoint.onLink then
      { featureDir := "features/bitmap"
        objectPaths := ["bitmap-llvm-rt.o"]
        llvmLtoPassObjPaths := ["bitmap-llvm-pass.so"]
        linkEnvvars := env }
    else
      { featureDir := "features/bitmap"
        objectPaths := ["bitmap-llvm-rt.o"]
        llvmPassObjPaths := ["bitmap-llvm-pass.so"]
        compileEnvvars := env }
  { feature with mapSizePow2 := 16, shmEnvVar := "__AFL_SHM_ID" }

/-- `CFGExporterFactory.create`. -/
def createCFGExporter (args : Arguments) : Feature :=
  let env := [("CFG_EXPORTER_LOAD_POINT", args.cfgExporterLoadPoint.text)]
  if args.cfgExporterLoadPoint.onLink then
    { featureDir := "features/cfg-exporter"
      llvmLtoPassObjPaths := ["cfg-exporter-pass.so"]
      linkEnvvars := env }
  else
    { featureDir := "features/cfg-exporter"
      llvmPassObjPaths := ["cfg-exporter-pass.so"]
      compileEnvvars := env }

structure IjonFeedbackFeature extends Feature where
  mapSizePow2 : Nat
  shmEnvVar : String

/-- `IjonFeedbackFactory.create`. -/
def createIjonFeedback : IjonFeedbackFeature where
  featureDir := "features/ijon"
  objectPaths := ["ijon-llvm-rt.o"]
  headers := ["ijon.h"]
  mapSizePow2 := 16
  shmEnvVar := "__AFL_SHM_ID"

structure ForkServerFeature extends Feature where
  channelRecv : Nat
  channelSend : Nat

/-- `ForkServerFactory.create`. -/
def createForkServer : ForkServerFeature where
  featureDir := "features/forkserver"
  objectPaths := ["forkserver.o"]
  channelRecv := 196
  channelSend := 197

/-! ## The names of the features -/

/-- The features that `fuzzuf-cc` registers with its `MetaInstrumentor`. -/
inductive FeatureName
  | bbIdAssigner
  | bitMapFeedback
  | cfgExporter
  | ijonFeedback
  | forkServer
  deriving DecidableEq, Repr

def FeatureName.key : FeatureName → String
  | .bbIdAssigner => "bb-id-assigner"
  | .bitMapFeedback => "bitmap-feedback"
  | .cfgExporter => "cfg-exporter"
  | .ijonFeedback => "ijon-feedback"
  | .forkServer => "forkserver"

def FeatureName.names : List FeatureName :=
  [.bbIdAssigner, .bitMapFeedback, .cfgExporter, .ijonFeedback, .forkServer]

/-- `self.features[feature_key]`. -/
def FeatureName.ofKey (featureKey : String) : Option FeatureName :=
  names.find? fun name => name.key == featureKey

theorem FeatureName.ofKey_key (name : FeatureName) : ofKey name.key = some name := by
  cases name <;> decide

/-- Which factories add arguments to the parser. -/
def FeatureName.hasArguments : FeatureName → Bool
  | .bbIdAssigner | .bitMapFeedback | .cfgExporter => true
  | .ijonFeedback | .forkServer => false

/-- `feature_factory.create(res, features)`. -/
def FeatureName.create (args : Arguments) : FeatureName → Feature
  | .bbIdAssigner => (createBBIDAssigner args).toFeature
  | .bitMapFeedback => (createBitMapFeedback args).toFeature
  | .cfgExporter => createCFGExporter args
  | .ijonFeedback => createIjonFeedback.toFeature
  | .forkServer => createForkServer.toFeature

end Driver
end FuzzufCc
