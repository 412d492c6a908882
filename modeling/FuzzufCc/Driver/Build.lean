import FuzzufCc.Driver.Feature
import Mathlib.Data.List.Infix

/-!
# Build — from the command line of the driver to the instrumented module

`build` follows `MetaInstrumentor.instrument` and `Instrumentor.instrument`: it selects the
features in the order of `--features`, collects environment variables and pass plugins in that
order, and runs the compiler, once on a translation unit and once, with link time optimization, on
the linked module.  What clang and the linker do with a plugin is modelled from
`llvmGetPassPluginInfo` of the three plugins.
-/

namespace FuzzufCc

open LLVM Libc

namespace Driver

/-- The compiler behind the driver.  `bindsAtLoad` says whether it refuses a plugin that refers to
a symbol which no plugin loaded so far defines. -/
structure Compiler extends Toolchain where
  llvmVersionMajor : Nat
  bindsAtLoad : Bool

/-- How a build fails. -/
inductive Failure
  | unsupportedFeature (featureKey : String)
  | conflictingArguments
  | pluginNotLoaded (path : String × String)
  | pass (abort : Abort)
  deriving DecidableEq, Repr

/-- The two steps in which plugins are loaded. -/
inductive Step
  | compile
  | link
  deriving DecidableEq, Repr

/-- The last extension point of a step. -/
def Step.point : Step → LoadPoint
  | .compile => .optimizerLast
  | .link => .fullLinkTimeOptimizationLast

/-! ## The driver -/

/-- The flags with which the base compiler is only called through. -/
def passThroughFlags : List String :=
  ["-v", "--version", "-dumpversion", "-print-search-dirs", "-E", "-print-prog-name=ld"]

def passesThrough (args : Arguments) : Bool :=
  args.remain.isEmpty || passThroughFlags.any fun flag => args.remain.contains flag

def enableLto (args : Arguments) : Bool :=
  !args.disableLto

/-- Linking is detected unless the command line says so. -/
def linking (args : Arguments) : Bool :=
  match args.linking with
  | some linking => linking
  | none =>
      !((args.remain.length == 1 && args.remain.head? == some "-v") ||
        ["-c", "-S", "-emit-ast", "-emit-llvm"].any fun flag => args.remain.contains flag)

/-- The loop over `--features`. -/
def selectFeatures (keys : List String) : Except Failure (List FeatureName) :=
  keys.mapM fun featureKey =>
    match FeatureName.ofKey featureKey with
    | none => .error (.unsupportedFeature featureKey)
    | some name => .ok name

/-- `init_argparse`: adding the arguments of a factory twice is an `ArgumentError`. -/
def initArgparse (names : List FeatureName) : Except Failure Unit :=
  if (names.filter FeatureName.hasArguments).Nodup then .ok () else .error .conflictingArguments

/-- `envvars`. -/
def envvars (parent : Env) (args : Arguments) (features : List Feature) : Env :=
  features.foldl (fun env feature =>
    let env := env.update feature.compileEnvvars
    if linking args then env.update feature.linkEnvvars else env) parent

/-- Whether any plugin is passed to the compiler in a step. -/
def loadsPlugins (args : Arguments) : Step → Bool
  | .compile => !passesThrough args
  | .link => !passesThrough args && enableLto args && linking args

/-- The plugins on the command line of a step, in order. -/
def pluginPaths (args : Arguments) (features : List Feature) (step : Step) :
    List (String × String) :=
  if loadsPlugins args step then
    features.flatMap fun feature =>
      let paths := match step with
        | .compile => feature.llvmPassObjPaths
        | .link => feature.llvmLtoPassObjPaths
      paths.map fun path => (feature.featureDir, path)
  else
    []

/-! ## The plugins -/

inductive Plugin
  | bbIdAssigner
  | aflCoverage
  | cfgExporter
  deriving DecidableEq, Repr

def Plugin.ofPath (path : String × String) : Option Plugin :=
  if path = ("features/bb-id-assigner", "bb-id-assigner-pass.so") then some .bbIdAssigner
  else if path = ("features/bitmap", "bitmap-llvm-pass.so") then some .aflCoverage
  else if path = ("features/cfg-exporter", "cfg-exporter-pass.so") then some .cfgExporter
  else none

/-- Only one plugin defines `BBIDAssigner::Key`, and the other two refer to it. -/
def Plugin.refersToKey : Plugin → Bool
  | .bbIdAssigner => false
  | .aflCoverage | .cfgExporter => true

/-- Load the plugins in order, behind those in `loaded`. -/
def loadPlugins (bindsAtLoad : Bool) :
    List (String × String) → List Plugin → Except Failure (List Plugin)
  | [], loaded => .ok loaded
  | path :: paths, loaded =>
      match Plugin.ofPath path with
      | none => .error (.pluginNotLoaded path)
      | some plugin =>
          if bindsAtLoad && plugin.refersToKey && !loaded.contains .bbIdAssigner then
            .error (.pluginNotLoaded path)
          else
            loadPlugins bindsAtLoad paths (loaded ++ [plugin])

/-- The module passes. -/
inductive Pass
  | aflCoverage
  | cfgExporter
  deriving DecidableEq, Repr

/-- `strstr(haystack, needle)`. -/
def strstr (haystack needle : String) : Bool :=
  decide (needle.toList <:+: haystack.toList)

/-- What a pass plugin registers at an extension point, by the load point in its variable. -/
def registerAt (llvmVersionMajor : Nat) (env : Env) (passLoadPointKey : String) (pass : Pass)
    (point : LoadPoint) : List Pass :=
  match env passLoadPointKey with
  | none => []
  | some val =>
      if strstr val point.text && (point = .optimizerLast || 15 ≤ llvmVersionMajor) then [pass]
      else []

/-- `llvmGetPassPluginInfo`; the first plugin only registers the analysis. -/
def Plugin.passes (llvmVersionMajor : Nat) (env : Env) (point : LoadPoint) : Plugin → List Pass
  | .bbIdAssigner => []
  | .aflCoverage =>
      registerAt llvmVersionMajor env "BITMAP_PASS_LOAD_POINT" .aflCoverage point
  | .cfgExporter =>
      registerAt llvmVersionMajor env "CFG_EXPORTER_LOAD_POINT" .cfgExporter point

def Pass.run (tc : Toolchain) (env : Env) : Pass → PassState → Except Abort PassState
  | .aflCoverage, st => AFLCoverage.run tc env st
  | .cfgExporter, st => CFGExporter.run st

/-- The passes of one extension point share an analysis manager. -/
def runPasses (tc : Toolchain) (env : Env) : List Pass → PassState → Except Abort PassState
  | [], st => .ok st
  | pass :: passes, st => do
      let st ← pass.run tc env st
      runPasses tc env passes st

/-- What a step of a build is going to do. -/
structure Plan where
  env : Env
  plugins : List Plugin
  passes : List Pass

/-- The driver, and the plugins as the compiler loads them. -/
def plan (cc : Compiler) (parent : Env) (args : Arguments) (keys : List String) (step : Step) :
    Except Failure Plan := do
  let names ← selectFeatures keys
  initArgparse names
  let features := names.map (FeatureName.create args)
  let env := envvars parent args features
  let plugins ← loadPlugins cc.bindsAtLoad (pluginPaths args features step) []
  return {
    env := env
    plugins := plugins
    passes := plugins.flatMap (Plugin.passes cc.llvmVersionMajor env step.point) }

/-- One step of a build on the module `M`. -/
def build (cc : Compiler) (parent : Env) (args : Arguments) (keys : List String) (step : Step)
    (M : Module) : Except Failure PassState := do
  let plan ← plan cc parent args keys step
  let registered := plan.plugins.contains .bbIdAssigner
  match runPasses cc.toToolchain plan.env plan.passes (.initial M registered) with
  | .error abort => .error (.pass abort)
  | .ok st => .ok st

end Driver
end FuzzufCc
