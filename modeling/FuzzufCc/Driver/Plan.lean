import FuzzufCc.Driver.Build
import FuzzufCc.Passes.Coverage

/-!
# Plan — the environment, the plugins and the passes of a step

What `plan` computes, in terms of the selected features: every variable has one value, whichever
feature sets it and in whatever order, and plugins and passes come in the order of the features.
-/

namespace FuzzufCc

open LLVM Libc

namespace Driver

/-! ## The environment of the passes -/

/-- The variables that a feature sets. -/
def FeatureName.vars (args : Arguments) (name : FeatureName) : List (String × String) :=
  (name.create args).compileEnvvars ++
    if linking args then (name.create args).linkEnvvars else []

/-- The value of each variable, whichever feature sets it. -/
def optionText (args : Arguments) (key : String) : String :=
  if key = "BB_ID_ASSIGNER_DO_PATH_SPLITTING" then ""
  else if key = "BB_ID_ASSIGNER_NODE_SELECTION_STRATEGY" then args.nodeSelectionStrategy.text
  else if key = "BB_ID_ASSIGNER_ID_GENERATION_STRATEGY" then args.idGenerationStrategy.text
  else if key = "BB_ID_ASSIGNER_MAP_SIZE" then pyStr args.mapSize
  else if key = "BITMAP_PASS_LOAD_POINT" then args.bitmapLoadPoint.text
  else if key = "BITMAP_UPDATE_METHOD" then updateMethodText args.updateMethod
  else if key = "BITMAP_INSTRUMENTATION_METHOD" then
    instrumentationMethodText args.instrumentationMethod
  else args.cfgExporterLoadPoint.text

/-- The variables of a feature, in whatever steps it sets them. -/
def FeatureName.options (args : Arguments) : FeatureName → List (String × String)
  | .bbIdAssigner => (createBBIDAssigner args).compileEnvvars
  | .bitMapFeedback =>
      [("BITMAP_PASS_LOAD_POINT", args.bitmapLoadPoint.text),
        ("BITMAP_UPDATE_METHOD", updateMethodText args.updateMethod),
        ("BITMAP_INSTRUMENTATION_METHOD", instrumentationMethodText args.instrumentationMethod)]
  | .cfgExporter => [("CFG_EXPORTER_LOAD_POINT", args.cfgExporterLoadPoint.text)]
  | .ijonFeedback | .forkServer => []

theorem FeatureName.mem_options {args : Arguments} {name : FeatureName} {kv : String × String}
    (h : kv ∈ name.vars args) : kv ∈ name.options args := by
  have hmem : kv ∈ (name.create args).compileEnvvars ∨ kv ∈ (name.create args).linkEnvvars := by
    rcases List.mem_append.1 h with h | h
    · exact Or.inl h
    · split at h
      · exact Or.inr h
      · cases h
  cases name with
  | bbIdAssigner => exact or_self_iff.1 hmem
  | bitMapFeedback =>
      cases hlink : args.bitmapLoadPoint.onLink <;>
        simpa [FeatureName.create, createBitMapFeedback, FeatureName.options, hlink] using hmem
  | cfgExporter =>
      cases hlink : args.cfgExporterLoadPoint.onLink <;>
        simpa [FeatureName.create, createCFGExporter, FeatureName.options, hlink] using hmem
  | ijonFeedback => simp [FeatureName.create, createIjonFeedback] at hmem
  | forkServer => simp [FeatureName.create, createForkServer] at hmem

theorem FeatureName.eq_optionText {args : Arguments} {name : FeatureName} {kv : String × String}
    (h : kv ∈ name.vars args) : kv.2 = optionText args kv.1 := by
  have hmem := mem_options h
  rcases kv with ⟨k, v⟩
  cases name with
  | ijonFeedback => cases hmem
  | forkServer => cases hmem
  | cfgExporter =>
      obtain ⟨rfl, rfl⟩ : k = "CFG_EXPORTER_LOAD_POINT" ∧ v = args.cfgExporterLoadPoint.text := by
        simpa [options] using hmem
      simp [optionText]
  | bitMapFeedback =>
      simp only [options, List.mem_cons, List.not_mem_nil, or_false, Prod.mk.injEq] at hmem
      rcases hmem with ⟨rfl, rfl⟩ | ⟨rfl, rfl⟩ | ⟨rfl, rfl⟩ <;> simp [optionText]
  | bbIdAssigner =>
      simp only [options, createBBIDAssigner, List.mem_append, List.mem_cons, List.not_mem_nil,
        or_false, Prod.mk.injEq] at hmem
      -- two of the variables are set under a condition
      rcases hmem with (h | ⟨rfl, rfl⟩ | ⟨rfl, rfl⟩) | h
      · split at h
        · obtain ⟨rfl, rfl⟩ : k = "BB_ID_ASSIGNER_DO_PATH_SPLITTING" ∧ v = "" := by simpa using h
          simp [optionText]
        · cases h
      · simp [optionText]
      · simp [optionText]
      · split at h
        · obtain ⟨rfl, rfl⟩ : k = "BB_ID_ASSIGNER_MAP_SIZE" ∧ v = pyStr args.mapSize := by
            simpa using h
          simp [optionText]
        · cases h

theorem envvars_eq (parent : Env) (args : Arguments) (names : List FeatureName) :
    envvars parent args (names.map (FeatureName.create args)) =
      parent.update (names.flatMap (FeatureName.vars args)) := by
  induction names generalizing parent with
  | nil => rfl
  | cons name names ih =>
      have hone : envvars parent args [name.create args] = parent.update (name.vars args) := by
        cases hlinking : linking args with
        | false => simp [envvars, FeatureName.vars, hlinking]
        | true => simp [envvars, FeatureName.vars, hlinking, Env.update_append]
      calc envvars parent args ((name :: names).map (FeatureName.create args))
          = envvars (envvars parent args [name.create args]) args
              (names.map (FeatureName.create args)) := rfl
        _ = (parent.update (name.vars args)).update (names.flatMap (FeatureName.vars args)) := by
              rw [hone, ih]
        _ = parent.update ((name :: names).flatMap (FeatureName.vars args)) :=
              (Env.update_append parent _ _).symm

/-- A variable that some feature sets has its one value, and any other is inherited. -/
theorem envvars_apply (parent : Env) (args : Arguments) (names : List FeatureName)
    (key : String) :
    envvars parent args (names.map (FeatureName.create args)) key =
      if key ∈ (names.flatMap (FeatureName.vars args)).map Prod.fst then
        some (optionText args key)
      else
        parent key := by
  rw [envvars_eq, Env.update_apply parent fun kv hkv => ?_]
  rcases List.mem_flatMap.1 hkv with ⟨name, _, hkv⟩
  exact name.eq_optionText hkv

theorem envvars_of_mem (parent : Env) {args : Arguments} {names : List FeatureName}
    {name : FeatureName} (hname : name ∈ names) {key value : String}
    (h : (key, value) ∈ name.vars args) :
    envvars parent args (names.map (FeatureName.create args)) key = some value := by
  have hmem : key ∈ (names.flatMap (FeatureName.vars args)).map Prod.fst :=
    List.mem_map.2 ⟨(key, value), List.mem_flatMap.2 ⟨name, hname, h⟩, rfl⟩
  rw [envvars_apply, if_pos hmem, ← name.eq_optionText h]

/-- The order of the features does not matter to the environment. -/
theorem envvars_perm (parent : Env) (args : Arguments) {names names' : List FeatureName}
    (h : names.Perm names') :
    envvars parent args (names.map (FeatureName.create args)) =
      envvars parent args (names'.map (FeatureName.create args)) := by
  funext key
  have hmem : key ∈ (names.flatMap (FeatureName.vars args)).map Prod.fst ↔
      key ∈ (names'.flatMap (FeatureName.vars args)).map Prod.fst :=
    ((h.flatMap_right _).map Prod.fst).mem_iff
  simp only [envvars_apply, hmem]

/-! ### The variables of the id assigner -/

theorem doPathSplitting_mem_vars {args : Arguments} (h : args.pathSplitting = true) :
    (BBIDAssigner.doPathSplittingKey, "") ∈ FeatureName.bbIdAssigner.vars args := by
  refine List.mem_append_left _ ?_
  simp [FeatureName.create, createBBIDAssigner, BBIDAssigner.doPathSplittingKey, h]

theorem selectionStrategy_mem_vars (args : Arguments) :
    (BBIDAssigner.selectionStrategyKey, args.nodeSelectionStrategy.text) ∈
      FeatureName.bbIdAssigner.vars args := by
  refine List.mem_append_left _ ?_
  simp [FeatureName.create, createBBIDAssigner, BBIDAssigner.selectionStrategyKey]

theorem generationStrategy_mem_vars (args : Arguments) :
    (BBIDAssigner.generationStrategyKey, args.idGenerationStrategy.text) ∈
      FeatureName.bbIdAssigner.vars args := by
  refine List.mem_append_left _ ?_
  simp [FeatureName.create, createBBIDAssigner, BBIDAssigner.generationStrategyKey]

theorem mapSize_mem_vars {args : Arguments} (h : args.idGenerationStrategy = .random) :
    (BBIDAssigner.mapSizeKey, pyStr args.mapSize) ∈ FeatureName.bbIdAssigner.vars args := by
  refine List.mem_append_left _ ?_
  simp [FeatureName.create, createBBIDAssigner, BBIDAssigner.mapSizeKey, h,
    IdGenerationStrategy.text]

/-! ## The plugins of a step -/

def Plugin.path : Plugin → String × String
  | .bbIdAssigner => ("features/bb-id-assigner", "bb-id-assigner-pass.so")
  | .aflCoverage => ("features/bitmap", "bitmap-llvm-pass.so")
  | .cfgExporter => ("features/cfg-exporter", "cfg-exporter-pass.so")

@[simp] theorem Plugin.ofPath_path (plugin : Plugin) : ofPath plugin.path = some plugin := by
  cases plugin <;> simp [ofPath, path]

/-- The plugin of a feature in a step that loads plugins. -/
def FeatureName.pluginAt (args : Arguments) (step : Step) : FeatureName → Option Plugin
  | .bbIdAssigner => some .bbIdAssigner
  | .bitMapFeedback => if args.bitmapLoadPoint = step.point then some .aflCoverage else none
  | .cfgExporter => if args.cfgExporterLoadPoint = step.point then some .cfgExporter else none
  | .ijonFeedback => none
  | .forkServer => none

theorem pluginPaths_eq (args : Arguments) (names : List FeatureName) (step : Step) :
    pluginPaths args (names.map (FeatureName.create args)) step =
      if loadsPlugins args step then
        (names.filterMap (FeatureName.pluginAt args step)).map Plugin.path
      else [] := by
  rw [pluginPaths]
  congr 1
  rw [List.flatMap_map, List.map_filterMap, List.filterMap_eq_flatMap_toList]
  congr 1
  funext name
  cases name with
  | bbIdAssigner => cases step <;> rfl
  | bitMapFeedback => cases step <;> cases hpoint : args.bitmapLoadPoint <;>
      simp [FeatureName.create, createBitMapFeedback, FeatureName.pluginAt, hpoint,
        LoadPoint.onLink, Step.point, Plugin.path]
  | cfgExporter => cases step <;> cases hpoint : args.cfgExporterLoadPoint <;>
      simp [FeatureName.create, createCFGExporter, FeatureName.pluginAt, hpoint,
        LoadPoint.onLink, Step.point, Plugin.path]
  | ijonFeedback => cases step <;> rfl
  | forkServer => cases step <;> rfl

theorem loadPlugins_path_cons (bindsAtLoad : Bool) (plugin : Plugin) (plugins loaded : List Plugin) :
    loadPlugins bindsAtLoad ((plugin :: plugins).map Plugin.path) loaded =
      if bindsAtLoad && plugin.refersToKey && !loaded.contains .bbIdAssigner then
        .error (.pluginNotLoaded plugin.path)
      else
        loadPlugins bindsAtLoad (plugins.map Plugin.path) (loaded ++ [plugin]) := by
  rw [List.map_cons, loadPlugins, Plugin.ofPath_path]

theorem loadPlugins_eq_ok {bindsAtLoad : Bool} {plugins loaded res : List Plugin}
    (h : loadPlugins bindsAtLoad (plugins.map Plugin.path) loaded = .ok res) :
    res = loaded ++ plugins := by
  induction plugins generalizing loaded with
  | nil => simpa [loadPlugins] using h.symm
  | cons plugin plugins ih =>
      rw [loadPlugins_path_cons] at h
      split at h
      · cases h
      · simpa using ih h

/-! ## The passes of a step -/

/-- The pass of a feature in a step that loads plugins. -/
def FeatureName.passAt (llvmVersionMajor : Nat) (args : Arguments) (step : Step) :
    FeatureName → Option Pass
  | .bitMapFeedback =>
      if args.bitmapLoadPoint = step.point ∧ (step = .compile ∨ 15 ≤ llvmVersionMajor) then
        some .aflCoverage
      else none
  | .cfgExporter =>
      if args.cfgExporterLoadPoint = step.point ∧ (step = .compile ∨ 15 ≤ llvmVersionMajor) then
        some .cfgExporter
      else none
  | _ => none

@[simp] theorem strstr_self (s : String) : strstr s s = true := by
  simp [strstr]

theorem registerAt_eq {llvmVersionMajor : Nat} {env : Env} {key : String} {pass : Pass}
    {step : Step} (h : env key = some step.point.text) :
    registerAt llvmVersionMajor env key pass step.point =
      if step = .compile ∨ 15 ≤ llvmVersionMajor then [pass] else [] := by
  cases step with
  | compile => simp [registerAt, h, Step.point]
  | link => simp [registerAt, h, Step.point]

theorem linking_of_loadsPlugins {args : Arguments} (h : loadsPlugins args .link) :
    linking args = true := by
  simp only [loadsPlugins, Bool.and_eq_true] at h
  exact h.2

/-- The variables of a plugin are set where it is loaded. -/
theorem bitMapFeedback_vars {args : Arguments} {step : Step}
    (hloads : loadsPlugins args step) (hpoint : args.bitmapLoadPoint = step.point) :
    FeatureName.bitMapFeedback.vars args =
      [("BITMAP_PASS_LOAD_POINT", args.bitmapLoadPoint.text),
        ("BITMAP_UPDATE_METHOD", updateMethodText args.updateMethod),
        ("BITMAP_INSTRUMENTATION_METHOD",
          instrumentationMethodText args.instrumentationMethod)] := by
  cases step with
  | compile =>
      simp [FeatureName.vars, FeatureName.create, createBitMapFeedback, hpoint, Step.point,
        LoadPoint.onLink]
  | link =>
      have hlinking := linking_of_loadsPlugins hloads
      simp [FeatureName.vars, FeatureName.create, createBitMapFeedback, hpoint, Step.point,
        LoadPoint.onLink, hlinking]

theorem cfgExporter_vars {args : Arguments} {step : Step}
    (hloads : loadsPlugins args step) (hpoint : args.cfgExporterLoadPoint = step.point) :
    FeatureName.cfgExporter.vars args =
      [("CFG_EXPORTER_LOAD_POINT", args.cfgExporterLoadPoint.text)] := by
  cases step with
  | compile =>
      simp [FeatureName.vars, FeatureName.create, createCFGExporter, hpoint, Step.point,
        LoadPoint.onLink]
  | link =>
      have hlinking := linking_of_loadsPlugins hloads
      simp [FeatureName.vars, FeatureName.create, createCFGExporter, hpoint, Step.point,
        LoadPoint.onLink, hlinking]

theorem bitmapLoadPoint_mem_vars {args : Arguments} {step : Step}
    (hloads : loadsPlugins args step) (hpoint : args.bitmapLoadPoint = step.point) :
    ("BITMAP_PASS_LOAD_POINT", step.point.text) ∈ FeatureName.bitMapFeedback.vars args := by
  rw [bitMapFeedback_vars hloads hpoint, hpoint]
  exact List.mem_cons_self

theorem cfgExporterLoadPoint_mem_vars {args : Arguments} {step : Step}
    (hloads : loadsPlugins args step) (hpoint : args.cfgExporterLoadPoint = step.point) :
    ("CFG_EXPORTER_LOAD_POINT", step.point.text) ∈ FeatureName.cfgExporter.vars args := by
  rw [cfgExporter_vars hloads hpoint, hpoint]
  exact List.mem_cons_self

theorem passes_eq (llvmVersionMajor : Nat) (parent : Env) {args : Arguments} {step : Step}
    (hloads : loadsPlugins args step) (names : List FeatureName) :
    (names.filterMap (FeatureName.pluginAt args step)).flatMap
        (Plugin.passes llvmVersionMajor
          (envvars parent args (names.map (FeatureName.create args))) step.point) =
      names.filterMap (FeatureName.passAt llvmVersionMajor args step) := by
  -- feature by feature: its plugin registers its pass, because its variable names the point
  rw [List.filterMap_eq_flatMap_toList, List.filterMap_eq_flatMap_toList, List.flatMap_assoc]
  refine List.flatMap_congr fun name hname => ?_
  cases name with
  | bbIdAssigner => rfl
  | bitMapFeedback =>
      by_cases hpoint : args.bitmapLoadPoint = step.point
      · have henv := envvars_of_mem parent hname
          (bitmapLoadPoint_mem_vars hloads hpoint)
        simp only [FeatureName.pluginAt, FeatureName.passAt, hpoint, true_and, if_true,
          Option.toList_some, List.flatMap_singleton, Plugin.passes, registerAt_eq henv]
        split <;> rfl
      · simp [FeatureName.pluginAt, FeatureName.passAt, hpoint]
  | cfgExporter =>
      by_cases hpoint : args.cfgExporterLoadPoint = step.point
      · have henv := envvars_of_mem parent hname
          (cfgExporterLoadPoint_mem_vars hloads hpoint)
        simp only [FeatureName.pluginAt, FeatureName.passAt, hpoint, true_and, if_true,
          Option.toList_some, List.flatMap_singleton, Plugin.passes, registerAt_eq henv]
        split <;> rfl
      · simp [FeatureName.pluginAt, FeatureName.passAt, hpoint]
  | ijonFeedback => rfl
  | forkServer => rfl

/-- Whether the coverage pass runs in a step of a build with `bitmap-feedback`. -/
def instrumentsAt (cc : Compiler) (args : Arguments) (step : Step) : Bool :=
  loadsPlugins args step && args.bitmapLoadPoint == step.point &&
    (step == .compile || 15 ≤ cc.llvmVersionMajor)

/-! ## Plans -/

theorem selectFeatures_eq_ok {keys : List String} {names : List FeatureName}
    (h : selectFeatures keys = .ok names) : keys.map FeatureName.ofKey = names.map some := by
  induction keys generalizing names with
  | nil =>
      obtain rfl : [] = names := by simpa [selectFeatures, pure, Except.pure] using h
      rfl
  | cons key keys ih =>
      rw [selectFeatures, List.mapM_cons] at h
      rcases bind_eq_ok.1 h with ⟨name, hname, h⟩
      rcases bind_eq_ok.1 h with ⟨names', hnames, h⟩
      obtain rfl : name :: names' = names := Except.ok.inj h
      rw [List.map_cons, List.map_cons, ih hnames]
      cases hkey : FeatureName.ofKey key with
      | none => simp [hkey] at hname
      | some name' =>
          obtain rfl : name' = name := by simpa [hkey] using hname
          rfl

theorem filterMap_ofKey {keys : List String} {names : List FeatureName}
    (h : selectFeatures keys = .ok names) : keys.filterMap FeatureName.ofKey = names := by
  have hmap := congrArg (List.filterMap id) (selectFeatures_eq_ok h)
  simpa [List.filterMap_map, Function.comp_def] using hmap

/-- A plan, in terms of the features that the command line names. -/
structure PlanSpec (cc : Compiler) (parent : Env) (args : Arguments) (names : List FeatureName)
    (step : Step) (plan : Plan) : Prop where
  nodup : (names.filter FeatureName.hasArguments).Nodup
  env : plan.env = envvars parent args (names.map (FeatureName.create args))
  plugins : plan.plugins =
    if loadsPlugins args step then names.filterMap (FeatureName.pluginAt args step) else []
  passes : plan.passes =
    if loadsPlugins args step then
      names.filterMap (FeatureName.passAt cc.llvmVersionMajor args step)
    else []

theorem plan_eq_ok {cc : Compiler} {parent : Env} {args : Arguments} {keys : List String}
    {step : Step} {p : Plan} (h : plan cc parent args keys step = .ok p) :
    ∃ names, selectFeatures keys = .ok names ∧ PlanSpec cc parent args names step p := by
  rcases bind_eq_ok.1 h with ⟨names, hnames, h⟩
  rcases bind_eq_ok.1 h with ⟨_, hargs, h⟩
  rcases bind_eq_ok.1 h with ⟨plugins, hplugins, h⟩
  obtain rfl := Except.ok.inj h
  -- a feature given twice adds its arguments twice
  have hnodup : (names.filter FeatureName.hasArguments).Nodup := by
    by_contra hdup
    simp [initArgparse, hdup] at hargs
  rw [pluginPaths_eq] at hplugins
  refine ⟨names, hnames, hnodup, rfl, ?_, ?_⟩
  · cases hloads : loadsPlugins args step with
    | false => simpa [hloads, loadPlugins] using hplugins.symm
    | true =>
        simp only [hloads, if_true] at hplugins ⊢
        exact loadPlugins_eq_ok hplugins
  · cases hloads : loadsPlugins args step with
    | false =>
        obtain rfl : [] = plugins := by simpa [hloads, loadPlugins] using hplugins
        rfl
    | true =>
        simp only [hloads, if_true] at hplugins ⊢
        obtain rfl := loadPlugins_eq_ok hplugins
        exact passes_eq cc.llvmVersionMajor parent hloads names

/-- No pass is registered twice. -/
theorem nodup_filterMap_passAt {names : List FeatureName}
    (h : (names.filter FeatureName.hasArguments).Nodup) (llvmVersionMajor : Nat) (args : Arguments)
    (step : Step) : (names.filterMap (FeatureName.passAt llvmVersionMajor args step)).Nodup := by
  have hfilter : names.filterMap (FeatureName.passAt llvmVersionMajor args step) =
      (names.filter FeatureName.hasArguments).filterMap
        (FeatureName.passAt llvmVersionMajor args step) := by
    rw [List.filterMap_filter]
    congr 1
    funext name
    cases name <;> rfl
  rw [hfilter]
  refine h.filterMap ?_
  intro name name' pass hname hname'
  cases name <;> cases name' <;> simp [FeatureName.passAt] at hname hname' ⊢ <;> grind

theorem PlanSpec.passes_nodup {cc : Compiler} {parent : Env} {args : Arguments}
    {names : List FeatureName} {step : Step} {p : Plan} (h : PlanSpec cc parent args names step p) :
    p.passes.Nodup := by
  rw [h.passes]
  split
  · exact nodup_filterMap_passAt h.nodup _ _ _
  · exact List.nodup_nil

/-! ## The passes of one extension point -/

theorem nodup_passes_cases {passes : List Pass} (h : passes.Nodup) :
    passes = [] ∨ passes = [.aflCoverage] ∨ passes = [.cfgExporter] ∨
      passes = [.aflCoverage, .cfgExporter] ∨ passes = [.cfgExporter, .aflCoverage] := by
  rcases passes with _ | ⟨a, _ | ⟨b, _ | ⟨c, passes⟩⟩⟩
  · simp
  · cases a <;> simp
  · cases a <;> cases b <;> simp at h ⊢
  · cases a <;> cases b <;> cases c <;> simp at h

theorem nodup_passes_eq {passes : List Pass} (h : passes.Nodup) {p q : Pass}
    (hsub : [p, q].Sublist passes) : passes = [p, q] := by
  have hne : p ≠ q := by
    have := h.sublist hsub
    simpa using this
  rcases nodup_passes_cases h with rfl | rfl | rfl | rfl | rfl
  all_goals
    revert hsub hne
    cases p <;> cases q <;> decide

/-- At the start of an extension point nothing is cached, so the exporter cannot come first. -/
theorem runPasses_cfgExporter_cons (tc : Toolchain) (env : Env) (passes : List Pass) (M : Module)
    (registered : Bool) :
    ∃ abort, runPasses tc env (.cfgExporter :: passes) (.initial M registered) = .error abort :=
  ⟨_, rfl⟩

/-- After the coverage pass the exporter succeeds and leaves the code alone. -/
theorem runPasses_after_coverage {tc : Toolchain} {env : Env} {M : Module} {registered : Bool}
    {passes : List Pass} (hpasses : passes = [] ∨ passes = [.cfgExporter]) {st : PassState}
    (h : AFLCoverage.run tc env (.initial M registered) = .ok st) :
    ∃ st', runPasses tc env (.aflCoverage :: passes) (.initial M registered) = .ok st' ∧
      st'.code = st.code := by
  have hcons : runPasses tc env (.aflCoverage :: passes) (.initial M registered) =
      runPasses tc env passes st := by
    simp [runPasses, Pass.run, h, bind, Except.bind]
  rw [hcons]
  rcases hpasses with rfl | rfl
  · exact ⟨st, rfl, rfl⟩
  · rcases AFLCoverage.run_initial_eq_ok.1 h with ⟨_, im, um, res, _, _, _, rfl⟩
    exact ⟨_, rfl, rfl⟩

/-- What a successful run of the passes did: it began with the coverage pass, or there was none. -/
theorem runPasses_eq_ok {tc : Toolchain} {env : Env} {M : Module} {registered : Bool}
    {passes : List Pass} (hnodup : passes.Nodup) {st : PassState}
    (h : runPasses tc env passes (.initial M registered) = .ok st) :
    (Pass.aflCoverage ∉ passes ∧ st = .initial M registered) ∨
      ∃ rest st₁, passes = .aflCoverage :: rest ∧ (rest = [] ∨ rest = [.cfgExporter]) ∧
        AFLCoverage.run tc env (.initial M registered) = .ok st₁ ∧ st.code = st₁.code := by
  -- the two cases with the coverage pass in front
  have hcoverage : ∀ rest, rest = [] ∨ rest = [.cfgExporter] →
      passes = .aflCoverage :: rest →
        ∃ rest st₁, passes = .aflCoverage :: rest ∧ (rest = [] ∨ rest = [.cfgExporter]) ∧
          AFLCoverage.run tc env (.initial M registered) = .ok st₁ ∧ st.code = st₁.code := by
    rintro rest hrest rfl
    rcases bind_eq_ok.1 h with ⟨st₁, hrun, _⟩
    rcases runPasses_after_coverage hrest hrun with ⟨st', hst', hcode⟩
    obtain rfl : st' = st := Except.ok.inj (hst'.symm.trans h)
    exact ⟨rest, st₁, rfl, hrest, hrun, hcode⟩
  rcases nodup_passes_cases hnodup with rfl | hp | rfl | hp | rfl
  · exact Or.inl ⟨by simp, (Except.ok.inj h).symm⟩
  · exact Or.inr (hcoverage [] (Or.inl rfl) hp)
  · rcases runPasses_cfgExporter_cons tc env [] M registered with ⟨abort, herr⟩
    cases herr.symm.trans h
  · exact Or.inr (hcoverage [.cfgExporter] (Or.inr rfl) hp)
  · rcases runPasses_cfgExporter_cons tc env [.aflCoverage] M registered with ⟨abort, herr⟩
    cases herr.symm.trans h

theorem build_eq_ok {cc : Compiler} {parent : Env} {args : Arguments} {keys : List String}
    {step : Step} {M : Module} {st : PassState} :
    build cc parent args keys step M = .ok st ↔
      ∃ p, plan cc parent args keys step = .ok p ∧
        runPasses cc.toToolchain p.env p.passes
          (.initial M (p.plugins.contains .bbIdAssigner)) = .ok st := by
  rw [build, bind_eq_ok]
  constructor
  · rintro ⟨p, hp, h⟩
    refine ⟨p, hp, ?_⟩
    dsimp only at h
    cases hrun : runPasses cc.toToolchain p.env p.passes
        (.initial M (p.plugins.contains .bbIdAssigner)) with
    | error abort =>
        rw [hrun] at h
        cases h
    | ok st' =>
        rw [hrun] at h
        rw [Except.ok.inj h]
  · rintro ⟨p, hp, h⟩
    exact ⟨p, hp, by simp only [h]⟩

end Driver
end FuzzufCc
