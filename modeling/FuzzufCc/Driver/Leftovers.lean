import FuzzufCc.Driver.Plan

/-!
# Leftovers — what a build inherits from the environment of the driver

The compiler gets a copy of the driver's own environment, over which each feature writes the
variables of its options.  Path splitting is switched on by the presence of its variable, and an
option that is off writes nothing.  This file determines when a loaded plugin is configured as the
command line says.
-/

namespace FuzzufCc

open LLVM Libc BBIDAssigner AFLCoverage

namespace Driver

/-! ## Configurations -/

/-- What the code of a plugin finds out about its options. -/
inductive Configuration
  | bbIdAssigner (pathSplitting : Bool) (nodeSelection idGeneration mapSize : Option String)
  | aflCoverage (loadPoint instrumentationMethod updateMethod : Option String)
  | cfgExporter (loadPoint : Option String)
  deriving DecidableEq, Repr

/-- The calls of `getenv`; the map size is only looked up for random ids. -/
def Plugin.configuration (env : Env) : Plugin → Configuration
  | .bbIdAssigner =>
      .bbIdAssigner (env doPathSplittingKey).isSome (env selectionStrategyKey)
        (env generationStrategyKey)
        (if env generationStrategyKey = some random then env mapSizeKey else none)
  | .aflCoverage =>
      .aflCoverage (env "BITMAP_PASS_LOAD_POINT") (env instrumentationMethodKey)
        (env updateMethodKey)
  | .cfgExporter => .cfgExporter (env "CFG_EXPORTER_LOAD_POINT")

/-- What the command line selects, or the defaults do. -/
def Plugin.selected (args : Arguments) : Plugin → Configuration
  | .bbIdAssigner =>
      .bbIdAssigner args.pathSplitting (some args.nodeSelectionStrategy.text)
        (some args.idGenerationStrategy.text)
        (if args.idGenerationStrategy = .random then some (pyStr args.mapSize) else none)
  | .aflCoverage =>
      .aflCoverage (some args.bitmapLoadPoint.text)
        (some (instrumentationMethodText args.instrumentationMethod))
        (some (updateMethodText args.updateMethod))
  | .cfgExporter => .cfgExporter (some args.cfgExporterLoadPoint.text)

/-! ## The passes read nothing else -/

section Congruence

variable (tc : Toolchain) {env env' : Env}

theorem assigner_run_congr
    (h : Plugin.bbIdAssigner.configuration env = Plugin.bbIdAssigner.configuration env')
    (M : Module) : BBIDAssigner.run tc env M = BBIDAssigner.run tc env' M := by
  simp only [Plugin.configuration, Configuration.bbIdAssigner.injEq] at h
  rcases h with ⟨hsplitting, hselection, hgeneration, hsize⟩
  have hpaths : splitPaths tc env M = splitPaths tc env' M := by
    simp only [splitPaths, hsplitting]
  have hselector : ∀ M, selector env M = selector env' M := by
    intro M
    simp only [selector, hselection]
  have hgenerator : ∀ M, generator tc env M = generator tc env' M := by
    intro M
    rw [hgeneration] at hsize
    simp only [generator, hgeneration]
    cases hval : env' generationStrategyKey with
    | none => rfl
    | some val =>
        by_cases hrandom : val = random
        · rw [hval, hrandom, if_pos rfl, if_pos rfl] at hsize
          simp only [hsize]
        · simp only [if_neg hrandom]
  simp only [BBIDAssigner.run, hpaths, hselector, hgenerator]

theorem coverage_run_congr
    (h : Plugin.aflCoverage.configuration env = Plugin.aflCoverage.configuration env')
    {st : PassState} (hassigner : st.registered →
      Plugin.bbIdAssigner.configuration env = Plugin.bbIdAssigner.configuration env') :
    AFLCoverage.run tc env st = AFLCoverage.run tc env' st := by
  simp only [Plugin.configuration, Configuration.aflCoverage.injEq] at h
  rcases h with ⟨-, hmethod, hupdate⟩
  have hids : st.getResult tc env = st.getResult tc env' := by
    cases hreg : st.registered with
    | false => simp only [PassState.getResult, hreg, Bool.not_false, if_true]
    | true => simp only [PassState.getResult, assigner_run_congr tc (hassigner hreg)]
  simp only [AFLCoverage.run, instrumentationMethod, updateMethod, hmethod, hupdate, hids]

/-- The plugin that registers a pass. -/
def Pass.plugin : Pass → Plugin
  | .aflCoverage => .aflCoverage
  | .cfgExporter => .cfgExporter

theorem Pass.run_congr {pass : Pass}
    (h : pass.plugin.configuration env = pass.plugin.configuration env') {st : PassState}
    (hassigner : st.registered →
      Plugin.bbIdAssigner.configuration env = Plugin.bbIdAssigner.configuration env') :
    pass.run tc env st = pass.run tc env' st := by
  cases pass with
  | aflCoverage => exact coverage_run_congr tc h hassigner
  | cfgExporter => rfl

/-- No pass loads a plugin. -/
theorem Pass.run_registered {tc : Toolchain} {pass : Pass} {st st' : PassState}
    (h : pass.run tc env st = .ok st') : st'.registered = st.registered := by
  cases pass with
  | aflCoverage =>
      rcases run_eq_ok h with ⟨im, um, ids, st₁, -, -, hids, rfl⟩
      rcases PassState.getResult_eq_ok hids with ⟨-, ⟨-, rfl⟩ | ⟨-, res, -, -, rfl⟩⟩
      · rfl
      · rfl
  | cfgExporter =>
      rcases CFGExporter.run_eq_ok h with ⟨ids, -, rfl⟩
      rfl

/-- Passes whose plugins are configured alike do the same. -/
theorem runPasses_congr {plugins : List Plugin}
    (h : ∀ plugin ∈ plugins, plugin.configuration env = plugin.configuration env')
    {passes : List Pass} (hpasses : ∀ pass ∈ passes, pass.plugin ∈ plugins) {st : PassState}
    (hreg : st.registered → .bbIdAssigner ∈ plugins) :
    runPasses tc env passes st = runPasses tc env' passes st := by
  induction passes generalizing st with
  | nil => rfl
  | cons pass passes ih =>
      have hrun : pass.run tc env st = pass.run tc env' st :=
        pass.run_congr tc (h _ (hpasses pass (by simp))) fun hst => h _ (hreg hst)
      simp only [runPasses, ← hrun]
      cases hst : pass.run tc env st with
      | error abort => rfl
      | ok st' =>
          refine ih (fun pass' hpass' => hpasses pass' (List.mem_cons_of_mem _ hpass')) ?_
          rw [Pass.run_registered hst]
          exact hreg

end Congruence

/-! ## The variables of the loaded plugins -/

/-- Of all variables only the one for path splitting may be missing. -/
theorem pathSplitting_of_mem_vars {args : Arguments} {names : List FeatureName}
    (h : doPathSplittingKey ∈ (names.flatMap (FeatureName.vars args)).map Prod.fst) :
    args.pathSplitting = true := by
  rcases List.mem_map.1 h with ⟨⟨k, v⟩, hkv, hkey⟩
  obtain rfl : k = doPathSplittingKey := hkey
  rcases List.mem_flatMap.1 hkv with ⟨name, -, hvars⟩
  have hmem := FeatureName.mem_options hvars
  cases name with
  | ijonFeedback => cases hmem
  | forkServer => cases hmem
  | cfgExporter => simp [FeatureName.options, doPathSplittingKey] at hmem
  | bitMapFeedback => simp [FeatureName.options, doPathSplittingKey] at hmem
  | bbIdAssigner =>
      by_contra hoff
      cases hgeneration : args.idGenerationStrategy <;>
        simp [FeatureName.options, createBBIDAssigner, hoff, hgeneration, IdGenerationStrategy.text,
          doPathSplittingKey] at hmem

theorem assigner_configuration_iff (parent : Env) {args : Arguments} {names : List FeatureName}
    (hname : FeatureName.bbIdAssigner ∈ names) :
    Plugin.bbIdAssigner.configuration (envvars parent args (names.map (FeatureName.create args))) =
        Plugin.bbIdAssigner.selected args ↔
      args.pathSplitting = true ∨ parent doPathSplittingKey = none := by
  have hselection := envvars_of_mem parent hname (selectionStrategy_mem_vars args)
  have hgeneration := envvars_of_mem parent hname (generationStrategy_mem_vars args)
  have hsize : (if some args.idGenerationStrategy.text = some random then
        envvars parent args (names.map (FeatureName.create args)) mapSizeKey else none) =
      if args.idGenerationStrategy = .random then some (pyStr args.mapSize) else none := by
    cases hrandom : args.idGenerationStrategy with
    | random => exact envvars_of_mem parent hname (mapSize_mem_vars hrandom)
    | sequential => rfl
  simp only [Plugin.configuration, Plugin.selected, hselection, hgeneration, hsize,
    Configuration.bbIdAssigner.injEq, and_true]
  cases hsplitting : args.pathSplitting with
  | true =>
      have hset := envvars_of_mem parent hname (doPathSplitting_mem_vars hsplitting)
      simp [hset]
  | false =>
      -- nobody writes the variable, so it is the parent's
      have hnot : doPathSplittingKey ∉ (names.flatMap (FeatureName.vars args)).map Prod.fst := by
        intro hmem
        rw [pathSplitting_of_mem_vars hmem] at hsplitting
        cases hsplitting
      simp [envvars_apply, hnot]

/-- A plugin that is loaded at a load point is configured for it. -/
theorem configuration_of_loaded (parent : Env) {args : Arguments} {names : List FeatureName}
    {step : Step} (hloads : loadsPlugins args step) {name : FeatureName} (hname : name ∈ names)
    {plugin : Plugin} (hplugin : name.pluginAt args step = some plugin)
    (hsplitting : plugin = .bbIdAssigner →
      args.pathSplitting = true ∨ parent doPathSplittingKey = none) :
    plugin.configuration (envvars parent args (names.map (FeatureName.create args))) =
      plugin.selected args := by
  cases name with
  | bbIdAssigner =>
      obtain rfl : Plugin.bbIdAssigner = plugin := Option.some.inj hplugin
      exact (assigner_configuration_iff parent hname).2 (hsplitting rfl)
  | bitMapFeedback =>
      simp only [FeatureName.pluginAt, Option.ite_none_right_eq_some, Option.some.injEq] at hplugin
      rcases hplugin with ⟨hpoint, rfl⟩
      have hvars := bitMapFeedback_vars hloads hpoint
      have hpass := envvars_of_mem parent hname (hvars ▸ List.mem_cons_self)
      have hupdate := envvars_of_mem parent hname
        (hvars ▸ List.mem_cons_of_mem _ List.mem_cons_self)
      have hmethod := envvars_of_mem parent hname
        (hvars ▸ List.mem_cons_of_mem _ (List.mem_cons_of_mem _ List.mem_cons_self))
      simp only [Plugin.configuration, Plugin.selected, instrumentationMethodKey, updateMethodKey,
        hpass, hupdate, hmethod]
  | cfgExporter =>
      simp only [FeatureName.pluginAt, Option.ite_none_right_eq_some, Option.some.injEq] at hplugin
      rcases hplugin with ⟨hpoint, rfl⟩
      have hvars := cfgExporter_vars hloads hpoint
      have hpass := envvars_of_mem parent hname (hvars ▸ List.mem_cons_self)
      simp only [Plugin.configuration, Plugin.selected, hpass]
  | ijonFeedback => cases hplugin
  | forkServer => cases hplugin

/-! ## Two environments -/

/-- Every loaded plugin is configured as selected. -/
def ConfiguredAsSelected (cc : Compiler) (parent : Env) (args : Arguments) (keys : List String)
    (step : Step) : Prop :=
  ∀ p, plan cc parent args keys step = .ok p →
    ∀ plugin ∈ p.plugins, plugin.configuration p.env = plugin.selected args

/-- If the id assigner is loaded, path splitting is selected or its variable is not there. -/
def SplittingSettled (cc : Compiler) (parent : Env) (args : Arguments) (keys : List String)
    (step : Step) : Prop :=
  (∃ p, plan cc parent args keys step = .ok p) → loadsPlugins args step →
    FeatureName.bbIdAssigner.key ∈ keys →
      args.pathSplitting = true ∨ parent doPathSplittingKey = none

/-- What a variable left over in a parent environment could change: the configuration of a loaded
plugin, or the instrumentation. -/
structure Undisturbed (cc : Compiler) (parent parent' : Env) (args : Arguments)
    (keys : List String) (step : Step) : Prop where
  configured : ConfiguredAsSelected cc parent args keys step
  configured' : ConfiguredAsSelected cc parent' args keys step
  instrumented : ∀ M, build cc parent args keys step M = build cc parent' args keys step M

variable {cc : Compiler} {parent parent' : Env} {args : Arguments} {keys : List String}
  {step : Step}

/-- A loaded id assigner comes from its feature. -/
theorem eq_bbIdAssigner_of_pluginAt {name : FeatureName}
    (h : name.pluginAt args step = some .bbIdAssigner) : name = .bbIdAssigner := by
  cases name with
  | bbIdAssigner => rfl
  | bitMapFeedback => simp [FeatureName.pluginAt] at h
  | cfgExporter => simp [FeatureName.pluginAt] at h
  | ijonFeedback => cases h
  | forkServer => cases h

theorem key_mem_of_mem {names : List FeatureName} (hnames : selectFeatures keys = .ok names)
    {name : FeatureName} (h : name ∈ names) : name.key ∈ keys := by
  rw [← filterMap_ofKey hnames] at h
  rcases List.mem_filterMap.1 h with ⟨key, hkey, hof⟩
  have heq := List.find?_some hof
  rw [beq_iff_eq] at heq
  rw [heq]
  exact hkey

theorem configuredAsSelected_iff :
    ConfiguredAsSelected cc parent args keys step ↔ SplittingSettled cc parent args keys step := by
  constructor
  · rintro hconfigured ⟨p, hplan⟩ hloads hkey
    rcases plan_eq_ok hplan with ⟨names, hnames, hspec⟩
    have hname : FeatureName.bbIdAssigner ∈ names := by
      rw [← filterMap_ofKey hnames]
      exact List.mem_filterMap.2 ⟨_, hkey, FeatureName.ofKey_key _⟩
    have hplugin : Plugin.bbIdAssigner ∈ p.plugins := by
      rw [hspec.plugins, if_pos hloads]
      exact List.mem_filterMap.2 ⟨_, hname, rfl⟩
    have hconfiguration := hconfigured p hplan _ hplugin
    rw [hspec.env] at hconfiguration
    exact (assigner_configuration_iff parent hname).1 hconfiguration
  · intro hsettled p hplan plugin hplugin
    rcases plan_eq_ok hplan with ⟨names, hnames, hspec⟩
    rw [hspec.plugins] at hplugin
    split at hplugin
    · rename_i hloads
      rcases List.mem_filterMap.1 hplugin with ⟨name, hname, hat⟩
      rw [hspec.env]
      refine configuration_of_loaded parent hloads hname hat ?_
      rintro rfl
      refine hsettled ⟨p, hplan⟩ hloads ?_
      -- only the feature of that name has the plugin
      obtain rfl := eq_bbIdAssigner_of_pluginAt hat
      exact key_mem_of_mem hnames hname
    · cases hplugin

/-- The environment is no reason for the driver to fail. -/
theorem plan_error (parent' : Env) {e : Failure} (h : plan cc parent args keys step = .error e) :
    plan cc parent' args keys step = .error e := by
  simp only [plan, bind, Except.bind, pure, Except.pure] at h ⊢
  split at h
  · exact h
  · split at h
    · exact h
    · split at h
      · exact h
      · cases h

theorem pluginAt_of_passAt {llvmVersionMajor : Nat} {name : FeatureName} {pass : Pass}
    (h : name.passAt llvmVersionMajor args step = some pass) :
    name.pluginAt args step = some pass.plugin := by
  cases name with
  | bitMapFeedback =>
      simp only [FeatureName.passAt, Option.ite_none_right_eq_some, Option.some.injEq] at h
      rcases h with ⟨⟨hpoint, -⟩, rfl⟩
      simp only [FeatureName.pluginAt, hpoint, if_true, Pass.plugin]
  | cfgExporter =>
      simp only [FeatureName.passAt, Option.ite_none_right_eq_some, Option.some.injEq] at h
      rcases h with ⟨⟨hpoint, -⟩, rfl⟩
      simp only [FeatureName.pluginAt, hpoint, if_true, Pass.plugin]
  | bbIdAssigner => cases h
  | ijonFeedback => cases h
  | forkServer => cases h

theorem PlanSpec.plugin_mem {names : List FeatureName} {p : Plan}
    (h : PlanSpec cc parent args names step p) : ∀ pass ∈ p.passes, pass.plugin ∈ p.plugins := by
  intro pass hpass
  rw [h.passes] at hpass
  rw [h.plugins]
  split at hpass
  · rename_i hloads
    rcases List.mem_filterMap.1 hpass with ⟨name, hname, hat⟩
    rw [if_pos hloads]
    exact List.mem_filterMap.2 ⟨name, hname, pluginAt_of_passAt hat⟩
  · cases hpass

/-- A build depends on its environment through the configuration of the loaded plugins. -/
theorem build_eq_of_configured (h : ConfiguredAsSelected cc parent args keys step)
    (h' : ConfiguredAsSelected cc parent' args keys step) (M : Module) :
    build cc parent args keys step M = build cc parent' args keys step M := by
  cases hplan : plan cc parent args keys step with
  | error e =>
      have hplan' := plan_error parent' hplan
      simp only [build, hplan, hplan', bind, Except.bind]
  | ok p =>
      obtain ⟨p', hplan'⟩ : ∃ p', plan cc parent' args keys step = .ok p' := by
        cases hplan' : plan cc parent' args keys step with
        | error e =>
            rw [plan_error parent hplan'] at hplan
            cases hplan
        | ok p' => exact ⟨p', rfl⟩
      rcases plan_eq_ok hplan with ⟨names, hnames, hspec⟩
      rcases plan_eq_ok hplan' with ⟨names', hnames', hspec'⟩
      obtain rfl : names = names' := Except.ok.inj (hnames.symm.trans hnames')
      have hplugins : p'.plugins = p.plugins := hspec'.plugins.trans hspec.plugins.symm
      have hpasses : p'.passes = p.passes := hspec'.passes.trans hspec.passes.symm
      have hrun : runPasses cc.toToolchain p.env p.passes
            (.initial M (p.plugins.contains .bbIdAssigner)) =
          runPasses cc.toToolchain p'.env p.passes
            (.initial M (p.plugins.contains .bbIdAssigner)) := by
        refine runPasses_congr cc.toToolchain ?_ hspec.plugin_mem fun hreg => ?_
        · intro plugin hplugin
          rw [h p hplan plugin hplugin, h' p' hplan' plugin (hplugins ▸ hplugin)]
        · exact List.contains_iff_mem.1 hreg
      simp only [build, hplan, hplan', hplugins, hpasses, hrun, bind, Except.bind]

/-- **Leftovers.** For any two environments in which the driver is run, every loaded plugin is
configured as the command line says and the instrumentation is the same, exactly if path splitting
is selected or left alone by both, wherever the id assigner is loaded. -/
theorem undisturbed_iff :
    Undisturbed cc parent parent' args keys step ↔
      SplittingSettled cc parent args keys step ∧ SplittingSettled cc parent' args keys step := by
  constructor
  · intro h
    exact ⟨configuredAsSelected_iff.1 h.configured, configuredAsSelected_iff.1 h.configured'⟩
  · rintro ⟨hsettled, hsettled'⟩
    have hconfigured := configuredAsSelected_iff.2 hsettled
    have hconfigured' := configuredAsSelected_iff.2 hsettled'
    exact ⟨hconfigured, hconfigured', build_eq_of_configured hconfigured hconfigured'⟩

/-! ### A branch around a block -/

/-- The edge from the first block to the last one is critical. -/
def shortcut : LLVM.Function where
  blocks := [⟨[], [1, 2]⟩, ⟨[], [2]⟩, ⟨[], []⟩]
  succs_lt := by decide
  entry_no_pred := by decide

def shortcutSplit : LLVM.Function where
  blocks := [⟨[], [1, 3]⟩, ⟨[], [2]⟩, ⟨[], []⟩, ⟨[], [2]⟩]
  succs_lt := by decide
  entry_no_pred := by decide

/-- A compiler for functions that have at most this critical edge. -/
def shortcutCompiler : Compiler where
  splitAllCriticalEdges F := if F.blocks = shortcut.blocks then shortcutSplit else F
  uniform _ _ _ _ := 0
  llvmVersionMajor := 15
  bindsAtLoad := true

/-- Left over from some other build. -/
def leftover : Env := fun key =>
  if key = doPathSplittingKey then some "1" else none

/-- How many blocks the functions have behind the passes. -/
def blockCounts (result : Except Failure PassState) : Option (List Nat) :=
  result.toOption.map fun st => st.module.functions.map fun f => f.blocks.length

/-- The variable alone makes the same command line split the edge. -/
theorem leftover_splits :
    (∀ key, key ≠ doPathSplittingKey → leftover key = none) ∧
      ¬Undisturbed shortcutCompiler leftover (fun _ => none) { remain := ["-c", "shortcut.c"] }
        ["bb-id-assigner", "bitmap-feedback"] .compile := by
  refine ⟨fun key hkey => if_neg hkey, fun h => ?_⟩
  have hcounts : some [4] = some [3] :=
    congrArg blockCounts (h.instrumented ⟨"shortcut.c", [shortcut]⟩)
  cases hcounts

end Driver
end FuzzufCc
