import FuzzufCc.Driver.Plan
import Mathlib.Data.List.Permutation

/-!
# FeatureOrder — the order in which features are given

The order of `--features` reaches the compiler as the order of the plugins.  The exporter takes the
ids that an earlier pass cached, so it fails in front of the coverage pass; apart from that the
order is shown not to matter to a build.
-/

namespace FuzzufCc

open LLVM Libc

namespace Driver

/-- `x` stands before `y` on the command line. -/
def Precedes (keys : List String) (x y : FeatureName) : Prop :=
  [x.key, y.key].Sublist keys

instance (keys : List String) (x y : FeatureName) : Decidable (Precedes keys x y) :=
  inferInstanceAs (Decidable ([x.key, y.key].Sublist keys))

/-- The orders in which the three passes can work: the exporter after the coverage pass, and the
plugin with the analysis key first, if the compiler insists on it. -/
structure Usable (cc : Compiler) (keys : List String) : Prop where
  coverageFirst : Precedes keys .bitMapFeedback .cfgExporter
  keyFirst : cc.bindsAtLoad → Precedes keys .bbIdAssigner .bitMapFeedback

/-- Two builds both fail, or both succeed with the same module, code, ids and CFG text. -/
def SameOutcome (r₁ r₂ : Except Failure PassState) : Prop :=
  (∃ e₁ e₂, r₁ = .error e₁ ∧ r₂ = .error e₂) ∨ ∃ st, r₁ = .ok st ∧ r₂ = .ok st

/-! ## Orders of lists -/

theorem pair_sublist_total {α : Type} {l : List α} {x y : α} (hx : x ∈ l) (hy : y ∈ l)
    (hne : x ≠ y) : [x, y].Sublist l ∨ [y, x].Sublist l := by
  induction l with
  | nil => cases hx
  | cons a l ih =>
      rcases List.mem_cons.1 hx with rfl | hxl
      · rcases List.mem_cons.1 hy with rfl | hyl
        · exact absurd rfl hne
        · exact Or.inl ((List.singleton_sublist.2 hyl).cons_cons x)
      · rcases List.mem_cons.1 hy with rfl | hyl
        · exact Or.inr ((List.singleton_sublist.2 hxl).cons_cons y)
        · exact (ih hxl hyl).imp (fun h => h.cons a) fun h => h.cons a

theorem FeatureName.key_of_ofKey {key : String} {name : FeatureName} (h : ofKey key = some name) :
    name.key = key := by
  simpa using List.find?_some h

theorem FeatureName.key_injective : Function.Injective FeatureName.key := by
  intro x y h
  have := congrArg FeatureName.ofKey h
  simpa [FeatureName.ofKey_key] using this

theorem Precedes.sublist_names {keys : List String} {x y : FeatureName} (h : Precedes keys x y) :
    [x, y].Sublist (keys.filterMap FeatureName.ofKey) := by
  have := h.filterMap FeatureName.ofKey
  simpa [FeatureName.ofKey_key] using this

theorem Precedes.total {keys : List String} {x y : FeatureName} (hx : x.key ∈ keys)
    (hy : y.key ∈ keys) (hne : x ≠ y) : Precedes keys x y ∨ Precedes keys y x :=
  pair_sublist_total hx hy fun h => hne (FeatureName.key_injective h)

theorem nodup_names {keys : List String} (h : keys.Nodup) :
    (keys.filterMap FeatureName.ofKey).Nodup := by
  refine h.filterMap ?_
  intro key key' name hname hname'
  exact (FeatureName.key_of_ofKey hname).symm.trans (FeatureName.key_of_ofKey hname')

theorem mem_names {keys : List String} {name : FeatureName} (h : name.key ∈ keys) :
    name ∈ keys.filterMap FeatureName.ofKey :=
  List.mem_filterMap.2 ⟨_, h, name.ofKey_key⟩

/-! ## Selecting the features -/

theorem selectFeatures_of_isSome {keys : List String}
    (h : ∀ key ∈ keys, (FeatureName.ofKey key).isSome) :
    selectFeatures keys = .ok (keys.filterMap FeatureName.ofKey) := by
  induction keys with
  | nil => rfl
  | cons key keys ih =>
      rcases Option.isSome_iff_exists.1 (h key (by simp)) with ⟨name, hname⟩
      have ih := ih fun key' hkey' => h key' (List.mem_cons_of_mem _ hkey')
      rw [selectFeatures] at ih ⊢
      rw [List.mapM_cons, ih, List.filterMap_cons_some hname]
      simp [hname, bind, Except.bind, pure, Except.pure]

theorem isSome_of_selectFeatures {keys : List String} {names : List FeatureName}
    (h : selectFeatures keys = .ok names) : ∀ key ∈ keys, (FeatureName.ofKey key).isSome := by
  intro key hkey
  have hmem : FeatureName.ofKey key ∈ names.map some := by
    rw [← selectFeatures_eq_ok h]
    exact List.mem_map_of_mem hkey
  rcases List.mem_map.1 hmem with ⟨name, _, hname⟩
  simp [← hname]

/-- A plan begins with the features, whose arguments do not conflict if they are distinct. -/
theorem plan_eq_of_nodup (cc : Compiler) (parent : Env) (args : Arguments) {keys : List String}
    (hnodup : keys.Nodup) (hkeys : ∀ key ∈ keys, (FeatureName.ofKey key).isSome) (step : Step) :
    let names := keys.filterMap FeatureName.ofKey
    let env := envvars parent args (names.map (FeatureName.create args))
    plan cc parent args keys step =
      (loadPlugins cc.bindsAtLoad (pluginPaths args (names.map (FeatureName.create args)) step) []).bind
        fun plugins => .ok {
          env := env
          plugins := plugins
          passes := plugins.flatMap (Plugin.passes cc.llvmVersionMajor env step.point) } := by
  have hargs : initArgparse (keys.filterMap FeatureName.ofKey) = .ok () := by
    simp [initArgparse, (nodup_names hnodup).filter]
  simp only [plan, selectFeatures_of_isSome hkeys, bind, Except.bind, hargs, pure, Except.pure]

/-! ## Loading the plugins -/

theorem loadPlugins_ok {bindsAtLoad : Bool} {plugins : List Plugin} (loaded : List Plugin)
    (h : bindsAtLoad = false ∨ Plugin.bbIdAssigner ∈ loaded) :
    loadPlugins bindsAtLoad (plugins.map Plugin.path) loaded = .ok (loaded ++ plugins) := by
  induction plugins generalizing loaded with
  | nil => simp [loadPlugins]
  | cons plugin plugins ih =>
      have hnot : (bindsAtLoad && plugin.refersToKey && !loaded.contains .bbIdAssigner) = false := by
        rcases h with rfl | h
        · rfl
        · simp [h]
      rw [loadPlugins_path_cons, hnot]
      simpa using ih (loaded ++ [plugin]) (h.imp id fun h => List.mem_append_left _ h)

/-- The plugins of the three features, in some order. -/
abbrev ThreePlugins (plugins : List Plugin) : Prop :=
  plugins.Perm [.bbIdAssigner, .aflCoverage, .cfgExporter]

theorem ThreePlugins.eq_of_order {plugins : List Plugin} (h : ThreePlugins plugins)
    (hkey : [Plugin.bbIdAssigner, .aflCoverage].Sublist plugins)
    (hcov : [Plugin.aflCoverage, .cfgExporter].Sublist plugins) :
    plugins = [.bbIdAssigner, .aflCoverage, .cfgExporter] := by
  rcases List.length_eq_three.1 h.length_eq with ⟨a, b, c, rfl⟩
  revert h hkey hcov
  cases a <;> cases b <;> cases c <;> decide

theorem ThreePlugins.head?_of_order {plugins : List Plugin} (h : ThreePlugins plugins)
    (hkey : [Plugin.aflCoverage, .bbIdAssigner].Sublist plugins)
    (hcov : [Plugin.aflCoverage, .cfgExporter].Sublist plugins) :
    plugins.head? = some .aflCoverage := by
  rcases List.length_eq_three.1 h.length_eq with ⟨a, b, c, rfl⟩
  revert h hkey hcov
  cases a <;> cases b <;> cases c <;> decide

/-- With the plugin of the assigner in front, or without insisting on it, loading succeeds. -/
theorem loadPlugins_three {bindsAtLoad : Bool} {plugins : List Plugin} (h : ThreePlugins plugins)
    (hcov : [Plugin.aflCoverage, .cfgExporter].Sublist plugins)
    (hkey : bindsAtLoad → [Plugin.bbIdAssigner, .aflCoverage].Sublist plugins) :
    loadPlugins bindsAtLoad (plugins.map Plugin.path) [] = .ok plugins := by
  cases bindsAtLoad with
  | false => exact loadPlugins_ok [] (Or.inl rfl)
  | true =>
      rw [h.eq_of_order (hkey rfl) hcov]
      rfl

/-- A plugin that refers to the key cannot be loaded first by a compiler that insists on it. -/
theorem loadPlugins_error {plugins : List Plugin} (h : ThreePlugins plugins)
    (hkey : [Plugin.aflCoverage, .bbIdAssigner].Sublist plugins)
    (hcov : [Plugin.aflCoverage, .cfgExporter].Sublist plugins) :
    ∃ e, loadPlugins true (plugins.map Plugin.path) [] = .error e := by
  have hhead := h.head?_of_order hkey hcov
  cases plugins with
  | nil => cases hhead
  | cons plugin plugins =>
      obtain rfl : plugin = .aflCoverage := by simpa using hhead
      exact ⟨_, by rw [loadPlugins_path_cons]; rfl⟩

/-! ## Plans of usable orders -/

/-- The three features, each once, and only names that the driver knows. -/
structure ThreeFeatures (keys : List String) : Prop where
  nodup : keys.Nodup
  assigner : FeatureName.bbIdAssigner.key ∈ keys
  coverage : FeatureName.bitMapFeedback.key ∈ keys
  exporter : FeatureName.cfgExporter.key ∈ keys

theorem ThreeFeatures.perm {keys keys' : List String} (h : ThreeFeatures keys)
    (hperm : keys.Perm keys') : ThreeFeatures keys' where
  nodup := hperm.nodup h.nodup
  assigner := hperm.mem_iff.1 h.assigner
  coverage := hperm.mem_iff.1 h.coverage
  exporter := hperm.mem_iff.1 h.exporter

theorem FeatureName.eq_of_pluginAt {args : Arguments} {step : Step} {name name' : FeatureName}
    {plugin : Plugin} (h : name.pluginAt args step = some plugin)
    (h' : name'.pluginAt args step = some plugin) : name = name' := by
  cases name <;> cases name' <;> simp [pluginAt] at h h' ⊢ <;> grind

section Orders

variable {cc : Compiler} {parent : Env} {args : Arguments} {keys : List String} {step : Step}

theorem nodup_plugins (h : ThreeFeatures keys) :
    ((keys.filterMap FeatureName.ofKey).filterMap (FeatureName.pluginAt args step)).Nodup :=
  (nodup_names h.nodup).filterMap fun _ _ _ hname hname' =>
    FeatureName.eq_of_pluginAt hname hname'

/-- At the load point of the two passes. -/
theorem threePlugins (h : ThreeFeatures keys) (hbitmap : args.bitmapLoadPoint = step.point)
    (hcfg : args.cfgExporterLoadPoint = step.point) :
    ThreePlugins ((keys.filterMap FeatureName.ofKey).filterMap (FeatureName.pluginAt args step)) := by
  refine (List.perm_ext_iff_of_nodup (nodup_plugins h) (by decide)).2 fun plugin => ?_
  refine iff_of_true ?_ (by cases plugin <;> decide)
  rw [List.mem_filterMap]
  cases plugin with
  | bbIdAssigner => exact ⟨_, mem_names h.assigner, rfl⟩
  | aflCoverage => exact ⟨_, mem_names h.coverage, by simp [FeatureName.pluginAt, hbitmap]⟩
  | cfgExporter => exact ⟨_, mem_names h.exporter, by simp [FeatureName.pluginAt, hcfg]⟩

/-- Away from it only the assigner is loaded. -/
theorem onePlugin (h : ThreeFeatures keys) (hbitmap : args.bitmapLoadPoint ≠ step.point)
    (hcfg : args.cfgExporterLoadPoint ≠ step.point) :
    (keys.filterMap FeatureName.ofKey).filterMap (FeatureName.pluginAt args step) =
      [.bbIdAssigner] := by
  refine List.perm_singleton.1 ?_
  refine (List.perm_ext_iff_of_nodup (nodup_plugins h) (List.nodup_singleton _)).2 fun plugin => ?_
  rw [List.mem_singleton, List.mem_filterMap]
  constructor
  · rintro ⟨name, _, hname⟩
    cases name <;> simp [FeatureName.pluginAt, hbitmap, hcfg] at hname
    exact hname.symm
  · rintro rfl
    exact ⟨_, mem_names h.assigner, rfl⟩

theorem sublist_plugins {x y : FeatureName} {p q : Plugin} (h : Precedes keys x y)
    (hx : x.pluginAt args step = some p) (hy : y.pluginAt args step = some q) :
    [p, q].Sublist
      ((keys.filterMap FeatureName.ofKey).filterMap (FeatureName.pluginAt args step)) := by
  have := h.sublist_names.filterMap (FeatureName.pluginAt args step)
  simpa [hx, hy] using this

/-- The passes, in the order in which they can work. -/
def plannedPasses (cc : Compiler) (args : Arguments) (step : Step) : List Pass :=
  if instrumentsAt cc args step then [.aflCoverage, .cfgExporter] else []

theorem instrumentsAt_eq (hloads : loadsPlugins args step)
    (hbitmap : args.bitmapLoadPoint = step.point) :
    instrumentsAt cc args step = true ↔ step = .compile ∨ 15 ≤ cc.llvmVersionMajor := by
  simp [instrumentsAt, hloads, hbitmap]

/-- At the load point the passes come in the order of their features. -/
theorem passes_of_precedes (h : ThreeFeatures keys) {x y : FeatureName} {p q : Pass}
    (hxy : Precedes keys x y)
    (hx : x.passAt cc.llvmVersionMajor args step = some p)
    (hy : y.passAt cc.llvmVersionMajor args step = some q) :
    (keys.filterMap FeatureName.ofKey).filterMap
      (FeatureName.passAt cc.llvmVersionMajor args step) = [p, q] := by
  refine nodup_passes_eq (nodup_filterMap_passAt ((nodup_names h.nodup).filter _) _ _ _) ?_
  have hsub := hxy.sublist_names.filterMap (FeatureName.passAt cc.llvmVersionMajor args step)
  rwa [List.filterMap_cons_some hx, List.filterMap_cons_some hy, List.filterMap_nil] at hsub

theorem passAt_bitMapFeedback (hbitmap : args.bitmapLoadPoint = step.point)
    (hversion : step = .compile ∨ 15 ≤ cc.llvmVersionMajor) :
    FeatureName.bitMapFeedback.passAt cc.llvmVersionMajor args step = some .aflCoverage :=
  if_pos ⟨hbitmap, hversion⟩

theorem passAt_cfgExporter (hcfg : args.cfgExporterLoadPoint = step.point)
    (hversion : step = .compile ∨ 15 ≤ cc.llvmVersionMajor) :
    FeatureName.cfgExporter.passAt cc.llvmVersionMajor args step = some .cfgExporter :=
  if_pos ⟨hcfg, hversion⟩

theorem passes_of_usable (h : ThreeFeatures keys)
    (hcov : Precedes keys .bitMapFeedback .cfgExporter) (hloads : loadsPlugins args step)
    (hbitmap : args.bitmapLoadPoint = step.point) (hcfg : args.cfgExporterLoadPoint = step.point) :
    (keys.filterMap FeatureName.ofKey).filterMap
        (FeatureName.passAt cc.llvmVersionMajor args step) = plannedPasses cc args step := by
  rw [plannedPasses]
  by_cases hversion : step = .compile ∨ 15 ≤ cc.llvmVersionMajor
  · rw [if_pos ((instrumentsAt_eq hloads hbitmap).2 hversion)]
    exact passes_of_precedes h hcov (passAt_bitMapFeedback hbitmap hversion)
      (passAt_cfgExporter hcfg hversion)
  · rw [if_neg fun h => hversion ((instrumentsAt_eq hloads hbitmap).1 h), List.filterMap_eq_nil_iff]
    intro name _
    cases name <;> simp [FeatureName.passAt, hversion]

variable (parent step) in
/-- **The plan of a usable order.** Neither its environment nor its passes depend on the order. -/
theorem plan_of_usable (h : ThreeFeatures keys)
    (hkeys : ∀ key ∈ keys, (FeatureName.ofKey key).isSome)
    (hpoint : args.bitmapLoadPoint = args.cfgExporterLoadPoint) (husable : Usable cc keys) :
    ∃ plugins, plan cc parent args keys step = .ok {
          env := envvars parent args
            ((keys.filterMap FeatureName.ofKey).map (FeatureName.create args))
          plugins := plugins
          passes := plannedPasses cc args step } ∧
      plugins.contains .bbIdAssigner = loadsPlugins args step := by
  rw [plan_eq_of_nodup cc parent args h.nodup hkeys step, pluginPaths_eq]
  cases hloads : loadsPlugins args step with
  | false =>
      refine ⟨[], ?_, rfl⟩
      simp [loadPlugins, Except.bind, plannedPasses, instrumentsAt, hloads]
  | true =>
      by_cases hbitmap : args.bitmapLoadPoint = step.point
      -- the step in which the passes run loads all three plugins, the other one the assigner's
      · have hcfg : args.cfgExporterLoadPoint = step.point := hpoint.symm.trans hbitmap
        have hload := loadPlugins_three (threePlugins h hbitmap hcfg)
          (sublist_plugins husable.coverageFirst (by simp [FeatureName.pluginAt, hbitmap])
            (by simp [FeatureName.pluginAt, hcfg]))
          (fun hbinds => sublist_plugins (husable.keyFirst hbinds) rfl
            (by simp [FeatureName.pluginAt, hbitmap]))
        refine ⟨(keys.filterMap FeatureName.ofKey).filterMap (FeatureName.pluginAt args step),
          ?_, ?_⟩
        · rw [if_pos rfl, hload]
          simp only [Except.bind]
          rw [passes_eq _ parent hloads,
            passes_of_usable h husable.coverageFirst hloads hbitmap hcfg]
        · simpa using (threePlugins h hbitmap hcfg).mem_iff.2 (by decide)
      · have hcfg : args.cfgExporterLoadPoint ≠ step.point := fun hcfg =>
          hbitmap (hpoint.trans hcfg)
        refine ⟨[.bbIdAssigner], ?_, rfl⟩
        rw [if_pos rfl, onePlugin h hbitmap hcfg]
        cases hbinds : cc.bindsAtLoad <;>
          simp [loadPlugins, Plugin.refersToKey, Except.bind, Plugin.passes, plannedPasses,
            instrumentsAt, hbitmap]

/-! ## Builds -/

variable (cc parent args step) in
theorem build_error_of_unsupported (hkeys : ¬ ∀ key ∈ keys, (FeatureName.ofKey key).isSome)
    (M : Module) : ∃ e, build cc parent args keys step M = .error e := by
  cases hselect : selectFeatures keys with
  | ok names => exact absurd (isSome_of_selectFeatures hselect) hkeys
  | error e => exact ⟨e, by simp [build, plan, hselect, bind, Except.bind]⟩

/-- An order that is not usable fails where the passes run. -/
theorem build_error_of_not_usable (h : ThreeFeatures keys)
    (hpoint : args.bitmapLoadPoint = args.cfgExporterLoadPoint)
    (hinst : instrumentsAt cc args step) (hnot : ¬ Usable cc keys) (M : Module) :
    ∃ e, build cc parent args keys step M = .error e := by
  by_cases hkeys : ∀ key ∈ keys, (FeatureName.ofKey key).isSome
  case neg => exact build_error_of_unsupported cc parent args step hkeys M
  simp only [instrumentsAt, Bool.and_eq_true, beq_iff_eq, Bool.or_eq_true, decide_eq_true_eq]
    at hinst
  rcases hinst with ⟨⟨hloads, hbitmap⟩, hversion⟩
  have hcfg : args.cfgExporterLoadPoint = step.point := hpoint.symm.trans hbitmap
  have hthree := threePlugins h hbitmap hcfg
  cases hbuild : build cc parent args keys step M with
  | error e => exact ⟨e, rfl⟩
  | ok st =>
      exfalso
      rcases build_eq_ok.1 hbuild with ⟨p, hplan, hrun⟩
      rcases Precedes.total h.coverage h.exporter (by decide) with hcov | hexp
      · -- the key is missing when the coverage plugin is loaded
        have hbinds : cc.bindsAtLoad = true := by
          by_contra hbinds
          exact hnot ⟨hcov, fun h => absurd h hbinds⟩
        rcases Precedes.total h.assigner h.coverage (by decide) with hkey | hkey
        · exact hnot ⟨hcov, fun _ => hkey⟩
        · obtain ⟨e, he⟩ := loadPlugins_error hthree
            (sublist_plugins hkey (by simp [FeatureName.pluginAt, hbitmap]) rfl)
            (sublist_plugins hcov (by simp [FeatureName.pluginAt, hbitmap])
              (by simp [FeatureName.pluginAt, hcfg]))
          rw [plan_eq_of_nodup cc parent args h.nodup hkeys step, pluginPaths_eq, if_pos hloads,
            hbinds, he] at hplan
          cases hplan
      · -- the exporter runs on an empty cache
        rcases plan_eq_ok hplan with ⟨names, hnames, hspec⟩
        have hpasses := hspec.passes
        rw [if_pos hloads, ← filterMap_ofKey hnames,
          passes_of_precedes h hexp (passAt_cfgExporter hcfg hversion)
            (passAt_bitMapFeedback hbitmap hversion)] at hpasses
        obtain ⟨abort, herr⟩ := runPasses_cfgExporter_cons cc.toToolchain p.env [.aflCoverage] M
          (p.plugins.contains .bbIdAssigner)
        rw [hpasses, herr] at hrun
        cases hrun

end Orders

/-- **The order of the features.** Two usable orders of the same features give the same outcome in
every step of the build, on every module; any other order fails where the passes run. -/
theorem build_order (cc : Compiler) (parent : Env) (args : Arguments)
    (hpoint : args.bitmapLoadPoint = args.cfgExporterLoadPoint) {keys keys' : List String}
    (hperm : keys.Perm keys') (hthree : ThreeFeatures keys) :
    (Usable cc keys → Usable cc keys' → ∀ step M,
        SameOutcome (build cc parent args keys step M) (build cc parent args keys' step M)) ∧
      (¬ Usable cc keys → ∀ step M, instrumentsAt cc args step →
        ∃ e, build cc parent args keys step M = .error e) := by
  refine ⟨fun husable husable' step M => ?_, fun hnot step M hinst =>
    build_error_of_not_usable hthree hpoint hinst hnot M⟩
  by_cases hkeys : ∀ key ∈ keys, (FeatureName.ofKey key).isSome
  · have hkeys' : ∀ key ∈ keys', (FeatureName.ofKey key).isSome :=
      fun key hkey => hkeys key (hperm.mem_iff.2 hkey)
    -- the plans differ in the order of the plugins only, which no pass can see
    rcases plan_of_usable parent step hthree hkeys hpoint husable with ⟨plugins, hplan, hreg⟩
    obtain ⟨plugins', hplan', hreg'⟩ :=
      plan_of_usable parent step (hthree.perm hperm) hkeys' hpoint husable'
    rw [← envvars_perm parent args (hperm.filterMap FeatureName.ofKey)] at hplan'
    have heq : build cc parent args keys step M = build cc parent args keys' step M := by
      simp only [build, hplan, hplan', bind, Except.bind, hreg, hreg']
    rw [heq]
    cases build cc parent args keys' step M with
    | error e => exact Or.inl ⟨e, e, rfl, rfl⟩
    | ok st => exact Or.inr ⟨st, rfl, rfl⟩
  · -- an unknown name is unknown in any place
    have hkeys' : ¬ ∀ key ∈ keys', (FeatureName.ofKey key).isSome :=
      fun h => hkeys fun key hkey => h key (hperm.mem_iff.1 hkey)
    rcases build_error_of_unsupported cc parent args step hkeys M with ⟨e, he⟩
    rcases build_error_of_unsupported cc parent args step hkeys' M with ⟨e', he'⟩
    exact Or.inl ⟨e, e', he, he'⟩

/-! ### Three features in two orders -/

/-- A compiler for modules without critical edges that insists on the key. -/
def strictCompiler : Compiler where
  toToolchain := identityToolchain
  llvmVersionMajor := 15
  bindsAtLoad := true

/-- A module with one branch. -/
def branchModule : Module where
  name := "branch.c"
  functions :=
    [{ blocks := [⟨[], [1, 2]⟩, ⟨[], [3]⟩, ⟨[], [3]⟩, ⟨[], []⟩]
       succs_lt := by decide
       entry_no_pred := by decide }]

def branchArguments : Arguments where
  remain := ["branch.c"]

def usableKeys : List String :=
  ["bb-id-assigner", "bitmap-feedback", "cfg-exporter", "forkserver"]

/-- The exporter moved before the coverage pass. -/
def exporterFirstKeys : List String :=
  ["bb-id-assigner", "cfg-exporter", "bitmap-feedback", "forkserver"]

/-- Moving the fork server to the front changes nothing. -/
theorem branchModule_forkserver_first :
    SameOutcome (build strictCompiler (fun _ => none) branchArguments usableKeys .compile branchModule)
      (build strictCompiler (fun _ => none) branchArguments
        ["forkserver", "bb-id-assigner", "bitmap-feedback", "cfg-exporter"] .compile branchModule) :=
  (build_order strictCompiler (fun _ => none) branchArguments rfl (by decide)
    ⟨by decide, by decide, by decide, by decide⟩).1
    ⟨by decide, fun _ => by decide⟩ ⟨by decide, fun _ => by decide⟩ .compile branchModule

/-- Moving the exporter before the coverage pass makes the build fail. -/
theorem branchModule_exporter_first :
    usableKeys.Perm exporterFirstKeys ∧
      (∃ st, build strictCompiler (fun _ => none) branchArguments usableKeys .compile branchModule =
        .ok st) ∧
      ∃ errs, build strictCompiler (fun _ => none) branchArguments exporterFirstKeys .compile
        branchModule = .error (.pass (.reportFatalError errs "Cached result not found")) :=
  ⟨by decide, ⟨_, rfl⟩, ⟨_, rfl⟩⟩

end Driver
end FuzzufCc
