import FuzzufCc.Passes.Coverage
import FuzzufCc.Passes.CFGExporter

/-!
# ExplainedEdges — coverage locations and the exported control flow graph

`AFLCoverage` and `CFGExporter` traverse the module on their own and meet only in the cached ids.
A path of branches and direct calls is followed here through both: each step is a line of the
exported section, and the write at its end is the hash of that line.
-/

namespace FuzzufCc

open LLVM Libc IR

/-- A step from block `r` to block `r'`: a branch to a successor, flag 0, or a direct call that
enters a function of the module, flag 1. -/
inductive FlowStep (M : Module) (r : BlockRef) : BitVec 32 → BlockRef → Prop
  | branch {bb : BasicBlock} {c : Nat} (hbb : M.block? r = some bb) (hc : c ∈ bb.succs) :
      FlowStep M r CFGExporter.EDGE_JMP ⟨r.func, c⟩
  | call {bb : BasicBlock} {inst : Instruction} {func : Nat} {F : LLVM.Function}
      (hbb : M.block? r = some bb) (hinst : inst ∈ bb.insts)
      (hfunc : inst.getCalledFunction = some func) (hF : M.functions[func]? = some F)
      (hdef : F.blocks ≠ []) : FlowStep M r CFGExporter.EDGE_INDIRECT ⟨func, 0⟩

/-- A sequence of steps: for each one its flag and the block it enters. -/
inductive FlowPath (M : Module) : BlockRef → List (BitVec 32 × BlockRef) → Prop
  | nil (r : BlockRef) : FlowPath M r []
  | cons {r r' : BlockRef} {flag : BitVec 32} {steps : List (BitVec 32 × BlockRef)}
      (step : FlowStep M r flag r') (rest : FlowPath M r' steps) :
      FlowPath M r ((flag, r') :: steps)

namespace FlowStep

variable {M : Module} {r r' : BlockRef} {flag : BitVec 32}

/-- A step ends in a block of the module. -/
theorem target_isSome (h : FlowStep M r flag r') : (M.block? r').isSome := by
  cases h with
  | branch hbb hc =>
      simp only [Module.block?, Option.bind_eq_some_iff] at hbb ⊢
      rcases hbb with ⟨F, hF, hbb⟩
      have hlt := F.succs_lt _ (List.mem_of_getElem? hbb) _ hc
      simp [hF, hlt]
  | call hbb hinst hfunc hF hdef =>
      simpa [Module.block?, hF] using List.length_pos_iff.2 hdef

/-- A step between blocks with ids is an exported edge. -/
theorem mem_edges {ids : IdMap} {u v : BitVec 32} (h : FlowStep M r flag r')
    (hu : ids.find r = some u) (hv : ids.find r' = some v) :
    ⟨u, v, flag⟩ ∈ CFGExporter.edges ids M := by
  rw [CFGExporter.mem_edges]
  cases h with
  | branch hbb hc =>
      exact ⟨r, _, u, hbb, hu, Or.inl (CFGExporter.mem_jmpEdges.2 ⟨_, hc, v, hv, rfl⟩)⟩
  | call hbb hinst hfunc hF hdef =>
      refine ⟨r, _, u, hbb, hu, Or.inr (CFGExporter.mem_callEdges.2 ?_)⟩
      exact ⟨_, hinst, _, _, hfunc, hF, hdef, v, hv, rfl⟩

end FlowStep

namespace AFLCoverage

variable {O : Type}

/-- The write of a step is explained by a line of the section: the line has the flag of the step
and two ids, and the write goes to the cell of their hash. -/
def Explained (section' : List Char) (area : Ptr O) (step : BitVec 32 × BlockRef) (p : Ptr O) :
    Prop :=
  ∃ u v, CFGExporter.line ⟨u, v, step.1⟩ ∈ CFGExporter.sectionLines section' ∧
    p = cell area (edgeHash u v)

/-- The writes along a path that starts behind a block with id `u`. -/
theorem explained_of_flowPath {M : Module} {ids : IdMap}
    (htotal : ∀ r, (M.block? r).isSome → (ids.find r).isSome) (area : Ptr O)
    {r : BlockRef} {steps : List (BitVec 32 × BlockRef)} (hpath : FlowPath M r steps)
    {u : BitVec 32} (hu : ids.find r = some u) :
    List.Forall₂
      (Explained (CFGExporter.getString (CFGExporter.content (CFGExporter.edges ids M))) area)
      steps
      ((InstrumentationMethod.hashedEdge.locationsFrom (u >>> 1)
        (idsOf ids (steps.map Prod.snd))).map (cell area)) := by
  induction hpath generalizing u with
  | nil r => exact .nil
  | @cons r r' flag steps step rest ih =>
      rcases Option.isSome_iff_exists.1 (htotal r' step.target_isSome) with ⟨v, hv⟩
      have hids : idsOf ids (((flag, r') :: steps).map Prod.snd) =
          v :: idsOf ids (steps.map Prod.snd) := by
        simp [idsOf, hv]
      rw [hids]
      -- the global holds `u >>> 1`, so the write is the hash of this very edge
      refine .cons ⟨u, v, ?_, rfl⟩ (ih hv)
      exact CFGExporter.line_mem_sectionLines (step.mem_edges hu hv)

end AFLCoverage

namespace BBIDAssigner

/-- With `ALL` every block of the module gets an id. -/
theorem find_isSome_of_all {tc : Toolchain} {env : Env} {M : Module} {res : Result}
    (hrun : run tc env M = .ok res) (hsel : env selectionStrategyKey = some all) {r : BlockRef}
    (hr : (res.module.block? r).isSome) : (res.ids.find r).isSome := by
  rcases run_spec hrun with ⟨_, gen, _, hids⟩
  rcases Option.isSome_iff_exists.1 hr with ⟨bb, hbb⟩
  have hmem : r ∈ selectedBlocks env res.module := by
    have hfst : r ∈ res.module.forBlocks.map Prod.fst :=
      List.mem_map.2 ⟨_, Module.mem_forBlocks.2 hbb, rfl⟩
    simpa [selectedBlocks, selector_all hsel] using hfst
  rcases List.mem_iff_getElem?.1 hmem with ⟨i, hi⟩
  rw [(hids r (gen i)).2 ⟨i, hi, rfl⟩]
  rfl

end BBIDAssigner

namespace AFLCoverage

section

variable {O : Type} [DecidableEq O]

/-- What the two passes leave in a module that no pass has touched before. -/
theorem run_then_export {tc : Toolchain} {env : Env} {M : Module} {st₁ st₂ : PassState}
    (hcov : run tc env (.initial M true) = .ok st₁) (hcfg : CFGExporter.run st₁ = .ok st₂) :
    ∃ im um res, instrumentationMethod env = .ok im ∧ updateMethod env = .ok um ∧
      BBIDAssigner.run tc env M = .ok res ∧ st₂.module = res.module ∧
      st₂.code = instrumented im um res.ids ∧
      st₂.cfgSections = [CFGExporter.getString
        (CFGExporter.content (CFGExporter.edges res.ids res.module))] := by
  rcases run_initial_eq_ok.1 hcov with ⟨_, im, um, res, him, hum, hrun, rfl⟩
  rcases CFGExporter.run_eq_ok hcfg with ⟨ids', hids', rfl⟩
  obtain rfl : res.ids = ids' := Option.some.inj hids'
  exact ⟨im, um, res, him, hum, hrun, rfl, rfl, rfl⟩

/-- **Every coverage location is an exported edge.** After the two passes at one load point, with
ids for all blocks, a run along branches and direct calls makes one write for each block; every
write after the first is explained by a line of the exported section with the flag of its step. -/
theorem writes_explained (tc : Toolchain) (env : Env) (M : Module) {st₁ st₂ : PassState}
    (hsel : env BBIDAssigner.selectionStrategyKey = some BBIDAssigner.all)
    (him : instrumentationMethod env = .ok .hashedEdge)
    (hcov : run tc env (.initial M true) = .ok st₁) (hcfg : CFGExporter.run st₁ = .ok st₂)
    {r : BlockRef} (hr : (st₂.module.block? r).isSome) {steps : List (BitVec 32 × BlockRef)}
    (hpath : FlowPath st₂.module r steps)
    {s : State O} {area : Ptr O} {prev : BitVec 32} (hs : Ready s area prev) :
    ∃ sec s' first rest, st₂.cfgSections = [sec] ∧
      runBlocks st₂.code s (r :: steps.map Prod.snd) = some s' ∧
      s'.stores = s.stores ++ first :: rest ∧
      List.Forall₂ (Explained sec area) steps rest := by
  rcases run_then_export hcov hcfg with ⟨im, um, res, him', _, hrun, hmodule, hcode, hsections⟩
  obtain rfl : im = .hashedEdge := Except.ok.inj (him'.symm.trans him)
  rw [hmodule] at hr hpath
  have htotal : ∀ r, (res.module.block? r).isSome → (res.ids.find r).isSome :=
    fun r hr => BBIDAssigner.find_isSome_of_all hrun hsel hr
  rcases Option.isSome_iff_exists.1 (htotal r hr) with ⟨u, hu⟩
  obtain ⟨s', hblocks, hstores, _⟩ :=
    runBlocks_spec .hashedEdge um res.ids (r :: steps.map Prod.snd) hs
  have hids : idsOf res.ids (r :: steps.map Prod.snd) = u :: idsOf res.ids (steps.map Prod.snd) := by
    simp [idsOf, hu]
  rw [hids] at hstores
  exact ⟨_, s', _, _, hsections, by rw [hcode]; exact hblocks, hstores,
    explained_of_flowPath htotal area hpath hu⟩

end

/-! ### A call out of a branch -/

/-- `main` branches over a block that calls `helper`. -/
def callingModule : Module where
  name := "call.c"
  functions :=
    [{ blocks := [⟨[], [1, 2]⟩, ⟨[.other, .call (some 1)], [2]⟩, ⟨[.call none], []⟩]
       succs_lt := by decide
       entry_no_pred := by decide },
     { blocks := [⟨[], [1]⟩, ⟨[.call (some 2)], []⟩]
       succs_lt := by decide
       entry_no_pred := by decide },
     { blocks := [], succs_lt := by decide, entry_no_pred := by decide }]

/-- `ALL` and the defaults otherwise. -/
def callingEnv : Env := fun key =>
  if key = BBIDAssigner.selectionStrategyKey then some BBIDAssigner.all else none

/-- From the entry of `main` into the branch, into `helper` and to its end: four writes. -/
theorem callingModule_explained :
    ∃ st₁ st₂, run identityToolchain callingEnv (.initial callingModule true) = .ok st₁ ∧
      CFGExporter.run st₁ = .ok st₂ ∧
      ∃ sec s' first rest, st₂.cfgSections = [sec] ∧
        runBlocks st₂.code (startState (fun _ _ => 0) (Ptr.mk () 0))
          [⟨0, 0⟩, ⟨0, 1⟩, ⟨1, 0⟩, ⟨1, 1⟩] = some s' ∧
        s'.stores = first :: rest ∧
        List.Forall₂ (Explained sec (Ptr.mk () 0))
          [(0, ⟨0, 1⟩), (1, ⟨1, 0⟩), (0, ⟨1, 1⟩)] rest := by
  obtain ⟨st₁, hcov, hmodule, ids, hids⟩ :
      ∃ st₁, run identityToolchain callingEnv (.initial callingModule true) = .ok st₁ ∧
        st₁.module = callingModule ∧ ∃ ids, st₁.cached = some ids := ⟨_, rfl, rfl, _, rfl⟩
  obtain ⟨st₂, hcfg, hmodule₂⟩ :
      ∃ st₂, CFGExporter.run st₁ = .ok st₂ ∧ st₂.module = callingModule := by
    simp [CFGExporter.run, PassState.getCachedResult, hids, hmodule]
  have hentry : (st₂.module.block? ⟨0, 0⟩).isSome := by
    rw [hmodule₂]
    rfl
  have hpath : FlowPath st₂.module ⟨0, 0⟩ [(0, ⟨0, 1⟩), (1, ⟨1, 0⟩), (0, ⟨1, 1⟩)] := by
    rw [hmodule₂]
    have hblock : callingModule.block? ⟨0, 1⟩ = some ⟨[.other, .call (some 1)], [2]⟩ := rfl
    have hcall : Instruction.call (some 1) ∈ [Instruction.other, .call (some 1)] := by decide
    exact .cons (.branch rfl (by decide)) (.cons (.call hblock hcall rfl rfl (by decide))
      (.cons (.branch rfl (by decide)) (.nil _)))
  exact ⟨st₁, st₂, hcov, hcfg,
    writes_explained identityToolchain callingEnv callingModule rfl rfl hcov hcfg hentry hpath
      (startState_ready (fun _ _ => 0) (Ptr.mk () 0))⟩

end AFLCoverage
end FuzzufCc
