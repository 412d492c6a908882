import FuzzufCc.Passes.CFGDecoding
import FuzzufCc.Passes.ExplainedEdges
import Mathlib.Logic.Relation

/-!
# Reachability — paths of the module in the exported graph

The exporter passes over a block without an id, and over the edges from and to it.  So a path of
branches is a path of the exported graph as long as all of its blocks have ids; with `ALL` that is
every path.  A path through a block without an id is lost.
-/

namespace FuzzufCc

open LLVM Libc

namespace CFGExporter

/-- A branch of the module. -/
def Branch (M : Module) (r r' : BlockRef) : Prop :=
  FlowStep M r EDGE_JMP r'

/-- A branch between two blocks with ids. -/
def NumberedBranch (ids : IdMap) (M : Module) (r r' : BlockRef) : Prop :=
  Branch M r r' ∧ (ids.find r).isSome ∧ (ids.find r').isSome

/-- An edge with flag 0 in the section. -/
def JumpEdge (sec : List Char) (u v : BitVec 32) : Prop :=
  line ⟨u, v, EDGE_JMP⟩ ∈ sectionLines sec

section

variable {ids : IdMap} {M : Module} {p q : BlockRef} {u v : BitVec 32}

theorem NumberedBranch.jumpEdge (h : NumberedBranch ids M p q) (hu : ids.find p = some u)
    (hv : ids.find q = some v) : JumpEdge (getString (content (edges ids M))) u v :=
  line_mem_sectionLines (h.1.mem_edges hu hv)

/-- A path of branches, edge by edge. -/
theorem path_of_branches (h : Relation.TransGen (NumberedBranch ids M) p q)
    (hu : ids.find p = some u) (hv : ids.find q = some v) :
    Relation.TransGen (JumpEdge (getString (content (edges ids M)))) u v := by
  induction h generalizing v with
  | single hstep => exact .single (hstep.jumpEdge hu hv)
  | tail _ hstep ih =>
      -- the block before the last one has an id too
      rcases Option.isSome_iff_exists.1 hstep.2.1 with ⟨w, hw⟩
      exact (ih hw).tail (hstep.jumpEdge hw hv)

/-- Every block at the end of a branch is a block of the module, so with ids for all of them no
branch is left out. -/
theorem Branch.numbered (htotal : ∀ r, (M.block? r).isSome → (ids.find r).isSome)
    (h : Branch M p q) : NumberedBranch ids M p q := by
  refine ⟨h, htotal p ?_, htotal q (FlowStep.target_isSome h)⟩
  cases h with
  | branch hbb hc =>
      rw [hbb]
      rfl

end

/-- **Reachability.** In the section that the pass adds, a path of one branch or more along blocks
with ids is a path of edges with flag 0 between the ids of its ends; with `ALL` so is every path of
branches.  (The empty path is one in both graphs.) -/
theorem reachability_kept {tc : Toolchain} {env : Env} {M : Module} {res : BBIDAssigner.Result}
    {st st' : PassState} (hrun : BBIDAssigner.run tc env M = .ok res)
    (hmodule : st.module = res.module) (hcached : st.cached = some res.ids)
    (hcfg : run st = .ok st') :
    ∃ sec, st'.cfgSections = st.cfgSections ++ [sec] ∧
      ∀ p q u v, res.ids.find p = some u → res.ids.find q = some v →
        (Relation.TransGen (NumberedBranch res.ids res.module) p q →
          Relation.TransGen (JumpEdge sec) u v) ∧
        (env BBIDAssigner.selectionStrategyKey = some BBIDAssigner.all →
          Relation.TransGen (Branch res.module) p q → Relation.TransGen (JumpEdge sec) u v) := by
  rcases run_eq_ok hcfg with ⟨ids, hids, rfl⟩
  obtain rfl : res.ids = ids := Option.some.inj (hcached.symm.trans hids)
  refine ⟨_, rfl, fun p q u v hu hv => ?_⟩
  rw [hmodule]
  refine ⟨fun h => path_of_branches h hu hv, fun hall h => ?_⟩
  have htotal : ∀ r, (res.module.block? r).isSome → (res.ids.find r).isSome :=
    fun r hr => BBIDAssigner.find_isSome_of_all hrun hall hr
  have hnumbered := Relation.TransGen.mono (fun r r' hstep => Branch.numbered htotal hstep) _ _ h
  exact path_of_branches hnumbered hu hv

/-! ### A branch whose ends meet -/

/-- Both sides of a branch lead to block 3, which leads to block 4. -/
def joinedBranch : Module where
  name := "join.c"
  functions :=
    [{ blocks := [⟨[], [1, 2]⟩, ⟨[], [3]⟩, ⟨[], [3]⟩, ⟨[], [4]⟩, ⟨[], []⟩]
       succs_lt := by decide
       entry_no_pred := by decide }]

/-- `SEQUENTIAL` ids for a selection strategy. -/
def sequentialEnv (strategy : String) : Env := fun key =>
  if key = BBIDAssigner.selectionStrategyKey then some strategy
  else if key = BBIDAssigner.generationStrategyKey then some BBIDAssigner.sequential
  else none

theorem joinedBranch_path : Relation.TransGen (Branch joinedBranch) ⟨0, 0⟩ ⟨0, 4⟩ := by
  have hfirst : Branch joinedBranch ⟨0, 0⟩ ⟨0, 1⟩ := .branch rfl (by decide)
  have hsecond : Branch joinedBranch ⟨0, 1⟩ ⟨0, 3⟩ := .branch rfl (by decide)
  have hthird : Branch joinedBranch ⟨0, 3⟩ ⟨0, 4⟩ := .branch rfl (by decide)
  exact ((Relation.TransGen.single hfirst).tail hsecond).tail hthird

/-- With ids for all blocks, block 4 is reached. -/
theorem joinedBranch_all_reached :
    ∃ res st', BBIDAssigner.run identityToolchain (sequentialEnv BBIDAssigner.all) joinedBranch =
        .ok res ∧
      run { PassState.initial res.module true with cached := some res.ids } = .ok st' ∧
      ∃ sec, st'.cfgSections = [sec] ∧ Relation.TransGen (JumpEdge sec) 0 4 := by
  obtain ⟨res, hrun, hmodule, hfirst, hlast⟩ : ∃ res,
      BBIDAssigner.run identityToolchain (sequentialEnv BBIDAssigner.all) joinedBranch = .ok res ∧
        res.module = joinedBranch ∧ res.ids.find ⟨0, 0⟩ = some 0 ∧
        res.ids.find ⟨0, 4⟩ = some 4 := ⟨_, rfl, rfl, rfl, rfl⟩
  obtain ⟨st', hcfg⟩ : ∃ st',
      run { PassState.initial res.module true with cached := some res.ids } = .ok st' := ⟨_, rfl⟩
  obtain ⟨sec, hsections, hpaths⟩ := reachability_kept hrun rfl rfl hcfg
  refine ⟨res, st', hrun, hcfg, sec, hsections, (hpaths _ _ _ _ hfirst hlast).2 rfl ?_⟩
  rw [hmodule]
  exact joinedBranch_path

/-- Without an id for block 3, where the sides meet, it is not. -/
theorem joinedBranch_noMultiplePred_lost :
    ∃ res st' sec,
      BBIDAssigner.run identityToolchain (sequentialEnv BBIDAssigner.noMultiplePred) joinedBranch =
        .ok res ∧
      run { PassState.initial res.module true with cached := some res.ids } = .ok st' ∧
      st'.cfgSections = [sec] ∧ res.ids.find ⟨0, 0⟩ = some 0 ∧ res.ids.find ⟨0, 4⟩ = some 3 ∧
      Relation.TransGen (Branch res.module) ⟨0, 0⟩ ⟨0, 4⟩ ∧
      ¬ Relation.ReflTransGen (JumpEdge sec) 0 3 := by
  refine ⟨_, _, _, rfl, rfl, rfl, rfl, rfl, joinedBranch_path, fun hpath => ?_⟩
  have hreached : ∀ v, Relation.ReflTransGen (JumpEdge (getString (content
      [⟨0, 1, EDGE_JMP⟩, ⟨0, 2, EDGE_JMP⟩]))) 0 v → v = 0 ∨ v = 1 ∨ v = 2 := by
    intro v h
    cases h with
    | refl => exact Or.inl rfl
    | tail _ hstep =>
        have hmem := mem_of_line_mem_sectionLines hstep
        simp only [List.mem_cons, Edge.mk.injEq, List.not_mem_nil, or_false] at hmem
        rcases hmem with ⟨_, rfl, _⟩ | ⟨_, rfl, _⟩
        · exact Or.inr (Or.inl rfl)
        · exact Or.inr (Or.inr rfl)
  exact absurd (hreached 3 hpath) (by decide)

end CFGExporter
end FuzzufCc
