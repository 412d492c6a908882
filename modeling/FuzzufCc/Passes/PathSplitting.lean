import Mathlib.Algebra.BigOperators.Fin
import FuzzufCc.Lib.Multigraph
import FuzzufCc.Passes.BBIDAssigner

/-!
# PathSplitting — what the selected blocks tell about an execution

With critical edges split and only blocks of in-degree at most one selected, the visits of the
selected blocks determine the traversals of every block and every edge of a function.  The graph
argument is `Multigraph.determined`; this file ties it to the function the analysis leaves behind.
-/

namespace FuzzufCc

open LLVM Libc

namespace LLVM.Function

variable (F : LLVM.Function)

/-- The control-flow graph: edge `⟨b, k⟩` leads from block `b` to its `k`-th successor. -/
def graph : Multigraph (Fin F.blocks.length)
    (Σ b : Fin F.blocks.length, Fin F.blocks[b].succs.length) where
  src e := e.1
  dst e := ⟨F.blocks[e.1].succs[e.2],
    F.succs_lt _ (List.getElem_mem _) _ (List.getElem_mem _)⟩

/-- No edge leads from a block with two or more outgoing edges to a block with two or more
incoming ones. -/
def NoCriticalEdge : Prop :=
  ∀ bb ∈ F.blocks, ∀ s ∈ bb.succs, bb.succs.length ≤ 1 ∨ F.numPreds s ≤ 1

instance : Decidable F.NoCriticalEdge :=
  inferInstanceAs (Decidable (∀ bb ∈ F.blocks, ∀ s ∈ bb.succs, _ ∨ _))

theorem count_eq_sum_fin (l : List Nat) (b : Nat) :
    l.count b = ∑ k : Fin l.length, if l[k] = b then 1 else 0 := by
  refine Eq.trans ?_ (Fin.sum_univ_fun_getElem l fun s => if s = b then 1 else 0).symm
  induction l with
  | nil => rfl
  | cons a l ih =>
      simp only [List.count_cons, List.map_cons, List.sum_cons, ih, beq_iff_eq]
      exact Nat.add_comm _ _

/-- `numPreds` counts the edges of the graph. -/
theorem numPreds_eq_card (b : Fin F.blocks.length) :
    F.numPreds b = (Finset.univ.filter fun e => F.graph.dst e = b).card := by
  calc
    F.numPreds b = ∑ u : Fin F.blocks.length, F.blocks[u].succs.count (b : Nat) :=
      (Fin.sum_univ_fun_getElem F.blocks fun bb => bb.succs.count (b : Nat)).symm
    _ = ∑ u : Fin F.blocks.length, ∑ k : Fin F.blocks[u].succs.length,
          if F.graph.dst ⟨u, k⟩ = b then 1 else 0 := by
        refine Finset.sum_congr rfl fun u _ => ?_
        rw [count_eq_sum_fin]
        exact Finset.sum_congr rfl fun k _ => by simp [graph, Fin.ext_iff]
    _ = (Finset.univ.filter fun e => F.graph.dst e = b).card := by
        rw [Finset.card_filter, Fintype.sum_sigma]

theorem numPreds_le_one_iff (b : Fin F.blocks.length) :
    F.numPreds b ≤ 1 ↔ F.graph.AtMostOneIn b := by
  rw [numPreds_eq_card, Finset.card_le_one]
  simp only [Finset.mem_filter, Finset.mem_univ, true_and, Multigraph.AtMostOneIn]
  constructor
  · intro h e e' he he'
    exact h e he e' he'
  · intro h e he e' he'
    exact h e e' he he'

theorem graph_noCriticalEdge (h : F.NoCriticalEdge) : F.graph.NoCriticalEdge := by
  rintro ⟨u, k⟩
  rcases h _ (List.getElem_mem u.2) _ (List.getElem_mem k.2) with hout | hin
  · left
    rintro ⟨u', k'⟩ (rfl : u' = u)
    have hk : k' = k := by
      have hk' : (k' : Nat) < F.blocks[u'].succs.length := k'.2
      have hk : (k : Nat) < F.blocks[u'].succs.length := k.2
      have hlen : F.blocks[u'].succs.length ≤ 1 := hout
      exact Fin.ext (by omega)
    rw [hk]
  · right
    intro e' he'
    exact (F.numPreds_le_one_iff (F.graph.dst ⟨u, k⟩)).1 hin e' ⟨u, k⟩ he' rfl

theorem graph_dst_ne_entry (hpos : 0 < F.blocks.length)
    (e : Σ b : Fin F.blocks.length, Fin F.blocks[b].succs.length) :
    F.graph.dst e ≠ ⟨0, hpos⟩ := by
  intro h
  have hzero : F.blocks[e.1].succs[e.2] = 0 := congrArg Fin.val h
  exact F.entry_no_pred _ (List.getElem_mem e.1.2) (hzero ▸ List.getElem_mem e.2.2)

end LLVM.Function

namespace BBIDAssigner

/-- Under `NO_MULTIPLE_PRED`, every block with at most one incoming edge gets an id. -/
theorem find_isSome_of_numPreds {tc : Toolchain} {env : Env} {M : Module} {res : Result}
    (hrun : run tc env M = .ok res)
    (hsel : env selectionStrategyKey = none ∨ env selectionStrategyKey = some noMultiplePred)
    {f : Nat} {F : LLVM.Function} (hF : res.module.functions[f]? = some F)
    (b : Fin F.blocks.length) (hb : F.numPreds b ≤ 1) :
    (res.ids.find ⟨f, b⟩).isSome := by
  rcases run_spec hrun with ⟨_, gen, _, hids⟩
  have hblock : (⟨f, b⟩, F.blocks[b]) ∈ res.module.forBlocks := by
    rw [Module.mem_forBlocks]
    simp [Module.block?, hF]
  have hmem : (⟨f, b⟩ : BlockRef) ∈ selectedBlocks env res.module := by
    have hfst : (⟨f, b⟩ : BlockRef) ∈ res.module.forBlocks.map Prod.fst :=
      List.mem_map.2 ⟨_, hblock, rfl⟩
    simpa [selectedBlocks, selector, if_pos hsel, List.mem_filter, hfst,
      Module.hasNPredecessorsOrMore, hF] using Nat.lt_succ_of_le hb
  rcases List.mem_iff_getElem?.1 hmem with ⟨i, hi⟩
  rw [(hids ⟨f, b⟩ (gen i)).2 ⟨i, hi, rfl⟩]
  rfl

/-- **Path splitting with `NO_MULTIPLE_PRED`**, which is also the selection of an unset variable. Two
families of complete executions that visit every block with an id equally often visit every block
and traverse every edge equally often; and the same with "at least once" for "equally often". -/
theorem selected_counts_determine_all (tc : Toolchain) (env : Env) (M : Module) (res : Result)
    (hsplit : ∀ F ∈ M.functions, (tc.splitAllCriticalEdges F).NoCriticalEdge)
    (hpath : (env doPathSplittingKey).isSome)
    (hsel : env selectionStrategyKey = none ∨ env selectionStrategyKey = some noMultiplePred)
    (hrun : run tc env M = .ok res) (f : Nat) (F : LLVM.Function)
    (hF : res.module.functions[f]? = some F) (hpos : 0 < F.blocks.length)
    (S T : Multiset (F.graph.Execution ⟨0, hpos⟩)) :
    ((∀ b : Fin F.blocks.length, (res.ids.find ⟨f, b⟩).isSome →
        Multigraph.totalVisits S b = Multigraph.totalVisits T b) →
      (∀ b, Multigraph.totalVisits S b = Multigraph.totalVisits T b) ∧
        ∀ e, Multigraph.totalTraversals S e = Multigraph.totalTraversals T e) ∧
    ((∀ b : Fin F.blocks.length, (res.ids.find ⟨f, b⟩).isSome →
        (0 < Multigraph.totalVisits S b ↔ 0 < Multigraph.totalVisits T b)) →
      (∀ b, 0 < Multigraph.totalVisits S b ↔ 0 < Multigraph.totalVisits T b) ∧
        ∀ e, 0 < Multigraph.totalTraversals S e ↔ 0 < Multigraph.totalTraversals T e) := by
  have hcrit : F.graph.NoCriticalEdge := by
    refine F.graph_noCriticalEdge ?_
    have hmem : F ∈ res.module.functions := List.mem_iff_getElem?.2 ⟨f, hF⟩
    rw [(run_spec hrun).1, splitPaths, if_pos hpath] at hmem
    rcases List.mem_map.1 hmem with ⟨F₀, hF₀, rfl⟩
    exact hsplit F₀ hF₀
  -- the blocks with an id include those that the graph argument needs
  have hsome : ∀ b, F.graph.AtMostOneIn b → (res.ids.find ⟨f, b⟩).isSome := fun b hb =>
    find_isSome_of_numPreds hrun hsel hF b ((F.numPreds_le_one_iff b).2 hb)
  have hentry := F.graph_dst_ne_entry hpos
  constructor
  · intro hagree
    exact Multigraph.determined hcrit hentry ⊥ S T fun b hb => hagree b (hsome b hb)
  · intro hagree
    exact Multigraph.determined hcrit hentry Multigraph.zeroCon S T
      fun b hb => hagree b (hsome b hb)

/-! ### Two branches in a row -/

/-- Two `if`-`else` statements in a row.  It has no critical edge. -/
def twoBranches : LLVM.Function where
  blocks := [⟨[], [1, 2]⟩, ⟨[], [3]⟩, ⟨[], [3]⟩, ⟨[], [4, 5]⟩, ⟨[], [6]⟩, ⟨[], [6]⟩, ⟨[], []⟩]
  succs_lt := by decide
  entry_no_pred := by decide

/-- The execution of `twoBranches` that takes side `i` of the first and side `j` of the second
branch. -/
def twoBranchesRun (i j : Fin 2) : twoBranches.graph.Execution ⟨0, by decide⟩ where
  edges :=
    [⟨⟨0, by decide⟩, i⟩, ⟨⟨1 + i, by revert i; decide⟩, ⟨0, by revert i; decide⟩⟩,
      ⟨⟨3, by decide⟩, j⟩, ⟨⟨4 + j, by revert j; decide⟩, ⟨0, by revert j; decide⟩⟩]
  last := ⟨6, by decide⟩
  walk := by
    revert i j
    decide
  terminal := by
    rintro ⟨b, k⟩ (rfl : b = _)
    exact k.elim0

/-- Swapping the second halves of two executions keeps all counts. -/
theorem twoBranches_counts_agree :
    let S := {twoBranchesRun 0 0, twoBranchesRun 1 1}
    let T := {twoBranchesRun 0 1, twoBranchesRun 1 0}
    (∀ b, Multigraph.totalVisits S b = Multigraph.totalVisits T b) ∧
      ∀ e, Multigraph.totalTraversals S e = Multigraph.totalTraversals T e :=
  (selected_counts_determine_all identityToolchain
    (fun key =>
      if key = doPathSplittingKey then some ""
      else if key = selectionStrategyKey then some noMultiplePred
      else none)
    ⟨"zeroone.c", [twoBranches]⟩ _ (by decide) rfl (Or.inr rfl) rfl 0 twoBranches rfl
    _ {twoBranchesRun 0 0, twoBranchesRun 1 1}
    {twoBranchesRun 0 1, twoBranchesRun 1 0}).1 (by decide)

end BBIDAssigner
end FuzzufCc
