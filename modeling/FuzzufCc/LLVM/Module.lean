import Mathlib.Algebra.BigOperators.Group.List.Basic
import Mathlib.Algebra.Order.Ring.Int
import Mathlib.Data.List.Nodup

/-!
# Module — functions, basic blocks and the traversals of the passes

What the three LLVM passes read of a module: for each basic block its instructions, as far as the
passes tell them apart, and its successors with multiplicity.  Blocks are numbered within their
function and block 0 is the entry block.
-/

namespace FuzzufCc
namespace LLVM

/-- An instruction of a block; a terminator that calls, such as `invoke`, is a `call` too.  A call
carries what `getCalledFunction` returns: the index of a function of the module, or `none` for an
indirect call. -/
inductive Instruction
  | call (callee : Option Nat)
  | other
  deriving DecidableEq, Repr

/-- `getCalledFunction` of a `CallBase`; other instructions are not calls. -/
def Instruction.getCalledFunction : Instruction → Option Nat
  | .call callee => callee
  | .other => none

/-- A basic block: its instructions in order, and `successors(&BB)`. -/
structure BasicBlock where
  insts : List Instruction
  succs : List Nat
  deriving DecidableEq, Repr

/-- A function.  The verifier of LLVM keeps the two laws: branches stay inside the function, and
the entry block has no predecessors.  A declaration has no blocks. -/
structure Function where
  blocks : List BasicBlock
  succs_lt : ∀ bb ∈ blocks, ∀ s ∈ bb.succs, s < blocks.length
  entry_no_pred : ∀ bb ∈ blocks, 0 ∉ bb.succs

/-- A module; the name identifies it to `createRNG`. -/
structure Module where
  name : String
  functions : List Function

/-- A `BasicBlock*`: which function, and which block of it. -/
structure BlockRef where
  func : Nat
  block : Nat
  deriving DecidableEq, Repr

namespace Function

/-- The number of incoming edges of block `b`, parallel edges counted separately. -/
def numPreds (F : Function) (b : Nat) : Nat :=
  (F.blocks.map fun bb => bb.succs.count b).sum

end Function

namespace Module

/-- `&*BB`, if the module has it. -/
def block? (M : Module) (r : BlockRef) : Option BasicBlock :=
  M.functions[r.func]?.bind fun F => F.blocks[r.block]?

/-- `bb.hasNPredecessorsOrMore(n)`. -/
def hasNPredecessorsOrMore (M : Module) (r : BlockRef) (n : Nat) : Bool :=
  match M.functions[r.func]? with
  | some F => decide (n ≤ F.numPreds r.block)
  | none => decide (n = 0)

/-- `for (auto &F : M) for (auto &BB : F)`: all blocks in module order. -/
def forBlocks (M : Module) : List (BlockRef × BasicBlock) :=
  M.functions.zipIdx.flatMap fun (F, f) =>
    F.blocks.zipIdx.map fun (bb, b) => (⟨f, b⟩, bb)

/-! ## Traversals -/

theorem mem_forBlocks {M : Module} {r : BlockRef} {bb : BasicBlock} :
    (r, bb) ∈ M.forBlocks ↔ M.block? r = some bb := by
  rcases r with ⟨f, b⟩
  simp only [forBlocks, block?, List.mem_flatMap, List.mem_map, Prod.exists,
    List.mem_zipIdx_iff_getElem?, Option.bind_eq_some_iff]
  constructor
  · rintro ⟨F, f', hF, bb', b', hbb, heq⟩
    simp only [Prod.mk.injEq, BlockRef.mk.injEq] at heq
    rcases heq with ⟨⟨rfl, rfl⟩, rfl⟩
    exact ⟨F, hF, hbb⟩
  · rintro ⟨F, hF, hbb⟩
    exact ⟨F, f, hF, bb, b, hbb, rfl⟩

/-- No block is visited twice. -/
theorem nodup_forBlocks (M : Module) : (M.forBlocks.map Prod.fst).Nodup := by
  rw [forBlocks, List.map_flatMap, List.nodup_flatMap]
  constructor
  -- within one function the block numbers differ, across functions the function numbers
  · rintro ⟨F, f⟩ _
    have hfst : (F.blocks.zipIdx.map fun (bb, b) => ((⟨f, b⟩ : BlockRef), bb)).map Prod.fst =
        (List.range' 0 F.blocks.length).map (BlockRef.mk f) := by
      rw [← List.zipIdx_map_snd 0 F.blocks, List.map_map, List.map_map]
      rfl
    simp only [hfst]
    exact List.Nodup.map (fun a b h => congrArg BlockRef.block h) List.nodup_range'
  · refine List.Nodup.pairwise_of_forall_ne ?_ ?_
    · exact List.Nodup.of_map Prod.snd (by simp [List.nodup_range'])
    · rintro ⟨F, f⟩ hF ⟨F', f'⟩ hF' hne
      simp only [List.disjoint_left, List.mem_map, Prod.exists, exists_and_right, exists_eq_right]
      rintro r ⟨bb, bb1, b1, _, h1⟩ ⟨bb', bb2, b2, _, h2⟩
      have hff : f = f' := by
        have := (congrArg Prod.fst h1).trans (congrArg Prod.fst h2).symm
        exact congrArg BlockRef.func this
      subst hff
      rw [List.mem_zipIdx_iff_getElem?] at hF hF'
      have hFF : F = F' := Option.some.inj (hF.symm.trans hF')
      exact hne (by rw [hFF])

end Module

end LLVM
end FuzzufCc
