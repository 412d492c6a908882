import FuzzufCc.Lib.Xor
import FuzzufCc.Passes.Coverage

/-!
# EdgeHash — which edges share a bitmap location

With `HASHED_EDGE` a block with id `idB` behind a block with id `idA` updates the location
`(idA >> 1) xor idB`.  Both directions of an edge and all self-loops are kept apart because a block
id can be read back from its Gray code; the one bit that the shift loses is all that can make two
edges into a block collide.
-/

namespace FuzzufCc

open LLVM IR

namespace AFLCoverage

/-- `loc idA idB` is what a block with id `idB` updates right behind one with id `idA`, whatever
ran before the two. -/
def IsEdgeLocation (loc : BitVec 32 → BitVec 32 → BitVec 32) : Prop :=
  ∀ (O : Type) [DecidableEq O] (um : UpdateMethod) (idA idB : BitVec 32) (s : State O)
    (area : Ptr O) (prev : BitVec 32), Ready s area prev →
    ∃ s', execAll s (blockCode .hashedEdge um idA ++ blockCode .hashedEdge um idB) = some s' ∧
      s'.stores = s.stores ++ [cell area (prev ^^^ idA), cell area (loc idA idB)]

theorem edgeHash_isEdgeLocation : IsEdgeLocation edgeHash := by
  intro O _ um idA idB s area prev hs
  obtain ⟨s₁, hexec₁, hready, -, hstores₁⟩ := blockCode_spec .hashedEdge um idA hs
  obtain ⟨s₂, hexec₂, -, -, hstores₂⟩ := blockCode_spec .hashedEdge um idB hready
  refine ⟨s₂, ?_, ?_⟩
  · rw [execAll_append, hexec₁, Option.bind_some, hexec₂]
  · rw [hstores₂, hstores₁, List.append_assoc]
    rfl

/-! ## Collisions -/

/-- The location of a self-loop is the Gray code of its id. -/
theorem edgeHash_self_toNat (id : BitVec 32) : (edgeHash id id).toNat = Xor.gray id.toNat := by
  rw [edgeHash, BitVec.toNat_xor, BitVec.toNat_ushiftRight, Nat.shiftRight_eq_div_pow, Nat.pow_one]
  rfl

theorem edgeHash_self_injective : Function.Injective fun id => edgeHash id id := by
  intro idA idB h
  have hgray : Xor.gray idA.toNat = Xor.gray idB.toNat := by
    rw [← edgeHash_self_toNat, ← edgeHash_self_toNat]
    exact congrArg BitVec.toNat h
  exact BitVec.eq_of_toNat_eq (Xor.gray_injective hgray)

theorem edgeHash_injective (idA : BitVec 32) : Function.Injective (edgeHash idA) :=
  fun _ _ h => BitVec.xor_right_inj _ |>.1 h

/-- The two directions of an edge collide exactly if its two self-loops do. -/
theorem edgeHash_swap_iff {idA idB : BitVec 32} :
    edgeHash idA idB = edgeHash idB idA ↔ idA = idB := by
  constructor
  · intro h
    apply edgeHash_self_injective
    calc edgeHash idA idA
        = edgeHash idA idB ^^^ (idA ^^^ idB) := by
          simp only [edgeHash]
          rw [BitVec.xor_assoc, ← BitVec.xor_assoc idB, BitVec.xor_comm idB, BitVec.xor_assoc idA,
            BitVec.xor_self, BitVec.xor_zero]
      _ = edgeHash idB idA ^^^ (idA ^^^ idB) := by rw [h]
      _ = edgeHash idB idB := by
          simp only [edgeHash]
          rw [BitVec.xor_assoc, ← BitVec.xor_assoc idA, BitVec.xor_self, BitVec.zero_xor]
  · rintro rfl
    rfl

theorem edgeHash_left_iff {idA idB cur : BitVec 32} :
    edgeHash idA cur = edgeHash idB cur ↔ ∀ i, 0 < i → idA.getLsbD i = idB.getLsbD i := by
  rw [edgeHash, edgeHash, BitVec.xor_left_inj]
  constructor
  · intro h i hi
    have hbit := congrArg (fun w => w.getLsbD (i - 1)) h
    simpa [BitVec.getLsbD_ushiftRight, Nat.add_sub_cancel' hi] using hbit
  · intro h
    refine BitVec.eq_of_getLsbD_eq fun i _ => ?_
    rw [BitVec.getLsbD_ushiftRight, BitVec.getLsbD_ushiftRight]
    exact h (1 + i) (by omega)

/-- **What the hash separates.** Edges out of one block, the two directions of an edge, and the
self-loops; edges into one block unless their sources differ in the lowest bit only. -/
theorem edgeHash_separates :
    IsEdgeLocation edgeHash ∧
      (∀ idA idB idC, edgeHash idA idB = edgeHash idA idC ↔ idB = idC) ∧
      (∀ idA idB, edgeHash idA idB = edgeHash idB idA ↔ idA = idB) ∧
      (∀ idA idB, edgeHash idA idA = edgeHash idB idB ↔ idA = idB) ∧
      ∀ idA idB cur, edgeHash idA cur = edgeHash idB cur ↔
        ∀ i, 0 < i → idA.getLsbD i = idB.getLsbD i :=
  ⟨edgeHash_isEdgeLocation,
    fun idA _ _ => (edgeHash_injective idA).eq_iff,
    fun _ _ => edgeHash_swap_iff,
    fun _ _ => edgeHash_self_injective.eq_iff,
    fun _ _ _ => edgeHash_left_iff⟩

end AFLCoverage
end FuzzufCc
