import FuzzufCc.Lib.Xor
import FuzzufCc.Passes.Coverage

/-!
# RandomBounds — a bitmap as large as the map size of random ids

Random ids are drawn below the map size.  So is the location of a block under `NODE`; under
`HASHED_EDGE` the location is the exclusive or of two numbers below the map size, which need not be
below it unless the map size is a power of two.
-/

namespace FuzzufCc

open LLVM Libc IR

/-- The toolchain with other random numbers. -/
def Toolchain.withDraws (tc : Toolchain) (uniform : String → String → Nat → BitVec 32 → BitVec 32) :
    Toolchain :=
  { tc with uniform := uniform }

namespace AFLCoverage

/-! ## Random ids -/

section Draws

open BBIDAssigner

variable {tc : Toolchain} {env : Env} {M : LLVM.Module} {size : String} {res : Result}

/-- A random id is a draw, and below the map size if the draws are in their interval. -/
theorem randomId_lt (hstrategy : env generationStrategyKey = some random)
    (hsize : env mapSizeKey = some size) (hdraws : tc.DrawsInRange)
    (hrun : BBIDAssigner.run tc env M = .ok res) {bb : BlockRef} {id : BitVec 32}
    (hfind : res.ids.find bb = some id) : id.toNat < (atoi size.toList).toNat := by
  rcases run_spec hrun with ⟨_, gen, hgen, hids⟩
  rcases generator_random hstrategy hsize hgen with ⟨hpos, rfl⟩
  rcases (hids bb id).1 hfind with ⟨i, _, rfl⟩
  have hdraw := hdraws res.module.name BBIDAssigner.name i (atoi size.toList - 1)
  rcases mapSize_bounds hpos with ⟨hpos, _, hlargest⟩
  exact lt_of_le_of_lt hdraw (by omega)

theorem find_eq_none_of_no_block (hnone : selectedBlocks env (splitPaths tc env M) = [])
    (hrun : BBIDAssigner.run tc env M = .ok res) (bb : BlockRef) : res.ids.find bb = none := by
  rcases run_spec hrun with ⟨hmodule, gen, _, hids⟩
  rw [hmodule, hnone] at hids
  cases hfind : res.ids.find bb with
  | none => rfl
  | some id =>
      rcases (hids bb id).1 hfind with ⟨i, hi, _⟩
      cases hi

theorem selectedBlocks_withDraws (uniform : String → String → Nat → BitVec 32 → BitVec 32) :
    selectedBlocks env (splitPaths (tc.withDraws uniform) env M) =
      selectedBlocks env (splitPaths tc env M) := rfl

/-- The number `u` at each draw whose interval has it. -/
def constantDraws (u : Nat) (_ _ : String) (_ : Nat) (hi : BitVec 32) : BitVec 32 :=
  if u ≤ hi.toNat then BitVec.ofNat 32 u else 0

theorem constantDraws_toNat {u : Nat} {hi : BitVec 32} (hu : u ≤ hi.toNat) (name salt : String)
    (i : Nat) : (constantDraws u name salt i hi).toNat = u := by
  have hlt := hi.isLt
  rw [constantDraws, if_pos hu, BitVec.toNat_ofNat, Nat.mod_eq_of_lt (by omega)]

theorem constantDraws_inRange (u : Nat) : (tc.withDraws (constantDraws u)).DrawsInRange := by
  intro name salt i hi
  show (constantDraws u name salt i hi).toNat ≤ hi.toNat
  by_cases hu : u ≤ hi.toNat
  · rwa [constantDraws_toNat hu]
  · rw [constantDraws, if_neg hu]
    exact Nat.zero_le _

/-- With constant draws all selected blocks get one id. -/
theorem find_constantDraws (hstrategy : env generationStrategyKey = some random)
    (hsize : env mapSizeKey = some size) {u : Nat} (hu : u < (atoi size.toList).toNat)
    (hrun : BBIDAssigner.run (tc.withDraws (constantDraws u)) env M = .ok res) {bb : BlockRef}
    (hbb : bb ∈ selectedBlocks env (splitPaths tc env M)) :
    ∃ id, res.ids.find bb = some id ∧ id.toNat = u := by
  rcases run_spec hrun with ⟨hmodule, gen, hgen, hids⟩
  rcases generator_random hstrategy hsize hgen with ⟨hpos, rfl⟩
  rcases mapSize_bounds hpos with ⟨_, hlt, hlargest⟩
  rcases List.mem_iff_getElem?.1 hbb with ⟨i, hi⟩
  rw [hmodule, selectedBlocks_withDraws] at hids
  refine ⟨_, (hids bb _).2 ⟨i, hi, rfl⟩, ?_⟩
  exact constantDraws_toNat (by omega) (splitPaths tc env M).name BBIDAssigner.name i

end Draws

/-! ## Bounds -/

section Bounds

variable {im : InstrumentationMethod} {um : UpdateMethod} {ids : IdMap} {n : Nat}

theorem writesBelow_node (hn : n ≤ 2 ^ 31) (hids : ∀ bb id, ids.find bb = some id → id.toNat < n) :
    WritesBelow (instrumented .node um ids) n := by
  rw [writesBelow_iff_locations _ um ids hn]
  intro bbs loc hloc
  rcases mem_idsOf.1 hloc with ⟨bb, _, hfind⟩
  exact hids bb loc hfind

theorem writesBelow_noIds (hn : n ≤ 2 ^ 31) (hnone : ∀ bb, ids.find bb = none) :
    WritesBelow (instrumented im um ids) n := by
  rw [writesBelow_iff_locations _ _ _ hn]
  intro bbs loc hloc
  have hempty : idsOf ids bbs = [] := List.filterMap_eq_nil_iff.2 fun bb _ => hnone bb
  rw [hempty] at hloc
  cases im <;> simp [InstrumentationMethod.locations] at hloc

theorem writesBelow_twoPow {k : Nat} (hn : n ≤ 2 ^ 31) (hk : n = 2 ^ k)
    (hids : ∀ bb id, ids.find bb = some id → id.toNat < n) :
    WritesBelow (instrumented im um ids) n := by
  have hk31 : k ≤ 31 := (Nat.pow_le_pow_iff_right (by decide)).1 (hk ▸ hn)
  rw [hk] at hids ⊢
  exact (writesBelow_iff im um ids hk31).2 hids

/-- A block entered twice in a row writes at the Gray code of its id. -/
theorem gray_lt_of_writesBelow (hn : n ≤ 2 ^ 31)
    (h : WritesBelow (instrumented .hashedEdge um ids) n) {bb : BlockRef} {id : BitVec 32}
    (hfind : ids.find bb = some id) : Xor.gray id.toNat < n := by
  have hlt := (writesBelow_iff_locations .hashedEdge um ids hn).1 h [bb, bb] (edgeHash id id) (by
    simp [idsOf, hfind, InstrumentationMethod.locations])
  rwa [edgeHash, BitVec.toNat_xor, BitVec.toNat_ushiftRight, Nat.shiftRight_one] at hlt

end Bounds

/-- **The map size as a bound.** With random ids the instrumented code stays below the map size,
whatever the draws are, exactly if locations are ids, no block has an id, or the map size is a power
of two. -/
theorem writesBelow_random_iff (tc : Toolchain) {env : Env} {M : LLVM.Module} {size : String}
    {im : InstrumentationMethod} {st : PassState}
    (hstrategy : env BBIDAssigner.generationStrategyKey = some BBIDAssigner.random)
    (hsize : env BBIDAssigner.mapSizeKey = some size) (him : instrumentationMethod env = .ok im)
    (hok : run tc env (.initial M true) = .ok st) :
    (∀ uniform, (tc.withDraws uniform).DrawsInRange → ∀ st',
        run (tc.withDraws uniform) env (.initial M true) = .ok st' →
          WritesBelow st'.code (atoi size.toList).toNat) ↔
      im = .node ∨ BBIDAssigner.selectedBlocks env (BBIDAssigner.splitPaths tc env M) = [] ∨
        ∃ k, (atoi size.toList).toNat = 2 ^ k := by
  rcases run_initial_eq_ok.1 hok with ⟨_, im', um, res, him', hum, hres, _⟩
  obtain rfl : im = im' := Except.ok.inj (him.symm.trans him')
  have hpos : 1 ≤ (atoi size.toList).toInt := by
    rcases BBIDAssigner.run_spec hres with ⟨_, gen, hgen, _⟩
    exact (BBIDAssigner.generator_random hstrategy hsize hgen).1
  rcases BBIDAssigner.mapSize_bounds hpos with ⟨hpos, hlt, hlargest⟩
  constructor
  · intro h
    by_contra hnot
    simp only [not_or, not_exists] at hnot
    rcases hnot with ⟨hnode, hsome, hpow⟩
    have himEq : im = .hashedEdge := by
      cases im with
      | hashedEdge => rfl
      | node => exact absurd rfl hnode
    subst himEq
    -- some number below the map size has its code above, and it may be drawn each time
    rcases Xor.exists_le_gray hpos hpow with ⟨u, hu, hgray⟩
    have hsplit : (tc.withDraws (constantDraws u)).splitAllCriticalEdges =
        tc.splitAllCriticalEdges := rfl
    rcases BBIDAssigner.run_ok_of_ok _ hsplit hres with ⟨res', hres'⟩
    obtain ⟨bb, hbb⟩ := List.exists_mem_of_ne_nil _ hsome
    obtain ⟨id, hfind, hid⟩ := find_constantDraws hstrategy hsize hu hres' hbb
    have hwrites := h _ (constantDraws_inRange u) _
      (run_initial_eq_ok.2 ⟨rfl, _, um, res', him, hum, hres', rfl⟩)
    have hbelow := gray_lt_of_writesBelow (by omega) hwrites hfind
    rw [hid] at hbelow
    omega
  · intro hcond uniform hdraws st' hst'
    rcases run_initial_eq_ok.1 hst' with ⟨_, im', um', res', him', _, hres', rfl⟩
    obtain rfl : im = im' := Except.ok.inj (him.symm.trans him')
    have hids : ∀ bb id, res'.ids.find bb = some id → id.toNat < (atoi size.toList).toNat :=
      fun bb id => randomId_lt hstrategy hsize hdraws hres'
    rcases hcond with rfl | hnone | ⟨k, hk⟩
    · exact writesBelow_node (by omega) hids
    · rw [← selectedBlocks_withDraws uniform] at hnone
      exact writesBelow_noIds (by omega) fun bb => find_eq_none_of_no_block hnone hres' bb
    · exact writesBelow_twoPow (by omega) hk hids

/-- Random ids below this map size, otherwise the defaults. -/
def randomEnv (size : String) : Env := fun key =>
  if key = BBIDAssigner.generationStrategyKey then some BBIDAssigner.random
  else if key = BBIDAssigner.mapSizeKey then some size
  else none

/-- A map of 2^16 bytes is large enough. -/
theorem randomMap_65536_inside :
    ∃ st, run identityToolchain (randomEnv "65536") (.initial countingLoop true) = .ok st ∧
      ∀ uniform, (identityToolchain.withDraws uniform).DrawsInRange → ∀ st',
        run (identityToolchain.withDraws uniform) (randomEnv "65536") (.initial countingLoop true) =
            .ok st' → WritesBelow st'.code (atoi "65536".toList).toNat := by
  obtain ⟨st, hst⟩ : ∃ st,
      run identityToolchain (randomEnv "65536") (.initial countingLoop true) = .ok st := ⟨_, rfl⟩
  have hsize : randomEnv "65536" BBIDAssigner.mapSizeKey = some "65536" := rfl
  have him : instrumentationMethod (randomEnv "65536") = .ok .hashedEdge := rfl
  exact ⟨st, hst, (writesBelow_random_iff identityToolchain rfl hsize him hst).2
    (Or.inr (Or.inr ⟨16, by decide⟩))⟩

/-- One of three bytes is not: a block with the id 2, entered twice, writes at 3. -/
theorem randomMap_3_outside :
    (identityToolchain.withDraws (constantDraws 2)).DrawsInRange ∧
      ∃ st, run (identityToolchain.withDraws (constantDraws 2)) (randomEnv "3")
          (.initial countingLoop true) = .ok st ∧
        ¬ WritesBelow st.code (atoi "3".toList).toNat := by
  refine ⟨constantDraws_inRange 2, _, rfl, fun h => ?_⟩
  have hwrites : WritesBelow (instrumented .hashedEdge .naive
      [(⟨0, 3⟩, 2), (⟨0, 2⟩, 2), (⟨0, 0⟩, 2)]) 3 := h
  have hfind : IdMap.find [(⟨0, 3⟩, 2), (⟨0, 2⟩, 2), (⟨0, 0⟩, 2)] ⟨0, 0⟩ = some 2 := rfl
  exact absurd (gray_lt_of_writesBelow (by decide) hwrites hfind) (by decide)

end AFLCoverage
end FuzzufCc
