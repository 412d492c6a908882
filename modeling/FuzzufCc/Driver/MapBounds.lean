import FuzzufCc.Driver.Plan
import FuzzufCc.Runtime.Bitmap

/-!
# MapBounds — the map size of the ids and the size of the map

The driver passes a map size to the id generator only.  The bitmap runtime allocates 2^16 bytes and
the metadata records 2^16, whatever that size is.  This file determines for which options and
modules the instrumented code stays inside.
-/

namespace FuzzufCc

open LLVM Libc

namespace Driver

/-- The environment of the passes. -/
def passEnv (parent : Env) (args : Arguments) (keys : List String) : Env :=
  envvars parent args ((keys.filterMap FeatureName.ofKey).map (FeatureName.create args))

/-- The blocks that get ids, in the module as the analysis leaves it. -/
def blocksWithIds (tc : Toolchain) (env : Env) (M : Module) : List BlockRef :=
  BBIDAssigner.selectedBlocks env (BBIDAssigner.splitPaths tc env M)

/-- The compiler with other random numbers. -/
def Compiler.withDraws (cc : Compiler) (uniform : String → String → Nat → BitVec 32 → BitVec 32) :
    Compiler :=
  { cc with uniform := uniform }

/-- The options and modules for which all indices stay inside the map. -/
def FitsMap (tc : Toolchain) (env : Env) (args : Arguments) (M : Module) : Prop :=
  match args.idGenerationStrategy with
  | .random =>
      (atoi (pyStr args.mapSize).toList).toNat ≤ Runtime.Bitmap.MAP_SIZE ∨
        blocksWithIds tc env M = []
  | .sequential => (blocksWithIds tc env M).length ≤ Runtime.Bitmap.MAP_SIZE

theorem mapSize_eq_recorded (args : Arguments) :
    Runtime.Bitmap.MAP_SIZE = 2 ^ (createBitMapFeedback args).mapSizePow2 := by
  have hpow : (createBitMapFeedback args).mapSizePow2 = 16 := rfl
  rw [hpow]
  decide

/-! ## Ids and generator values -/

theorem ids_lt_iff {tc : Toolchain} {env : Env} {M : Module} {res : BBIDAssigner.Result}
    (hrun : BBIDAssigner.run tc env M = .ok res) (n : Nat) :
    (∀ bb id, res.ids.find bb = some id → id.toNat < n) ↔
      ∃ gen, BBIDAssigner.generator tc env res.module = .ok gen ∧
        ∀ i, i < (blocksWithIds tc env M).length → (gen i).toNat < n := by
  rcases BBIDAssigner.run_spec hrun with ⟨hmodule, gen, hgen, hids⟩
  rw [blocksWithIds, ← hmodule]
  constructor
  · intro h
    refine ⟨gen, hgen, fun i hi => ?_⟩
    exact h _ _ ((hids _ _).2 ⟨i, List.getElem?_eq_getElem hi, rfl⟩)
  · rintro ⟨gen', hgen', h⟩ bb id hfind
    obtain rfl : gen' = gen := Except.ok.inj (hgen'.symm.trans hgen)
    rcases (hids bb id).1 hfind with ⟨i, hi, rfl⟩
    exact h i (List.getElem?_eq_some_iff.1 hi).1

theorem sequential_lt_iff (n : Nat) (hn : n < 2 ^ 32) (len : Nat) :
    (∀ i, i < len → (BitVec.ofNat 32 i).toNat < n) ↔ len ≤ n := by
  constructor
  · intro h
    by_contra hlen
    have := h n (by omega)
    rw [BitVec.toNat_ofNat, Nat.mod_eq_of_lt hn] at this
    omega
  · intro hlen i hi
    rw [BitVec.toNat_ofNat]
    exact lt_of_le_of_lt (Nat.mod_le _ _) (by omega)

/-- A draw up to `m - 1` reaches `n` unless `m` is at most `n`. -/
theorem toNat_sub_one_lt_iff {m : BitVec 32} (hm : 1 ≤ m.toInt) (n : Nat) :
    (m - 1).toNat < n ↔ m.toNat ≤ n := by
  rcases BBIDAssigner.mapSize_bounds hm with ⟨hpos, _, hlargest⟩
  omega

/-! ## Builds with other random numbers -/

section Draws

variable {cc : Compiler} {parent : Env} {args : Arguments} {keys : List String} {step : Step}
  {M : Module}

theorem coverage_mem_passes_iff {names : List FeatureName} {p : Plan}
    (hspec : PlanSpec cc parent args names step p) (hbitmap : FeatureName.bitMapFeedback ∈ names) :
    Pass.aflCoverage ∈ p.passes ↔ instrumentsAt cc args step := by
  rw [hspec.passes, instrumentsAt]
  cases hloads : loadsPlugins args step with
  | false => simp
  | true =>
      simp only [if_true, List.mem_filterMap, Bool.true_and, Bool.and_eq_true, beq_iff_eq,
        Bool.or_eq_true, decide_eq_true_eq]
      constructor
      · rintro ⟨name, _, hpass⟩
        cases name <;> simp [FeatureName.passAt] at hpass
        exact ⟨hpass.1, or_iff_not_imp_left.2 hpass.2⟩
      · rintro ⟨hpoint, hversion⟩
        exact ⟨.bitMapFeedback, hbitmap, by simp [FeatureName.passAt, hpoint, hversion]⟩

/-- What a successful build with `bitmap-feedback` says about the same build with any draws. -/
theorem build_withDraws (hbitmap : FeatureName.bitMapFeedback.key ∈ keys) {st : PassState}
    (hok : build cc parent args keys step M = .ok st)
    (uniform : String → String → Nat → BitVec 32 → BitVec 32) :
    (instrumentsAt cc args step = false ∧ ∀ st',
        build (cc.withDraws uniform) parent args keys step M = .ok st' → st'.code = fun _ => []) ∨
      (instrumentsAt cc args step ∧ FeatureName.bbIdAssigner ∈ keys.filterMap FeatureName.ofKey ∧
        ∃ st' im um res, build (cc.withDraws uniform) parent args keys step M = .ok st' ∧
          BBIDAssigner.run (cc.withDraws uniform).toToolchain (passEnv parent args keys) M =
            .ok res ∧
          st'.code = AFLCoverage.instrumented im um res.ids) := by
  rcases build_eq_ok.1 hok with ⟨p, hplan, hrun⟩
  rcases plan_eq_ok hplan with ⟨names, hnames, hspec⟩
  -- the plan does not depend on the random numbers
  have hplan' : plan (cc.withDraws uniform) parent args keys step = .ok p := hplan
  have hkeys : keys.filterMap FeatureName.ofKey = names := filterMap_ofKey hnames
  have henv : p.env = passEnv parent args keys := by rw [hspec.env, passEnv, hkeys]
  have hmem : FeatureName.bitMapFeedback ∈ names := by
    rw [← hkeys]
    exact List.mem_filterMap.2 ⟨_, hbitmap, FeatureName.ofKey_key _⟩
  have hpasses := coverage_mem_passes_iff hspec hmem
  rcases runPasses_eq_ok hspec.passes_nodup hrun with ⟨hnot, _⟩ | ⟨rest, st₁, hrest, hcases, hcov, _⟩
  · refine Or.inl ⟨by simpa [hpasses] using hnot, fun st' hst' => ?_⟩
    rcases build_eq_ok.1 hst' with ⟨p', hp', hrun'⟩
    obtain rfl : p' = p := Except.ok.inj (hp'.symm.trans hplan')
    rcases runPasses_eq_ok hspec.passes_nodup hrun' with ⟨_, rfl⟩ | ⟨rest, _, hrest, _⟩
    · rfl
    · exact absurd (by simp [hrest]) hnot
  · refine Or.inr ⟨hpasses.1 (by simp [hrest]), ?_, ?_⟩
    · -- the coverage pass has found the analysis registered
      have hreg : p.plugins.contains .bbIdAssigner :=
        (AFLCoverage.run_initial_eq_ok.1 hcov).1
      rw [hspec.plugins] at hreg
      split at hreg
      · rcases List.mem_filterMap.1 (List.contains_iff_mem.1 hreg) with ⟨name, hname, hplugin⟩
        cases name <;> simp [FeatureName.pluginAt] at hplugin
        rwa [hkeys]
      · simp at hreg
    · rcases AFLCoverage.run_initial_eq_ok.1 hcov with ⟨hreg, im, um, res, him, hum, hres, _⟩
      have hsplit : (cc.withDraws uniform).splitAllCriticalEdges = cc.splitAllCriticalEdges := rfl
      rcases BBIDAssigner.run_ok_of_ok _ hsplit hres with ⟨res', hres'⟩
      have hcov' := AFLCoverage.run_initial_eq_ok.2 ⟨hreg, im, um, res', him, hum, hres', rfl⟩
      rcases runPasses_after_coverage hcases hcov' with ⟨st', hst', hcode⟩
      rw [← hrest] at hst'
      rw [henv] at hres'
      exact ⟨st', im, um, res', build_eq_ok.2 ⟨p, hplan', hst'⟩, hres', hcode⟩

end Draws

/-- The same, where the pass runs, in terms of the values of the generator. -/
theorem writesBelow_withDraws_iff {cc : Compiler} {parent : Env} {args : Arguments}
    {keys : List String} {step : Step} {M : Module}
    (hbitmap : FeatureName.bitMapFeedback.key ∈ keys) {st : PassState}
    (hok : build cc parent args keys step M = .ok st) (hinst : instrumentsAt cc args step)
    {k : Nat} (hk : k ≤ 31) (uniform : String → String → Nat → BitVec 32 → BitVec 32) :
    ∃ M' gen, BBIDAssigner.generator (cc.withDraws uniform).toToolchain
        (passEnv parent args keys) M' = .ok gen ∧
      ((∀ st', build (cc.withDraws uniform) parent args keys step M = .ok st' →
          AFLCoverage.WritesBelow st'.code (2 ^ k)) ↔
        ∀ i, i < (blocksWithIds cc.toToolchain (passEnv parent args keys) M).length →
          (gen i).toNat < 2 ^ k) := by
  rcases build_withDraws hbitmap hok uniform with
    ⟨hnot, _⟩ | ⟨_, _, st', im, um, res, hst', hres, hcode⟩
  · simp [hnot] at hinst
  · rcases BBIDAssigner.run_spec hres with ⟨_, gen, hgen, _⟩
    refine ⟨res.module, gen, hgen, ?_⟩
    have hwrites : (∀ st', build (cc.withDraws uniform) parent args keys step M = .ok st' →
        AFLCoverage.WritesBelow st'.code (2 ^ k)) ↔ AFLCoverage.WritesBelow st'.code (2 ^ k) := by
      constructor
      · intro h
        exact h st' hst'
      · intro h st'' hst''
        obtain rfl : st' = st'' := Except.ok.inj (hst'.symm.trans hst'')
        exact h
    rw [hwrites, hcode, AFLCoverage.writesBelow_iff im um res.ids hk, ids_lt_iff hres]
    constructor
    · rintro ⟨gen', hgen', hlt⟩
      obtain rfl : gen' = gen := Except.ok.inj (hgen'.symm.trans hgen)
      exact hlt
    · intro hlt
      exact ⟨gen, hgen, hlt⟩

/-- The extreme draws show what the map size and the number of blocks must be.  The module that is
drawn for plays no role. -/
theorem fitsMap_of_generator_lt (cc : Compiler) {env : Env} {args : Arguments} {M : Module}
    (hstrategy : env BBIDAssigner.generationStrategyKey = some args.idGenerationStrategy.text)
    (hsize : args.idGenerationStrategy = .random →
      env BBIDAssigner.mapSizeKey = some (pyStr args.mapSize))
    {draw : (String → String → Nat → BitVec 32 → BitVec 32) → Module}
    {gen : (String → String → Nat → BitVec 32 → BitVec 32) → Nat → BitVec 32}
    (hgen : ∀ uniform, BBIDAssigner.generator (cc.withDraws uniform).toToolchain env
      (draw uniform) = .ok (gen uniform))
    (hlt : ∀ uniform, (cc.withDraws uniform).toToolchain.DrawsInRange →
      ∀ i, i < (blocksWithIds cc.toToolchain env M).length → (gen uniform i).toNat < 2 ^ 16) :
    FitsMap cc.toToolchain env args M := by
  cases hcase : args.idGenerationStrategy with
  | sequential =>
      rw [hcase] at hstrategy
      have hvalues := hlt (fun _ _ _ _ => 0) (fun _ _ _ _ => Nat.zero_le _)
      rw [← Except.ok.inj ((BBIDAssigner.generator_sequential hstrategy).symm.trans
        (hgen fun _ _ _ _ => 0))] at hvalues
      simp only [FitsMap, hcase]
      exact (sequential_lt_iff (2 ^ 16) (by decide) _).1 hvalues
  | random =>
      rw [hcase] at hstrategy
      -- the largest draw is the map size less one
      have hvalues := hlt (fun _ _ _ hi => hi) (fun _ _ _ _ => le_rfl)
      obtain ⟨hpos, heq⟩ := BBIDAssigner.generator_random hstrategy (hsize hcase)
        (hgen fun _ _ _ hi => hi)
      rw [heq] at hvalues
      simp only [FitsMap, hcase]
      rcases Nat.eq_zero_or_pos (blocksWithIds cc.toToolchain env M).length with hlen | hlen
      · exact Or.inr (List.length_eq_zero_iff.1 hlen)
      · exact Or.inl ((toNat_sub_one_lt_iff hpos _).1 (hvalues 0 hlen))

theorem generator_lt_of_fits (cc : Compiler) {env : Env} {args : Arguments} {M M' : Module}
    (hstrategy : env BBIDAssigner.generationStrategyKey = some args.idGenerationStrategy.text)
    (hsize : args.idGenerationStrategy = .random →
      env BBIDAssigner.mapSizeKey = some (pyStr args.mapSize))
    (hfits : FitsMap cc.toToolchain env args M) {tc : Toolchain} (hdraws : tc.DrawsInRange)
    {gen : Nat → BitVec 32} (hgen : BBIDAssigner.generator tc env M' = .ok gen) (i : Nat)
    (hi : i < (blocksWithIds cc.toToolchain env M).length) : (gen i).toNat < 2 ^ 16 := by
  cases hcase : args.idGenerationStrategy with
  | sequential =>
      rw [hcase] at hstrategy
      obtain rfl := Except.ok.inj ((BBIDAssigner.generator_sequential hstrategy).symm.trans hgen)
      simp only [FitsMap, hcase] at hfits
      exact (sequential_lt_iff (2 ^ 16) (by decide) _).2 hfits i hi
  | random =>
      rw [hcase] at hstrategy
      rcases BBIDAssigner.generator_random hstrategy (hsize hcase) hgen with ⟨hpos, rfl⟩
      simp only [FitsMap, hcase] at hfits
      rcases hfits with hfits | hnil
      · exact lt_of_le_of_lt (hdraws _ _ _ _) ((toNat_sub_one_lt_iff hpos _).2 hfits)
      · simp [hnil] at hi

/-- **Where the map size suffices.** A successful build with `bitmap-feedback` writes inside the
map, whatever numbers the generator draws, exactly if the pass does not run or the options and the
module fit the map. -/
theorem writesBelow_mapSize_iff (cc : Compiler) (parent : Env) (args : Arguments)
    (keys : List String) (step : Step) (M : Module)
    (hbitmap : FeatureName.bitMapFeedback.key ∈ keys) {st : PassState}
    (hok : build cc parent args keys step M = .ok st) :
    (∀ uniform, (cc.withDraws uniform).toToolchain.DrawsInRange → ∀ st',
        build (cc.withDraws uniform) parent args keys step M = .ok st' →
          AFLCoverage.WritesBelow st'.code (2 ^ (createBitMapFeedback args).mapSizePow2)) ↔
      (instrumentsAt cc args step →
        FitsMap cc.toToolchain (passEnv parent args keys) args M) := by
  have hpow : (createBitMapFeedback args).mapSizePow2 = 16 := rfl
  rw [hpow]
  cases hinst : instrumentsAt cc args step with
  | false =>
      -- a step without the pass inserts no code
      refine ⟨fun _ h => absurd h (by decide), fun _ uniform _ st' hst' => ?_⟩
      rcases build_withDraws hbitmap hok uniform with ⟨_, hcode⟩ | ⟨h, _⟩
      · rw [hcode st' hst']
        exact AFLCoverage.writesBelow_nil _
      · exact absurd (hinst.symm.trans h) (by decide)
  | true =>
      have hassigner : FeatureName.bbIdAssigner ∈ keys.filterMap FeatureName.ofKey := by
        rcases build_withDraws hbitmap hok cc.uniform with ⟨hnot, _⟩ | ⟨_, h, _⟩
        · exact absurd (hinst.symm.trans hnot) (by decide)
        · exact h
      have hstrategy : passEnv parent args keys BBIDAssigner.generationStrategyKey =
          some args.idGenerationStrategy.text :=
        envvars_of_mem parent hassigner (generationStrategy_mem_vars args)
      have hsize : args.idGenerationStrategy = .random →
          passEnv parent args keys BBIDAssigner.mapSizeKey = some (pyStr args.mapSize) :=
        fun hrandom => envvars_of_mem parent hassigner (mapSize_mem_vars hrandom)
      -- for each choice of draws, the values of the generator decide
      choose draw gen hgen hwrites using
        writesBelow_withDraws_iff hbitmap hok hinst (k := 16) (by decide)
      constructor
      · intro h _
        exact fitsMap_of_generator_lt cc hstrategy hsize hgen fun uniform hrange =>
          (hwrites uniform).1 (h uniform hrange)
      · intro h uniform hrange
        exact (hwrites uniform).2
          (generator_lt_of_fits cc hstrategy hsize (h rfl) hrange (hgen uniform))

/-! ### A block behind the end of the map -/

/-- A program of one block. -/
def oneBlock : Module where
  name := "one.c"
  functions := [{ blocks := [⟨[], []⟩], succs_lt := by decide, entry_no_pred := by decide }]

/-- A compiler whose generator draws the largest number each time. -/
def largestDraws : Compiler where
  splitAllCriticalEdges := id
  uniform _ _ _ hi := hi
  llvmVersionMajor := 15
  bindsAtLoad := true

def bitmapKeys : List String :=
  ["bb-id-assigner", "bitmap-feedback"]

/-- With the default options all draws stay inside the map. -/
theorem oneBlock_defaults_inside :
    (∃ st, build largestDraws (fun _ => none) { remain := ["one.c"] } bitmapKeys .compile oneBlock =
      .ok st) ∧
    ∀ uniform, (largestDraws.withDraws uniform).toToolchain.DrawsInRange → ∀ st',
      build (largestDraws.withDraws uniform) (fun _ => none) { remain := ["one.c"] } bitmapKeys
        .compile oneBlock = .ok st' → AFLCoverage.WritesBelow st'.code (2 ^ 16) := by
  obtain ⟨st, hst⟩ : ∃ st, build largestDraws (fun _ => none) { remain := ["one.c"] } bitmapKeys
      .compile oneBlock = .ok st := ⟨_, rfl⟩
  have hsize : (atoi (pyStr 65536).toList).toNat ≤ Runtime.Bitmap.MAP_SIZE := by
    rw [show (65536 : Int) = (65536 : Nat) from rfl, atoi_pyStr (by decide)]
    decide
  exact ⟨⟨st, hst⟩, (writesBelow_mapSize_iff largestDraws (fun _ => none) { remain := ["one.c"] }
    bitmapKeys .compile oneBlock (by decide) hst).2 fun _ => Or.inl hsize⟩

/-- A map size of 131072 is accepted, and the block with the largest id is written at index
131071. -/
theorem oneBlock_largeMap_outside :
    largestDraws.toToolchain.DrawsInRange ∧
      ∃ st, build largestDraws (fun _ => none) { mapSize := 131072, remain := ["one.c"] } bitmapKeys
          .compile oneBlock = .ok st ∧
        ¬ AFLCoverage.WritesBelow st.code
          (2 ^ (createBitMapFeedback { mapSize := 131072, remain := ["one.c"] }).mapSizePow2) := by
  refine ⟨fun _ _ _ _ => le_rfl, _, rfl, fun h => ?_⟩
  have hids := (AFLCoverage.writesBelow_iff .hashedEdge .naive [(⟨0, 0⟩, 131071)] (k := 16)
    (by decide)).1 h ⟨0, 0⟩ 131071 rfl
  exact absurd hids (by decide)

end Driver
end FuzzufCc
