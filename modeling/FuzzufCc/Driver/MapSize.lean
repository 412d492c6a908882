import FuzzufCc.Driver.Plan

/-!
# MapSize — the recorded map size and the one the ids are drawn from

The driver records the map size as the Python integer that it parsed.  The analysis gets the
decimal text of it and reads that with `atoi`, which saturates at 64 bits and keeps 32 of them; only
then is the size checked.
-/

namespace FuzzufCc

open LLVM Libc

namespace BBIDAssigner

/-- The analysis stops with its map-size error. -/
def StopsOnMapSize (env : Env) (M : Module) : Prop :=
  ∀ tc, run tc env M =
    .error (.reportFatalError "[!] Map size should be greater or equal than one.\n"
      "Illegal environment variable")

/-- Every id is a draw from `size` numbers, those from 0 to `size - 1`. -/
def DrawsFrom (env : Env) (M : Module) (size : Int) : Prop :=
  ∃ hi : BitVec 32, (hi.toNat : Int) + 1 = size ∧
    ∀ tc, generator tc env (splitPaths tc env M) = .ok fun k => tc.uniform M.name name k hi

section Random

variable {env : Env} {M : Module} {m : Int}

theorem splitPaths_name (tc : Toolchain) (env : Env) (M : Module) :
    (splitPaths tc env M).name = M.name := by
  unfold splitPaths
  split <;> rfl

/-- The generator for the decimal text of a map size. -/
theorem generator_pyStr (tc : Toolchain) (hrandom : env generationStrategyKey = some random)
    (hsize : env mapSizeKey = some (pyStr m)) (M : Module) :
    generator tc env M =
      if (saturate m).bmod (2 ^ 32) < 1 then
        .error (.reportFatalError "[!] Map size should be greater or equal than one.\n"
          "Illegal environment variable")
      else
        .ok fun k => tc.uniform M.name name k (BitVec.ofInt 32 (saturate m) - 1) := by
  have hne : ¬random = sequential := by decide
  have hint : (BitVec.ofInt 32 (saturate m)).toInt = (saturate m).bmod (2 ^ 32) :=
    BitVec.toInt_ofInt _
  simp only [generator, hrandom, hne, hsize, atoi_pyStr_eq, hint, if_false, if_true]

/-- The analysis stops on the map size exactly if the value read is not positive. -/
theorem stopsOnMapSize_iff (hrandom : env generationStrategyKey = some random)
    (hsize : env mapSizeKey = some (pyStr m)) :
    StopsOnMapSize env M ↔ (saturate m).bmod (2 ^ 32) < 1 := by
  constructor
  · intro h
    by_contra hpos
    have hgen := generator_pyStr identityToolchain hrandom hsize
      (splitPaths identityToolchain env M)
    rw [if_neg hpos] at hgen
    exact run_ne_reportFatalError hgen _ _ (h identityToolchain)
  · intro h tc
    simp only [run, generator_pyStr tc hrandom hsize, if_pos h, bind, Except.bind]

/-- The ids are drawn from the value read. -/
theorem drawsFrom_iff (hrandom : env generationStrategyKey = some random)
    (hsize : env mapSizeKey = some (pyStr m)) {size : Int} :
    DrawsFrom env M size ↔ 1 ≤ size ∧ size = (saturate m).bmod (2 ^ 32) := by
  have hint : (BitVec.ofInt 32 (saturate m)).toInt = (saturate m).bmod (2 ^ 32) :=
    BitVec.toInt_ofInt _
  constructor
  · rintro ⟨hi, hsize', hdraws⟩
    -- a generator that returns its bound shows the bound
    let largest : Toolchain := { splitAllCriticalEdges := id, uniform := fun _ _ _ hi => hi }
    have hgen := hdraws largest
    rw [generator_pyStr largest hrandom hsize] at hgen
    by_cases hpos : (saturate m).bmod (2 ^ 32) < 1
    · rw [if_pos hpos] at hgen
      cases hgen
    · rw [if_neg hpos] at hgen
      obtain rfl : BitVec.ofInt 32 (saturate m) - 1 = hi := congrFun (Except.ok.inj hgen) 0
      rcases mapSize_bounds (m := BitVec.ofInt 32 (saturate m)) (by omega) with ⟨_, hlt, hsub⟩
      have htoInt := BitVec.toInt_eq_toNat_of_lt (x := BitVec.ofInt 32 (saturate m)) (by omega)
      omega
  · rintro ⟨hpos, rfl⟩
    rcases mapSize_bounds (m := BitVec.ofInt 32 (saturate m)) (by omega) with ⟨_, hlt, hsub⟩
    have htoInt := BitVec.toInt_eq_toNat_of_lt (x := BitVec.ofInt 32 (saturate m)) (by omega)
    refine ⟨BitVec.ofInt 32 (saturate m) - 1, by omega, fun tc => ?_⟩
    rw [generator_pyStr tc hrandom hsize, if_neg (by omega), splitPaths_name]

end Random
end BBIDAssigner

namespace Driver

/-- Either the analysis rejects the size, or the recorded one is that of the draws. -/
def RecordsMapSize (env : Env) (args : Arguments) (M : Module) : Prop :=
  BBIDAssigner.StopsOnMapSize env M ∨
    ∃ size, (createBBIDAssigner args).recordedMapSize = some size ∧ 1 ≤ size ∧
      BBIDAssigner.DrawsFrom env M size

/-- An integer is its own low 32 bits exactly in the range of an `int`. -/
theorem bmod_saturate_eq_iff {m : Int} (hm : 1 ≤ m) :
    m = (saturate m).bmod (2 ^ 32) ↔ m < 2 ^ 31 := by
  constructor
  · intro h
    have := Int.bmod_lt (x := saturate m) (m := 2 ^ 32) (by decide)
    omega
  · intro h
    have hsat : saturate m = m := by
      simp only [saturate, LONG_MIN, LONG_MAX]
      omega
    rw [hsat]
    exact (Int.bmod_eq_of_le (by omega) (by omega)).symm

/-- **The map size.** The record tells the truth exactly if the size fits a positive `int`, or if
its low 32 bits, after saturation, are not a positive `int` either. -/
theorem recordsMapSize_iff (cc : Compiler) (parent : Env) (args : Arguments) (keys : List String)
    (step : Step) (M : Module) {p : Plan} (hassigner : FeatureName.bbIdAssigner.key ∈ keys)
    (hrandom : args.idGenerationStrategy = .random)
    (hplan : plan cc parent args keys step = .ok p) :
    RecordsMapSize p.env args M ↔
      (1 ≤ args.mapSize ∧ args.mapSize < 2 ^ 31) ∨ (saturate args.mapSize).bmod (2 ^ 32) < 1 := by
  rcases plan_eq_ok hplan with ⟨names, hnames, hspec⟩
  have hmem : FeatureName.bbIdAssigner ∈ names := by
    rw [← filterMap_ofKey hnames]
    exact List.mem_filterMap.2 ⟨_, hassigner, FeatureName.ofKey_key _⟩
  have hstrategy := envvars_of_mem parent hmem (generationStrategy_mem_vars args)
  have hsize := envvars_of_mem parent hmem (mapSize_mem_vars hrandom)
  rw [hrandom, ← hspec.env] at hstrategy
  rw [← hspec.env] at hsize
  have hrecorded : (createBBIDAssigner args).recordedMapSize = some args.mapSize := by
    simp [createBBIDAssigner, hrandom, IdGenerationStrategy.text]
  rw [RecordsMapSize, BBIDAssigner.stopsOnMapSize_iff hstrategy hsize, hrecorded]
  simp only [Option.some.injEq, exists_eq_left', BBIDAssigner.drawsFrom_iff hstrategy hsize]
  constructor
  · rintro (hstop | ⟨hpos, -, heq⟩)
    · exact Or.inr hstop
    · exact Or.inl ⟨hpos, (bmod_saturate_eq_iff hpos).1 heq⟩
  · rintro (⟨hpos, hlt⟩ | hstop)
    · exact Or.inr ⟨hpos, hpos, (bmod_saturate_eq_iff hpos).2 hlt⟩
    · exact Or.inl hstop

/-! ### A size behind the 32 bits -/

def assignerArgs (mapSize : Int) : Arguments :=
  { mapSize := mapSize, remain := ["-c", "size.c"] }

/-- A compiler without critical edges to split. -/
def plainCompiler : Compiler where
  toToolchain := identityToolchain
  llvmVersionMajor := 15
  bindsAtLoad := true

/-- A size of 2^32 + 5 is recorded, and the ids are drawn from five numbers. -/
theorem largeMapSize_misrecorded :
    ∃ p, plan plainCompiler (fun _ => none) (assignerArgs (2 ^ 32 + 5)) ["bb-id-assigner"]
        .compile = .ok p ∧
      BBIDAssigner.DrawsFrom p.env ⟨"size.c", []⟩ 5 ∧
      ¬RecordsMapSize p.env (assignerArgs (2 ^ 32 + 5)) ⟨"size.c", []⟩ := by
  have hread : (saturate (2 ^ 32 + 5)).bmod (2 ^ 32) = 5 := by decide
  refine ⟨_, rfl, ?_, ?_⟩
  · exact (BBIDAssigner.drawsFrom_iff (m := 2 ^ 32 + 5) rfl rfl).2 ⟨by decide, hread.symm⟩
  · rintro (hstop | ⟨size, hrecorded, -, hdraws⟩)
    · have hlt := (BBIDAssigner.stopsOnMapSize_iff (m := 2 ^ 32 + 5) rfl rfl).1 hstop
      rw [hread] at hlt
      exact absurd hlt (by decide)
    · have heq := ((BBIDAssigner.drawsFrom_iff (m := 2 ^ 32 + 5) rfl rfl).1 hdraws).2
      rw [hread] at heq
      subst heq
      exact absurd hrecorded (by decide)

theorem defaultMapSize_recorded :
    ∃ p, plan plainCompiler (fun _ => none) (assignerArgs 65536) ["bb-id-assigner"] .compile =
        .ok p ∧
      RecordsMapSize p.env (assignerArgs 65536) ⟨"size.c", []⟩ := by
  refine ⟨_, rfl, ?_⟩
  exact (recordsMapSize_iff plainCompiler (fun _ => none) (assignerArgs 65536) ["bb-id-assigner"]
    .compile ⟨"size.c", []⟩ (by decide) rfl rfl).2 (Or.inl (by decide))

end Driver
end FuzzufCc
