import FuzzufCc.LLVM.Module
import FuzzufCc.Libc

/-!
# BBIDAssigner — the analysis that gives basic blocks their ids

`BBIDAssigner.run` follows `features/bb-id-assigner/bb-id-assigner-pass.so.cc`: it optionally
splits critical edges, selects blocks, and numbers the selected blocks in module order by a
sequential or a random generator.  Edge splitting and the random numbers belong to LLVM and to the
C++ library; they are the fields of a `Toolchain`.
-/

namespace FuzzufCc

open LLVM Libc

/-- A computation that succeeds, taken apart at its first step. -/
theorem bind_eq_ok {ε α β : Type} {x : Except ε α} {f : α → Except ε β} {b : β} :
    (x >>= f) = .ok b ↔ ∃ a, x = .ok a ∧ f a = .ok b := by
  cases x with
  | error e => simp [bind, Except.bind]
  | ok a => simp [bind, Except.bind]

/-- A computation that fails, at its first step or behind it. -/
theorem bind_eq_error {ε α β : Type} {x : Except ε α} {f : α → Except ε β} {e : ε} :
    (x >>= f) = .error e ↔ x = .error e ∨ ∃ a, x = .ok a ∧ f a = .error e := by
  cases x with
  | error e' => simp [bind, Except.bind]
  | ok a => simp [bind, Except.bind]

/-- How a pass ends the compilation: `report_fatal_error` after a message on `errs()`, the call of
an empty `std::function`, or a query of an analysis that no plugin has registered. -/
inductive Abort
  | reportFatalError (errs reason : String)
  | badFunctionCall
  | unregisteredAnalysis
  deriving DecidableEq, Repr

/-- What the analysis uses of LLVM and of the C++ library.  `uniform name salt i hi` is draw `i`
of `uniform_int_distribution<uint32_t>(0, hi)` over the stream of `createRNG` for that module name
and salt. -/
structure Toolchain where
  splitAllCriticalEdges : LLVM.Function → LLVM.Function
  uniform : String → String → Nat → BitVec 32 → BitVec 32

/-- Every draw is inside its interval. -/
def Toolchain.DrawsInRange (tc : Toolchain) : Prop :=
  ∀ name salt i hi, (tc.uniform name salt i hi).toNat ≤ hi.toNat

/-- A toolchain for modules without critical edges, where splitting changes nothing. -/
def identityToolchain : Toolchain where
  splitAllCriticalEdges := id
  uniform _ _ _ _ := 0

/-- `DenseMap<BasicBlock*, unsigned int>`. -/
abbrev IdMap := List (BlockRef × BitVec 32)

namespace IdMap

/-- `find`; `count` is whether it has a value. -/
def find (ids : IdMap) (r : BlockRef) : Option (BitVec 32) :=
  ids.lookup r

/-- `insert` keeps the value of a key that is already there. -/
def insert (ids : IdMap) (r : BlockRef) (id : BitVec 32) : IdMap :=
  if (ids.find r).isSome then ids else (r, id) :: ids

theorem find_insert_self {ids : IdMap} {r : BlockRef} (h : ids.find r = none) (id : BitVec 32) :
    (ids.insert r id).find r = some id := by
  rw [insert, if_neg (by simp [h])]
  simp [find]

theorem find_insert_of_ne (ids : IdMap) {r r' : BlockRef} (h : r' ≠ r) (id : BitVec 32) :
    (ids.insert r id).find r' = ids.find r' := by
  have hbeq : (r' == r) = false := by simpa using h
  by_cases hsome : (ids.find r).isSome
  · rw [insert, if_pos hsome]
  · rw [insert, if_neg hsome]
    simp [find, List.lookup_cons, hbeq]

theorem mem_of_find {ids : IdMap} {r : BlockRef} {id : BitVec 32} (h : ids.find r = some id) :
    (r, id) ∈ ids := by
  induction ids with
  | nil => cases h
  | cons kv ids ih =>
      rcases kv with ⟨r', id'⟩
      by_cases hr : r = r'
      · subst hr
        simp [find] at h
        simp [h]
      · have hbeq : (r == r') = false := by simpa using hr
        simp only [find, List.lookup_cons, hbeq] at h
        exact List.mem_cons_of_mem _ (ih h)

end IdMap

namespace BBIDAssigner

def doPathSplittingKey := "BB_ID_ASSIGNER_DO_PATH_SPLITTING"

def generationStrategyKey := "BB_ID_ASSIGNER_ID_GENERATION_STRATEGY"
def sequential := "SEQUENTIAL"
def random := "RANDOM"

def selectionStrategyKey := "BB_ID_ASSIGNER_NODE_SELECTION_STRATEGY"
def all := "ALL"
def noMultiplePred := "NO_MULTIPLE_PRED"

def mapSizeKey := "BB_ID_ASSIGNER_MAP_SIZE"

/-- `name()` of the analysis, the salt of its random numbers. -/
def name := "bbidassigner::BBIDAssigner"

/-- The module after the optional `SplitAllCriticalEdges` of every function. -/
def splitPaths (tc : Toolchain) (env : Env) (M : Module) : Module :=
  if (env doPathSplittingKey).isSome then
    { M with functions := M.functions.map tc.splitAllCriticalEdges }
  else
    M

/-- The two tests are independent: the second one overrides the first, and neither may fire. -/
def selector (env : Env) (M : Module) : Option (BlockRef → Bool) :=
  let val := env selectionStrategyKey
  let first := if val = none ∨ val = some all then some fun _ => true else none
  if val = none ∨ val = some noMultiplePred then
    some fun bb => !M.hasNPredecessorsOrMore bb 2
  else
    first

/-- The value of the `k`-th call of the generator. -/
def generator (tc : Toolchain) (env : Env) (M : Module) : Except Abort (Nat → BitVec 32) :=
  match env generationStrategyKey with
  | none => .ok fun k => BitVec.ofNat 32 k
  | some val =>
      if val = sequential then
        .ok fun k => BitVec.ofNat 32 k
      else if val = random then
        match env mapSizeKey with
        | none =>
            .error (.reportFatalError "[!] No map size is given.\n" "Illegal environment variable")
        | some size =>
            let mapSize := atoi size.toList
            if mapSize.toInt < 1 then
              .error (.reportFatalError "[!] Map size should be greater or equal than one.\n"
                "Illegal environment variable")
            else
              .ok fun k => tc.uniform M.name name k (mapSize - 1)
      else
        .error (.reportFatalError ("[!] " ++ val ++ " is not a valid option for the strategy.\n")
          "Illegal environment variable")

/-- The loop over the blocks; `k` counts the calls of the generator so far. -/
def assign (selector : Option (BlockRef → Bool)) (generator : Nat → BitVec 32) :
    List BlockRef → Nat → IdMap → Except Abort IdMap
  | [], _, res => .ok res
  | bb :: bbs, k, res =>
      match selector with
      | none => .error .badFunctionCall
      | some sel =>
          if !sel bb then
            assign selector generator bbs k res
          else
            assign selector generator bbs (k + 1) (res.insert bb (generator k))

/-- The module as the analysis leaves it, and the ids. -/
structure Result where
  module : Module
  ids : IdMap

def run (tc : Toolchain) (env : Env) (M : Module) : Except Abort Result := do
  let M' := splitPaths tc env M
  let gen ← generator tc env M'
  let ids ← assign (selector env M') gen (M'.forBlocks.map Prod.fst) 0 []
  return { module := M', ids := ids }

/-! ## What `run` computes -/

/-- The blocks that get an id, in module order. -/
def selectedBlocks (env : Env) (M : Module) : List BlockRef :=
  match selector env M with
  | some sel => (M.forBlocks.map Prod.fst).filter sel
  | none => []

theorem assign_spec (sel : BlockRef → Bool) (gen : Nat → BitVec 32) (bbs : List BlockRef)
    (hnodup : bbs.Nodup) (k : Nat) (res : IdMap) (hfresh : ∀ r ∈ bbs, res.find r = none) :
    ∃ ids, assign (some sel) gen bbs k res = .ok ids ∧
      (∀ r, r ∉ bbs.filter sel → ids.find r = res.find r) ∧
      ∀ i r, (bbs.filter sel)[i]? = some r → ids.find r = some (gen (k + i)) := by
  induction bbs generalizing k res with
  | nil => exact ⟨res, rfl, fun _ _ => rfl, by simp⟩
  | cons bb bbs ih =>
      rcases List.nodup_cons.1 hnodup with ⟨hbb, hnodup'⟩
      by_cases hsel : sel bb
      -- a selected block takes value `k`, and the others are still without an id
      · have hfresh' : ∀ r ∈ bbs, (res.insert bb (gen k)).find r = none := by
          intro r hr
          have hne : r ≠ bb := fun h => hbb (h ▸ hr)
          rw [IdMap.find_insert_of_ne res hne]
          exact hfresh r (List.mem_cons_of_mem _ hr)
        rcases ih hnodup' (k + 1) _ hfresh' with ⟨ids, hrun, hother, hsome⟩
        refine ⟨ids, by simpa [assign, hsel] using hrun, ?_, ?_⟩
        · intro r hr
          simp only [List.filter_cons, hsel, if_true, List.mem_cons, not_or] at hr
          rw [hother r hr.2, IdMap.find_insert_of_ne res hr.1]
        · intro i r hir
          simp only [List.filter_cons, hsel, if_true] at hir
          cases i with
          | zero =>
              obtain rfl : bb = r := by simpa using hir
              have hnot : bb ∉ bbs.filter sel := fun h => hbb (List.mem_of_mem_filter h)
              rw [hother bb hnot, IdMap.find_insert_self (hfresh bb (by simp)), Nat.add_zero]
          | succ i =>
              have := hsome i r (by simpa using hir)
              rwa [Nat.add_right_comm, Nat.add_assoc] at this
      · obtain ⟨ids, hrun, hother, hsome⟩ :=
          ih hnodup' k res fun r hr => hfresh r (List.mem_cons_of_mem _ hr)
        refine ⟨ids, by simpa [assign, hsel] using hrun, ?_, ?_⟩
        · intro r hr
          exact hother r (by simpa [List.filter_cons, hsel] using hr)
        · intro i r hir
          exact hsome i r (by simpa [List.filter_cons, hsel] using hir)

/-- **Specification of the analysis.** The `i`-th selected block of the module that the analysis
leaves gets value `i` of the generator, and no other block gets an id. -/
theorem run_spec {tc : Toolchain} {env : Env} {M : Module} {res : Result}
    (hrun : run tc env M = .ok res) :
    res.module = splitPaths tc env M ∧
      ∃ gen, generator tc env res.module = .ok gen ∧
        ∀ r v, res.ids.find r = some v ↔
          ∃ i, (selectedBlocks env res.module)[i]? = some r ∧ v = gen i := by
  rcases bind_eq_ok.1 hrun with ⟨gen, hgen, hrun⟩
  rcases bind_eq_ok.1 hrun with ⟨ids, hids, hrun⟩
  obtain rfl : { module := splitPaths tc env M, ids := ids } = res := Except.ok.inj hrun
  refine ⟨rfl, gen, hgen, fun r v => ?_⟩
  have hnodup := (splitPaths tc env M).nodup_forBlocks
  simp only [selectedBlocks]
  cases hsel : selector env (splitPaths tc env M) with
  | none =>
      -- without a selector the loop only ends if there is no block
      rw [hsel] at hids
      have hnil : ids = [] := by
        cases hblocks : (splitPaths tc env M).forBlocks.map Prod.fst with
        | nil => simpa [hblocks, assign] using hids.symm
        | cons bb bbs => simp [hblocks, assign] at hids
      simp [hnil, IdMap.find]
  | some sel =>
      rw [hsel] at hids
      obtain ⟨ids', hassign, hother, hsome⟩ := assign_spec sel gen _ hnodup 0 [] (by simp [IdMap.find])
      obtain rfl : ids' = ids := by simpa [hassign] using hids
      constructor
      · intro hv
        by_cases hmem : r ∈ ((splitPaths tc env M).forBlocks.map Prod.fst).filter sel
        · rcases List.mem_iff_getElem?.1 hmem with ⟨i, hi⟩
          have hgi := hsome i r hi
          refine ⟨i, hi, ?_⟩
          simpa [hgi] using hv.symm
        · rw [hother r hmem] at hv
          simp [IdMap.find] at hv
      · rintro ⟨i, hi, rfl⟩
        simpa using hsome i r hi

theorem selector_all {env : Env} {M : Module} (h : env selectionStrategyKey = some all) :
    selector env M = some fun _ => true := by
  simp [selector, h, all, noMultiplePred]

/-- With a selector the analysis succeeds. -/
theorem exists_run_of_selector {tc : Toolchain} {env : Env} {M : Module}
    {gen : Nat → BitVec 32} {sel : BlockRef → Bool}
    (hgen : generator tc env (splitPaths tc env M) = .ok gen)
    (hsel : selector env (splitPaths tc env M) = some sel) : ∃ res, run tc env M = .ok res := by
  obtain ⟨ids, hids, -⟩ := assign_spec sel gen _ (splitPaths tc env M).nodup_forBlocks 0 []
    (by simp [IdMap.find])
  refine ⟨_, bind_eq_ok.2 ⟨gen, hgen, bind_eq_ok.2 ⟨ids, ?_, rfl⟩⟩⟩
  rw [hsel]
  exact hids

/-- The loop fails only for want of a selector. -/
theorem assign_error {sel : Option (BlockRef → Bool)} {gen : Nat → BitVec 32} {bbs : List BlockRef}
    {k : Nat} {res : IdMap} {abort : Abort} (h : assign sel gen bbs k res = .error abort) :
    abort = .badFunctionCall := by
  induction bbs generalizing k res with
  | nil => cases h
  | cons bb bbs ih =>
      cases sel with
      | none => exact (Except.error.inj h).symm
      | some sel =>
          cases hsel : sel bb with
          | false => exact ih (by simpa [assign, hsel] using h)
          | true => exact ih (by simpa [assign, hsel] using h)

/-- A fatal error of the analysis comes from its generator. -/
theorem run_ne_reportFatalError {tc : Toolchain} {env : Env} {M : Module} {gen : Nat → BitVec 32}
    (hgen : generator tc env (splitPaths tc env M) = .ok gen) (errs reason : String) :
    run tc env M ≠ .error (.reportFatalError errs reason) := by
  intro hrun
  cases hids : assign (selector env (splitPaths tc env M)) gen
      ((splitPaths tc env M).forBlocks.map Prod.fst) 0 [] with
  | ok ids => simp [run, hgen, hids, bind, Except.bind, pure, Except.pure] at hrun
  | error abort =>
      rw [assign_error hids] at hids
      simp [run, hgen, hids, bind, Except.bind] at hrun

/-! ## The two generators -/

theorem generator_sequential {tc : Toolchain} {env : Env} {M : Module}
    (h : env generationStrategyKey = some sequential) :
    generator tc env M = .ok fun k => BitVec.ofNat 32 k := by
  simp [generator, h]

theorem generator_of_sequential {tc : Toolchain} {env : Env} {M : Module}
    (hseq : env generationStrategyKey = none ∨ env generationStrategyKey = some sequential) :
    generator tc env M = .ok fun k => BitVec.ofNat 32 k := by
  rcases hseq with hnone | hsome
  · simp [generator, hnone]
  · exact generator_sequential hsome

theorem generator_random {tc : Toolchain} {env : Env} {M : Module} {size : String}
    {gen : Nat → BitVec 32} (h : env generationStrategyKey = some random)
    (hsize : env mapSizeKey = some size) (hgen : generator tc env M = .ok gen) :
    1 ≤ (atoi size.toList).toInt ∧
      gen = fun k => tc.uniform M.name name k (atoi size.toList - 1) := by
  have hne : ¬ random = sequential := by decide
  by_cases hpos : (atoi size.toList).toInt < 1
  · simp [generator, h, hne, hsize, hpos] at hgen
  · simp only [generator, h, hne, hsize, hpos, if_false, if_true, Except.ok.injEq] at hgen
    exact ⟨by omega, hgen.symm⟩

/-- The map size is a positive `int`, and the largest draw is one less. -/
theorem mapSize_bounds {m : BitVec 32} (hm : 1 ≤ m.toInt) :
    0 < m.toNat ∧ m.toNat < 2 ^ 31 ∧ (m - 1).toNat = m.toNat - 1 := by
  have hlt : m.toNat < 2 ^ 31 ∧ 1 ≤ m.toNat := by
    rw [BitVec.toInt_eq_toNat_cond] at hm
    split at hm <;> omega
  refine ⟨by omega, hlt.1, ?_⟩
  rw [BitVec.toNat_sub_of_le]
  · rfl
  · exact BitVec.le_def.2 hlt.2

/-! ## Success does not depend on the random numbers -/

theorem generator_ok_of_ok {tc : Toolchain} (tc' : Toolchain) {env : Env} {M : Module}
    {gen : Nat → BitVec 32} (h : generator tc env M = .ok gen) :
    ∃ gen', generator tc' env M = .ok gen' := by
  have hne : ¬ random = sequential := by decide
  cases hval : env generationStrategyKey with
  | none => simp [generator, hval]
  | some val =>
      by_cases hseq : val = sequential
      · simp [generator, hval, hseq]
      · by_cases hrandom : val = random
        · subst hrandom
          cases hsize : env mapSizeKey with
          | none => simp [generator, hval, hne, hsize] at h
          | some size =>
              by_cases hneg : (atoi size.toList).toInt < 1
              · simp [generator, hval, hne, hsize, hneg] at h
              · simp [generator, hval, hne, hsize, hneg]
        · simp [generator, hval, hseq, hrandom] at h

theorem assign_ok_of_ok {sel : Option (BlockRef → Bool)} {gen : Nat → BitVec 32}
    {bbs : List BlockRef} {k : Nat} {res ids : IdMap} (gen' : Nat → BitVec 32) (k' : Nat)
    (res' : IdMap) (h : assign sel gen bbs k res = .ok ids) :
    ∃ ids', assign sel gen' bbs k' res' = .ok ids' := by
  induction bbs generalizing k k' res res' with
  | nil => exact ⟨res', rfl⟩
  | cons bb bbs ih =>
      cases sel with
      | none => simp [assign] at h
      | some sel =>
          cases hsel : sel bb with
          | false =>
              simp only [assign, hsel, Bool.not_false, if_true] at h ⊢
              exact ih _ _ h
          | true =>
              simp only [assign, hsel, Bool.not_true, Bool.false_eq_true, if_false] at h ⊢
              exact ih _ _ h

theorem run_ok_of_ok {tc : Toolchain} (tc' : Toolchain) {env : Env} {M : Module} {res : Result}
    (hsplit : tc'.splitAllCriticalEdges = tc.splitAllCriticalEdges)
    (h : run tc env M = .ok res) : ∃ res', run tc' env M = .ok res' := by
  rcases bind_eq_ok.1 h with ⟨gen, hgen, h⟩
  rcases bind_eq_ok.1 h with ⟨ids, hids, _⟩
  have hpaths : splitPaths tc' env M = splitPaths tc env M := by
    simp only [splitPaths, hsplit]
  rcases generator_ok_of_ok tc' hgen with ⟨gen', hgen'⟩
  rcases assign_ok_of_ok gen' 0 [] hids with ⟨ids', hids'⟩
  refine ⟨_, bind_eq_ok.2 ⟨gen', ?_, bind_eq_ok.2 ⟨ids', ?_, rfl⟩⟩⟩
  · rw [hpaths]
    exact hgen'
  · rw [hpaths]
    exact hids'

end BBIDAssigner
end FuzzufCc
