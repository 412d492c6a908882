import FuzzufCc.Passes.BBIDAssigner

/-!
# Selection — which blocks the selection strategy numbers

The option has two values and a default.  The analysis tests the variable twice instead of deciding
between the values, so the second test overrides the default of the first one, and a value that is
no option passes both tests and leaves the selector empty.
-/

namespace FuzzufCc

open LLVM Libc

/-- The number of incoming edges of a block, counted with multiplicity. -/
def LLVM.Module.inDegree (M : Module) (r : BlockRef) : Nat :=
  match M.functions[r.func]? with
  | some F => F.numPreds r.block
  | none => 0

theorem LLVM.Module.hasNPredecessorsOrMore_eq (M : Module) (r : BlockRef) (n : Nat) :
    M.hasNPredecessorsOrMore r n = decide (n ≤ M.inDegree r) := by
  unfold LLVM.Module.hasNPredecessorsOrMore LLVM.Module.inDegree
  cases M.functions[r.func]? with
  | none => simp
  | some F => rfl

namespace BBIDAssigner

/-! ## The option as documented -/

/-- All blocks by default and with `ALL`, those with at most one incoming edge with
`NO_MULTIPLE_PRED`; no other value is an option. -/
def documentedSelector (M : Module) : Option String → Option (BlockRef → Bool)
  | none => some fun _ => true
  | some val =>
      if val = all then some fun _ => true
      else if val = noMultiplePred then some fun bb => decide (M.inDegree bb ≤ 1)
      else none

/-- The blocks of a module that a selector selects, in module order. -/
def selectedBy (M : Module) (sel : BlockRef → Bool) : List BlockRef :=
  (M.forBlocks.map Prod.fst).filter sel

/-- The `i`-th of the blocks has the id `i`, and no other block has one. -/
def NumberedInOrder (ids : IdMap) (bbs : List BlockRef) : Prop :=
  ∀ r i, (ids.find r).map BitVec.toNat = some i ↔ bbs[i]? = some r

/-- The outcome of the analysis that the option promises. -/
def SelectsAsDocumented (tc : Toolchain) (env : Env) (M : Module) : Prop :=
  match documentedSelector (splitPaths tc env M) (env selectionStrategyKey) with
  | some sel =>
      ∃ res, run tc env M = .ok res ∧ res.module = splitPaths tc env M ∧
        NumberedInOrder res.ids (selectedBy res.module sel)
  | none => ∃ errs reason, run tc env M = .error (.reportFatalError errs reason)

/-! ## The selector of the code -/

section Selector

variable {env : Env} {M : Module}

/-- Where the second test fires it has the last word. -/
theorem selector_of_second_test
    (h : env selectionStrategyKey = none ∨ env selectionStrategyKey = some noMultiplePred) :
    selector env M = some fun bb => decide (M.inDegree bb ≤ 1) := by
  have hpred : ∀ bb, (!M.hasNPredecessorsOrMore bb 2) = decide (M.inDegree bb ≤ 1) := by
    intro bb
    rw [M.hasNPredecessorsOrMore_eq, ← decide_not]
    exact decide_eq_decide.2 (by omega)
  simp only [selector, if_pos h, hpred]

end Selector

/-! ## The ids in sequence -/

section Sequential

variable {tc : Toolchain} {env : Env} {M : Module}

/-- The positions of at most 2^32 blocks fit an id. -/
theorem numberedInOrder_iff {ids : IdMap} {bbs : List BlockRef}
    (hids : ∀ r v, ids.find r = some v ↔ ∃ i, bbs[i]? = some r ∧ v = BitVec.ofNat 32 i) :
    NumberedInOrder ids bbs ↔ bbs.length ≤ 2 ^ 32 := by
  constructor
  · intro h
    by_contra hlen
    -- the block behind the first 2^32 would need an id that no 32-bit word has
    obtain ⟨r, hr⟩ : ∃ r, bbs[2 ^ 32]? = some r :=
      ⟨_, List.getElem?_eq_getElem (by omega)⟩
    rcases Option.map_eq_some_iff.1 ((h r _).2 hr) with ⟨v, -, hv⟩
    have := v.isLt
    omega
  · intro hlen r i
    rw [Option.map_eq_some_iff]
    constructor
    · rintro ⟨v, hv, rfl⟩
      rcases (hids r v).1 hv with ⟨i, hi, rfl⟩
      have hlt := (List.getElem?_eq_some_iff.1 hi).1
      rwa [BitVec.toNat_ofNat, Nat.mod_eq_of_lt (by omega)]
    · intro hi
      have hlt := (List.getElem?_eq_some_iff.1 hi).1
      refine ⟨BitVec.ofNat 32 i, (hids r _).2 ⟨i, hi, rfl⟩, ?_⟩
      rw [BitVec.toNat_ofNat, Nat.mod_eq_of_lt (by omega)]

/-- The ids that the analysis gives in sequence. -/
theorem run_sequential {sel : BlockRef → Bool}
    (hseq : env generationStrategyKey = none ∨ env generationStrategyKey = some sequential)
    (hsel : selector env (splitPaths tc env M) = some sel) :
    ∃ res, run tc env M = .ok res ∧ res.module = splitPaths tc env M ∧
      ∀ r v, res.ids.find r = some v ↔
        ∃ i, (selectedBy res.module sel)[i]? = some r ∧ v = BitVec.ofNat 32 i := by
  rcases exists_run_of_selector (generator_of_sequential hseq) hsel with ⟨res, hrun⟩
  obtain ⟨hmodule, gen, hgen, hids⟩ := run_spec hrun
  obtain rfl := Except.ok.inj ((generator_of_sequential hseq).symm.trans hgen)
  refine ⟨res, hrun, hmodule, ?_⟩
  simpa only [selectedBlocks, selectedBy, hmodule, hsel] using hids

/-- A selector of the code that agrees on the module with the one that the option promises. -/
theorem selectsAsDocumented_of_eq {doc sel : BlockRef → Bool}
    (hseq : env generationStrategyKey = none ∨ env generationStrategyKey = some sequential)
    (hdoc : documentedSelector (splitPaths tc env M) (env selectionStrategyKey) = some doc)
    (hsel : selector env (splitPaths tc env M) = some sel)
    (heq : selectedBy (splitPaths tc env M) sel = selectedBy (splitPaths tc env M) doc) :
    SelectsAsDocumented tc env M ↔ (selectedBy (splitPaths tc env M) doc).length ≤ 2 ^ 32 := by
  obtain ⟨res, hrun, hmodule, hids⟩ := run_sequential hseq hsel
  rw [hmodule, heq] at hids
  rw [← numberedInOrder_iff hids]
  simp only [SelectsAsDocumented, hdoc, hrun, Except.ok.injEq, exists_eq_left', hmodule, true_and]

/-- Unset, the option promises an id for every block, and the code gives none to a join. -/
theorem inDegree_le_one_of_unset
    (hseq : env generationStrategyKey = none ∨ env generationStrategyKey = some sequential)
    (hunset : env selectionStrategyKey = none) (h : SelectsAsDocumented tc env M) :
    ∀ r ∈ (splitPaths tc env M).forBlocks.map Prod.fst, (splitPaths tc env M).inDegree r ≤ 1 := by
  intro r hr
  obtain ⟨res, hrun, hmodule, hids⟩ :=
    run_sequential hseq (selector_of_second_test (M := splitPaths tc env M) (Or.inl hunset))
  simp only [SelectsAsDocumented, hunset, documentedSelector, hrun, Except.ok.injEq,
    exists_eq_left', hmodule, true_and] at h
  have hall : selectedBy (splitPaths tc env M) (fun _ => true) =
      (splitPaths tc env M).forBlocks.map Prod.fst := List.filter_eq_self.2 fun _ _ => rfl
  rw [hall] at h
  rcases List.mem_iff_getElem?.1 hr with ⟨i, hi⟩
  rcases Option.map_eq_some_iff.1 ((h r i).2 hi) with ⟨v, hv, -⟩
  obtain ⟨k, hk, -⟩ := (hids r v).1 hv
  exact of_decide_eq_true (List.mem_filter.1 (List.mem_of_getElem? hk)).2

/-- **The selection option.** It works as documented exactly if its value is `ALL` or
`NO_MULTIPLE_PRED`, or it has none and no block has two incoming edges; and the ids are distinct
as long as 32 bits suffice. -/
theorem selectsAsDocumented_iff (tc : Toolchain) (env : Env) (M : Module)
    (hseq : env generationStrategyKey = none ∨ env generationStrategyKey = some sequential) :
    SelectsAsDocumented tc env M ↔
      (env selectionStrategyKey = none →
        ∀ r ∈ (splitPaths tc env M).forBlocks.map Prod.fst,
          (splitPaths tc env M).inDegree r ≤ 1) ∧
      ∃ sel, documentedSelector (splitPaths tc env M) (env selectionStrategyKey) = some sel ∧
        (selectedBy (splitPaths tc env M) sel).length ≤ 2 ^ 32 := by
  cases hval : env selectionStrategyKey with
  | none =>
      -- on blocks with one incoming edge at most the two selectors agree
      have heq (hjoin : ∀ r ∈ (splitPaths tc env M).forBlocks.map Prod.fst,
          (splitPaths tc env M).inDegree r ≤ 1) :
          SelectsAsDocumented tc env M ↔
            (selectedBy (splitPaths tc env M) fun _ => true).length ≤ 2 ^ 32 := by
        refine selectsAsDocumented_of_eq hseq (by rw [hval]; rfl)
          (selector_of_second_test (Or.inl hval)) ?_
        exact List.filter_congr fun r hr => decide_eq_true (hjoin r hr)
      constructor
      · intro h
        have hjoin := inDegree_le_one_of_unset hseq hval h
        exact ⟨fun _ => hjoin, _, rfl, (heq hjoin).1 h⟩
      · rintro ⟨hjoin, sel, hsel, hlen⟩
        obtain rfl := Option.some.inj hsel
        exact (heq (hjoin rfl)).2 hlen
  | some val =>
      have hdoc : documentedSelector (splitPaths tc env M) (env selectionStrategyKey) =
          documentedSelector (splitPaths tc env M) (some val) := by rw [hval]
      rw [documentedSelector] at hdoc ⊢
      by_cases hall : val = all
      · subst hall
        simpa using selectsAsDocumented_of_eq hseq (by simpa using hdoc) (selector_all hval) rfl
      · by_cases hpred : val = noMultiplePred
        · subst hpred
          simpa [hall] using selectsAsDocumented_of_eq hseq (by simpa [hall] using hdoc)
            (selector_of_second_test (Or.inr hval)) rfl
        · -- neither test fires, and an empty selector is not reported
          have hnot : ¬SelectsAsDocumented tc env M := by
            simp only [SelectsAsDocumented, hdoc, hall, hpred, if_false]
            rintro ⟨errs, reason, hrun⟩
            exact run_ne_reportFatalError (generator_of_sequential hseq) errs reason hrun
          simpa [hall, hpred] using hnot

end Sequential

/-! ### A branch around a block -/

/-- The last block is entered by the branch and from the block that the branch goes around. -/
def branchAround : LLVM.Module where
  name := "if.c"
  functions :=
    [{ blocks := [⟨[.other], [1, 2]⟩, ⟨[.call none], [2]⟩, ⟨[.other], []⟩]
       succs_lt := by decide
       entry_no_pred := by decide }]

def sequentialEnv (selection : Option String) : Env := fun key =>
  if key = generationStrategyKey then some sequential
  else if key = selectionStrategyKey then selection
  else none

/-- Unset, the option leaves the last block without an id. -/
theorem branchAround_join_skipped :
    ¬SelectsAsDocumented identityToolchain (sequentialEnv none) branchAround := by
  intro h
  have hjoin := inDegree_le_one_of_unset (Or.inr rfl) rfl h
  exact absurd (hjoin ⟨0, 2⟩ (by decide)) (by decide)

/-- With `NO_MULTIPLE_PRED` it is meant to. -/
theorem branchAround_selects :
    SelectsAsDocumented identityToolchain (sequentialEnv (some noMultiplePred)) branchAround := by
  rw [selectsAsDocumented_iff identityToolchain (sequentialEnv (some noMultiplePred)) branchAround
    (Or.inr rfl)]
  exact ⟨fun h => absurd h (by decide), _, rfl, by decide⟩

end BBIDAssigner
end FuzzufCc
