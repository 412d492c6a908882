import FuzzufCc.Passes.CFGExporter

/-!
# CFGDecoding — reading the control flow graph back from a section

The lines of a section are the edges that the pass collected, in decimal.  With ids for all blocks
in sequence, the edges count the branches and the calls between any two blocks of the module, as
long as no two blocks have the same 32-bit id.
-/

namespace FuzzufCc

open LLVM Libc

namespace CFGExporter

/-! ## Lines -/

/-- The number that a decimal text stands for. -/
def readNumber (s : List Char) : BitVec 32 :=
  BitVec.ofNat 32 (Nat.ofDigitChars 10 s 0)

/-- Three numbers with blanks between them. -/
def readLine (s : List Char) : Option Edge :=
  match s.splitOn ' ' with
  | [u, v, t] => some ⟨readNumber u, readNumber v, readNumber t⟩
  | _ => none

/-- The edges of a section; what follows the last newline is no line. -/
def readSection (s : List Char) : Option (List Edge) :=
  (sectionLines s).dropLast.mapM readLine

theorem readNumber_decimal (n : BitVec 32) : readNumber (decimal n) = n := by
  rw [readNumber, decimal, Nat.ofDigitChars_ten_toDigits, BitVec.ofNat_toNat, BitVec.setWidth_eq]

theorem readLine_line (e : Edge) : readLine (line e) = some e := by
  have hplain : ∀ n : BitVec 32, ' ' ∉ decimal n := fun n hmem =>
    absurd (isDigit_of_mem_decimal hmem) (by decide)
  have hsplit : (line e).splitOn ' ' = [decimal e.u, decimal e.v, decimal e.t] := by
    have hline : line e = decimal e.u ++ ' ' :: (decimal e.v ++ ' ' :: decimal e.t) := by
      simp [line]
    rw [hline, List.splitOn_append_cons_self_of_not_mem (hplain _),
      List.splitOn_append_cons_self_of_not_mem (hplain _), List.splitOn_eq_singleton (hplain _)]
  simp [readLine, hsplit, readNumber_decimal]

theorem line_injective : Function.Injective line := by
  intro e e' h
  have hread := readLine_line e
  rw [h, readLine_line] at hread
  exact (Option.some.inj hread).symm

/-- **The section read back.** -/
theorem readSection_getString (es : List Edge) :
    readSection (getString (content es)) = some es := by
  rw [readSection, sectionLines_getString, List.dropLast_concat]
  induction es with
  | nil => rfl
  | cons e es ih => simp [readLine_line, ih]

theorem mem_of_line_mem_sectionLines {es : List Edge} {e : Edge}
    (h : line e ∈ sectionLines (getString (content es))) : e ∈ es := by
  rw [sectionLines_getString, List.mem_append, List.mem_map] at h
  rcases h with ⟨e', he', heq⟩ | h
  · rwa [← line_injective heq]
  · have hread := readLine_line e
    rw [List.mem_singleton.1 h] at hread
    cases hread

end CFGExporter

/-! ## Ids in sequence -/

namespace BBIDAssigner

/-- The strategies `ALL` and `SEQUENTIAL`; the latter is also that of an unset variable. -/
structure AllInSequence (env : Env) : Prop where
  all : env selectionStrategyKey = some all
  sequential : env generationStrategyKey = none ∨ env generationStrategyKey = some sequential

section

variable {tc : Toolchain} {env : Env} {M : Module} {res : Result}

theorem AllInSequence.generator_eq (h : AllInSequence env) (M : Module) :
    generator tc env M = .ok fun k => BitVec.ofNat 32 k :=
  generator_of_sequential h.sequential

theorem AllInSequence.selector_eq (h : AllInSequence env) (M : Module) :
    selector env M = some fun _ => true :=
  selector_all h.all

/-- The `i`-th block of the module has the id `i`. -/
theorem AllInSequence.find_iff (h : AllInSequence env) (hrun : run tc env M = .ok res)
    {r : BlockRef} {v : BitVec 32} :
    res.ids.find r = some v ↔
      ∃ i, (res.module.forBlocks.map Prod.fst)[i]? = some r ∧ v = BitVec.ofNat 32 i := by
  rcases run_spec hrun with ⟨_, gen, hgen, hids⟩
  obtain rfl := Except.ok.inj ((h.generator_eq res.module).symm.trans hgen)
  simpa [selectedBlocks, h.selector_eq] using hids r v

/-- With at most 2^32 blocks the id determines the block. -/
theorem AllInSequence.find_ofNat_iff (h : AllInSequence env) (hrun : run tc env M = .ok res)
    (hlen : res.module.forBlocks.length ≤ 2 ^ 32) {r : BlockRef} {i : Nat} (hi : i < 2 ^ 32) :
    res.ids.find r = some (BitVec.ofNat 32 i) ↔
      (res.module.forBlocks.map Prod.fst)[i]? = some r := by
  rw [h.find_iff hrun]
  constructor
  · rintro ⟨k, hk, heq⟩
    have hlt := (List.getElem?_eq_some_iff.1 hk).1
    rw [List.length_map] at hlt
    have hnat := congrArg BitVec.toNat heq
    rw [BitVec.toNat_ofNat, BitVec.toNat_ofNat, Nat.mod_eq_of_lt hi,
      Nat.mod_eq_of_lt (by omega)] at hnat
    rw [hnat]
    exact hk
  · exact fun hget => ⟨i, hget, rfl⟩

/-- The analysis succeeds on every module. -/
theorem AllInSequence.exists_run (h : AllInSequence env) (tc : Toolchain) (M : Module) :
    ∃ res, run tc env M = .ok res :=
  exists_run_of_selector (h.generator_eq _) (h.selector_eq _)

end

end BBIDAssigner

/-! ## Counting branches and calls -/

namespace LLVM

/-- The branch edges of a block `r` to another block, if that exists. -/
def BasicBlock.branchesTo (bb : BasicBlock) (r : BlockRef) : Option BlockRef → Nat
  | some r' => if r'.func = r.func then bb.succs.count r'.block else 0
  | none => 0

/-- The calls in a block of the function of which a given block is the entry. -/
def BasicBlock.callsOf (bb : BasicBlock) : Option BlockRef → Nat
  | some r' =>
      if r'.block = 0 then bb.insts.countP fun inst => inst.getCalledFunction == some r'.func
      else 0
  | none => 0

namespace Module

/-- The `i`-th block of the module. -/
def nthBlock (M : Module) (i : Nat) : Option BlockRef :=
  (M.forBlocks.map Prod.fst)[i]?

/-- The number of branch edges from the `i`-th to the `j`-th block. -/
def branchCount (M : Module) (i j : Nat) : Nat :=
  (M.forBlocks[i]?.map fun (r, bb) => bb.branchesTo r (M.nthBlock j)).getD 0

/-- The number of calls in the `i`-th block to a function whose entry is the `j`-th block. -/
def callCount (M : Module) (i j : Nat) : Nat :=
  (M.forBlocks[i]?.map fun (_, bb) => bb.callsOf (M.nthBlock j)).getD 0

end Module
end LLVM

namespace CFGExporter

/-- The number of edges with a flag from the id `i` to the id `j`. -/
def edgeCount (es : List Edge) (t : BitVec 32) (i j : Nat) : Nat :=
  if i < 2 ^ 32 ∧ j < 2 ^ 32 then es.count ⟨BitVec.ofNat 32 i, BitVec.ofNat 32 j, t⟩ else 0

/-- A sum to which only the element at one index contributes. -/
theorem sum_map_eq_getElem? {α : Type} {l : List α} {f : α → Nat} {i : Nat}
    (h : ∀ k a, l[k]? = some a → k ≠ i → f a = 0) : (l.map f).sum = (l[i]?.map f).getD 0 := by
  induction l generalizing i with
  | nil => simp
  | cons a l ih =>
      rw [List.map_cons, List.sum_cons]
      cases i with
      | zero =>
          have hzero : (l.map f).sum = 0 := by
            refine List.sum_eq_zero fun n hn => ?_
            rcases List.mem_map.1 hn with ⟨b, hb, rfl⟩
            rcases List.mem_iff_getElem?.1 hb with ⟨k, hk⟩
            exact h (k + 1) b hk (by omega)
          simp [hzero]
      | succ i =>
          have hrest : (l.map f).sum = (l[i]?.map f).getD 0 := by
            refine ih fun k b hk hne => h (k + 1) b hk ?_
            omega
          rw [h 0 a rfl (by omega), Nat.zero_add, hrest]
          rfl

/-- The body of the outer loop. -/
def blockEdges (ids : IdMap) (M : Module) (r : BlockRef) (bb : BasicBlock) : List Edge :=
  match ids.find r with
  | none => []
  | some v => jmpEdges ids r bb v ++ callEdges ids M bb v

theorem edges_eq_flatMap (ids : IdMap) (M : Module) :
    edges ids M = M.forBlocks.flatMap fun rb => blockEdges ids M rb.1 rb.2 := rfl

/-- A block without branches and calls has no edges. -/
theorem blockEdges_empty (ids : IdMap) (M : Module) (r : BlockRef) :
    blockEdges ids M r ⟨[], []⟩ = [] := by
  unfold blockEdges
  split <;> rfl

section Counts

variable {ids : IdMap} {M : Module} {r : BlockRef} {bb : BasicBlock} {v w : BitVec 32}
  {target : Option BlockRef}

/-- A branch has an edge to the id `w` exactly if it leads to the one block with this id. -/
theorem jmpEdge_eq_some (htarget : ∀ r', ids.find r' = some w ↔ target = some r') (c : Nat) :
    ((ids.find ⟨r.func, c⟩).map fun u => (⟨v, u, EDGE_JMP⟩ : Edge)) = some ⟨v, w, EDGE_JMP⟩ ↔
      target = some ⟨r.func, c⟩ := by
  rw [← htarget]
  cases ids.find ⟨r.func, c⟩ <;> simp

theorem count_jmpEdges (htarget : ∀ r', ids.find r' = some w ↔ target = some r') :
    (jmpEdges ids r bb v).count ⟨v, w, EDGE_JMP⟩ = bb.branchesTo r target := by
  rw [jmpEdges, List.count_filterMap]
  cases target with
  | none =>
      refine List.countP_eq_zero.2 fun c _ => ?_
      rw [beq_iff_eq, jmpEdge_eq_some htarget]
      simp
  | some r' =>
      rcases r' with ⟨f, b⟩
      by_cases hf : f = r.func
      · subst hf
        rw [BasicBlock.branchesTo, if_pos rfl]
        refine List.countP_congr fun c _ => ?_
        rw [beq_iff_eq, jmpEdge_eq_some htarget, beq_iff_eq, Option.some.injEq, BlockRef.mk.injEq]
        exact ⟨fun h => h.2.symm, fun h => ⟨rfl, h.symm⟩⟩
      · rw [BasicBlock.branchesTo, if_neg hf]
        refine List.countP_eq_zero.2 fun c _ => ?_
        rw [beq_iff_eq, jmpEdge_eq_some htarget]
        simp [hf]

/-- A call has an edge to the id `w` exactly if its function begins with the one block with this
id. -/
theorem callEdge_eq_some (htarget : ∀ r', ids.find r' = some w ↔ target = some r')
    (hblock : ∀ r', target = some r' → (M.block? r').isSome) (inst : Instruction) :
    (do
      let func ← inst.getCalledFunction
      let F ← M.functions[func]?
      if F.blocks.isEmpty then none
      else (ids.find ⟨func, 0⟩).map fun u => (⟨v, u, EDGE_INDIRECT⟩ : Edge)) =
        some ⟨v, w, EDGE_INDIRECT⟩ ↔
      ∃ func, inst.getCalledFunction = some func ∧ target = some ⟨func, 0⟩ := by
  simp only [bind, Option.bind_eq_some_iff]
  constructor
  · rintro ⟨func, hfunc, F, _, he⟩
    refine ⟨func, hfunc, (htarget _).1 ?_⟩
    split at he
    · cases he
    · rcases Option.map_eq_some_iff.1 he with ⟨u, hu, heq⟩
      rw [hu, (Edge.mk.inj heq).2.1]
  · rintro ⟨func, hfunc, htgt⟩
    -- a function whose entry has an id has blocks
    rcases Option.isSome_iff_exists.1 (hblock _ htgt) with ⟨entry, hentry⟩
    rcases Option.bind_eq_some_iff.1 hentry with ⟨F, hF, hget⟩
    have hne : F.blocks ≠ [] := List.ne_nil_of_mem (List.mem_of_getElem? hget)
    refine ⟨func, hfunc, F, hF, ?_⟩
    simp [hne, (htarget _).2 htgt]

theorem count_callEdges (htarget : ∀ r', ids.find r' = some w ↔ target = some r')
    (hblock : ∀ r', target = some r' → (M.block? r').isSome) :
    (callEdges ids M bb v).count ⟨v, w, EDGE_INDIRECT⟩ = bb.callsOf target := by
  rw [callEdges, List.count_filterMap]
  cases target with
  | none =>
      refine List.countP_eq_zero.2 fun inst _ => ?_
      rw [beq_iff_eq, callEdge_eq_some htarget hblock]
      simp
  | some r' =>
      rcases r' with ⟨f, b⟩
      by_cases hb : b = 0
      · subst hb
        rw [BasicBlock.callsOf, if_pos rfl]
        refine List.countP_congr fun inst _ => ?_
        rw [beq_iff_eq, callEdge_eq_some htarget hblock]
        simp
      · rw [BasicBlock.callsOf, if_neg hb]
        refine List.countP_eq_zero.2 fun inst _ => ?_
        rw [beq_iff_eq, callEdge_eq_some htarget hblock]
        simp [hb]

theorem count_callEdges_jmp : (callEdges ids M bb v).count ⟨v, w, EDGE_JMP⟩ = 0 := by
  refine List.count_eq_zero.2 fun he => ?_
  rcases mem_callEdges.1 he with ⟨_, _, _, _, _, _, _, _, _, heq⟩
  exact absurd (Edge.mk.inj heq).2.2 (by decide)

theorem count_jmpEdges_indirect : (jmpEdges ids r bb v).count ⟨v, w, EDGE_INDIRECT⟩ = 0 := by
  refine List.count_eq_zero.2 fun he => ?_
  rcases mem_jmpEdges.1 he with ⟨_, _, _, _, heq⟩
  exact absurd (Edge.mk.inj heq).2.2 (by decide)

/-- All edges of a block begin at its id. -/
theorem eq_of_mem_blockEdges {e : Edge} (he : e ∈ jmpEdges ids r bb v ++ callEdges ids M bb v) :
    e.u = v := by
  rcases List.mem_append.1 he with he | he
  · rcases mem_jmpEdges.1 he with ⟨_, _, _, _, rfl⟩
    rfl
  · rcases mem_callEdges.1 he with ⟨_, _, _, _, _, _, _, _, _, rfl⟩
    rfl

end Counts

section Recovery

variable {ids : IdMap} {M : Module}

/-- The id `i` belongs to the `i`-th block and to no other one. -/
def NumbersBlocks (ids : IdMap) (M : Module) : Prop :=
  ∀ i < 2 ^ 32, ∀ r, ids.find r = some (BitVec.ofNat 32 i) ↔ M.nthBlock i = some r

theorem nthBlock_eq_some {i : Nat} {r : BlockRef} :
    M.nthBlock i = some r ↔ ∃ bb, M.forBlocks[i]? = some (r, bb) := by
  simp [Module.nthBlock]

theorem nthBlock_of_single {F : LLVM.Function} (h : M.functions = [F]) {i : Nat}
    (hi : i < F.blocks.length) : M.nthBlock i = some ⟨0, i⟩ := by
  have hblocks : M.forBlocks = F.blocks.zipIdx.map fun bb => (⟨0, bb.2⟩, bb.1) := by
    simp [Module.forBlocks, h]
  rw [Module.nthBlock, hblocks, List.map_map, List.getElem?_map, List.getElem?_zipIdx,
    List.getElem?_eq_getElem hi]
  simp

theorem block?_of_nthBlock {i : Nat} {r : BlockRef} (h : M.nthBlock i = some r) :
    (M.block? r).isSome := by
  rcases nthBlock_eq_some.1 h with ⟨bb, hbb⟩
  rw [Module.mem_forBlocks.1 (List.mem_of_getElem? hbb)]
  rfl

/-- The edges from the id `i` are those of the `i`-th block. -/
theorem count_edges (hids : NumbersBlocks ids M) (hlen : M.forBlocks.length ≤ 2 ^ 32) {i : Nat}
    (hi : i < 2 ^ 32) (w t : BitVec 32) :
    (edges ids M).count ⟨BitVec.ofNat 32 i, w, t⟩ =
      (M.forBlocks[i]?.map fun (r, bb) =>
        (jmpEdges ids r bb (BitVec.ofNat 32 i)).count ⟨BitVec.ofNat 32 i, w, t⟩ +
          (callEdges ids M bb (BitVec.ofNat 32 i)).count ⟨BitVec.ofNat 32 i, w, t⟩).getD 0 := by
  have hfind : ∀ k r bb, M.forBlocks[k]? = some (r, bb) → k < 2 ^ 32 ∧
      ids.find r = some (BitVec.ofNat 32 k) := by
    intro k r bb hk
    have hlt := (List.getElem?_eq_some_iff.1 hk).1
    exact ⟨by omega, (hids k (by omega) r).2 (nthBlock_eq_some.2 ⟨bb, hk⟩)⟩
  rw [edges, List.count_flatMap]
  refine (sum_map_eq_getElem? (i := i) fun k rb hk hne => ?_).trans ?_
  · -- another block has another id
    rcases rb with ⟨r, bb⟩
    rcases hfind k r bb hk with ⟨hlt, hr⟩
    simp only [Function.comp, hr]
    refine List.count_eq_zero.2 fun he => hne ?_
    have hnat := congrArg BitVec.toNat (eq_of_mem_blockEdges he)
    rw [BitVec.toNat_ofNat, BitVec.toNat_ofNat, Nat.mod_eq_of_lt hi, Nat.mod_eq_of_lt hlt] at hnat
    exact hnat.symm
  · cases hget : M.forBlocks[i]? with
    | none => rfl
    | some rb =>
        rcases rb with ⟨r, bb⟩
        simp [(hfind i r bb hget).2]

/-- **The counts recovered.** -/
theorem edgeCount_edges (hids : NumbersBlocks ids M) (hlen : M.forBlocks.length ≤ 2 ^ 32)
    (i j : Nat) :
    edgeCount (edges ids M) EDGE_JMP i j = M.branchCount i j ∧
      edgeCount (edges ids M) EDGE_INDIRECT i j = M.callCount i j := by
  by_cases hi : i < 2 ^ 32
  · by_cases hj : j < 2 ^ 32
    · have hblock : ∀ r', M.nthBlock j = some r' → (M.block? r').isSome :=
        fun r' => block?_of_nthBlock
      simp only [edgeCount, hi, hj, and_self, if_true, count_edges hids hlen hi,
        Module.branchCount, Module.callCount, count_jmpEdges (hids j hj),
        count_callEdges (hids j hj) hblock, count_callEdges_jmp, count_jmpEdges_indirect,
        Nat.add_zero, Nat.zero_add]
    · -- there is no such block
      have hnone : M.nthBlock j = none := by
        rw [Module.nthBlock, List.getElem?_eq_none_iff, List.length_map]
        omega
      simp only [edgeCount, hj, and_false, if_false, Module.branchCount, Module.callCount, hnone,
        BasicBlock.branchesTo, BasicBlock.callsOf]
      cases M.forBlocks[i]? <;> simp
  · have hnone : M.forBlocks[i]? = none := by
      rw [List.getElem?_eq_none_iff]
      omega
    simp only [edgeCount, hi, false_and, if_false, Module.branchCount, Module.callCount, hnone,
      Option.map_none, Option.getD_none, and_self]

end Recovery

/-- With `ALL` and `SEQUENTIAL`, the analysis leaves `res`, and the pass adds the section `sec`. -/
structure Exports (tc : Toolchain) (env : Env) (M : Module) (res : BBIDAssigner.Result)
    (sec : List Char) : Prop where
  strategies : BBIDAssigner.AllInSequence env
  ids : BBIDAssigner.run tc env M = .ok res
  pass : ∀ st : PassState, st.module = res.module → st.cached = some res.ids →
    run st = .ok { st with cfgSections := st.cfgSections ++ [sec] }

section Sections

variable {tc : Toolchain} {env : Env} {M : Module} {res : BBIDAssigner.Result} {sec : List Char}

theorem exports_of_run (h : BBIDAssigner.AllInSequence env)
    (hrun : BBIDAssigner.run tc env M = .ok res) :
    Exports tc env M res (getString (content (edges res.ids res.module))) := by
  refine ⟨h, hrun, fun st hmodule hcached => ?_⟩
  simp [run, PassState.getCachedResult, hcached, hmodule]

theorem Exports.section_eq (h : Exports tc env M res sec) :
    sec = getString (content (edges res.ids res.module)) := by
  let st : PassState := { PassState.initial res.module true with cached := some res.ids }
  have hrun := (exports_of_run h.strategies h.ids).pass st rfl rfl
  rw [h.pass st rfl rfl] at hrun
  have hsections := congrArg PassState.cfgSections (Except.ok.inj hrun)
  simpa [st, PassState.initial] using hsections

theorem Exports.numbersBlocks (h : Exports tc env M res sec)
    (hlen : res.module.forBlocks.length ≤ 2 ^ 32) : NumbersBlocks res.ids res.module :=
  fun _ hi _ => h.strategies.find_ofNat_iff h.ids hlen hi

end Sections

/-- **The section is faithful.** It reads back as the collected edges; for a module of at most 2^32
blocks they count the branches and the calls between any two blocks; so the section of such a module
determines these counts. -/
theorem section_faithful {tc : Toolchain} {env : Env} {M : Module} {res : BBIDAssigner.Result}
    {sec : List Char} (h : Exports tc env M res sec) :
    readSection sec = some (edges res.ids res.module) ∧
      (res.module.forBlocks.length ≤ 2 ^ 32 →
        (∀ i j, edgeCount (edges res.ids res.module) EDGE_JMP i j = res.module.branchCount i j ∧
          edgeCount (edges res.ids res.module) EDGE_INDIRECT i j = res.module.callCount i j) ∧
        ∀ tc' env' M' res', Exports tc' env' M' res' sec →
          res'.module.forBlocks.length ≤ 2 ^ 32 → ∀ i j,
            res.module.branchCount i j = res'.module.branchCount i j ∧
              res.module.callCount i j = res'.module.callCount i j) := by
  have hread : readSection sec = some (edges res.ids res.module) := by
    rw [h.section_eq]
    exact readSection_getString _
  refine ⟨hread, fun hlen => ?_⟩
  have hcounts := edgeCount_edges (h.numbersBlocks hlen) hlen
  refine ⟨hcounts, fun tc' env' M' res' h' hlen' i j => ?_⟩
  have hread' : readSection sec = some (edges res'.ids res'.module) := by
    rw [h'.section_eq]
    exact readSection_getString _
  have hedges : edges res.ids res.module = edges res'.ids res'.module :=
    Option.some.inj (hread.symm.trans hread')
  have hcounts' := edgeCount_edges (h'.numbersBlocks hlen') hlen' i j
  rw [← hedges] at hcounts'
  exact ⟨(hcounts i j).1.symm.trans hcounts'.1, (hcounts i j).2.symm.trans hcounts'.2⟩

/-! ### Parallel edges, and two blocks with one id -/

/-- `ALL`, and the defaults otherwise. -/
def allEnv : Env := fun key =>
  if key = BBIDAssigner.selectionStrategyKey then some BBIDAssigner.all else none

theorem allEnv_allInSequence : BBIDAssigner.AllInSequence allEnv :=
  ⟨rfl, Or.inl rfl⟩

/-- Two branches to one block, and two calls of one function. -/
def parallelEdges : Module where
  name := "parallel.c"
  functions :=
    [{ blocks := [⟨[.call (some 1), .other, .call (some 1)], [1, 1]⟩, ⟨[], []⟩]
       succs_lt := by decide
       entry_no_pred := by decide },
     { blocks := [⟨[.other], []⟩], succs_lt := by decide, entry_no_pred := by decide }]

/-- All four are in the section. -/
theorem parallelEdges_faithful :
    ∃ res sec, Exports identityToolchain allEnv parallelEdges res sec ∧
      readSection sec = some (edges res.ids res.module) ∧
      edgeCount (edges res.ids res.module) EDGE_JMP 0 1 = 2 ∧
      edgeCount (edges res.ids res.module) EDGE_INDIRECT 0 2 = 2 := by
  obtain ⟨res, hrun, hmodule⟩ : ∃ res,
      BBIDAssigner.run identityToolchain allEnv parallelEdges = .ok res ∧
        res.module = parallelEdges := ⟨_, rfl, rfl⟩
  have hexports := exports_of_run allEnv_allInSequence hrun
  obtain ⟨hread, hrest⟩ := section_faithful hexports
  obtain ⟨hcounts, -⟩ := hrest (by rw [hmodule]; decide)
  refine ⟨res, _, hexports, hread, ?_, ?_⟩
  · rw [(hcounts 0 1).1, hmodule]
    decide
  · rw [(hcounts 0 2).2, hmodule]
    decide

/-- A function of `n + 2` blocks without a branch but one: from block 1 to the block `target`. -/
def oneBranch (n target : Nat) (hpos : 0 < target) (hlt : target < n + 2) : Module where
  name := "wide.c"
  functions :=
    [{ blocks := ⟨[], []⟩ :: ⟨[], [target]⟩ :: List.replicate n ⟨[], []⟩
       succs_lt := by
         intro bb hbb s hs
         simp only [List.mem_cons, List.mem_replicate] at hbb
         rcases hbb with rfl | rfl | ⟨_, rfl⟩ <;> simp_all
       entry_no_pred := by
         intro bb hbb hs
         simp only [List.mem_cons, List.mem_replicate] at hbb
         rcases hbb with rfl | rfl | ⟨_, rfl⟩ <;> simp_all }]

section OneBranch

variable {n target : Nat} {hpos : 0 < target} {hlt : target < n + 2}

theorem nthBlock_oneBranch {j : Nat} (hj : j < n + 2) :
    (oneBranch n target hpos hlt).nthBlock j = some ⟨0, j⟩ := by
  refine nthBlock_of_single rfl ?_
  simp only [List.length_cons, List.length_replicate]
  exact hj

theorem branchCount_oneBranch {j : Nat} (hj : j < n + 2) :
    (oneBranch n target hpos hlt).branchCount 1 j = if target = j then 1 else 0 := by
  have hget : (oneBranch n target hpos hlt).forBlocks[1]? = some (⟨0, 1⟩, ⟨[], [target]⟩) := by
    simp [Module.forBlocks, oneBranch]
  rw [Module.branchCount, hget, nthBlock_oneBranch hj]
  simp [BasicBlock.branchesTo, List.count_singleton]

/-- Where the target has the id of block 1 the one edge is a loop. -/
theorem edges_oneBranch {ids : IdMap} {v : BitVec 32} (hone : ids.find ⟨0, 1⟩ = some v)
    (htarget : ids.find ⟨0, target⟩ = some v) :
    edges ids (oneBranch n target hpos hlt) = [⟨v, v, EDGE_JMP⟩] := by
  have hrest : ∀ rb ∈ (((List.replicate n (⟨[], []⟩ : BasicBlock)).zipIdx 2).map
      fun bb => ((⟨0, bb.2⟩ : BlockRef), bb.1)),
      blockEdges ids (oneBranch n target hpos hlt) rb.1 rb.2 = [] := by
    rintro ⟨r, bb⟩ hmem
    rcases List.mem_map.1 hmem with ⟨⟨bb', b⟩, hzip, heq⟩
    obtain rfl : bb' = bb := congrArg Prod.snd heq
    obtain rfl := List.eq_of_mem_replicate (List.fst_mem_of_mem_zipIdx hzip)
    exact blockEdges_empty ids _ r
  have hforBlocks : (oneBranch n target hpos hlt).forBlocks =
      (⟨0, 0⟩, ⟨[], []⟩) :: (⟨0, 1⟩, ⟨[], [target]⟩) ::
        ((List.replicate n (⟨[], []⟩ : BasicBlock)).zipIdx 2).map
          fun bb => (⟨0, bb.2⟩, bb.1) := by
    simp [oneBranch, Module.forBlocks]
  rw [edges_eq_flatMap, hforBlocks, List.flatMap_cons, List.flatMap_cons,
    List.flatMap_eq_nil_iff.2 hrest, blockEdges_empty]
  simp [blockEdges, hone, jmpEdges, callEdges, htarget]

/-- The section of such a module. -/
theorem exports_oneBranch (hpos : 0 < target) (hlt : target < n + 2)
    (htarget : BitVec.ofNat 32 target = 1) :
    ∃ res, res.module = oneBranch n target hpos hlt ∧
      Exports identityToolchain allEnv (oneBranch n target hpos hlt) res
        (getString (content [⟨1, 1, EDGE_JMP⟩])) := by
  rcases allEnv_allInSequence.exists_run identityToolchain (oneBranch n target hpos hlt) with
    ⟨res, hrun⟩
  have hmodule : res.module = oneBranch n target hpos hlt := by
    rw [(BBIDAssigner.run_spec hrun).1]
    rfl
  have hfind : ∀ j < n + 2, res.ids.find ⟨0, j⟩ = some (BitVec.ofNat 32 j) := by
    intro j hj
    refine (allEnv_allInSequence.find_iff hrun).2 ⟨j, ?_, rfl⟩
    rw [hmodule]
    exact nthBlock_oneBranch hj
  have hexports := exports_of_run allEnv_allInSequence hrun
  have htarget' : res.ids.find ⟨0, target⟩ = some 1 := by rw [hfind target hlt, htarget]
  have hedges : edges res.ids res.module = [⟨1, 1, EDGE_JMP⟩] := by
    rw [hmodule]
    exact edges_oneBranch (hfind 1 (by omega)) htarget'
  rw [hedges] at hexports
  exact ⟨res, hmodule, hexports⟩

end OneBranch

/-- With 2^32 + 2 blocks two of them have the id 1, and a branch of block 1 to itself cannot be told
from one to the last block. -/
theorem wideModules_confused :
    ∃ M M' res res' sec, Exports identityToolchain allEnv M res sec ∧
      Exports identityToolchain allEnv M' res' sec ∧ res.module.branchCount 1 1 = 1 ∧
      res'.module.branchCount 1 1 = 0 := by
  obtain ⟨n, hn⟩ : ∃ n : Nat, n = 2 ^ 32 := ⟨_, rfl⟩
  have hfar : BitVec.ofNat 32 (n + 1) = 1 := by
    rw [hn]
    decide
  have hnear : 1 < n + 2 := by omega
  rcases exports_oneBranch Nat.one_pos hnear rfl with ⟨res, hmodule, hexports⟩
  rcases exports_oneBranch (Nat.succ_pos n) (Nat.lt_succ_self (n + 1)) hfar with
    ⟨res', hmodule', hexports'⟩
  refine ⟨_, _, res, res', _, hexports, hexports', ?_, ?_⟩
  · rw [hmodule, branchCount_oneBranch (by omega)]
    rfl
  · rw [hmodule', branchCount_oneBranch (by omega), if_neg (by omega)]

end CFGExporter
end FuzzufCc
