import FuzzufCc.Lib.Transition
import FuzzufCc.Passes.AnalysisManager

/-!
# AFLCoverage — the instrumentation pass of `bitmap-feedback`

`AFLCoverage.run` follows `features/bitmap/llvm-pass/bitmap-llvm-pass.so.cc`: two environment
variables choose how a block computes its bitmap location and how it updates the byte there, and
every block with an id gets the code for it at its first insertion point.  `enterBlock` and
`runBlocks` execute that code along a sequence of block entries.
-/

namespace FuzzufCc

open LLVM Libc IR

namespace AFLCoverage

def instrumentationMethodKey := "BITMAP_INSTRUMENTATION_METHOD"
def hashedEdge := "HASHED_EDGE"
def node := "NODE"

def updateMethodKey := "BITMAP_UPDATE_METHOD"
def naive := "NAIVE"
def avoidZero := "AVOID_ZERO"
def capFF := "CAP_FF"

def areaPtrValname := "__bitmap_area_ptr"
def prevLocValname := "__bitmap_prev_loc"

/-- The algorithm for calculating the index when changing the bitmap. -/
inductive InstrumentationMethod
  | hashedEdge
  | node
  deriving DecidableEq, Repr

/-- The algorithm for changing the bitmap. -/
inductive UpdateMethod
  | naive
  | avoidZero
  | capFF
  deriving DecidableEq, Repr

def instrumentationMethod (env : Env) : Except Abort InstrumentationMethod :=
  match env instrumentationMethodKey with
  | none => .ok .hashedEdge
  | some val =>
      if val = hashedEdge then .ok .hashedEdge
      else if val = node then .ok .node
      else
        .error (.reportFatalError ("[!] ID method " ++ val ++ " is not known\n")
          "Unknown ID method")

def updateMethod (env : Env) : Except Abort UpdateMethod :=
  match env updateMethodKey with
  | none => .ok .naive
  | some val =>
      if val = naive then .ok .naive
      else if val = avoidZero then .ok .avoidZero
      else if val = capFF then .ok .capFF
      else
        .error (.reportFatalError ("[!] Update method " ++ val ++ " is not known\n")
          "Unknown Update Method")

/-! ## The code of a block -/

open Builder

/-- `getBitmapLocation`: the global keeps the previous location already shifted. -/
def getBitmapLocation : InstrumentationMethod → BitVec 32 → Builder Operand
  | .hashedEdge, curLoc => do
      let prevLoc ← createLoad .i32 (.global prevLocValname)
      let prevLocCasted ← createZExt prevLoc .i32 .i32
      createStore (.const32 (curLoc >>> 1)) (.global prevLocValname)
      createXor prevLocCasted (.const32 curLoc)
  | .node, curLoc => pure (.const32 curLoc)

/-- `updateBitmap`. -/
def updateBitmap : UpdateMethod → Operand → Builder Unit
  | .naive, ptr => do
      let counter ← createLoad .i8 (.at ptr)
      let incr ← createAdd counter (.const8 1)
      createStore incr (.at ptr)
  | .avoidZero, ptr => do
      let counter ← createLoad .i8 (.at ptr)
      let incr ← createAdd counter (.const8 1)
      let cf ← createICmpEQ incr (.const8 0)
      let carry ← createZExt cf .i1 .i8
      let incr ← createAdd incr carry
      createStore incr (.at ptr)
  | .capFF, ptr => do
      let counter ← createLoad .i8 (.at ptr)
      let adder ← createICmpNE counter (.const8 0xff)
      let carry ← createZExt adder .i1 .i8
      let incr ← createAdd counter carry
      createStore incr (.at ptr)

/-- The code inserted into a block with id `curLoc`. -/
def blockCode (im : InstrumentationMethod) (um : UpdateMethod) (curLoc : BitVec 32) :
    List Inst :=
  emit do
    let bitMapLoc ← getBitmapLocation im curLoc
    let mapPtr ← createLoad .ptr (.global areaPtrValname)
    let mapPtrIdx ← createGEP mapPtr bitMapLoc
    updateBitmap um mapPtrIdx

/-- The loop over the blocks: a block without an id is skipped. -/
def instrument (im : InstrumentationMethod) (um : UpdateMethod) (ids : IdMap)
    (code : BlockRef → List Inst) : BlockRef → List Inst := fun bb =>
  match ids.find bb with
  | none => code bb
  | some curLoc => blockCode im um curLoc ++ code bb

/-- The pass preserves the analysis, so its ids stay cached. -/
def run (tc : Toolchain) (env : Env) (st : PassState) : Except Abort PassState := do
  let im ← instrumentationMethod env
  let um ← updateMethod env
  let (bbIds, st) ← st.getResult tc env
  return { st with code := instrument im um bbIds st.code }

theorem run_eq_ok {tc : Toolchain} {env : Env} {st st' : PassState}
    (h : run tc env st = .ok st') :
    ∃ im um ids st₁, instrumentationMethod env = .ok im ∧ updateMethod env = .ok um ∧
      st.getResult tc env = .ok (ids, st₁) ∧
      st' = { st₁ with code := instrument im um ids st₁.code } := by
  rcases bind_eq_ok.1 h with ⟨im, him, h⟩
  rcases bind_eq_ok.1 h with ⟨um, hum, h⟩
  rcases bind_eq_ok.1 h with ⟨⟨ids, st₁⟩, hids, h⟩
  exact ⟨im, um, ids, st₁, him, hum, hids, (Except.ok.inj h).symm⟩

/-! ## Running the inserted code -/

section Execution

variable {O : Type}

/-- The address of bitmap cell `loc`. -/
def cell (area : Ptr O) (loc : BitVec 32) : Ptr O :=
  { area with off := area.off + loc.signExtend 64 }

/-- The new value of a counter byte. -/
def UpdateMethod.next : UpdateMethod → BitVec 8 → BitVec 8
  | .naive, c => c + 1
  | .avoidZero, c => c + 1 + (if c + 1 == 0 then 1 else 0)
  | .capFF, c => c + (if c != 0xff then 1 else 0)

/-- The location that a block with id `curLoc` updates when the global holds `prev`. -/
def InstrumentationMethod.location : InstrumentationMethod → BitVec 32 → BitVec 32 → BitVec 32
  | .hashedEdge, prev, curLoc => prev ^^^ curLoc
  | .node, _, curLoc => curLoc

/-- Before the first block with an id the location is the id itself. -/
theorem InstrumentationMethod.location_zero (im : InstrumentationMethod) (curLoc : BitVec 32) :
    im.location 0 curLoc = curLoc := by
  cases im with
  | hashedEdge => exact BitVec.zero_xor
  | node => rfl

/-- What the global holds after the block. -/
def InstrumentationMethod.nextPrev : InstrumentationMethod → BitVec 32 → BitVec 32 → BitVec 32
  | .hashedEdge, _, curLoc => curLoc >>> 1
  | .node, prev, _ => prev

/-- The globals of the instrumentation hold the map pointer `area` and the location `prev`. -/
structure Ready (s : State O) (area : Ptr O) (prev : BitVec 32) : Prop where
  area : s.globals areaPtrValname = some (.ptr area)
  prev : s.globals prevLocValname = some (.i32 prev)

/-- A program that has just started, with its map at `area`. -/
def startState (mem : Mem O) (area : Ptr O) : State O where
  regs _ := none
  globals g :=
    if g = areaPtrValname then some (.ptr area)
    else if g = prevLocValname then some (.i32 0)
    else none
  mem := mem
  stores := []

theorem startState_ready (mem : Mem O) (area : Ptr O) : Ready (startState mem area) area 0 :=
  ⟨rfl, rfl⟩

variable [DecidableEq O]

/-- One block entry.  The instructions of the program itself touch neither the bitmap nor the
globals of the instrumentation. -/
def enterBlock (code : BlockRef → List Inst) (s : State O) (bb : BlockRef) : Option (State O) :=
  execAll s (code bb)

/-- A single-threaded run: any finite sequence of block entries. -/
def runBlocks (code : BlockRef → List Inst) (s : State O) (bbs : List BlockRef) :
    Option (State O) :=
  Transition.run (enterBlock code) s bbs

theorem getBitmapLocation_spec (im : InstrumentationMethod) (curLoc : BitVec 32)
    {s : State O} {area : Ptr O} {prev : BitVec 32} (hs : Ready s area prev) :
    let out := getBitmapLocation im curLoc { next := 0, insts := [] }
    ∃ s', execAll s out.2.insts = some s' ∧
      Ready s' area (im.nextPrev prev curLoc) ∧
      out.1.Below out.2.next ∧
      out.1.eval s' = some (.i32 (im.location prev curLoc)) ∧
      s'.mem = s.mem ∧ s'.stores = s.stores := by
  cases im with
  | node => exact ⟨s, rfl, hs, trivial, rfl, rfl, rfl⟩
  | hashedEdge =>
      have hne : areaPtrValname ≠ prevLocValname := by decide
      refine ⟨((s.setReg 0 (.i32 prev)).setGlobal prevLocValname (.i32 (curLoc >>> 1))).setReg 1
        (.i32 (prev ^^^ curLoc)), ?_, ⟨?_, ?_⟩, ?_, ?_, rfl, rfl⟩
      · simp [getBitmapLocation, createLoad, createZExt, createStore, createXor, define,
          bind_apply, execAll, Inst.exec, Operand.eval, BinOp.eval, Value.ty,
          hs.prev]
      · simpa [State.setGlobal_globals_of_ne _ _ _ hne] using hs.area
      · simp [InstrumentationMethod.nextPrev]
      · exact Nat.lt_succ_self 1
      · simp [getBitmapLocation, createLoad, createZExt, createStore, createXor, define,
          bind_apply, Operand.eval, InstrumentationMethod.location]

/-- The code behind a pointer held by register `p`, emitted from any later register on. -/
theorem updateBitmap_spec (um : UpdateMethod) {p n : Nat} (hp : p < n) {s : State O} {q : Ptr O}
    (hq : s.regs p = some (.ptr q)) :
    ∃ s', execAll s (updateBitmap um (.reg p) { next := n, insts := [] }).2.insts = some s' ∧
      s'.globals = s.globals ∧
      s'.mem = s.mem.set q (um.next (s.mem q.obj q.off)) ∧
      s'.stores = s.stores ++ [q] := by
  -- no fresh register is the one that holds the pointer
  have hne : ∀ m, n ≤ m → p ≠ m := fun m hm => Nat.ne_of_lt (Nat.lt_of_lt_of_le hp hm)
  cases um
  all_goals
    simp [updateBitmap, createLoad, createZExt, createStore, createAdd, createICmpEQ,
      createICmpNE, define, bind_apply, execAll, Inst.exec, Operand.eval, BinOp.eval, Pred.eval,
      Value.zext, UpdateMethod.next, hq, State.setReg_regs_of_ne, hne, Nat.add_assoc]

theorem updateBitmap_insts (um : UpdateMethod) (ptr : Operand) (n : Nat) (is : List Inst) :
    (updateBitmap um ptr { next := n, insts := is }).2.insts =
      is ++ (updateBitmap um ptr { next := n, insts := [] }).2.insts := by
  cases um
  all_goals
    simp [updateBitmap, createLoad, createZExt, createStore, createAdd, createICmpEQ,
      createICmpNE, define, bind_apply]

/-- The code of a block, cut at the four statements of the loop body. -/
theorem blockCode_eq (im : InstrumentationMethod) (um : UpdateMethod) (curLoc : BitVec 32) :
    let out := getBitmapLocation im curLoc { next := 0, insts := [] }
    let n := out.2.next
    blockCode im um curLoc =
      out.2.insts ++
        ([.load .ptr n (.global areaPtrValname), .gep (n + 1) (.reg n) out.1] ++
          (updateBitmap um (.reg (n + 1)) { next := n + 2, insts := [] }).2.insts) := by
  simp only [blockCode, emit, createLoad, createGEP, define, bind_apply]
  generalize getBitmapLocation im curLoc { next := 0, insts := [] } = out
  rcases out with ⟨loc, st⟩
  rw [updateBitmap_insts]
  simp [List.append_assoc]

/-- The previous location is the only global that the code of a block stores to. -/
theorem blockCode_storesTo (im : InstrumentationMethod) (um : UpdateMethod) (curLoc : BitVec 32)
    {g : String} (hg : g ≠ prevLocValname) :
    ∀ i ∈ blockCode im um curLoc, i.storesTo g = false := by
  have hlocation : ∀ i ∈ (getBitmapLocation im curLoc { next := 0, insts := [] }).2.insts,
      i.storesTo g = false := by
    cases im with
    | node => exact List.forall_mem_nil _
    | hashedEdge =>
        simp [getBitmapLocation, createLoad, createZExt, createStore, createXor, define,
          bind_apply, Inst.storesTo, hg.symm]
  -- the counter is not a global
  have hupdate : ∀ n ptr, ∀ i ∈ (updateBitmap um ptr { next := n, insts := [] }).2.insts,
      i.storesTo g = false := by
    intro n ptr
    cases um <;>
      simp [updateBitmap, createLoad, createZExt, createStore, createAdd, createICmpEQ,
        createICmpNE, define, bind_apply, Inst.storesTo]
  rw [blockCode_eq, List.forall_mem_append, List.forall_mem_append]
  exact ⟨hlocation, by simp [Inst.storesTo], hupdate _ _⟩

/-- **Specification of the inserted code.** It updates one byte of the map. -/
theorem blockCode_spec (im : InstrumentationMethod) (um : UpdateMethod) (curLoc : BitVec 32)
    {s : State O} {area : Ptr O} {prev : BitVec 32} (hs : Ready s area prev) :
    ∃ s', execAll s (blockCode im um curLoc) = some s' ∧
      Ready s' area (im.nextPrev prev curLoc) ∧
      s'.mem = s.mem.set (cell area (im.location prev curLoc))
        (um.next (s.mem area.obj (cell area (im.location prev curLoc)).off)) ∧
      s'.stores = s.stores ++ [cell area (im.location prev curLoc)] := by
  obtain ⟨s₁, hexec₁, hready, hbelow, hloc, hmem₁, hstores₁⟩ :=
    getBitmapLocation_spec im curLoc hs
  set out := getBitmapLocation im curLoc { next := 0, insts := [] } with hout
  set n := out.2.next with hn
  -- registers `n` and `n + 1` hold the map pointer and the address of the cell
  set s₂ := (s₁.setReg n (.ptr area)).setReg (n + 1)
    (.ptr (cell area (im.location prev curLoc))) with hs₂
  have hexec₂ : execAll s₁ [.load .ptr n (.global areaPtrValname), .gep (n + 1) (.reg n) out.1] =
      some s₂ := by
    simp [execAll, Inst.exec, hready.area, Value.ty, Operand.eval_setReg _ _ _ hbelow le_rfl, hloc]
    simp [Operand.eval, Value.gep, hs₂, cell]
  have hq : s₂.regs (n + 1) = some (.ptr (cell area (im.location prev curLoc))) := by
    simp [hs₂]
  obtain ⟨s₃, hexec₃, hglobals, hmem, hstores⟩ := updateBitmap_spec um (Nat.lt_succ_self (n + 1)) hq
  refine ⟨s₃, ?_, ⟨?_, ?_⟩, ?_, ?_⟩
  · calc execAll s (blockCode im um curLoc)
        = (execAll s out.2.insts).bind fun t => execAll t
            ([.load .ptr n (.global areaPtrValname), .gep (n + 1) (.reg n) out.1] ++
              (updateBitmap um (.reg (n + 1)) { next := n + 2, insts := [] }).2.insts) := by
          rw [blockCode_eq, execAll_append]
      _ = execAll s₂ (updateBitmap um (.reg (n + 1)) { next := n + 2, insts := [] }).2.insts := by
          rw [hexec₁, Option.bind_some, execAll_append, hexec₂, Option.bind_some]
      _ = some s₃ := hexec₃
  · rw [hglobals]
    exact hready.area
  · rw [hglobals]
    exact hready.prev
  · rw [hmem]
    simp [hs₂, hmem₁, cell]
  · rw [hstores]
    simp [hs₂, hstores₁]

end Execution

end AFLCoverage
end FuzzufCc
