import FuzzufCc.Lib.Memory
import FuzzufCc.Lib.Transition
import FuzzufCc.Lib.Xor
import FuzzufCc.Runtime.Ijon

/-!
# IjonCalls — the calls of the IJON runtime

The functions of `features/ijon/ijon-llvm-rt.o.c` that a program calls through the macros of
`ijon.h`, as one thread sees them.  A call divides by a size that comes from the environment and
then changes one word of the thread, one counter or one max slot; `Call.effect` says which.
-/

namespace FuzzufCc

open Libc IR

namespace Runtime
namespace Ijon

/-- How a call ends the process. -/
inductive Fault
  | divisionByZero
  | assertionFailed (assertion : String)
  deriving DecidableEq, Repr

/-- `a % n` of unsigned numbers. -/
def modulo (a n : Nat) : Except Fault Nat :=
  if n = 0 then .error .divisionByZero else .ok (a % n)

theorem modulo_bind_of_pos {α : Type} (a : Nat) {n : Nat} (hn : 0 < n)
    (f : Nat → Except Fault α) : (modulo a n >>= f) = f (a % n) := by
  rw [modulo, if_neg hn.ne']
  rfl

theorem modulo_bind_zero {α : Type} (a : Nat) (f : Nat → Except Fault α) :
    (modulo a 0 >>= f) = .error .divisionByZero := rfl

/-- What the calls of one thread read and write: the layout that initialisation left, the memory,
and the thread's own `__ijon_state` and `__ijon_state_log`. -/
structure Thread where
  layout : Layout
  mem : Mem Object
  state : BitVec 32
  stateLog : BitVec 32

namespace Thread

/-- A thread that has not made a call yet. -/
def start (layout : Layout) (mem : Mem Object) : Thread where
  layout := layout
  mem := mem
  state := 0
  stateLog := 0

variable (σ : Thread)

def xorState (val : BitVec 32) : Except Fault Thread := do
  let state ← modulo (σ.state ^^^ val).toNat σ.layout.mapSize
  return { σ with state := BitVec.ofNat 32 state }

def pushState (x : BitVec 32) : Except Fault Thread := do
  let σ ← σ.xorState σ.stateLog
  let σ := { σ with stateLog := (σ.stateLog <<< 8) ||| (x &&& 0xff) }
  σ.xorState σ.stateLog

protected def max (addr : BitVec 32) (val : BitVec 64) : Except Fault Thread := do
  let i ← modulo addr.toNat σ.layout.maxMapSize
  let slot := σ.layout.maxPtr.add (8 * i)
  if σ.mem.load64 slot < val then
    return { σ with mem := σ.mem.store64 slot val }
  else
    return σ

protected def min (addr : BitVec 32) (val : BitVec 64) : Except Fault Thread :=
  σ.max addr (0xffffffffffffffff - val)

def mapInc (addr : BitVec 32) : Except Fault Thread := do
  let i ← modulo (σ.state ^^^ addr).toNat σ.layout.mapSize
  let cell := σ.layout.counterPtr.add i
  return { σ with mem := σ.mem.set cell (σ.mem cell.obj cell.off + 1) }

def mapSet (addr : BitVec 32) : Except Fault Thread := do
  let i ← modulo (σ.state ^^^ addr).toNat σ.layout.mapSize
  let cell := σ.layout.counterPtr.add i
  return { σ with mem := σ.mem.set cell (σ.mem cell.obj cell.off ||| 1) }

end Thread

inductive Call
  | xorState (val : BitVec 32)
  | pushState (x : BitVec 32)
  | max (addr : BitVec 32) (val : BitVec 64)
  | min (addr : BitVec 32) (val : BitVec 64)
  | mapInc (addr : BitVec 32)
  | mapSet (addr : BitVec 32)
  deriving DecidableEq, Repr

def Call.exec : Call → Thread → Except Fault Thread
  | .xorState val, σ => σ.xorState val
  | .pushState x, σ => σ.pushState x
  | .max addr val, σ => σ.max addr val
  | .min addr val, σ => σ.min addr val
  | .mapInc addr, σ => σ.mapInc addr
  | .mapSet addr, σ => σ.mapSet addr

/-- One call; `none` is the end of the process. -/
def step (σ : Thread) (c : Call) : Option Thread :=
  (c.exec σ).toOption

/-! ## The macros

The argument `hash` of a macro is `ijon_hashstr(__LINE__, __FILE__)` of its site. -/

def IJON_INC (hash x : BitVec 32) : Call :=
  .mapInc (hash ^^^ x)

def IJON_SET (hash x : BitVec 32) : Call :=
  .mapSet (hash ^^^ x)

/-- `__builtin_popcount` counts the bits. -/
def IJON_CMP (hash x y : BitVec 32) : Call :=
  IJON_INC hash (x ^^^ y).cpop

/-- `ijon_strdist`: the length of the common prefix, as far as an `int` counts. -/
def strdist : List Char → List Char → BitVec 32
  | a :: as, b :: bs => if a = b then strdist as bs + 1 else 0
  | _, _ => 0

def simpleHash (x : BitVec 64) : BitVec 64 :=
  let x := (x ^^^ (x >>> 30)) * 0xbf58476d1ce4e5b9
  let x := (x ^^^ (x >>> 27)) * 0x94d049bb133111eb
  x ^^^ (x >>> 31)

def hashint (old val : BitVec 32) : BitVec 32 :=
  (simpleHash ((old.setWidth 64 <<< 32) ||| val.setWidth 64)).setWidth 32

/-- `backtrace(buffer, size)` stores the return addresses of the innermost frames. -/
def backtrace (stack : List (BitVec 64)) (size : Nat) : List (BitVec 64) :=
  stack.take size

/-- `ijon_hashstack_libgcc`. -/
def hashstack (stack : List (BitVec 64)) : Except Fault (BitVec 32) :=
  let buffer := backtrace stack 16
  if buffer.length < 16 then
    .ok ((buffer.foldl (fun res frame => res ^^^ simpleHash frame) 0).setWidth 32)
  else
    .error (.assertionFailed "num < 16")

/-- What a program asks of the runtime: a call, or `IJON_STRDIST(x,y)` with this call stack. -/
inductive Use
  | call (c : Call)
  | strdist (hash : BitVec 32) (stack : List (BitVec 64)) (x y : List Char)
  deriving DecidableEq, Repr

/-- The call that a use comes to. -/
def Use.toCall : Use → Except Fault Call
  | .call c => .ok c
  | .strdist hash stack x y => do
      let h ← hashstack stack
      return IJON_SET hash (hashint h (Ijon.strdist x y))

def Use.exec (u : Use) (σ : Thread) : Except Fault Thread := do
  let c ← u.toCall
  c.exec σ

/-- One use; `none` is the end of the process. -/
def useStep (σ : Thread) (u : Use) : Option Thread :=
  (u.exec σ).toOption

/-! ## What a call does -/

namespace Thread

variable (σ : Thread)

/-- The value of `__ijon_state` after a reduction. -/
def reduce (v : BitVec 32) : BitVec 32 :=
  BitVec.ofNat 32 (v.toNat % σ.layout.mapSize)

def nextLog (x : BitVec 32) : BitVec 32 :=
  (σ.stateLog <<< 8) ||| (x &&& 0xff)

/-- The index of the counter that an address means at this moment. -/
def counterIndex (addr : BitVec 32) : Nat :=
  (σ.state ^^^ addr).toNat % σ.layout.mapSize

def maxIndex (addr : BitVec 32) : Nat :=
  addr.toNat % σ.layout.maxMapSize

/-- Counter `i`. -/
def counter (i : Nat) : Ptr Object :=
  σ.layout.counterPtr.add i

/-- Max slot `i`. -/
def maxSlot (i : Nat) : Ptr Object :=
  σ.layout.maxPtr.add (8 * i)

/-- Change counter `i`. -/
def updateCounter (i : Nat) (f : BitVec 8 → BitVec 8) : Thread :=
  { σ with
    mem := σ.mem.set (σ.counter i) (f (σ.mem (σ.counter i).obj (σ.counter i).off)) }

/-- Raise max slot `i` to `val`, if it is below. -/
def raiseMax (i : Nat) (val : BitVec 64) : Thread :=
  if σ.mem.load64 (σ.maxSlot i) < val then
    { σ with mem := σ.mem.store64 (σ.maxSlot i) val }
  else σ

@[simp] theorem updateCounter_layout (i : Nat) (f : BitVec 8 → BitVec 8) :
    (σ.updateCounter i f).layout = σ.layout := rfl

@[simp] theorem updateCounter_state (i : Nat) (f : BitVec 8 → BitVec 8) :
    (σ.updateCounter i f).state = σ.state := rfl

@[simp] theorem updateCounter_stateLog (i : Nat) (f : BitVec 8 → BitVec 8) :
    (σ.updateCounter i f).stateLog = σ.stateLog := rfl

@[simp] theorem raiseMax_layout (i : Nat) (val : BitVec 64) :
    (σ.raiseMax i val).layout = σ.layout := by
  unfold raiseMax
  split <;> rfl

@[simp] theorem raiseMax_state (i : Nat) (val : BitVec 64) :
    (σ.raiseMax i val).state = σ.state := by
  unfold raiseMax
  split <;> rfl

@[simp] theorem raiseMax_stateLog (i : Nat) (val : BitVec 64) :
    (σ.raiseMax i val).stateLog = σ.stateLog := by
  unfold raiseMax
  split <;> rfl

end Thread

namespace Call

/-- The size by which a call divides. -/
def divisor (layout : Layout) : Call → Nat
  | .max _ _ | .min _ _ => layout.maxMapSize
  | _ => layout.mapSize

def effect (σ : Thread) : Call → Thread
  | .xorState val => { σ with state := σ.reduce (σ.state ^^^ val) }
  | .pushState x =>
      { σ with
        state := σ.reduce (σ.reduce (σ.state ^^^ σ.stateLog) ^^^ σ.nextLog x)
        stateLog := σ.nextLog x }
  | .max addr val => σ.raiseMax (σ.maxIndex addr) val
  | .min addr val => σ.raiseMax (σ.maxIndex addr) (0xffffffffffffffff - val)
  | .mapInc addr => σ.updateCounter (σ.counterIndex addr) (· + 1)
  | .mapSet addr => σ.updateCounter (σ.counterIndex addr) (· ||| 1)

end Call

namespace Thread

variable {σ : Thread}

theorem xorState_of_pos (h : 0 < σ.layout.mapSize) (val : BitVec 32) :
    σ.xorState val = .ok { σ with state := σ.reduce (σ.state ^^^ val) } := by
  rw [xorState, modulo_bind_of_pos _ h]
  rfl

theorem pushState_of_pos (h : 0 < σ.layout.mapSize) (x : BitVec 32) :
    σ.pushState x = .ok ((Call.pushState x).effect σ) := by
  rw [pushState, xorState_of_pos h]
  exact xorState_of_pos (σ := { σ with
    state := σ.reduce (σ.state ^^^ σ.stateLog), stateLog := σ.nextLog x }) h (σ.nextLog x)

theorem max_of_pos (h : 0 < σ.layout.maxMapSize) (addr : BitVec 32) (val : BitVec 64) :
    σ.max addr val = .ok (σ.raiseMax (σ.maxIndex addr) val) := by
  rw [Thread.max, modulo_bind_of_pos _ h, raiseMax]
  by_cases hlt : σ.mem.load64 (σ.maxSlot (σ.maxIndex addr)) < val
  · rw [if_pos hlt]
    exact if_pos hlt
  · rw [if_neg hlt]
    exact if_neg hlt

theorem mapInc_of_pos (h : 0 < σ.layout.mapSize) (addr : BitVec 32) :
    σ.mapInc addr = .ok (σ.updateCounter (σ.counterIndex addr) (· + 1)) := by
  rw [mapInc, modulo_bind_of_pos _ h]
  rfl

theorem mapSet_of_pos (h : 0 < σ.layout.mapSize) (addr : BitVec 32) :
    σ.mapSet addr = .ok (σ.updateCounter (σ.counterIndex addr) (· ||| 1)) := by
  rw [mapSet, modulo_bind_of_pos _ h]
  rfl

end Thread

namespace Call

variable {σ σ' : Thread} {c : Call}

/-- **Specification of the calls.** With a divisor there is the effect, and nothing fails. -/
theorem exec_of_pos (h : 0 < c.divisor σ.layout) : c.exec σ = .ok (c.effect σ) := by
  cases c with
  | xorState val => exact Thread.xorState_of_pos h val
  | pushState x => exact Thread.pushState_of_pos h x
  | max addr val => exact Thread.max_of_pos h addr val
  | min addr val => exact Thread.max_of_pos h addr (0xffffffffffffffff - val)
  | mapInc addr => exact Thread.mapInc_of_pos h addr
  | mapSet addr => exact Thread.mapSet_of_pos h addr

theorem exec_of_zero (h : c.divisor σ.layout = 0) : c.exec σ = .error .divisionByZero := by
  cases c with
  | xorState val => rw [exec, Thread.xorState, show σ.layout.mapSize = 0 from h, modulo_bind_zero]
  | pushState x =>
      rw [exec, Thread.pushState, Thread.xorState, show σ.layout.mapSize = 0 from h]
      rfl
  | max addr val => rw [exec, Thread.max, show σ.layout.maxMapSize = 0 from h, modulo_bind_zero]
  | min addr val =>
      rw [exec, Thread.min, Thread.max, show σ.layout.maxMapSize = 0 from h, modulo_bind_zero]
  | mapInc addr => rw [exec, Thread.mapInc, show σ.layout.mapSize = 0 from h, modulo_bind_zero]
  | mapSet addr => rw [exec, Thread.mapSet, show σ.layout.mapSize = 0 from h, modulo_bind_zero]

@[simp] theorem effect_layout : (c.effect σ).layout = σ.layout := by
  cases c <;> simp [effect]

/-- A call divides by nothing else, so it succeeds or divides by zero. -/
theorem step_eq_some : step σ c = some σ' ↔ 0 < c.divisor σ.layout ∧ σ' = c.effect σ := by
  rcases Nat.eq_zero_or_pos (c.divisor σ.layout) with hzero | hpos
  · simp [step, exec_of_zero hzero, hzero, Except.toOption]
  · simp [step, exec_of_pos hpos, hpos, Except.toOption, eq_comm]

end Call

open Transition (run)

@[simp] theorem foldl_layout (cs : List Call) (σ : Thread) :
    (cs.foldl Call.effect σ).layout = σ.layout := by
  induction cs generalizing σ with
  | nil => rfl
  | cons c cs ih => rw [List.foldl_cons, ih, Call.effect_layout]

/-- **Runs.** With both sizes positive a run is the effects of its calls one after the other. -/
theorem run_eq_foldl {σ : Thread} {cs : List Call} (h : ∀ c ∈ cs, 0 < c.divisor σ.layout) :
    run step σ cs = some (cs.foldl Call.effect σ) := by
  induction cs generalizing σ with
  | nil => rfl
  | cons c cs ih =>
      have hstep : step σ c = some (c.effect σ) :=
        Call.step_eq_some.2 ⟨h c List.mem_cons_self, rfl⟩
      have hrest : ∀ c' ∈ cs, 0 < c'.divisor (c.effect σ).layout := by
        intro c' hc'
        rw [Call.effect_layout]
        exact h c' (List.mem_cons_of_mem _ hc')
      rw [run, hstep, Option.bind_some, ih hrest, List.foldl_cons]

end Ijon
end Runtime
end FuzzufCc
