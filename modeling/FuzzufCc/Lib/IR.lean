import Mathlib.Algebra.Order.Ring.Int
import Mathlib.Data.List.Basic

/-!
# IR — a small LLVM-like intermediate representation

Straight-line code over 1-, 8- and 32-bit integers and pointers.  A pointer is a memory object
together with a 64-bit byte offset, so that two pointers into different objects never alias.
This file defines:

* values, instructions and their execution `Inst.exec` on a machine state;
* the log of byte stores, from which bounds and frame facts are read off;
* `Builder`, the state monad in which a pass emits code, one fresh register per result.

Memory objects are an arbitrary type `O` and named globals hold one typed value each.
-/

namespace IR

/-- A byte address: an object and an offset in it. -/
structure Ptr (O : Type) where
  obj : O
  off : BitVec 64
  deriving DecidableEq, Repr

/-- First-class values. -/
inductive Value (O : Type)
  | i1 (v : Bool)
  | i8 (v : BitVec 8)
  | i32 (v : BitVec 32)
  | ptr (p : Ptr O)
  deriving DecidableEq, Repr

/-- The types of the values. -/
inductive Ty
  | i1
  | i8
  | i32
  | ptr
  deriving DecidableEq, Repr

/-- What an instruction reads: a numbered SSA register or an integer constant. -/
inductive Operand
  | reg (r : Nat)
  | const8 (v : BitVec 8)
  | const32 (v : BitVec 32)
  deriving DecidableEq, Repr

/-- Where a load or a store goes: a named global or the target of a pointer register. -/
inductive Addr
  | global (name : String)
  | at (r : Operand)
  deriving DecidableEq, Repr

inductive BinOp
  | add
  | xor
  deriving DecidableEq, Repr

inductive Pred
  | eq
  | ne
  deriving DecidableEq, Repr

inductive Inst
  | load (ty : Ty) (dst : Nat) (addr : Addr)
  | store (val : Operand) (addr : Addr)
  | bin (op : BinOp) (dst : Nat) (a b : Operand)
  | icmp (p : Pred) (dst : Nat) (a b : Operand)
  | zext (ty : Ty) (dst : Nat) (a : Operand)
  | gep (dst : Nat) (base idx : Operand)
  deriving DecidableEq, Repr

/-! ## Machine states -/

variable {O : Type}

/-- Byte memory. -/
abbrev Mem (O : Type) := O → BitVec 64 → BitVec 8

/-- Registers, named globals, byte memory and the log of byte stores, oldest first. -/
structure State (O : Type) where
  regs : Nat → Option (Value O)
  globals : String → Option (Value O)
  mem : Mem O
  stores : List (Ptr O)

/-- The value of an operand; an undefined register has none. -/
def Operand.eval (s : State O) : Operand → Option (Value O)
  | .reg r => s.regs r
  | .const8 v => some (.i8 v)
  | .const32 v => some (.i32 v)

/-- Define a register. -/
def State.setReg (s : State O) (r : Nat) (v : Value O) : State O :=
  { s with regs := Function.update s.regs r (some v) }

/-- Every register the operand reads is numbered below `n`. -/
def Operand.Below (n : Nat) : Operand → Prop
  | .reg r => r < n
  | _ => True

/-- Store to a named global. -/
def State.setGlobal (s : State O) (g : String) (v : Value O) : State O :=
  { s with globals := Function.update s.globals g (some v) }

section StateLemmas

variable (s : State O) (r : Nat) (v : Value O) (g : String)

@[simp] theorem State.setReg_regs_self : (s.setReg r v).regs r = some v := by
  simp [State.setReg]

theorem State.setReg_regs_of_ne {r' : Nat} (h : r' ≠ r) : (s.setReg r v).regs r' = s.regs r' := by
  simp [State.setReg, Function.update_of_ne h]

theorem Operand.eval_setReg {a : Operand} {n : Nat} (h : a.Below n) (hr : n ≤ r) :
    a.eval (s.setReg r v) = a.eval s := by
  cases a with
  | reg r' => exact s.setReg_regs_of_ne r v (Nat.ne_of_lt (Nat.lt_of_lt_of_le h hr))
  | const8 _ => rfl
  | const32 _ => rfl

@[simp] theorem State.setReg_globals : (s.setReg r v).globals = s.globals := rfl
@[simp] theorem State.setReg_mem : (s.setReg r v).mem = s.mem := rfl
@[simp] theorem State.setReg_stores : (s.setReg r v).stores = s.stores := rfl

@[simp] theorem State.setGlobal_regs : (s.setGlobal g v).regs = s.regs := rfl
@[simp] theorem State.setGlobal_mem : (s.setGlobal g v).mem = s.mem := rfl
@[simp] theorem State.setGlobal_stores : (s.setGlobal g v).stores = s.stores := rfl

@[simp] theorem State.setGlobal_globals_self : (s.setGlobal g v).globals g = some v := by
  simp [State.setGlobal]

theorem State.setGlobal_globals_of_ne {g' : String} (h : g' ≠ g) :
    (s.setGlobal g v).globals g' = s.globals g' := by
  simp [State.setGlobal, Function.update_of_ne h]

end StateLemmas

section ByteStores

variable [DecidableEq O] (s : State O) (p : Ptr O) (b : BitVec 8)

/-- Replace one byte. -/
def Mem.set (m : Mem O) (p : Ptr O) (v : BitVec 8) : Mem O :=
  fun o a => if o = p.obj ∧ a = p.off then v else m o a

@[simp] theorem Mem.set_same (m : Mem O) : m.set p b p.obj p.off = b := by
  simp [Mem.set]

theorem Mem.set_of_ne (m : Mem O) {o : O} {a : BitVec 64} (h : Ptr.mk o a ≠ p) :
    m.set p b o a = m o a := by
  have hne : ¬ (o = p.obj ∧ a = p.off) := by
    rintro ⟨rfl, rfl⟩
    exact h rfl
  simp [Mem.set, hne]

/-- Store one byte and log the address. -/
def State.storeByte : State O :=
  { s with mem := s.mem.set p b, stores := s.stores ++ [p] }

@[simp] theorem State.storeByte_globals : (s.storeByte p b).globals = s.globals := rfl
@[simp] theorem State.storeByte_mem : (s.storeByte p b).mem = s.mem.set p b := rfl
@[simp] theorem State.storeByte_stores : (s.storeByte p b).stores = s.stores ++ [p] := rfl

end ByteStores

/-! ## Execution -/

def BinOp.eval : BinOp → Value O → Value O → Option (Value O)
  | .add, .i8 a, .i8 b => some (.i8 (a + b))
  | .add, .i32 a, .i32 b => some (.i32 (a + b))
  | .xor, .i8 a, .i8 b => some (.i8 (a ^^^ b))
  | .xor, .i32 a, .i32 b => some (.i32 (a ^^^ b))
  | _, _, _ => none

def Pred.eval : Pred → Value O → Value O → Option (Value O)
  | .eq, .i8 a, .i8 b => some (.i1 (a == b))
  | .ne, .i8 a, .i8 b => some (.i1 (a != b))
  | .eq, .i32 a, .i32 b => some (.i1 (a == b))
  | .ne, .i32 a, .i32 b => some (.i1 (a != b))
  | _, _, _ => none

/-- Zero extension to a wider integer type. -/
def Value.zext : Ty → Value O → Option (Value O)
  | .i8, .i1 b => some (.i8 (if b then 1 else 0))
  | .i32, .i1 b => some (.i32 (if b then 1 else 0))
  | .i32, .i8 v => some (.i32 (v.setWidth 32))
  | _, _ => none

/-- `getelementptr i8`: the 32-bit index is sign extended to the pointer width. -/
def Value.gep : Value O → Value O → Option (Value O)
  | .ptr p, .i32 i => some (.ptr { p with off := p.off + i.signExtend 64 })
  | _, _ => none

/-- The type of a value. -/
def Value.ty : Value O → Ty
  | .i1 _ => .i1
  | .i8 _ => .i8
  | .i32 _ => .i32
  | .ptr _ => .ptr

variable [DecidableEq O]

/-- One instruction.  `none` is an ill-typed or undefined instruction. -/
def Inst.exec (s : State O) : Inst → Option (State O)
  | .load ty dst (.global g) => do
      let v ← s.globals g
      if v.ty = ty then some (s.setReg dst v) else none
  | .load ty dst (.at p) => do
      match ty, ← p.eval s with
      | .i8, .ptr p => some (s.setReg dst (.i8 (s.mem p.obj p.off)))
      | _, _ => none
  | .store val (.global g) => do
      some (s.setGlobal g (← val.eval s))
  | .store val (.at p) => do
      match ← val.eval s, ← p.eval s with
      | .i8 v, .ptr p => some (s.storeByte p v)
      | _, _ => none
  | .bin op dst a b => do
      some (s.setReg dst (← op.eval (← a.eval s) (← b.eval s)))
  | .icmp p dst a b => do
      some (s.setReg dst (← p.eval (← a.eval s) (← b.eval s)))
  | .zext ty dst a => do
      some (s.setReg dst (← (← a.eval s).zext ty))
  | .gep dst base idx => do
      some (s.setReg dst (← (← base.eval s).gep (← idx.eval s)))

/-- A straight-line program. -/
def execAll (s : State O) : List Inst → Option (State O)
  | [] => some s
  | i :: is => (i.exec s).bind fun s' => execAll s' is

theorem execAll_append (s : State O) (is js : List Inst) :
    execAll s (is ++ js) = (execAll s is).bind fun s' => execAll s' js := by
  induction is generalizing s with
  | nil => rfl
  | cons i is ih =>
      simp only [List.cons_append, execAll]
      cases i.exec s with
      | none => rfl
      | some s' => exact ih s'

/-! ### What an instruction may write -/

/-- The register that the instruction defines. -/
def Inst.dst : Inst → Option Nat
  | .load _ dst _ => some dst
  | .store _ _ => none
  | .bin _ dst _ _ => some dst
  | .icmp _ dst _ _ => some dst
  | .zext _ dst _ => some dst
  | .gep dst _ _ => some dst

def Inst.storesTo (g : String) : Inst → Bool
  | .store _ (.global g') => g' == g
  | _ => false

/-- An instruction defines its register, or stores to its global, or stores a byte. -/
theorem Inst.exec_cases {i : Inst} {s s' : State O} (h : i.exec s = some s') :
    (∃ r v, i.dst = some r ∧ s' = s.setReg r v) ∨
      (∃ g v, i.storesTo g ∧ s' = s.setGlobal g v) ∨ ∃ p b, s' = s.storeByte p b := by
  cases i with
  | load ty dst addr =>
      cases addr with
      | global g' =>
          obtain ⟨v, -, hv⟩ := Option.bind_eq_some_iff.1 h
          split at hv
          · exact .inl ⟨dst, v, rfl, (Option.some.inj hv).symm⟩
          · cases hv
      | «at» p =>
          obtain ⟨v, -, hv⟩ := Option.bind_eq_some_iff.1 h
          split at hv
          · exact .inl ⟨dst, _, rfl, (Option.some.inj hv).symm⟩
          · cases hv
  | store val addr =>
      cases addr with
      | global g' =>
          obtain ⟨v, -, hv⟩ := Option.bind_eq_some_iff.1 h
          exact .inr (.inl ⟨g', v, beq_self_eq_true g', (Option.some.inj hv).symm⟩)
      | «at» p =>
          obtain ⟨v, -, hv⟩ := Option.bind_eq_some_iff.1 h
          obtain ⟨q, -, hq⟩ := Option.bind_eq_some_iff.1 hv
          split at hq
          · exact .inr (.inr ⟨_, _, (Option.some.inj hq).symm⟩)
          · cases hq
  | bin op dst a b =>
      obtain ⟨x, -, hx⟩ := Option.bind_eq_some_iff.1 h
      obtain ⟨y, -, hy⟩ := Option.bind_eq_some_iff.1 hx
      obtain ⟨v, -, hv⟩ := Option.bind_eq_some_iff.1 hy
      exact .inl ⟨dst, v, rfl, (Option.some.inj hv).symm⟩
  | icmp p dst a b =>
      obtain ⟨x, -, hx⟩ := Option.bind_eq_some_iff.1 h
      obtain ⟨y, -, hy⟩ := Option.bind_eq_some_iff.1 hx
      obtain ⟨v, -, hv⟩ := Option.bind_eq_some_iff.1 hy
      exact .inl ⟨dst, v, rfl, (Option.some.inj hv).symm⟩
  | zext ty dst a =>
      obtain ⟨x, -, hx⟩ := Option.bind_eq_some_iff.1 h
      obtain ⟨v, -, hv⟩ := Option.bind_eq_some_iff.1 hx
      exact .inl ⟨dst, v, rfl, (Option.some.inj hv).symm⟩
  | gep dst base idx =>
      obtain ⟨x, -, hx⟩ := Option.bind_eq_some_iff.1 h
      obtain ⟨y, -, hy⟩ := Option.bind_eq_some_iff.1 hx
      obtain ⟨v, -, hv⟩ := Option.bind_eq_some_iff.1 hy
      exact .inl ⟨dst, v, rfl, (Option.some.inj hv).symm⟩

theorem Inst.exec_globals {i : Inst} {s s' : State O} {g : String} (hg : i.storesTo g = false)
    (h : i.exec s = some s') : s'.globals g = s.globals g := by
  rcases Inst.exec_cases h with ⟨r, v, -, rfl⟩ | ⟨g', v, hg', rfl⟩ | ⟨p, b, rfl⟩
  · rfl
  · have hne : g ≠ g' := by
      rintro rfl
      rw [hg] at hg'
      cases hg'
    exact s.setGlobal_globals_of_ne v g' hne
  · rfl

theorem Inst.exec_regs {i : Inst} {s s' : State O} {r : Nat} (hr : i.dst ≠ some r)
    (h : i.exec s = some s') : s'.regs r = s.regs r := by
  rcases Inst.exec_cases h with ⟨r', v, hr', rfl⟩ | ⟨g, v, -, rfl⟩ | ⟨p, b, rfl⟩
  · have hne : r ≠ r' := by
      rintro rfl
      exact hr hr'
    exact s.setReg_regs_of_ne r' v hne
  · rfl
  · rfl

/-- A program changes only the globals that it stores to. -/
theorem execAll_globals {is : List Inst} {s s' : State O} {g : String}
    (hg : ∀ i ∈ is, i.storesTo g = false) :
    execAll s is = some s' → s'.globals g = s.globals g := by
  induction is generalizing s with
  | nil =>
      intro h
      obtain rfl := Option.some.inj h
      rfl
  | cons i is ih =>
      intro h
      obtain ⟨s₁, hi, his⟩ := Option.bind_eq_some_iff.1 h
      rw [ih (fun j hj => hg j (List.mem_cons_of_mem _ hj)) his]
      exact Inst.exec_globals (hg i List.mem_cons_self) hi

/-- A program changes only the registers that it defines. -/
theorem execAll_regs {is : List Inst} {s s' : State O} {r : Nat} (hr : ∀ i ∈ is, i.dst ≠ some r) :
    execAll s is = some s' → s'.regs r = s.regs r := by
  induction is generalizing s with
  | nil =>
      intro h
      obtain rfl := Option.some.inj h
      rfl
  | cons i is ih =>
      intro h
      obtain ⟨s₁, hi, his⟩ := Option.bind_eq_some_iff.1 h
      rw [ih (fun j hj => hr j (List.mem_cons_of_mem _ hj)) his]
      exact Inst.exec_regs (hr i List.mem_cons_self) hi

/-! ## Emitting code -/

/-- The next free register and the code emitted so far. -/
structure BuilderState where
  next : Nat
  insts : List Inst
  deriving DecidableEq, Repr

abbrev Builder := StateM BuilderState

namespace Builder

theorem bind_apply {α β : Type} (b : Builder α) (f : α → Builder β) (st : BuilderState) :
    (b >>= f) st = f (b st).1 (b st).2 :=
  rfl

/-- Append an instruction that defines a fresh register. -/
def define (inst : Nat → Inst) : Builder Operand := fun st =>
  (.reg st.next, { next := st.next + 1, insts := st.insts ++ [inst st.next] })

def createLoad (ty : Ty) (addr : Addr) : Builder Operand :=
  define fun r => .load ty r addr

def createStore (val : Operand) (addr : Addr) : Builder Unit := fun st =>
  ((), { st with insts := st.insts ++ [.store val addr] })

def createAdd (a b : Operand) : Builder Operand :=
  define fun r => .bin .add r a b

def createXor (a b : Operand) : Builder Operand :=
  define fun r => .bin .xor r a b

def createICmpEQ (a b : Operand) : Builder Operand :=
  define fun r => .icmp .eq r a b

def createICmpNE (a b : Operand) : Builder Operand :=
  define fun r => .icmp .ne r a b

/-- Extending a value to the type it already has emits nothing. -/
def createZExt (a : Operand) (src dst : Ty) : Builder Operand :=
  if src = dst then pure a else define fun r => .zext dst r a

def createGEP (base idx : Operand) : Builder Operand :=
  define fun r => .gep r base idx

/-- The code a builder emits into an empty block. -/
def emit (b : Builder Unit) : List Inst :=
  (b { next := 0, insts := [] }).2.insts

end Builder

end IR
