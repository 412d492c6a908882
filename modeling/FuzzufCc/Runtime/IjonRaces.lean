import FuzzufCc.Lib.SharedCell
import FuzzufCc.Runtime.IjonCampaign

/-!
# IjonRaces — the IJON calls of many threads

`__ijon_state` and `__ijon_state_log` are thread-local, but the counters and the max slots belong to
all threads, and nothing locks them.  A call that changes one of them loads it first and stores to
it afterwards; each of the two is one step here, and between them other threads can load the same
value.
-/

namespace FuzzufCc

open Libc IR Transition SharedCell

namespace Runtime
namespace Ijon

/-! ## A call in two accesses -/

/-- A store that a call has still to make. -/
inductive Store
  | counter (i : Nat) (b : BitVec 8)
  | slot (i : Nat) (val : BitVec 64)
  deriving DecidableEq, Repr

def Store.exec (layout : Layout) (mem : Mem Object) : Store → Mem Object
  | .counter i b => mem.set (layout.counterPtr.add i) b
  | .slot i val => mem.store64 (layout.maxPtr.add (8 * i)) val

namespace Thread

variable (σ : Thread)

/-- The load of `__ijon_counter_ptr[(__ijon_state ^ addr) % map_size]`. -/
def loadCounter (addr : BitVec 32) (f : BitVec 8 → BitVec 8) :
    Except Fault (Thread × Option Store) := do
  let i ← modulo (σ.state ^^^ addr).toNat σ.layout.mapSize
  let cell := σ.layout.counterPtr.add i
  return (σ, some (.counter i (f (σ.mem cell.obj cell.off))))

/-- The load of `__ijon_max_ptr[addr % max_map_size]`, and the comparison. -/
def loadSlot (addr : BitVec 32) (val : BitVec 64) : Except Fault (Thread × Option Store) := do
  let i ← modulo addr.toNat σ.layout.maxMapSize
  let slot := σ.layout.maxPtr.add (8 * i)
  return (σ, if σ.mem.load64 slot < val then some (.slot i val) else none)

def commit : Option Store → Thread
  | none => σ
  | some store => { σ with mem := store.exec σ.layout σ.mem }

/-- What is left of a change of a counter after its load. -/
def counterStore (addr : BitVec 32) (f : BitVec 8 → BitVec 8) : Option Store :=
  some (.counter (σ.counterIndex addr)
    (f (σ.mem (σ.counter (σ.counterIndex addr)).obj (σ.counter (σ.counterIndex addr)).off)))

/-- What is left of an offer to a max slot after the comparison. -/
def slotStore (addr : BitVec 32) (val : BitVec 64) : Option Store :=
  if σ.mem.load64 (σ.maxSlot (σ.maxIndex addr)) < val then some (.slot (σ.maxIndex addr) val)
  else none

variable {σ}

theorem loadCounter_of_pos (h : 0 < σ.layout.mapSize) (addr : BitVec 32)
    (f : BitVec 8 → BitVec 8) : σ.loadCounter addr f = .ok (σ, σ.counterStore addr f) := by
  rw [loadCounter, modulo_bind_of_pos _ h]
  rfl

theorem loadSlot_of_pos (h : 0 < σ.layout.maxMapSize) (addr : BitVec 32) (val : BitVec 64) :
    σ.loadSlot addr val = .ok (σ, σ.slotStore addr val) := by
  rw [loadSlot, modulo_bind_of_pos _ h]
  rfl

theorem loadCounter_of_zero (h : σ.layout.mapSize = 0) (addr : BitVec 32)
    (f : BitVec 8 → BitVec 8) : σ.loadCounter addr f = .error .divisionByZero := by
  rw [loadCounter, h, modulo_bind_zero]

theorem loadSlot_of_zero (h : σ.layout.maxMapSize = 0) (addr : BitVec 32) (val : BitVec 64) :
    σ.loadSlot addr val = .error .divisionByZero := by
  rw [loadSlot, h, modulo_bind_zero]

theorem raiseMax_eq_commit (addr : BitVec 32) (val : BitVec 64) :
    σ.raiseMax (σ.maxIndex addr) val = σ.commit (σ.slotStore addr val) := by
  unfold raiseMax slotStore
  split <;> rfl

end Thread

namespace Call

/-- A call up to its store. -/
def load : Call → Thread → Except Fault (Thread × Option Store)
  | .xorState val, σ => do return (← σ.xorState val, none)
  | .pushState x, σ => do return (← σ.pushState x, none)
  | .max addr val, σ => σ.loadSlot addr val
  | .min addr val, σ => σ.loadSlot addr (0xffffffffffffffff - val)
  | .mapInc addr, σ => σ.loadCounter addr (· + 1)
  | .mapSet addr, σ => σ.loadCounter addr (· ||| 1)

/-- What a call leaves to be stored. -/
def stores (σ : Thread) : Call → Option Store
  | .max addr val => σ.slotStore addr val
  | .min addr val => σ.slotStore addr (0xffffffffffffffff - val)
  | .mapInc addr => σ.counterStore addr (· + 1)
  | .mapSet addr => σ.counterStore addr (· ||| 1)
  | _ => none

/-- What a call has done to its thread before it stores. -/
def loaded (σ : Thread) : Call → Thread
  | .xorState val => (xorState val).effect σ
  | .pushState x => (pushState x).effect σ
  | _ => σ

variable {σ : Thread} {c : Call}

/-- **Specification of the first half.** -/
theorem load_of_pos (h : 0 < c.divisor σ.layout) : c.load σ = .ok (c.loaded σ, c.stores σ) := by
  cases c with
  | xorState val =>
      rw [load, Thread.xorState_of_pos h]
      rfl
  | pushState x =>
      rw [load, Thread.pushState_of_pos h]
      rfl
  | max addr val => exact Thread.loadSlot_of_pos h addr val
  | min addr val => exact Thread.loadSlot_of_pos h addr _
  | mapInc addr => exact Thread.loadCounter_of_pos h addr (· + 1)
  | mapSet addr => exact Thread.loadCounter_of_pos h addr (· ||| 1)

theorem load_of_zero (h : c.divisor σ.layout = 0) : c.load σ = .error .divisionByZero := by
  cases c with
  | xorState val =>
      rw [load, Thread.xorState, show σ.layout.mapSize = 0 from h, modulo_bind_zero]
      rfl
  | pushState x =>
      rw [load, Thread.pushState, Thread.xorState, show σ.layout.mapSize = 0 from h]
      rfl
  | max addr val => exact Thread.loadSlot_of_zero h addr val
  | min addr val => exact Thread.loadSlot_of_zero h addr _
  | mapInc addr => exact Thread.loadCounter_of_zero h addr (· + 1)
  | mapSet addr => exact Thread.loadCounter_of_zero h addr (· ||| 1)

theorem effect_eq_commit (σ : Thread) (c : Call) :
    c.effect σ = (c.loaded σ).commit (c.stores σ) := by
  cases c with
  | xorState val => rfl
  | pushState x => rfl
  | max addr val => exact Thread.raiseMax_eq_commit addr val
  | min addr val => exact Thread.raiseMax_eq_commit addr _
  | mapInc addr => rfl
  | mapSet addr => rfl

/-- The two words of the thread are those of the whole call. -/
theorem loaded_state (σ : Thread) (c : Call) :
    (c.loaded σ).state = (c.effect σ).state ∧ (c.loaded σ).stateLog = (c.effect σ).stateLog := by
  cases c <;> simp [loaded, effect]

/-- A call that nobody interrupts is its load and its store. -/
theorem exec_eq_load_commit (σ : Thread) (c : Call) :
    c.exec σ = (c.load σ).map fun r => r.1.commit r.2 := by
  rcases Nat.eq_zero_or_pos (c.divisor σ.layout) with hzero | hpos
  · rw [exec_of_zero hzero, load_of_zero hzero]
    rfl
  · rw [exec_of_pos hpos, load_of_pos hpos, effect_eq_commit]
    rfl

end Call

/-! ## Threads -/

/-- The words of one thread, and a store that it has still to make. -/
structure Local where
  state : BitVec 32
  stateLog : BitVec 32
  pending : Option Store

/-- The threads that run with one layout. -/
structure Threads (T : Type) where
  layout : Layout
  mem : Mem Object
  locals : T → Local

/-- A thread makes a call up to its store, or makes the store. -/
inductive Turn (T : Type)
  | call (t : T) (c : Call)
  | store (t : T)

namespace Threads

variable {T : Type}

/-- No thread has made a call yet. -/
def start (layout : Layout) (mem : Mem Object) : Threads T where
  layout := layout
  mem := mem
  locals _ := { state := 0, stateLog := 0, pending := none }

/-- What a thread sees. -/
def view (w : Threads T) (t : T) : Thread where
  layout := w.layout
  mem := w.mem
  state := (w.locals t).state
  stateLog := (w.locals t).stateLog

variable [DecidableEq T] (w : Threads T)

/-- What a thread leaves. -/
def leave (t : T) (σ : Thread) (pending : Option Store) : Threads T where
  layout := w.layout
  mem := σ.mem
  locals := Function.update w.locals t ⟨σ.state, σ.stateLog, pending⟩

/-- One turn; `none` is a turn that cannot be, or the end of the process. -/
def step : Turn T → Option (Threads T)
  | .call t c =>
      match (w.locals t).pending, c.load (w.view t) with
      | none, .ok (σ, pending) => some (w.leave t σ pending)
      | _, _ => none
  | .store t =>
      match (w.locals t).pending with
      | none => none
      | some store => some (w.leave t ((w.view t).commit (some store)) none)

variable {w} {w' : Threads T} {t : T} {c : Call}

theorem step_call (h : w.step (.call t c) = some w') :
    (w.locals t).pending = none ∧ 0 < c.divisor w.layout ∧
      w' = w.leave t (c.loaded (w.view t)) (c.stores (w.view t)) := by
  have hlayout : (w.view t).layout = w.layout := rfl
  simp only [step] at h
  rcases Nat.eq_zero_or_pos (c.divisor w.layout) with hzero | hpos
  · rw [Call.load_of_zero (hlayout ▸ hzero)] at h
    cases hpending : (w.locals t).pending <;> simp [hpending] at h
  · rw [Call.load_of_pos (hlayout ▸ hpos)] at h
    cases hpending : (w.locals t).pending with
    | some store => simp [hpending] at h
    | none =>
        simp only [hpending, Option.some.injEq] at h
        exact ⟨rfl, hpos, h.symm⟩

theorem step_store (h : w.step (.store t) = some w') :
    ∃ store, (w.locals t).pending = some store ∧
      w' = w.leave t ((w.view t).commit (some store)) none := by
  simp only [step] at h
  split at h
  · cases h
  · rename_i store hstore
    exact ⟨store, hstore, (Option.some.inj h).symm⟩

end Threads

/-! ## One cell -/

/-- The indices that the calls compute are in range. -/
def Store.InRange (layout : Layout) : Store → Prop
  | .counter i _ => i < layout.mapSize
  | .slot i _ => i < layout.maxMapSize

def Store.onCounter (i : Nat) : Store → Option (BitVec 8)
  | .counter j b => if j = i then some b else none
  | .slot _ _ => none

def Store.onSlot (i : Nat) : Store → Option Nat
  | .counter _ _ => none
  | .slot j val => if j = i then some val.toNat else none

/-- Whether a call made in this state changes counter `i`, out of `size`. -/
def Call.hits (size i : Nat) (state : BitVec 32) : Call → Bool
  | .mapInc addr | .mapSet addr => decide ((state ^^^ addr).toNat % size = i)
  | _ => false

/-- What a call, with the state it is made in, stores to counter `i`. -/
def counterUpd (size i : Nat) (sc : BitVec 32 × Call) (b : BitVec 8) : Option (BitVec 8) :=
  if sc.2.hits size i sc.1 then some (sc.2.onCounter size i sc.1 b) else none

/-- What a call stores to max slot `i`. -/
def slotUpd (slots i : Nat) (sc : BitVec 32 × Call) (v : Nat) : Option Nat :=
  (sc.2.offer slots i).filter fun val => v < val

/-- `value` is all that the calls see of a memory, `seen` what they see of a store, and `upd` what
they make of that. -/
structure Observes {V : Type} (layout : Layout) (value : Mem Object → V) (seen : Store → Option V)
    (upd : BitVec 32 × Call → V → Option V) : Prop where
  load : ∀ σ c, σ.layout = layout → 0 < c.divisor layout →
    (c.stores σ).bind seen = upd (σ.state, c) (value σ.mem)
  store : ∀ mem (s : Store), s.InRange layout →
    value (s.exec layout mem) = (seen s).getD (value mem)

theorem Call.stores_inRange {σ : Thread} {c : Call} {s : Store} (h : 0 < c.divisor σ.layout)
    (hs : s ∈ c.stores σ) : s.InRange σ.layout := by
  have hcounter : ∀ addr f, s ∈ σ.counterStore addr f → 0 < σ.layout.mapSize →
      s.InRange σ.layout := by
    intro addr f hs hpos
    obtain rfl := Option.some.inj hs
    exact Nat.mod_lt _ hpos
  have hslot : ∀ addr val, s ∈ σ.slotStore addr val → 0 < σ.layout.maxMapSize →
      s.InRange σ.layout := by
    intro addr val hs hpos
    unfold Thread.slotStore at hs
    split at hs
    · obtain rfl := Option.some.inj hs
      exact Nat.mod_lt _ hpos
    · cases hs
  cases c with
  | xorState val => cases hs
  | pushState x => cases hs
  | max addr val => exact hslot _ _ hs h
  | min addr val => exact hslot _ _ hs h
  | mapInc addr => exact hcounter addr (· + 1) hs h
  | mapSet addr => exact hcounter addr (· ||| 1) hs h

def Layout.counterValue (layout : Layout) (i : Nat) (mem : Mem Object) : BitVec 8 :=
  mem (layout.counterPtr.add i).obj (layout.counterPtr.add i).off

def Layout.slotValue (layout : Layout) (i : Nat) (mem : Mem Object) : Nat :=
  (mem.load64 (layout.maxPtr.add (8 * i))).toNat

section Observations

variable {layout : Layout} {i : Nat}

theorem counterStore_onCounter (σ : Thread) (addr : BitVec 32) (f : BitVec 8 → BitVec 8) :
    (σ.counterStore addr f).bind (Store.onCounter i) =
      if σ.counterIndex addr = i then some (f (σ.layout.counterValue i σ.mem)) else none := by
  by_cases hindex : σ.counterIndex addr = i
  · subst hindex
    simp [Thread.counterStore, Store.onCounter, Layout.counterValue, Thread.counter]
  · simp [Thread.counterStore, Store.onCounter, hindex]

theorem slotStore_onCounter (σ : Thread) (addr : BitVec 32) (val : BitVec 64) :
    (σ.slotStore addr val).bind (Store.onCounter i) = none := by
  unfold Thread.slotStore
  split <;> rfl

theorem counterUpd_mapInc (size : Nat) (state addr : BitVec 32) (b : BitVec 8) :
    counterUpd size i (state, .mapInc addr) b =
      if (state ^^^ addr).toNat % size = i then some (b + 1) else none := by
  by_cases hindex : (state ^^^ addr).toNat % size = i
  · simp only [counterUpd, Call.hits, Call.onCounter, hindex, decide_true, if_true]
  · simp only [counterUpd, Call.hits, hindex, decide_false, Bool.false_eq_true, if_false]

theorem counterUpd_mapSet (size : Nat) (state addr : BitVec 32) (b : BitVec 8) :
    counterUpd size i (state, .mapSet addr) b =
      if (state ^^^ addr).toNat % size = i then some (b ||| 1) else none := by
  by_cases hindex : (state ^^^ addr).toNat % size = i
  · simp only [counterUpd, Call.hits, Call.onCounter, hindex, decide_true, if_true]
  · simp only [counterUpd, Call.hits, hindex, decide_false, Bool.false_eq_true, if_false]

theorem slotStore_onSlot (σ : Thread) (addr : BitVec 32) (val : BitVec 64) :
    (σ.slotStore addr val).bind (Store.onSlot i) =
      (if σ.maxIndex addr = i then some val.toNat else none).filter
        fun v => σ.layout.slotValue i σ.mem < v := by
  by_cases hindex : σ.maxIndex addr = i
  · subst hindex
    by_cases hlt : σ.mem.load64 (σ.maxSlot (σ.maxIndex addr)) < val
    · have hlt' : σ.layout.slotValue (σ.maxIndex addr) σ.mem < val.toNat := BitVec.lt_def.1 hlt
      simp [Thread.slotStore, Store.onSlot, hlt, hlt', Option.filter]
    · have hlt' : ¬ σ.layout.slotValue (σ.maxIndex addr) σ.mem < val.toNat :=
        fun h => hlt (BitVec.lt_def.2 h)
      simp [Thread.slotStore, hlt, hlt', Option.filter]
  · unfold Thread.slotStore
    split <;> simp [Store.onSlot, hindex]

theorem counterObserves (hapart : Apart layout) (hi : i < layout.mapSize) :
    Observes layout (layout.counterValue i) (Store.onCounter i) (counterUpd layout.mapSize i) := by
  refine ⟨?_, fun mem s hs => ?_⟩
  · rintro σ c rfl -
    cases c with
    | xorState val => rfl
    | pushState x => rfl
    | max addr val => exact slotStore_onCounter σ addr val
    | min addr val => exact slotStore_onCounter σ addr _
    | mapInc addr =>
        rw [counterUpd_mapInc]
        exact counterStore_onCounter σ addr (· + 1)
    | mapSet addr =>
        rw [counterUpd_mapSet]
        exact counterStore_onCounter σ addr (· ||| 1)
  · cases s with
    | counter j b =>
        have hupdate := updateCounter_counter (σ := Thread.start layout mem) (f := fun _ => b)
          hapart hs hi
        refine hupdate.trans ?_
        by_cases hj : j = i
        · rw [if_pos hj, Store.onCounter, if_pos hj, Option.getD_some]
        · rw [if_neg hj, Store.onCounter, if_neg hj]
          rfl
    | slot j val =>
        exact Mem.store64_of_not_within
          (counter_not_within_slot (σ := Thread.start layout mem) hapart hi hs) val

theorem slotObserves (hapart : Apart layout) (hi : i < layout.maxMapSize) :
    Observes layout (layout.slotValue i) (Store.onSlot i) (slotUpd layout.maxMapSize i) := by
  have hslots := hapart.slots
  refine ⟨?_, fun mem s hs => ?_⟩
  · rintro σ c rfl -
    cases c with
    | xorState val => rfl
    | pushState x => rfl
    | max addr val => exact slotStore_onSlot σ addr val
    | min addr val =>
        refine (slotStore_onSlot σ addr _).trans ?_
        rw [toNat_flip]
        rfl
    | mapInc addr => rfl
    | mapSet addr => rfl
  · cases s with
    | counter j b =>
        exact congrArg BitVec.toNat
          (updateCounter_slot (σ := Thread.start layout mem) (f := fun _ => b) hapart hs hi)
    | slot j val =>
        have hj : 8 * j + 8 ≤ 2 ^ 64 := by
          have hlt : j < layout.maxMapSize := hs
          omega
        by_cases hij : j = i
        · subst hij
          rw [Store.onSlot, if_pos rfl, Layout.slotValue, Store.exec, Mem.load64_store64,
            Option.getD_some]
        · rw [Store.onSlot, if_neg hij, Layout.slotValue, Store.exec,
            Mem.load64_store64_of_disjoint fun n hn hwithin => hij ?_]
          · rfl
          · -- a byte of both slots would make them equal
            exact hwithin.word_unique ((Ptr.within_add_self (by omega)).2 hn) hj (by omega)

/-- A byte of neither region. -/
theorem otherObserves {q : Ptr Object} (hapart : Apart layout)
    (hcounter : ¬ layout.counterPtr.Within layout.mapSize q)
    (hslot : ¬ layout.maxPtr.Within (8 * layout.maxMapSize) q) :
    Observes layout (fun mem => mem q.obj q.off) (fun _ => none) (fun _ _ => none) := by
  refine ⟨fun σ c _ _ => Option.bind_fun_none _, fun mem s hs => ?_⟩
  cases s with
  | counter j b =>
      exact updateCounter_frame (σ := Thread.start layout mem) (f := fun _ => b) hapart hs hcounter
  | slot j val =>
      exact Mem.store64_of_not_within
        (fun h => hslot (slot_subset (σ := Thread.start layout mem) hs h)) val

end Observations

/-! ## Runs -/

section Runs

variable {T V : Type} {layout : Layout} {value : Mem Object → V} {seen : Store → Option V}
  {upd : BitVec 32 × Call → V → Option V}

namespace Threads

/-- One cell of the memory with the stores to it that are outstanding. -/
def cell (w : Threads T) (value : Mem Object → V) (seen : Store → Option V) : Cell T V where
  value := value w.mem
  pending t := (w.locals t).pending.bind seen

theorem cell_pending (w : Threads T) (t : T) :
    (w.cell value seen).pending t = (w.locals t).pending.bind seen := rfl

variable [DecidableEq T]

theorem leave_cell (w : Threads T) (t : T) (σ : Thread) (pending : Option Store) :
    (w.leave t σ pending).cell value seen =
      (w.cell value seen).set (value σ.mem) t (pending.bind seen) := by
  have hpending : ∀ u, ((w.leave t σ pending).cell value seen).pending u =
      ((w.cell value seen).set (value σ.mem) t (pending.bind seen)).pending u := by
    intro u
    by_cases hu : u = t
    · subst hu
      simp [cell, leave]
    · rw [Cell.set_pending_of_ne hu]
      simp [cell, leave, Function.update_of_ne hu]
  rw [cell, Cell.set, Cell.mk.injEq]
  exact ⟨rfl, funext hpending⟩

end Threads

/-- What a turn is for every cell. -/
def Turn.access (w : Threads T) : Turn T → Access T (BitVec 32 × Call)
  | .call t c => .load t ((w.locals t).state, c)
  | .store t => .store t

variable [DecidableEq T]

/-- The calls of a run, each with the `__ijon_state` in which it is made. -/
def made (w : Threads T) (turns : List (Turn T)) : List (BitVec 32 × Call) :=
  (trace Threads.step w turns).filterMap fun e => (e.2.access e.1).op

theorem made_snoc {w w' : Threads T} {turns : List (Turn T)}
    (hrun : run Threads.step w turns = some w') (turn : Turn T) :
    made w (turns ++ [turn]) = made w turns ++ (turn.access w').op.toList := by
  rw [made, trace_snoc hrun, List.filterMap_append, made]
  cases turn <;> rfl

/-- What holds in every state: the stores to come are to cells that exist. -/
structure Threads.Inv (layout : Layout) (w : Threads T) : Prop where
  keep : w.layout = layout
  inRange : ∀ t, ∀ s ∈ (w.locals t).pending, s.InRange layout

theorem Threads.Inv.step {w w' : Threads T} {turn : Turn T} (h : Threads.Inv layout w)
    (hstep : w.step turn = some w') : Threads.Inv layout w' := by
  obtain rfl := h.keep
  have hleave : ∀ t σ pending, (∀ s ∈ pending, Store.InRange w.layout s) →
      Threads.Inv w.layout (w.leave t σ pending) := by
    intro t σ pending hpending
    refine ⟨rfl, fun u s hs => ?_⟩
    by_cases hu : u = t
    · subst hu
      simp only [Threads.leave, Function.update_self] at hs
      exact hpending s hs
    · simp only [Threads.leave, Function.update_of_ne hu] at hs
      exact h.inRange u s hs
  cases turn with
  | call t c =>
      obtain ⟨-, hpos, rfl⟩ := Threads.step_call hstep
      exact hleave t _ _ fun s hs => Call.stores_inRange (σ := w.view t) hpos hs
  | store t =>
      obtain ⟨store, -, rfl⟩ := Threads.step_store hstep
      exact hleave t _ none fun s hs => absurd hs (Option.not_mem_none s)

omit [DecidableEq T] in
theorem Threads.Inv.start {w : Threads T} (hquiet : ∀ t, (w.locals t).pending = none) :
    Threads.Inv w.layout w := by
  refine ⟨rfl, fun t s hs => ?_⟩
  rw [hquiet t] at hs
  cases hs

theorem Threads.Inv.run {w₀ w : Threads T} {turns : List (Turn T)}
    (hquiet : ∀ t, (w₀.locals t).pending = none) (hrun : run Threads.step w₀ turns = some w) :
    Threads.Inv w₀.layout w :=
  invariant_run (fun _ _ _ h hstep => h.step hstep) (.start hquiet) hrun

omit [DecidableEq T] in
theorem Threads.cell_settled {w : Threads T} (hquiet : ∀ t, (w.locals t).pending = none) :
    (w.cell value seen).Settled := by
  intro t
  rw [Threads.cell_pending, hquiet t, Option.bind_none]

/-- **A turn is an access to each cell.** -/
theorem Observes.step {w w' : Threads T} {turn : Turn T} (hobs : Observes layout value seen upd)
    (h : Threads.Inv layout w) (hstep : w.step turn = some w') :
    SharedCell.step upd (w.cell value seen) (turn.access w) = some (w'.cell value seen) := by
  obtain rfl := h.keep
  cases turn with
  | call t c =>
      obtain ⟨hnone, hpos, rfl⟩ := Threads.step_call hstep
      have hmem : (c.loaded (w.view t)).mem = w.mem := by cases c <;> rfl
      refine SharedCell.step_load.2 ⟨?_, ?_⟩
      · rw [Threads.cell_pending, hnone, Option.bind_none]
      · rw [Threads.leave_cell, hmem, hobs.load (w.view t) c rfl hpos]
        rfl
  | store t =>
      obtain ⟨store, hstore, rfl⟩ := Threads.step_store hstep
      have hvalue := hobs.store w.mem store (h.inRange t store hstore)
      have hpending : (w.cell value seen).pending t = seen store := by
        rw [Threads.cell_pending, hstore, Option.bind_some]
      rw [Turn.access, SharedCell.step, hpending, Threads.leave_cell, Option.bind_none]
      exact congrArg some (congrArg (fun v => Cell.set _ v t none) hvalue.symm)

/-- What a cell holds after any interleaving. -/
theorem Observes.raced {w₀ w : Threads T} {turns : List (Turn T)}
    (hobs : Observes w₀.layout value seen upd) (hquiet : ∀ t, (w₀.locals t).pending = none)
    (hrun : run Threads.step w₀ turns = some w) :
    Raced upd (value w₀.mem) (made w₀ turns) (w.cell value seen) := by
  refine history_run (P := fun turns w => Raced upd (value w₀.mem) (made w₀ turns)
    (w.cell value seen)) (Raced.start rfl (Threads.cell_settled hquiet)) ?_ hrun
  intro turns w turn w' hturns hraced hstep
  rw [made_snoc hturns]
  exact hraced.step (hobs.step (Threads.Inv.run hquiet hturns) hstep)

/-- What a cell holds if no two threads have ever had a store to it outstanding. -/
theorem Observes.serial {w₀ w : Threads T} {turns : List (Turn T)}
    (hobs : Observes w₀.layout value seen upd)
    (hstable : ∀ op op' v v', upd op v = none → upd op' v = some v' → upd op v' = none)
    (hquiet : ∀ t, (w₀.locals t).pending = none) (hrun : run Threads.step w₀ turns = some w)
    (hfree : AllStates Threads.step (fun w => ¬ (w.cell value seen).Contended) w₀ turns) :
    Serial upd (value w₀.mem) (made w₀ turns) (w.cell value seen) := by
  revert hfree
  refine history_run (P := fun turns w =>
    AllStates Threads.step (fun w => ¬ (w.cell value seen).Contended) w₀ turns →
      Serial upd (value w₀.mem) (made w₀ turns) (w.cell value seen))
    (fun _ => Serial.start rfl (Threads.cell_settled hquiet)) ?_ hrun
  intro turns w turn w' hturns ih hstep hfree
  obtain ⟨hfree, hlast⟩ := allStates_snoc.1 hfree
  rw [made_snoc hturns]
  exact (ih hfree).step hstable (hfree.last hturns)
    (hlast w' (run_snoc_eq_some.2 ⟨w, hturns, hstep⟩))
    (hobs.step (Threads.Inv.run hquiet hturns) hstep)

end Runs

/-! ## The states of a thread -/

section Alone

variable {T : Type} [DecidableEq T]

/-- The calls of one thread. -/
def calls (t : T) (turns : List (Turn T)) : List Call :=
  turns.filterMap fun
    | .call u c => if u = t then some c else none
    | .store _ => none

/-- The calls of one thread, each with the `__ijon_state` in which it is made. -/
def madeBy (t : T) (w : Threads T) (turns : List (Turn T)) : List (BitVec 32 × Call) :=
  (trace Threads.step w turns).filterMap fun e =>
    match e.2 with
    | .call u c => if u = t then some ((e.1.locals u).state, c) else none
    | .store _ => none

/-- What a thread has done to its two words it would have done alone. -/
structure Alone (t : T) (w₀ : Threads T) (turns : List (Turn T)) (w : Threads T) (σ : Thread) :
    Prop where
  run : run step (w₀.view t) (calls t turns) = some σ
  layout : σ.layout = w.layout
  state : σ.state = (w.locals t).state
  stateLog : σ.stateLog = (w.locals t).stateLog
  made : madeBy t w₀ turns =
    (trace Ijon.step (w₀.view t) (calls t turns)).map fun tc => (tc.1.state, tc.2)

variable {t : T} {w₀ w w' : Threads T} {turns : List (Turn T)} {σ : Thread}

/-- A turn that is no call of this thread. -/
theorem Alone.other {turn : Turn T} (h : Alone t w₀ turns w σ)
    (hturns : Transition.run Threads.step w₀ turns = some w)
    (hturn : ∀ c, turn ≠ .call t c) (hlayout : w'.layout = w.layout)
    (hstate : (w'.locals t).state = (w.locals t).state)
    (hlog : (w'.locals t).stateLog = (w.locals t).stateLog) :
    Alone t w₀ (turns ++ [turn]) w' σ := by
  have hcalls : calls t (turns ++ [turn]) = calls t turns := by
    cases turn with
    | call u c =>
        have hu : u ≠ t := by
          rintro rfl
          exact hturn c rfl
        simp [calls, hu]
    | store u => simp [calls]
  have hmade : madeBy t w₀ (turns ++ [turn]) = madeBy t w₀ turns := by
    rw [madeBy, trace_snoc hturns, List.filterMap_append, madeBy]
    cases turn with
    | call u c =>
        have hu : u ≠ t := by
          rintro rfl
          exact hturn c rfl
        simp [hu]
    | store u => simp
  refine ⟨?_, h.layout.trans hlayout.symm, h.state.trans hstate.symm, h.stateLog.trans hlog.symm,
    ?_⟩
  · rw [hcalls]
    exact h.run
  · rw [hmade, hcalls]
    exact h.made

theorem Alone.call {c : Call} (h : Alone t w₀ turns w σ)
    (hturns : Transition.run Threads.step w₀ turns = some w)
    (hpos : 0 < c.divisor w.layout) :
    Alone t w₀ (turns ++ [.call t c]) (w.leave t (c.loaded (w.view t)) (c.stores (w.view t)))
      (c.effect σ) := by
  have hcalls : calls t (turns ++ [.call t c]) = calls t turns ++ [c] := by
    simp [calls]
  have hmade : madeBy t w₀ (turns ++ [.call t c]) =
      madeBy t w₀ turns ++ [((w.locals t).state, c)] := by
    rw [madeBy, trace_snoc hturns, List.filterMap_append, madeBy]
    simp
  have heffect := c.effect_state_congr (σ := σ) (τ := w.view t) h.layout h.state h.stateLog
  have hloaded := Call.loaded_state (w.view t) c
  have hself : ((w.leave t (c.loaded (w.view t)) (c.stores (w.view t))).locals t) =
      ⟨(c.loaded (w.view t)).state, (c.loaded (w.view t)).stateLog, c.stores (w.view t)⟩ :=
    Function.update_self _ _ _
  refine ⟨?_, ?_, ?_, ?_, ?_⟩
  · rw [hcalls]
    exact run_snoc_eq_some.2 ⟨σ, h.run, Call.step_eq_some.2 ⟨h.layout ▸ hpos, rfl⟩⟩
  · rw [Call.effect_layout, h.layout]
    rfl
  · rw [hself, heffect.1, hloaded.1]
  · rw [hself, heffect.2, hloaded.2]
  · rw [hmade, hcalls, trace_snoc h.run, List.map_append, h.made, ← h.state]
    rfl

/-- **The states of a thread are its own.** Whatever the others do, a thread makes its calls in the
states in which it would make them alone. -/
theorem madeBy_alone (t : T) (hrun : Transition.run Threads.step w₀ turns = some w) :
    madeBy t w₀ turns =
      (trace step (w₀.view t) (calls t turns)).map fun tc => (tc.1.state, tc.2) := by
  have halone : ∃ σ, Alone t w₀ turns w σ := by
    refine history_run (P := fun turns w => ∃ σ, Alone t w₀ turns w σ)
      ⟨w₀.view t, rfl, rfl, rfl, rfl, rfl⟩ ?_ hrun
    intro turns w turn w' hturns ih hstep
    obtain ⟨σ, h⟩ := ih
    cases turn with
    | call u c =>
        obtain ⟨-, hpos, rfl⟩ := Threads.step_call hstep
        by_cases hu : u = t
        · subst hu
          exact ⟨_, h.call hturns hpos⟩
        · refine ⟨σ, h.other hturns (fun c' hc' => hu (Turn.call.inj hc').1) rfl ?_ ?_⟩ <;>
            simp [Threads.leave, Function.update_of_ne (Ne.symm hu)]
    | store u =>
        obtain ⟨store, -, rfl⟩ := Threads.step_store hstep
        -- a store leaves the words of every thread
        let w' := w.leave u ((w.view u).commit (some store)) none
        have hwords : ∀ v, (w'.locals v).state = (w.locals v).state ∧
            (w'.locals v).stateLog = (w.locals v).stateLog := by
          intro v
          by_cases hv : v = u
          · subst hv
            simp [w', Threads.leave, Thread.commit, Threads.view]
          · simp [w', Threads.leave, Function.update_of_ne hv]
        exact ⟨σ, h.other hturns (by simp) rfl (hwords t).1 (hwords t).2⟩
  obtain ⟨σ, h⟩ := halone
  exact h.made

end Alone

/-! ## What races leave in the segment -/

section Segment

variable {T : Type} {w₀ w : Threads T} {turns : List (Turn T)} {size slots i : Nat}

def Threads.counterCell (w : Threads T) (i : Nat) : Cell T (BitVec 8) :=
  w.cell (w.layout.counterValue i) (Store.onCounter i)

def Threads.slotCell (w : Threads T) (i : Nat) : Cell T Nat :=
  w.cell (w.layout.slotValue i) (Store.onSlot i)

theorem apply_counterUpd (b : BitVec 8) (sc : BitVec 32 × Call) :
    SharedCell.apply (counterUpd size i) b sc = sc.2.onCounter size i sc.1 b := by
  obtain ⟨state, c⟩ := sc
  cases c with
  | mapInc addr =>
      rw [SharedCell.apply, counterUpd_mapInc, Call.onCounter]
      split <;> rfl
  | mapSet addr =>
      rw [SharedCell.apply, counterUpd_mapSet, Call.onCounter]
      split <;> rfl
  | _ => rfl

theorem foldl_counterUpd (scs : List (BitVec 32 × Call)) (b : BitVec 8) :
    scs.foldl (SharedCell.apply (counterUpd size i)) b =
      scs.foldl (fun b sc => sc.2.onCounter size i sc.1 b) b := by
  have happly : SharedCell.apply (counterUpd size i) =
      fun b sc => sc.2.onCounter size i sc.1 b :=
    funext fun b => funext fun sc => apply_counterUpd b sc
  rw [happly]

theorem counterUpd_isSome {sc : BitVec 32 × Call} {b : BitVec 8} :
    (counterUpd size i sc b).isSome ↔ sc.2.hits size i sc.1 := by
  unfold counterUpd
  split <;> simp [*]

theorem slotUpd_eq_some {sc : BitVec 32 × Call} {v val : Nat} :
    slotUpd slots i sc v = some val ↔ sc.2.offer slots i = some val ∧ v < val := by
  simp [slotUpd, Option.filter_eq_some_iff]

theorem slotUpd_eq_none {sc : BitVec 32 × Call} {v : Nat} :
    slotUpd slots i sc v = none ↔ ∀ val, sc.2.offer slots i = some val → val ≤ v := by
  simp [slotUpd, Option.filter_eq_none_iff]

theorem apply_slotUpd (v : Nat) (sc : BitVec 32 × Call) :
    SharedCell.apply (slotUpd slots i) v sc = max v ((sc.2.offer slots i).getD 0) := by
  cases hoffer : sc.2.offer slots i with
  | none => simp [SharedCell.apply, slotUpd, hoffer]
  | some val =>
      by_cases hlt : v < val
      · simp [SharedCell.apply, slotUpd, hoffer, Option.filter, hlt, Nat.le_of_lt hlt]
      · simp [SharedCell.apply, slotUpd, hoffer, Option.filter, hlt, Nat.le_of_not_lt hlt]

theorem le_foldl_slotUpd (scs : List (BitVec 32 × Call)) (v : Nat) :
    v ≤ scs.foldl (SharedCell.apply (slotUpd slots i)) v := by
  induction scs generalizing v with
  | nil => exact le_rfl
  | cons sc scs ih =>
      calc v ≤ SharedCell.apply (slotUpd slots i) v sc := by
            rw [apply_slotUpd]
            exact Nat.le_max_left _ _
        _ ≤ _ := ih _

/-- What the slot held and what the calls offer to it. -/
def offered (slots i v : Nat) (scs : List (BitVec 32 × Call)) : Set Nat :=
  {val | val = v ∨ ∃ sc ∈ scs, sc.2.offer slots i = some val}

theorem offered_snoc {v : Nat} {scs : List (BitVec 32 × Call)} {sc : BitVec 32 × Call} {val : Nat}
    (h : sc.2.offer slots i = some val) :
    offered slots i v (scs ++ [sc]) = insert val (offered slots i v scs) := by
  ext x
  simp only [offered, Set.mem_ofPred_eq, Set.mem_insert_iff, List.mem_append, List.mem_singleton,
    or_and_right, exists_or, exists_eq_left, h, Option.some.injEq]
  rw [eq_comm (a := val), ← or_assoc, or_comm]

/-- All offers in a row leave the greatest. -/
theorem isGreatest_foldl_slotUpd (scs : List (BitVec 32 × Call)) (v : Nat) :
    IsGreatest (offered slots i v scs) (scs.foldl (SharedCell.apply (slotUpd slots i)) v) := by
  induction scs using List.reverseRecOn with
  | nil => simp [offered]
  | append_singleton scs sc ih =>
      rw [List.foldl_append, List.foldl_cons, List.foldl_nil, apply_slotUpd]
      cases hoffer : sc.2.offer slots i with
      | none =>
          have hset : offered slots i v (scs ++ [sc]) = offered slots i v scs := by
            simp [offered, or_and_right, exists_or, hoffer]
          simpa [hset] using ih
      | some val =>
          rw [offered_snoc hoffer, Option.getD_some, max_comm]
          exact ih.insert val

theorem counterCell_eq {layout : Layout} (h : w.layout = layout) :
    w.counterCell i = w.cell (layout.counterValue i) (Store.onCounter i) := by
  rw [Threads.counterCell, h]

theorem slotCell_eq {layout : Layout} (h : w.layout = layout) :
    w.slotCell i = w.cell (layout.slotValue i) (Store.onSlot i) := by
  rw [Threads.slotCell, h]

theorem counter_raced {ops : List (BitVec 32 × Call)} {v : BitVec 8} {c : Cell T (BitVec 8)}
    (h : Raced (counterUpd size i) v ops c) (hsettled : c.Settled) :
    ∃ kept : List (BitVec 32 × Call), kept.Sublist ops ∧
      c.value = kept.foldl (fun b sc => sc.2.onCounter size i sc.1 b) v ∧
      ((∃ sc ∈ ops, sc.2.hits size i sc.1) → ∃ sc ∈ kept, sc.2.hits size i sc.1) := by
  rcases h.settled hsettled with ⟨hvalue, hnone⟩ | ⟨kept, op, hsub, hop⟩
  · refine ⟨[], List.nil_sublist _, hvalue, ?_⟩
    rintro ⟨sc, hsc, hhits⟩
    have hsome := counterUpd_isSome (b := v).2 hhits
    rw [hnone sc hsc] at hsome
    cases hsome
  · refine ⟨kept ++ [op], hsub, ?_, fun _ => ⟨op, by simp, ?_⟩⟩
    · rw [← foldl_counterUpd, List.foldl_append, List.foldl_cons, List.foldl_nil,
        SharedCell.apply, hop]
      rfl
    · have hsome := congrArg Option.isSome hop
      exact counterUpd_isSome.1 hsome

theorem slot_raced {ops : List (BitVec 32 × Call)} {v : Nat} {c : Cell T Nat}
    (h : Raced (slotUpd slots i) v ops c) (hsettled : c.Settled) :
    (c.value = v ∧ ∀ sc ∈ ops, ∀ val, sc.2.offer slots i = some val → val ≤ v) ∨
      (v < c.value ∧ ∃ sc ∈ ops, sc.2.offer slots i = some c.value) := by
  rcases h.settled hsettled with ⟨hvalue, hnone⟩ | ⟨kept, op, hsub, hop⟩
  · exact .inl ⟨hvalue, fun sc hsc => slotUpd_eq_none.1 (hnone sc hsc)⟩
  · obtain ⟨hoffer, hlt⟩ := slotUpd_eq_some.1 hop
    have hmem : op ∈ ops := hsub.subset (by simp)
    exact .inr ⟨(le_foldl_slotUpd kept v).trans_lt hlt, op, hmem, hoffer⟩

variable [DecidableEq T] {env : Env} {segments : Segments} {mem mem' : Mem Object}

/-- **What no interleaving can lose.** Whatever the environment was and the threads have done, a
cell to which no store is outstanding holds this: a counter what some of the calls have made of it,
one of those that hit it among them, if there are any; a slot a value that was offered and is
greater than the first one, if there is such an offer.  Nothing else has changed, and a thread has
made its calls in the states in which it would make them alone. -/
theorem races_kept (hmap : mapShm env segments initial mem = .ok (w₀.layout, mem'))
    (hquiet : ∀ t, (w₀.locals t).pending = none) (hrun : run Threads.step w₀ turns = some w) :
    (∀ i < w₀.layout.mapSize, (w.counterCell i).Settled →
      ∃ kept : List (BitVec 32 × Call), kept.Sublist (made w₀ turns) ∧
        (w.counterCell i).value = kept.foldl
          (fun b sc => sc.2.onCounter w₀.layout.mapSize i sc.1 b) (w₀.counterCell i).value ∧
        ((∃ sc ∈ made w₀ turns, sc.2.hits w₀.layout.mapSize i sc.1) →
          ∃ sc ∈ kept, sc.2.hits w₀.layout.mapSize i sc.1)) ∧
    (∀ i < w₀.layout.maxMapSize, (w.slotCell i).Settled →
      ((w.slotCell i).value = (w₀.slotCell i).value ∧ ∀ sc ∈ made w₀ turns, ∀ val,
        sc.2.offer w₀.layout.maxMapSize i = some val → val ≤ (w₀.slotCell i).value) ∨
      ((w₀.slotCell i).value < (w.slotCell i).value ∧ ∃ sc ∈ made w₀ turns,
        sc.2.offer w₀.layout.maxMapSize i = some (w.slotCell i).value)) ∧
    (∀ q, ¬ w₀.layout.counterPtr.Within w₀.layout.mapSize q →
      ¬ w₀.layout.maxPtr.Within (8 * w₀.layout.maxMapSize) q →
        w.mem q.obj q.off = w₀.mem q.obj q.off) ∧
    ∀ t, madeBy t w₀ turns =
      (trace step (w₀.view t) (calls t turns)).map fun tc => (tc.1.state, tc.2) := by
  have hapart := mapShm_apart hmap
  have hlayout : w.layout = w₀.layout := (Threads.Inv.run hquiet hrun).keep
  refine ⟨fun i hi hsettled => ?_, fun i hi hsettled => ?_, fun q hcounter hslot => ?_, fun t =>
    madeBy_alone t hrun⟩
  · rw [counterCell_eq hlayout] at hsettled ⊢
    exact counter_raced ((counterObserves hapart hi).raced hquiet hrun) hsettled
  · rw [slotCell_eq hlayout] at hsettled ⊢
    exact slot_raced ((slotObserves hapart hi).raced hquiet hrun) hsettled
  · have hraced := (otherObserves hapart hcounter hslot).raced hquiet hrun
    rcases hraced.settled fun t => Option.bind_fun_none _ with ⟨hvalue, -⟩ | ⟨_, _, _, hop⟩
    · exact hvalue
    · cases hop

/-- Two threads in the segment of `threeRegions`. -/
def twoThreads : Threads Bool :=
  .start (segmentLayout threeRegions 7) fun _ _ => 0

theorem twoThreads_mapped :
    mapShm threeRegions onlySeven initial (fun _ _ => 0) =
      .ok (twoThreads.layout, Mem.set (fun _ _ => 0) twoThreads.layout.areaPtr 1) := rfl

/-- Each thread loads what the other one has not stored yet. -/
def lostStores : List (Turn Bool) :=
  [.call false (.mapInc 2), .call true (.mapInc 2), .store false, .store true,
    .call false (.max 1 5), .call true (.max 1 9), .store true, .store false]

theorem lostStores_kept :
    ∃ w, run Threads.step twoThreads lostStores = some w ∧
      (∃ kept : List (BitVec 32 × Call), kept.Sublist (made twoThreads lostStores) ∧
        (w.counterCell 2).value = kept.foldl (fun b sc => sc.2.onCounter 4 2 sc.1 b) 0 ∧
        ∃ sc ∈ kept, sc.2.hits 4 2 sc.1) ∧
      ∃ sc ∈ made twoThreads lostStores, sc.2.offer 2 1 = some (w.slotCell 1).value := by
  have hrun : run Threads.step twoThreads lostStores = some _ := rfl
  have hmade : made twoThreads lostStores =
      [(0, .mapInc 2), (0, .mapInc 2), (0, .max 1 5), (0, .max 1 9)] := rfl
  obtain ⟨hcounters, hslots, -, -⟩ := races_kept twoThreads_mapped (fun _ => rfl) hrun
  obtain ⟨kept, hsub, hvalue, hkept⟩ := hcounters 2 (by decide) (fun t => by cases t <;> rfl)
  refine ⟨_, hrun, ⟨kept, hsub, hvalue, hkept ⟨(0, .mapInc 2), by simp [hmade], by decide⟩⟩, ?_⟩
  rcases hslots 1 (by decide) (fun t => by cases t <;> rfl) with ⟨-, hnone⟩ | ⟨-, hoffered⟩
  · have hle := hnone (0, .max 1 9) (by simp [hmade]) 9 rfl
    exact absurd hle (by decide)
  · exact hoffered

/-- An increment and the greater of two offers are lost. -/
example : (run Threads.step twoThreads lostStores).map
    (fun w => ((w.counterCell 2).value, (w.slotCell 1).value)) = some (1, 5) := by
  decide +kernel

/-- **Without a race nothing is lost.** A counter to which two threads never had a store outstanding
at one time holds what all calls have made of it, and such a slot the greatest value. -/
theorem raceFree_exact (hmap : mapShm env segments initial mem = .ok (w₀.layout, mem'))
    (hquiet : ∀ t, (w₀.locals t).pending = none) (hrun : run Threads.step w₀ turns = some w) :
    (∀ i < w₀.layout.mapSize,
      AllStates Threads.step (fun w => ¬ (w.counterCell i).Contended) w₀ turns →
      (w.counterCell i).Settled →
        (w.counterCell i).value = (made w₀ turns).foldl
          (fun b sc => sc.2.onCounter w₀.layout.mapSize i sc.1 b) (w₀.counterCell i).value) ∧
    ∀ i < w₀.layout.maxMapSize,
      AllStates Threads.step (fun w => ¬ (w.slotCell i).Contended) w₀ turns →
      (w.slotCell i).Settled →
        IsGreatest (offered w₀.layout.maxMapSize i (w₀.slotCell i).value (made w₀ turns))
          (w.slotCell i).value := by
  have hapart := mapShm_apart hmap
  have hlayout : w.layout = w₀.layout := (Threads.Inv.run hquiet hrun).keep
  refine ⟨fun i hi hfree hsettled => ?_, fun i hi hfree hsettled => ?_⟩
  · have hfree' : AllStates Threads.step (fun w =>
        ¬ (w.cell (w₀.layout.counterValue i) (Store.onCounter i)).Contended) w₀ turns := by
      intro turns' w' hpre hrun'
      have hcell : ¬ (w'.counterCell i).Contended := hfree turns' w' hpre hrun'
      rwa [counterCell_eq (Threads.Inv.run hquiet hrun').keep] at hcell
    have hserial := (counterObserves hapart hi).serial (fun op op' v v' hop _ => ?_) hquiet hrun
      hfree'
    · rw [counterCell_eq hlayout] at hsettled ⊢
      rw [← foldl_counterUpd]
      exact hserial.settled hsettled
    · -- whether a call changes the counter does not depend on its value
      rw [← Option.not_isSome_iff_eq_none, counterUpd_isSome] at hop ⊢
      exact hop
  · have hfree' : AllStates Threads.step (fun w =>
        ¬ (w.cell (w₀.layout.slotValue i) (Store.onSlot i)).Contended) w₀ turns := by
      intro turns' w' hpre hrun'
      have hcell : ¬ (w'.slotCell i).Contended := hfree turns' w' hpre hrun'
      rwa [slotCell_eq (Threads.Inv.run hquiet hrun').keep] at hcell
    have hserial := (slotObserves hapart hi).serial (fun op op' v v' hop hop' => ?_) hquiet hrun
      hfree'
    · rw [slotCell_eq hlayout] at hsettled ⊢
      rw [hserial.settled hsettled]
      exact isGreatest_foldl_slotUpd _ _
    · -- what is too small for a slot stays too small
      have hlt := (slotUpd_eq_some.1 hop').2
      exact slotUpd_eq_none.2 fun val hval => (slotUpd_eq_none.1 hop val hval).trans hlt.le

/-- The two threads are in calls at one time, but not to the same cell. -/
def apartCalls : List (Turn Bool) :=
  [.call false (.mapInc 2), .call true (.max 1 9), .store false, .store true]

theorem not_contended_of_pending {V : Type} {c : Cell Bool V} {t : Bool}
    (h : c.pending t = none) : ¬ c.Contended := by
  rintro ⟨u, v, hne, hu, hv⟩
  have hu' : u ≠ t := by
    rintro rfl
    exact hu h
  have hv' : v ≠ t := by
    rintro rfl
    exact hv h
  exact hne ((Bool.eq_not_of_ne hu').trans (Bool.eq_not_of_ne hv').symm)

theorem apartCalls_exact :
    ∃ w, run Threads.step twoThreads apartCalls = some w ∧ (w.counterCell 2).value = 1 ∧
      IsGreatest (offered 2 1 0 (made twoThreads apartCalls)) (w.slotCell 1).value := by
  have hrun : run Threads.step twoThreads apartCalls = some _ := rfl
  obtain ⟨hcounters, hslots⟩ := raceFree_exact twoThreads_mapped (fun _ => rfl) hrun
  have hfree : ∀ turns' w', turns' <+: apartCalls → run Threads.step twoThreads turns' = some w' →
      (w'.counterCell 2).pending true = none ∧ (w'.slotCell 1).pending false = none := by
    intro turns' w' hpre hrun'
    have hmem := (List.mem_inits _ _).2 hpre
    simp only [apartCalls, List.inits, List.map_cons, List.map_nil, List.mem_cons,
      List.not_mem_nil, or_false] at hmem
    rcases hmem with rfl | rfl | rfl | rfl | rfl <;>
      obtain rfl := Option.some.inj hrun' <;> exact ⟨rfl, rfl⟩
  refine ⟨_, hrun, ?_, ?_⟩
  · exact hcounters 2 (by decide) (fun turns' w' hpre hrun' =>
      not_contended_of_pending (hfree turns' w' hpre hrun').1) fun t => by cases t <;> rfl
  · exact hslots 1 (by decide) (fun turns' w' hpre hrun' =>
      not_contended_of_pending (hfree turns' w' hpre hrun').2) fun t => by cases t <;> rfl

end Segment

end Ijon
end Runtime
end FuzzufCc
