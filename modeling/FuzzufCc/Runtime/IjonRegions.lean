import FuzzufCc.Runtime.IjonCalls
import Mathlib.Order.Bounds.Basic

/-!
# IjonRegions — what a run leaves in the segment

A call changes at most one counter or one max slot.  After any sequence of calls a counter is the
fold of the increments and settings that hit it, a slot is the greatest value offered to it, and
no other byte has changed.
-/

namespace FuzzufCc

open Libc IR Transition

namespace Runtime
namespace Ijon

/-! ## The meaning of the calls for one cell -/

/-- What a call makes in this state of the value `b` of counter `i`, out of `size`. -/
def Call.onCounter (size i : Nat) (state : BitVec 32) (b : BitVec 8) : Call → BitVec 8
  | .mapInc addr => if (state ^^^ addr).toNat % size = i then b + 1 else b
  | .mapSet addr => if (state ^^^ addr).toNat % size = i then b ||| 1 else b
  | _ => b

/-- The value that a call offers to max slot `i`, out of `slots`. -/
def Call.offer (slots i : Nat) : Call → Option Nat
  | .max addr val => if addr.toNat % slots = i then some val.toNat else none
  | .min addr val => if addr.toNat % slots = i then some (2 ^ 64 - 1 - val.toNat) else none
  | _ => none

/-- Zero, and what the calls offer to slot `i`. -/
def offers (slots i : Nat) (cs : List Call) : Set Nat :=
  {v | v = 0 ∨ ∃ c ∈ cs, c.offer slots i = some v}

theorem offers_nil (slots i : Nat) : offers slots i [] = {0} := by
  simp [offers]

theorem offers_snoc_none {slots i : Nat} {cs : List Call} {c : Call}
    (h : c.offer slots i = none) : offers slots i (cs ++ [c]) = offers slots i cs := by
  ext v
  simp [offers, or_and_right, exists_or, h]

theorem offers_snoc_some {slots i v : Nat} {cs : List Call} {c : Call}
    (h : c.offer slots i = some v) :
    offers slots i (cs ++ [c]) = insert v (offers slots i cs) := by
  ext w
  simp only [offers, Set.mem_ofPred_eq, Set.mem_insert_iff, List.mem_append, List.mem_singleton,
    or_and_right, exists_or, exists_eq_left, h, Option.some.injEq]
  constructor
  · rintro (hw | hw | rfl)
    · exact Or.inr (Or.inl hw)
    · exact Or.inr (Or.inr hw)
    · exact Or.inl rfl
  · rintro (rfl | hw | hw)
    · exact Or.inr (Or.inr rfl)
    · exact Or.inl hw
    · exact Or.inr (Or.inl hw)

/-! ## One cell, one call -/

/-- The counters and the slots have no byte in common, and addresses do not wrap around. -/
structure Apart (layout : Layout) : Prop where
  counters : layout.mapSize < 2 ^ 63
  slots : 8 * layout.maxMapSize < 2 ^ 63
  disjoint : ∀ q, layout.counterPtr.Within layout.mapSize q →
    ¬ layout.maxPtr.Within (8 * layout.maxMapSize) q

section Cells

variable {σ : Thread} {i j : Nat} {f : BitVec 8 → BitVec 8} {val : BitVec 64}

theorem counter_within (hsize : σ.layout.mapSize < 2 ^ 63) (hi : i < σ.layout.mapSize) :
    σ.layout.counterPtr.Within σ.layout.mapSize (σ.counter i) :=
  (Ptr.within_add_self (by omega)).2 hi

theorem slot_subset (hi : i < σ.layout.maxMapSize) {q : Ptr Object}
    (h : (σ.maxSlot i).Within 8 q) : σ.layout.maxPtr.Within (8 * σ.layout.maxMapSize) q :=
  h.of_add (by omega)

theorem counter_not_within_slot (hapart : Apart σ.layout) (hi : i < σ.layout.mapSize)
    (hj : j < σ.layout.maxMapSize) : ¬ (σ.maxSlot j).Within 8 (σ.counter i) := fun h =>
  hapart.disjoint _ (counter_within hapart.counters hi) (slot_subset hj h)

theorem updateCounter_counter (hapart : Apart σ.layout) (hi : i < σ.layout.mapSize)
    (hj : j < σ.layout.mapSize) :
    (σ.updateCounter i f).mem (σ.counter j).obj (σ.counter j).off =
      if i = j then f (σ.mem (σ.counter j).obj (σ.counter j).off)
      else σ.mem (σ.counter j).obj (σ.counter j).off := by
  have hcounters := hapart.counters
  by_cases hij : i = j
  · subst hij
    rw [if_pos rfl]
    exact Mem.set_same _ _ _
  · rw [if_neg hij]
    refine Mem.set_of_ne _ _ _ fun heq => hij ?_
    have hdist := congrArg σ.layout.counterPtr.dist (show σ.counter j = σ.counter i from heq)
    rw [Thread.counter, Thread.counter, Ptr.dist_add_self (by omega),
      Ptr.dist_add_self (by omega)] at hdist
    exact hdist.symm

theorem updateCounter_slot (hapart : Apart σ.layout) (hi : i < σ.layout.mapSize)
    (hj : j < σ.layout.maxMapSize) :
    (σ.updateCounter i f).mem.load64 (σ.maxSlot j) = σ.mem.load64 (σ.maxSlot j) :=
  Mem.load64_set_of_not_within (counter_not_within_slot hapart hi hj)

theorem updateCounter_frame (hapart : Apart σ.layout) (hi : i < σ.layout.mapSize) {q : Ptr Object}
    (hq : ¬ σ.layout.counterPtr.Within σ.layout.mapSize q) :
    (σ.updateCounter i f).mem q.obj q.off = σ.mem q.obj q.off := by
  refine Mem.set_of_ne _ _ _ fun heq => hq ?_
  obtain rfl : q = σ.counter i := heq
  exact counter_within hapart.counters hi

theorem raiseMax_counter (hapart : Apart σ.layout) (hi : i < σ.layout.maxMapSize)
    (hj : j < σ.layout.mapSize) :
    (σ.raiseMax i val).mem (σ.counter j).obj (σ.counter j).off =
      σ.mem (σ.counter j).obj (σ.counter j).off := by
  unfold Thread.raiseMax
  split
  · exact Mem.store64_of_not_within (counter_not_within_slot hapart hj hi) val
  · rfl

theorem raiseMax_slot (hapart : Apart σ.layout) (hi : i < σ.layout.maxMapSize)
    (hj : j < σ.layout.maxMapSize) :
    ((σ.raiseMax i val).mem.load64 (σ.maxSlot j)).toNat =
      if i = j then max val.toNat (σ.mem.load64 (σ.maxSlot j)).toNat
      else (σ.mem.load64 (σ.maxSlot j)).toNat := by
  have hslots := hapart.slots
  by_cases hij : i = j
  · subst hij
    rw [if_pos rfl, Thread.raiseMax]
    by_cases hlt : σ.mem.load64 (σ.maxSlot i) < val
    · rw [if_pos hlt, Mem.load64_store64, max_eq_left (BitVec.le_def.1 (BitVec.le_of_lt hlt))]
    · rw [if_neg hlt, max_eq_right (Nat.le_of_not_lt fun h => hlt (BitVec.lt_def.2 h))]
  · rw [if_neg hij, Thread.raiseMax]
    split
    · -- a byte of both slots would make them equal
      rw [Mem.load64_store64_of_disjoint fun n hn hwithin => hij ?_]
      exact hwithin.word_unique ((Ptr.within_add_self (by omega)).2 hn) (by omega) (by omega)
    · rfl

theorem raiseMax_frame (hi : i < σ.layout.maxMapSize) {q : Ptr Object}
    (hq : ¬ σ.layout.maxPtr.Within (8 * σ.layout.maxMapSize) q) :
    (σ.raiseMax i val).mem q.obj q.off = σ.mem q.obj q.off := by
  unfold Thread.raiseMax
  split
  · exact Mem.store64_of_not_within (fun h => hq (slot_subset hi h)) val
  · rfl

end Cells

/-! ## A call and the bytes elsewhere -/

/-- The same thread, with other bytes in `R`. -/
def Thread.inside (R : Ptr Object → Prop) [DecidablePred R] (m : Mem Object) (σ : Thread) :
    Thread :=
  { σ with mem := Mem.merge R m σ.mem }

/-- The bytes that a call may touch, where the counters have `counters` bytes and the slots have
`slots`. -/
def Call.Region (layout : Layout) (counters slots : Nat) : Call → Ptr Object → Prop
  | .max _ _ | .min _ _ => layout.maxPtr.Within slots
  | .mapInc _ | .mapSet _ => layout.counterPtr.Within counters
  | _ => fun _ => False

section Elsewhere

variable {R : Ptr Object → Prop} [DecidablePred R] {σ : Thread} {m : Mem Object} {i : Nat}

theorem Thread.inside_updateCounter (hsize : σ.layout.mapSize < 2 ^ 63)
    (havoid : ∀ q, σ.layout.counterPtr.Within σ.layout.mapSize q → ¬ R q)
    (hi : i < σ.layout.mapSize) (f : BitVec 8 → BitVec 8) :
    (σ.inside R m).updateCounter i f = (σ.updateCounter i f).inside R m := by
  have hnot : ¬ R (σ.counter i) := havoid _ (counter_within hsize hi)
  have hread : Mem.merge R m σ.mem (σ.counter i).obj (σ.counter i).off =
      σ.mem (σ.counter i).obj (σ.counter i).off := Mem.merge_of_not_mem hnot
  calc (σ.inside R m).updateCounter i f
      = { σ with
          mem := (Mem.merge R m σ.mem).set (σ.counter i)
            (f (Mem.merge R m σ.mem (σ.counter i).obj (σ.counter i).off)) } := rfl
    _ = { σ with
          mem := Mem.merge R m
            (σ.mem.set (σ.counter i) (f (σ.mem (σ.counter i).obj (σ.counter i).off))) } := by
        rw [hread, Mem.set_merge_of_not_mem hnot]
    _ = (σ.updateCounter i f).inside R m := rfl

theorem Thread.inside_raiseMax
    (havoid : ∀ q, σ.layout.maxPtr.Within (8 * σ.layout.maxMapSize) q → ¬ R q)
    (hi : i < σ.layout.maxMapSize) (val : BitVec 64) :
    (σ.inside R m).raiseMax i val = (σ.raiseMax i val).inside R m := by
  have hnot : ∀ q, (σ.maxSlot i).Within 8 q → ¬ R q := fun q hq =>
    havoid q (slot_subset hi hq)
  have hread : (Mem.merge R m σ.mem).load64 (σ.maxSlot i) = σ.mem.load64 (σ.maxSlot i) := by
    refine Mem.load64_merge fun n hn => hnot _ ?_
    exact (Ptr.within_add_self (by omega)).2 hn
  have hslot : (σ.inside R m).maxSlot i = σ.maxSlot i := rfl
  have hmem : (σ.inside R m).mem = Mem.merge R m σ.mem := rfl
  rw [Thread.raiseMax, Thread.raiseMax, hslot, hmem, hread, Mem.store64_merge hnot]
  split <;> rfl

/-- **A call in a part of the memory.** What lies elsewhere neither matters to a call nor
changes. -/
theorem Call.effect_inside {c : Call} (hsize : σ.layout.mapSize < 2 ^ 63)
    (hpos : 0 < c.divisor σ.layout)
    (havoid : ∀ q, c.Region σ.layout σ.layout.mapSize (8 * σ.layout.maxMapSize) q → ¬ R q) :
    c.effect (σ.inside R m) = (c.effect σ).inside R m := by
  cases c with
  | xorState val => rfl
  | pushState x => rfl
  | max addr val => exact Thread.inside_raiseMax havoid (Nat.mod_lt _ hpos) val
  | min addr val => exact Thread.inside_raiseMax havoid (Nat.mod_lt _ hpos) _
  | mapInc addr => exact Thread.inside_updateCounter hsize havoid (Nat.mod_lt _ hpos) (· + 1)
  | mapSet addr => exact Thread.inside_updateCounter hsize havoid (Nat.mod_lt _ hpos) (· ||| 1)

end Elsewhere

/-! ## Runs -/

/-- What the past calls have left: `calls` pairs each with the state in which it was made. -/
structure Regions (layout : Layout) (mem : Mem Object) (past : List Call)
    (calls : List (Thread × Call)) (σ : Thread) : Prop where
  keep : σ.layout = layout
  counter : ∀ i < layout.mapSize, σ.mem (σ.counter i).obj (σ.counter i).off =
    calls.foldl (fun b tc => tc.2.onCounter layout.mapSize i tc.1.state b) 0
  slot : ∀ i < layout.maxMapSize,
    IsGreatest (offers layout.maxMapSize i past) (σ.mem.load64 (σ.maxSlot i)).toNat
  frame : ∀ q, ¬ layout.counterPtr.Within layout.mapSize q →
    ¬ layout.maxPtr.Within (8 * layout.maxMapSize) q → σ.mem q.obj q.off = mem q.obj q.off

section Runs

variable {layout : Layout} {mem : Mem Object} {past : List Call} {calls : List (Thread × Call)}
  {σ : Thread}

theorem Regions.start
    (hcounters : ∀ q, layout.counterPtr.Within layout.mapSize q → mem q.obj q.off = 0)
    (hslots : ∀ q, layout.maxPtr.Within (8 * layout.maxMapSize) q → mem q.obj q.off = 0)
    (hapart : Apart layout) : Regions layout mem [] [] (Thread.start layout mem) := by
  have hsize := hapart.slots
  refine ⟨rfl, fun i hi => ?_, fun i hi => ?_, fun q _ _ => rfl⟩
  · exact hcounters _ (counter_within (σ := Thread.start layout mem) hapart.counters hi)
  · have hzero : mem.load64 ((Thread.start layout mem).maxSlot i) = 0 := by
      refine Mem.load64_zero fun n hn => hslots (((Thread.start layout mem).maxSlot i).add n) ?_
      exact slot_subset (σ := Thread.start layout mem) hi ((Ptr.within_add_self (by omega)).2 hn)
    rw [offers_nil, show (Thread.start layout mem).mem = mem from rfl, hzero]
    exact isGreatest_singleton

/-- A call that changes neither counters nor slots. -/
theorem Regions.state {c : Call} {state stateLog : BitVec 32}
    (h : Regions layout mem past calls σ)
    (hcounter : ∀ i b, c.onCounter layout.mapSize i σ.state b = b)
    (hslot : ∀ i, c.offer layout.maxMapSize i = none) :
    Regions layout mem (past ++ [c]) (calls ++ [(σ, c)])
      { σ with state := state, stateLog := stateLog } := by
  refine ⟨h.keep, fun i hi => ?_, fun i hi => ?_, h.frame⟩
  · rw [List.foldl_append, List.foldl_cons, List.foldl_nil, hcounter]
    exact h.counter i hi
  · rw [offers_snoc_none (hslot i)]
    exact h.slot i hi

theorem Regions.updateCounter {c : Call} {j : Nat} {f : BitVec 8 → BitVec 8}
    (h : Regions layout mem past calls σ) (hapart : Apart layout) (hj : j < layout.mapSize)
    (hcounter : ∀ i b, c.onCounter layout.mapSize i σ.state b = if j = i then f b else b)
    (hslot : ∀ i, c.offer layout.maxMapSize i = none) :
    Regions layout mem (past ++ [c]) (calls ++ [(σ, c)]) (σ.updateCounter j f) := by
  obtain rfl := h.keep
  refine ⟨rfl, fun i hi => ?_, fun i hi => ?_, fun q hq hq' => ?_⟩
  · rw [List.foldl_append, List.foldl_cons, List.foldl_nil, hcounter, ← h.counter i hi]
    exact updateCounter_counter hapart hj hi
  · rw [offers_snoc_none (hslot i)]
    have hsame := updateCounter_slot (f := f) hapart hj hi
    have hgreatest := h.slot i hi
    rwa [← hsame] at hgreatest
  · rw [updateCounter_frame hapart hj hq]
    exact h.frame q hq hq'

theorem Regions.raiseMax {c : Call} {j : Nat} {val : BitVec 64}
    (h : Regions layout mem past calls σ) (hapart : Apart layout) (hj : j < layout.maxMapSize)
    (hcounter : ∀ i b, c.onCounter layout.mapSize i σ.state b = b)
    (hslot : ∀ i, c.offer layout.maxMapSize i = if j = i then some val.toNat else none) :
    Regions layout mem (past ++ [c]) (calls ++ [(σ, c)]) (σ.raiseMax j val) := by
  obtain rfl := h.keep
  have hptr : ∀ i, (σ.raiseMax j val).counter i = σ.counter i := by
    intro i
    rw [Thread.counter, Thread.raiseMax_layout, Thread.counter]
  have hptr' : ∀ i, (σ.raiseMax j val).maxSlot i = σ.maxSlot i := by
    intro i
    rw [Thread.maxSlot, Thread.raiseMax_layout, Thread.maxSlot]
  refine ⟨σ.raiseMax_layout j val, fun i hi => ?_, fun i hi => ?_, fun q hq hq' => ?_⟩
  · rw [List.foldl_append, List.foldl_cons, List.foldl_nil, hcounter, ← h.counter i hi, hptr]
    exact raiseMax_counter hapart hj hi
  · rw [hptr', raiseMax_slot hapart hj hi]
    by_cases hij : j = i
    · rw [if_pos hij, offers_snoc_some (by rw [hslot, if_pos hij])]
      exact (h.slot i hi).insert _
    · rw [if_neg hij, offers_snoc_none (by rw [hslot, if_neg hij])]
      exact h.slot i hi
  · rw [raiseMax_frame hj hq']
    exact h.frame q hq hq'

theorem Regions.effect {c : Call} (h : Regions layout mem past calls σ) (hapart : Apart layout)
    (hmap : 0 < layout.mapSize) (hmax : 0 < layout.maxMapSize) :
    Regions layout mem (past ++ [c]) (calls ++ [(σ, c)]) (c.effect σ) := by
  obtain rfl := h.keep
  cases c with
  | xorState val => exact h.state (fun _ _ => rfl) fun _ => rfl
  | pushState x => exact h.state (fun _ _ => rfl) fun _ => rfl
  | max addr val => exact h.raiseMax hapart (Nat.mod_lt _ hmax) (fun _ _ => rfl) fun _ => rfl
  | min addr val =>
      refine h.raiseMax hapart (Nat.mod_lt _ hmax) (fun _ _ => rfl) fun i => ?_
      have hsub : (0xffffffffffffffff - val : BitVec 64).toNat = 2 ^ 64 - 1 - val.toNat := by
        have hlt := val.isLt
        rw [BitVec.toNat_sub, show (0xffffffffffffffff : BitVec 64).toNat = 2 ^ 64 - 1 from rfl]
        omega
      rw [hsub]
      rfl
  | mapInc addr =>
      exact h.updateCounter (c := .mapInc addr) hapart (Nat.mod_lt _ hmap) (fun _ _ => rfl)
        fun _ => rfl
  | mapSet addr =>
      exact h.updateCounter (c := .mapSet addr) hapart (Nat.mod_lt _ hmap) (fun _ _ => rfl)
        fun _ => rfl

theorem Regions.run {cs : List Call} {σ₀ : Thread} (h : Regions layout mem [] [] σ₀)
    (hapart : Apart layout) (hmap : 0 < layout.mapSize) (hmax : 0 < layout.maxMapSize)
    (hrun : Transition.run step σ₀ cs = some σ) :
    Regions layout mem cs (trace step σ₀ cs) σ := by
  refine history_run (P := fun cs σ => Regions layout mem cs (trace step σ₀ cs) σ) h ?_ hrun
  intro cs σ c σ' hcs hregions hstep
  obtain ⟨_, rfl⟩ := Call.step_eq_some.1 hstep
  rw [trace_snoc hcs]
  exact hregions.effect hapart hmap hmax

end Runs

/-! ## Three regions in a segment -/

/-- With all three sizes set the regions lie one behind the other. -/
structure Consecutive (segment : Ptr Object) (A C M : Nat) (layout : Layout) : Prop where
  areaPtr : layout.areaPtr = segment
  counterPtr : layout.counterPtr = segment.add A
  maxPtr : layout.maxPtr = segment.add (A + C)
  mapSize : layout.mapSize = C
  maxMapSize : layout.maxMapSize = M / 8

theorem segmentLayout_consecutive {env : Env} (shmId : BitVec 32)
    (hA : 0 < reserved env AFL_SIZE_ENV_VAR) (hC : 0 < reserved env IJON_COUNTER_SIZE_ENV_VAR)
    (hM : 0 < reserved env IJON_MAX_SIZE_ENV_VAR) :
    Consecutive ⟨.segment shmId, 0⟩ (reserved env AFL_SIZE_ENV_VAR)
      (reserved env IJON_COUNTER_SIZE_ENV_VAR) (reserved env IJON_MAX_SIZE_ENV_VAR)
      (segmentLayout env shmId) := by
  constructor <;> simp [segmentLayout, hA.ne', hC.ne', hM.ne']

section Consecutive

variable {segment : Ptr Object} {A C M : Nat} {layout : Layout} {mem : Mem Object}

/-- Byte 0 of the segment is not behind the coverage region. -/
theorem start_not_within {a n : Nat} (ha : 0 < a) (hn : a + n ≤ 2 ^ 64) :
    ¬ (segment.add a).Within n segment := by
  have hself : segment.Within a segment := ⟨rfl, by simpa [Ptr.dist] using ha⟩
  exact hself.not_add le_rfl hn

theorem Consecutive.apart (h : Consecutive segment A C M layout) (hC : C < 2 ^ 32)
    (hM : M < 2 ^ 32) : Apart layout := by
  refine ⟨by rw [h.mapSize]; omega, by rw [h.maxMapSize]; omega, fun q hq => ?_⟩
  rw [h.counterPtr, h.mapSize] at hq
  rw [h.maxPtr, h.maxMapSize, ← Ptr.add_add]
  exact hq.not_add le_rfl (by omega)

theorem apart_of_ne (hcounters : layout.mapSize < 2 ^ 63) (hslots : 8 * layout.maxMapSize < 2 ^ 63)
    (hobj : layout.counterPtr.obj ≠ layout.maxPtr.obj) : Apart layout :=
  ⟨hcounters, hslots, fun _ hq hq' => hobj (hq.1.symm.trans hq'.1)⟩

/-- A region that reserves nothing stays in an array of its own. -/
theorem segmentLayout_apart (env : Env) (shmId : BitVec 32) : Apart (segmentLayout env shmId) := by
  have hC := reserved_lt env IJON_COUNTER_SIZE_ENV_VAR
  have hM := reserved_lt env IJON_MAX_SIZE_ENV_VAR
  have hcounters : (segmentLayout env shmId).mapSize < 2 ^ 63 := by
    simp only [segmentLayout]
    split_ifs
    · decide
    · omega
  have hslots : 8 * (segmentLayout env shmId).maxMapSize < 2 ^ 63 := by
    simp only [segmentLayout]
    split_ifs
    · decide
    · omega
  by_cases hCzero : reserved env IJON_COUNTER_SIZE_ENV_VAR = 0
  · refine apart_of_ne hcounters hslots ?_
    simp only [segmentLayout, if_pos hCzero]
    split_ifs <;> simp [initial, Ptr.add]
  · by_cases hMzero : reserved env IJON_MAX_SIZE_ENV_VAR = 0
    · refine apart_of_ne hcounters hslots ?_
      simp [segmentLayout, hCzero, hMzero, initial, Ptr.add]
    · refine ⟨hcounters, hslots, fun q hq => ?_⟩
      simp only [segmentLayout, if_neg hCzero, if_neg hMzero] at hq ⊢
      rw [← Ptr.add_add]
      exact hq.not_add le_rfl (by omega)

/-- **Two regions.** Whatever the environment says, initialisation leaves the counters and the slots
apart, or ends the process. -/
theorem mapShm_apart {env : Env} {segments : Segments} {mem' : Mem Object}
    (h : mapShm env segments initial mem = .ok (layout, mem')) : Apart layout := by
  cases hid : env AFL_SHM_ENV_VAR with
  | none =>
      simp only [mapShm, hid, Except.ok.injEq, Prod.mk.injEq] at h
      rw [← h.1]
      exact apart_of_ne (by decide) (by decide) (by decide)
  | some aflIdStr =>
      rw [(mapShm_eq_ok hid h).2.1]
      exact segmentLayout_apart env _

/-- What initialisation writes is not in a region of zeros behind byte 0. -/
theorem set_start_eq_zero (hzero : ∀ q, segment.Within (A + C + M) q → mem q.obj q.off = 0)
    {a n : Nat} (ha : 0 < a) (han : a + n ≤ A + C + M) (hlt : a + n ≤ 2 ^ 64) (v : BitVec 8)
    {q : Ptr Object} (hq : (segment.add a).Within n q) : (mem.set segment v) q.obj q.off = 0 := by
  have hne : q ≠ segment := by
    rintro rfl
    exact start_not_within ha hlt hq
  rw [Mem.set_of_ne _ _ _ hne]
  exact hzero q (hq.of_add han)

theorem Consecutive.start (h : Consecutive segment A C M layout) (hA : A < 2 ^ 32)
    (hC : C < 2 ^ 32) (hM : M < 2 ^ 32) (hApos : 0 < A)
    (hzero : ∀ q, segment.Within (A + C + M) q → mem q.obj q.off = 0) :
    Regions layout (mem.set layout.areaPtr 1) [] []
      (Thread.start layout (mem.set layout.areaPtr 1)) := by
  refine Regions.start (fun q hq => ?_) (fun q hq => ?_) (h.apart hC hM)
  · rw [h.counterPtr, h.mapSize] at hq
    rw [h.areaPtr]
    exact set_start_eq_zero hzero hApos (by omega) (by omega) 1 hq
  · rw [h.maxPtr, h.maxMapSize] at hq
    rw [h.areaPtr]
    exact set_start_eq_zero hzero (by omega) (by omega) (by omega) 1 hq

end Consecutive

/-- **A run in the segment.** In an accepted environment with three regions, and with zeros in the
segment, every sequence of calls ends; each slot then holds the greatest value offered to it, each
counter what the calls that hit it made of zero, byte 0 of the segment is 1, and every other byte is
what it was. -/
theorem regions_afterRun {env : Env} {segments : Segments} {mem mem' : Mem Object}
    {layout : Layout} {idStr : String} {segment : Ptr Object} {A C M : Nat}
    (hid : env AFL_SHM_ENV_VAR = some idStr)
    (hsegment : segment = ⟨.segment (atoi idStr.toList), 0⟩)
    (hA : reserved env AFL_SIZE_ENV_VAR = A) (hC : reserved env IJON_COUNTER_SIZE_ENV_VAR = C)
    (hM : reserved env IJON_MAX_SIZE_ENV_VAR = M) (hApos : 0 < A) (hCpos : 0 < C) (hMle : 8 ≤ M)
    (hzero : ∀ q, segment.Within (A + C + M) q → mem q.obj q.off = 0)
    (hmap : mapShm env segments initial mem = .ok (layout, mem')) (cs : List Call) :
    ∃ σ, run step (Thread.start layout mem') cs = some σ ∧
      (∀ i < M / 8, IsGreatest (offers (M / 8) i cs)
        (σ.mem.load64 (segment.add (A + C + 8 * i))).toNat) ∧
      (∀ i < C, σ.mem segment.obj (segment.add (A + i)).off =
        (trace step (Thread.start layout mem') cs).foldl
          (fun b tc => tc.2.onCounter C i tc.1.state b) 0) ∧
      σ.mem segment.obj segment.off = 1 ∧
      ∀ q, q ≠ segment → ¬ (segment.add A).Within C q →
        ¬ (segment.add (A + C)).Within (8 * (M / 8)) q → σ.mem q.obj q.off = mem q.obj q.off := by
  have hAlt : A < 2 ^ 32 := hA ▸ reserved_lt env AFL_SIZE_ENV_VAR
  have hClt : C < 2 ^ 32 := hC ▸ reserved_lt env IJON_COUNTER_SIZE_ENV_VAR
  have hMlt : M < 2 ^ 32 := hM ▸ reserved_lt env IJON_MAX_SIZE_ENV_VAR
  rcases mapShm_eq_ok hid hmap with ⟨_, hlayout, rfl⟩
  have hregions : Consecutive segment A C M layout := by
    have h := segmentLayout_consecutive (atoi idStr.toList) (hA ▸ hApos) (hC ▸ hCpos)
      (show 0 < reserved env IJON_MAX_SIZE_ENV_VAR by omega)
    rwa [hA, hC, hM, ← hsegment, ← hlayout] at h
  have hmapSize := hregions.mapSize
  have hmaxMapSize := hregions.maxMapSize
  have hpos : ∀ c ∈ cs, 0 < c.divisor layout := by
    intro c _
    cases c <;> simp only [Call.divisor] <;> omega
  have hrun := run_eq_foldl (σ := Thread.start layout (mem.set layout.areaPtr 1)) hpos
  have hleft := (hregions.start hAlt hClt hMlt hApos hzero).run (hregions.apart hClt hMlt)
    (by omega) (by omega) hrun
  refine ⟨_, hrun, fun i hi => ?_, fun i hi => ?_, ?_, fun q hq hqcounter hqslot => ?_⟩
  · have hslot := hleft.slot i (by omega)
    rw [Thread.maxSlot, hleft.keep, hregions.maxPtr, hmaxMapSize, Ptr.add_add] at hslot
    exact hslot
  · have hcounter := hleft.counter i (by omega)
    rw [Thread.counter, hleft.keep, hregions.counterPtr, hmapSize, Ptr.add_add] at hcounter
    exact hcounter
  · -- byte 0 belongs to neither region
    have hcounter : ¬ layout.counterPtr.Within layout.mapSize segment := by
      rw [hregions.counterPtr, hmapSize]
      exact start_not_within hApos (by omega)
    have hslot : ¬ layout.maxPtr.Within (8 * layout.maxMapSize) segment := by
      rw [hregions.maxPtr, hmaxMapSize]
      exact start_not_within (by omega) (by omega)
    rw [hleft.frame segment hcounter hslot, hregions.areaPtr]
    exact Mem.set_same _ _ _
  · rw [hleft.frame q (by rwa [hregions.counterPtr, hmapSize])
      (by rwa [hregions.maxPtr, hmaxMapSize]), hregions.areaPtr]
    exact Mem.set_of_ne _ _ _ hq

/-- Sixteen bytes of coverage, four counters, two slots. -/
def threeRegions : Env :=
  sizesEnv (some "16") (some "4") (some "16")

/-- Counter 2 is hit twice in the state 3, and slot 1 gets two offers. -/
theorem threeRegions_afterRun :
    ∃ layout mem' σ, mapShm threeRegions onlySeven initial (fun _ _ => 0) = .ok (layout, mem') ∧
      run step (Thread.start layout mem')
        [.pushState 3, .mapInc 5, .max 9 7, .mapInc 5, .max 1 12] = some σ ∧
      (σ.mem.load64 ⟨.segment 7, 28⟩).toNat = 12 ∧ σ.mem (.segment 7) 18 = 2 ∧
      σ.mem (.segment 7) 0 = 1 := by
  have hmap : mapShm threeRegions onlySeven initial (fun _ _ => 0) =
      .ok (segmentLayout threeRegions 7,
        Mem.set (fun _ _ => 0) (segmentLayout threeRegions 7).areaPtr 1) := rfl
  have hid : threeRegions AFL_SHM_ENV_VAR = some "7" := rfl
  have hA : reserved threeRegions AFL_SIZE_ENV_VAR = 16 := rfl
  have hC : reserved threeRegions IJON_COUNTER_SIZE_ENV_VAR = 4 := rfl
  have hM : reserved threeRegions IJON_MAX_SIZE_ENV_VAR = 16 := rfl
  obtain ⟨σ, hrun, hslots, hcounters, hfirst, -⟩ :=
    regions_afterRun hid rfl hA hC hM (by decide) (by decide) (by decide) (fun _ _ => rfl) hmap
      [.pushState 3, .mapInc 5, .max 9 7, .mapInc 5, .max 1 12]
  have hgreatest : IsGreatest
      (offers 2 1 [.pushState 3, .mapInc 5, .max 9 7, .mapInc 5, .max 1 12]) 12 := by
    constructor
    · exact Or.inr ⟨.max 1 12, by simp, rfl⟩
    · rintro v (rfl | ⟨c, hc, hoffer⟩)
      · decide
      · revert c
        simp [Call.offer]
        omega
  refine ⟨_, _, σ, hmap, hrun, (hslots 1 (by decide)).unique hgreatest, ?_, hfirst⟩
  exact (hcounters 2 (by decide)).trans (by decide)

end Ijon
end Runtime
end FuzzufCc
