import FuzzufCc.Lib.Transition
import FuzzufCc.Runtime.Bitmap

/-!
# Feedback — the switch of the IJON runtime

`ijon_disable_feedback` sets the mask of its thread to 0 and `ijon_enable_feedback` sets all of its
bits.  The code in the blocks belongs to another pass, and reads the map pointer, the previous
location of its thread and the map.
-/

namespace FuzzufCc

open LLVM IR AFLCoverage

namespace Runtime
namespace Feedback

def maskValname := "__ijon_mask"

/-- `__thread`. -/
def threadLocal (g : String) : Bool :=
  g == prevLocValname || g == maskValname

/-- The threads of a process: its globals and its memory, and what each thread has for itself. -/
structure Threads (T : Type) where
  globals : String → Option (Value Object)
  locals : T → String → Option (Value Object)
  mem : Mem Object

inductive Event (T : Type)
  | enter (t : T) (bb : BlockRef)
  | disable (t : T)
  | enable (t : T)
  -- the rest of the program and the two initialisers
  | other (area : Ptr Object) (mem : Mem Object)

def ijonEnableFeedback (s : State Object) : State Object :=
  s.setGlobal maskValname (.i32 0xffffffff)

def ijonDisableFeedback (s : State Object) : State Object :=
  s.setGlobal maskValname (.i32 0)

variable {T : Type}

namespace Threads

/-- The static initialisers, with the map at `area`. -/
def start (area : Ptr Object) (mem : Mem Object) : Threads T where
  globals g := if g = areaPtrValname then some (.ptr area) else none
  locals _ g :=
    if g = prevLocValname then some (.i32 0)
    else if g = maskValname then some (.i32 0xffffffff)
    else none
  mem := mem

variable (w : Threads T) (t : T)

/-- What a thread sees. -/
def view : State Object where
  regs _ := none
  globals g := if threadLocal g then w.locals t g else w.globals g
  mem := w.mem
  stores := []

variable [DecidableEq T]

/-- What a thread leaves. -/
def leave (s : State Object) : Threads T where
  globals g := if threadLocal g then w.globals g else s.globals g
  locals := Function.update w.locals t s.globals
  mem := s.mem

def step (code : BlockRef → List Inst) : Event T → Option (Threads T)
  | .enter t bb => (enterBlock code (w.view t) bb).map (w.leave t)
  | .disable t => some (w.leave t (ijonDisableFeedback (w.view t)))
  | .enable t => some (w.leave t (ijonEnableFeedback (w.view t)))
  | .other area mem =>
      some { w with
        globals := Function.update w.globals areaPtrValname (some (.ptr area))
        mem := mem }

end Threads

/-- Whether the last switch of a thread was a `disable`. -/
def switchedOff [DecidableEq T] (t : T) (es : List (Event T)) : Bool :=
  es.foldl (fun off e =>
    match e with
    | .disable t' => if t' = t then true else off
    | .enable t' => if t' = t then false else off
    | _ => off) false

/-! ## What the switch is for -/

/-- Only cell 0 of the map is changed. -/
def OnlyCellZero (w w' : Threads T) : Prop :=
  ∀ area, w.globals areaPtrValname = some (.ptr area) → ∀ loc : BitVec 32, loc ≠ 0 →
    w'.mem area.obj (cell area loc).off = w.mem area.obj (cell area loc).off

section Instrumented

variable (im : InstrumentationMethod) (um : UpdateMethod) (ids : IdMap)

/-- The cell of the block is updated, from the previous location of the thread. -/
def Records (w w' : Threads T) (t : T) (bb : BlockRef) : Prop :=
  ∃ area prev, Ready (w.view t) area prev ∧
    w'.mem =
      match ids.find bb with
      | none => w.mem
      | some curLoc => um.bump w.mem (cell area (im.location prev curLoc))

/-- The block has no id, or its cell is cell 0 or cannot count any further. -/
def Spared (w : Threads T) (t : T) (bb : BlockRef) : Prop :=
  ∀ curLoc area prev, ids.find bb = some curLoc → Ready (w.view t) area prev →
    im.location prev curLoc = 0 ∨
      um = .capFF ∧ w.mem area.obj (cell area (im.location prev curLoc)).off = 0xff

variable [DecidableEq T]

/-- In a run, a thread that is switched off changes at most cell 0, and any other records its
blocks. -/
def Switches (w₀ : Threads T) (es : List (Event T)) : Prop :=
  ∀ past t bb rest w w', es = past ++ .enter t bb :: rest →
    Transition.run (Threads.step · (instrumented im um ids)) w₀ past = some w →
      w.step (instrumented im um ids) (.enter t bb) = some w' →
        if switchedOff t past then OnlyCellZero w w' else Records im um ids w w' t bb

end Instrumented

/-! ## What a thread sees and leaves -/

section Views

variable {w : Threads T} {s : State Object} {area : Ptr Object} {prev : BitVec 32} {t u : T}

theorem ready_view_iff :
    Ready (w.view t) area prev ↔
      w.globals areaPtrValname = some (.ptr area) ∧ w.locals t prevLocValname = some (.i32 prev) :=
  ⟨fun h => ⟨h.area, h.prev⟩, fun h => ⟨h.1, h.2⟩⟩

/-- Every thread finds the map and its previous location. -/
def AllReady (w : Threads T) : Prop :=
  ∀ t, ∃ area prev, Ready (w.view t) area prev

theorem allReady_start (area : Ptr Object) (mem : Mem Object) :
    AllReady (Threads.start (T := T) area mem) :=
  fun _ => ⟨area, 0, ready_view_iff.2 ⟨rfl, rfl⟩⟩

variable [DecidableEq T]

theorem ready_view_leave_self (h : Ready s area prev) : Ready ((w.leave t s).view t) area prev := by
  refine ready_view_iff.2 ⟨h.area, ?_⟩
  simpa [Threads.leave] using h.prev

/-- The previous location of another thread stays. -/
theorem ready_view_leave_of_ne (h : Ready s area prev) {area' : Ptr Object} {prev' : BitVec 32}
    (hu : Ready (w.view u) area' prev') (hne : u ≠ t) :
    Ready ((w.leave t s).view u) area prev' := by
  refine ready_view_iff.2 ⟨h.area, ?_⟩
  simpa [Threads.leave, Function.update_of_ne hne] using (ready_view_iff.1 hu).2

theorem AllReady.leave (hall : AllReady w) (h : Ready s area prev) : AllReady (w.leave t s) := by
  intro u
  by_cases hu : u = t
  · subst hu
    exact ⟨area, prev, ready_view_leave_self h⟩
  · rcases hall u with ⟨area', prev', hready⟩
    exact ⟨area, prev', ready_view_leave_of_ne h hready hu⟩

theorem ready_setGlobal_mask (h : Ready s area prev) (v : Value Object) :
    Ready (s.setGlobal maskValname v) area prev := by
  have harea : areaPtrValname ≠ maskValname := by decide
  have hprev : prevLocValname ≠ maskValname := by decide
  constructor
  · rw [State.setGlobal_globals_of_ne _ _ _ harea]
    exact h.area
  · rw [State.setGlobal_globals_of_ne _ _ _ hprev]
    exact h.prev

end Views

/-! ## One step -/

section Steps

variable [DecidableEq T] {im : InstrumentationMethod} {um : UpdateMethod} {ids : IdMap}
  {w w' : Threads T}

/-- A block entry is possible, and does not look at the mask. -/
theorem step_enter (im : InstrumentationMethod) (um : UpdateMethod) (ids : IdMap) {t : T}
    {area : Ptr Object} {prev : BitVec 32}
    (h : Ready (w.view t) area prev) (bb : BlockRef) :
    ∃ w', w.step (instrumented im um ids) (.enter t bb) = some w' ∧
      w'.mem =
        (match ids.find bb with
        | none => w.mem
        | some curLoc => um.bump w.mem (cell area (im.location prev curLoc))) ∧
      (AllReady w → AllReady w') := by
  cases hfind : ids.find bb with
  | none =>
      have henter := enterBlock_of_find_none im um hfind (w.view t)
      refine ⟨w.leave t (w.view t), ?_, rfl, fun hall => hall.leave h⟩
      rw [Threads.step, henter]
      rfl
  | some curLoc =>
      obtain ⟨s', henter, hready, hmem, -⟩ := enterBlock_of_find_some im um hfind h
      refine ⟨w.leave t s', ?_, hmem, fun hall => hall.leave hready⟩
      rw [Threads.step, henter]
      rfl

theorem AllReady.step (hall : AllReady w) {e : Event T} :
    w.step (instrumented im um ids) e = some w' → AllReady w' := by
  intro hstep
  cases e with
  | enter t bb =>
      rcases hall t with ⟨area, prev, h⟩
      obtain ⟨w'', hw'', -, hready⟩ := step_enter im um ids h bb
      obtain rfl : w'' = w' := Option.some.inj (hw''.symm.trans hstep)
      exact hready hall
  | disable t =>
      rcases hall t with ⟨area, prev, h⟩
      obtain rfl := Option.some.inj hstep
      exact hall.leave (ready_setGlobal_mask h _)
  | enable t =>
      rcases hall t with ⟨area, prev, h⟩
      obtain rfl := Option.some.inj hstep
      exact hall.leave (ready_setGlobal_mask h _)
  | other area mem =>
      obtain rfl := Option.some.inj hstep
      intro t
      rcases hall t with ⟨_, prev, h⟩
      refine ⟨area, prev, ready_view_iff.2 ⟨?_, (ready_view_iff.1 h).2⟩⟩
      simp

end Steps

/-! ## Which updates change a cell -/

section Cells

theorem cell_off_injective (area : Ptr Object) {loc loc' : BitVec 32} :
    (cell area loc).off = (cell area loc').off → loc = loc' := by
  intro h
  have hext : loc.signExtend 64 = loc'.signExtend 64 := by simpa [cell] using h
  have hint := congrArg BitVec.toInt hext
  rw [BitVec.toInt_signExtend_of_le (by decide), BitVec.toInt_signExtend_of_le (by decide)] at hint
  exact BitVec.toInt_inj.1 hint

/-- Only a capped counter can stay as it is. -/
theorem next_eq_self_iff (um : UpdateMethod) (c : BitVec 8) :
    um.next c = c ↔ um = .capFF ∧ c = 0xff := by
  cases um <;> simp only [UpdateMethod.next] <;> revert c <;> decide

variable {um : UpdateMethod} {w w' : Threads T} {area : Ptr Object} {loc : BitVec 32}

theorem onlyCellZero_of_mem_eq (hmem : w'.mem = w.mem) : OnlyCellZero w w' := by
  intro area _ loc _
  rw [hmem]

theorem onlyCellZero_bump_iff (harea : w.globals areaPtrValname = some (.ptr area))
    (hmem : w'.mem = um.bump w.mem (cell area loc)) :
    OnlyCellZero w w' ↔
      loc = 0 ∨ um = .capFF ∧ w.mem area.obj (cell area loc).off = 0xff := by
  rw [← next_eq_self_iff]
  constructor
  · intro h
    rcases eq_or_ne loc 0 with hloc | hloc
    · exact Or.inl hloc
    · have hsame := h area harea loc hloc
      rw [hmem] at hsame
      exact Or.inr ((Mem.set_same _ _ _).symm.trans hsame)
  · intro h area' harea' loc' hloc'
    obtain rfl : area = area' := Value.ptr.inj (Option.some.inj (harea.symm.trans harea'))
    rw [hmem, UpdateMethod.bump]
    rcases eq_or_ne loc' loc with rfl | hne
    · rcases h with rfl | hnext
      · exact absurd rfl hloc'
      · exact (Mem.set_same _ _ _).trans hnext
    · refine Mem.set_of_ne _ _ _ fun heq => hne ?_
      exact cell_off_injective area (congrArg Ptr.off heq)

end Cells

/-! ## Runs -/

section Runs

variable [DecidableEq T] {im : InstrumentationMethod} {um : UpdateMethod} {ids : IdMap}
  {w w' : Threads T}

/-- What a block entry does, whatever the mask. -/
theorem AllReady.enter (hall : AllReady w) {t : T} {bb : BlockRef}
    (hstep : w.step (instrumented im um ids) (.enter t bb) = some w') :
    Records im um ids w w' t bb ∧ (OnlyCellZero w w' ↔ Spared im um ids w t bb) := by
  rcases hall t with ⟨area, prev, h⟩
  obtain ⟨w'', hw'', hmem, -⟩ := step_enter im um ids h bb
  obtain rfl : w'' = w' := Option.some.inj (hw''.symm.trans hstep)
  refine ⟨⟨area, prev, h, hmem⟩, ?_⟩
  cases hfind : ids.find bb with
  | none =>
      rw [hfind] at hmem
      refine iff_of_true (onlyCellZero_of_mem_eq hmem) fun curLoc area' prev' hsome => ?_
      rw [hfind] at hsome
      exact absurd hsome (by simp)
  | some curLoc =>
      rw [hfind] at hmem
      have harea := (ready_view_iff.1 h).1
      rw [onlyCellZero_bump_iff harea hmem]
      constructor
      · intro hspared curLoc' area' prev' hsome h'
        obtain rfl : curLoc = curLoc' := Option.some.inj (hfind.symm.trans hsome)
        obtain rfl : area = area' :=
          Value.ptr.inj (Option.some.inj (h.area.symm.trans h'.area))
        obtain rfl : prev = prev' := Value.i32.inj (Option.some.inj (h.prev.symm.trans h'.prev))
        exact hspared
      · intro hspared
        exact hspared curLoc area prev hfind h

theorem AllReady.run (hall : AllReady w) {es : List (Event T)} :
    Transition.run (Threads.step · (instrumented im um ids)) w es = some w' → AllReady w' :=
  Transition.invariant_run (fun _ _ _ h hstep => h.step hstep) hall

/-- The mask is as the switch was left. -/
def MaskIs (w : Threads T) (past : List (Event T)) : Prop :=
  ∀ t, w.locals t maskValname = some (.i32 (if switchedOff t past then 0 else 0xffffffff))

theorem switchedOff_concat (t : T) (past : List (Event T)) (e : Event T) :
    switchedOff t (past ++ [e]) =
      match e with
      | .disable t' => if t' = t then true else switchedOff t past
      | .enable t' => if t' = t then false else switchedOff t past
      | _ => switchedOff t past := by
  simp only [switchedOff, List.foldl_append, List.foldl_cons, List.foldl_nil]

/-- The thread keeps its mask if its switch is as before. -/
theorem MaskIs.leave {past : List (Event T)} {e : Event T} {t : T} {s : State Object}
    (hmask : MaskIs w past) (hother : ∀ u ≠ t, switchedOff u (past ++ [e]) = switchedOff u past)
    (h : s.globals maskValname =
      some (.i32 (if switchedOff t (past ++ [e]) then 0 else 0xffffffff))) :
    MaskIs (w.leave t s) (past ++ [e]) := by
  intro u
  by_cases hu : u = t
  · subst hu
    simpa [Threads.leave] using h
  · simpa [Threads.leave, Function.update_of_ne hu, hother u hu] using hmask u

theorem enterBlock_mask {s s' : State Object} {bb : BlockRef}
    (h : enterBlock (instrumented im um ids) s bb = some s') :
    s'.globals maskValname = s.globals maskValname := by
  refine execAll_globals (fun i hi => ?_) h
  cases hfind : ids.find bb with
  | none => simp [instrument, hfind] at hi
  | some curLoc =>
      have hmem : i ∈ blockCode im um curLoc := by simpa [instrument, hfind] using hi
      exact blockCode_storesTo im um curLoc (by decide) i hmem

/-- The runtime keeps the mask right in every run; it is the code in the blocks that does not read
it. -/
theorem maskIs_run {area : Ptr Object} {mem : Mem Object} {past : List (Event T)} :
    Transition.run (Threads.step · (instrumented im um ids)) (Threads.start area mem) past =
      some w → MaskIs w past := by
  refine Transition.history_run (P := fun past w => MaskIs w past) (fun _ => rfl) ?_
  intro past w e w' _ hmask hstep
  cases e with
  | enter t bb =>
      obtain ⟨s', hs', rfl⟩ := Option.map_eq_some_iff.1 hstep
      refine hmask.leave (fun u _ => switchedOff_concat u past _) ?_
      rw [enterBlock_mask hs', switchedOff_concat]
      exact hmask t
  | disable t =>
      obtain rfl := Option.some.inj hstep
      refine hmask.leave (fun u hu => ?_) ?_
      · simp [switchedOff_concat, hu.symm]
      · simp [switchedOff_concat, ijonDisableFeedback]
  | enable t =>
      obtain rfl := Option.some.inj hstep
      refine hmask.leave (fun u hu => ?_) ?_
      · simp [switchedOff_concat, hu.symm]
      · simp [switchedOff_concat, ijonEnableFeedback]
  | other area mem =>
      obtain rfl := Option.some.inj hstep
      intro t
      rw [switchedOff_concat]
      exact hmask t

/-- **The switch.** It works in exactly the runs in which no block that its thread enters switched
off has a cell to count in. -/
theorem switches_iff (im : InstrumentationMethod) (um : UpdateMethod) (ids : IdMap)
    (area : Ptr Object) (mem : Mem Object) (es : List (Event T)) :
    Switches im um ids (Threads.start area mem) es ↔
      ∀ past t bb rest w, es = past ++ .enter t bb :: rest →
        Transition.run (Threads.step · (instrumented im um ids)) (Threads.start area mem) past =
            some w →
          switchedOff t past → Spared im um ids w t bb := by
  constructor
  · intro hsw past t bb rest w hes hrun hoff
    have hall := (allReady_start area mem).run hrun
    rcases hall t with ⟨area', prev, h⟩
    obtain ⟨w', hw', -⟩ := step_enter im um ids h bb
    have honly := hsw past t bb rest w w' hes hrun hw'
    rw [if_pos hoff] at honly
    exact (hall.enter hw').2.1 honly
  · intro hspared past t bb rest w w' hes hrun hw'
    have hall := (allReady_start area mem).run hrun
    obtain ⟨hrecords, honly⟩ := hall.enter hw'
    split
    · next hoff => exact honly.2 (hspared past t bb rest w hes hrun hoff)
    · exact hrecords

/-- Off, and yet cell 5 is counted. -/
theorem counted_while_off :
    ¬ Switches .node .naive [(⟨0, 0⟩, 5)]
      (Threads.start (T := Nat) ⟨.bitmapAreaInitial, 0⟩ fun _ _ => 0)
      [.disable 0, .enter 0 ⟨0, 0⟩] := by
  intro h
  have hready : AllReady (Threads.start (T := Nat) ⟨.bitmapAreaInitial, 0⟩ fun _ _ => 0) :=
    allReady_start _ _
  obtain ⟨w, hw⟩ : ∃ w, Threads.step (Threads.start ⟨.bitmapAreaInitial, 0⟩ fun _ _ => 0)
      (instrumented .node .naive [(⟨0, 0⟩, 5)]) (.disable 0) = some w := ⟨_, rfl⟩
  have hall := hready.step hw
  rcases hall 0 with ⟨area, prev, hr⟩
  obtain ⟨w', hw', -⟩ := step_enter .node .naive [(⟨0, 0⟩, 5)] hr ⟨0, 0⟩
  have honly := h [.disable 0] 0 ⟨0, 0⟩ [] w w' rfl
    (Transition.run_cons_eq_some.2 ⟨w, hw, rfl⟩) hw'
  rw [if_pos (by decide)] at honly
  rcases (hall.enter hw').2.1 honly 5 area prev rfl hr with hcell | ⟨hcap, -⟩
  · have hfive : (5 : BitVec 32) ≠ 0 := by decide
    exact hfive hcell
  · cases hcap

end Runs

end Feedback
end Runtime
end FuzzufCc
