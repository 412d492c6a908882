import FuzzufCc.Runtime.IjonCampaign
import FuzzufCc.Runtime.SharedMemory

/-!
# Linked — programs with both runtimes

The instrumented blocks and the calls of IJON take turns in one process and write to one segment.
If the ids fit the coverage region, a run leaves what the blocks alone leave in this region, and
what the calls alone leave everywhere else.
-/

namespace FuzzufCc

open LLVM Libc IR AFLCoverage Transition

namespace Runtime

open Campaign (shared)

/-- A process that is linked with both runtimes: one memory, the globals of the inserted code, and
the layout and the state of IJON. -/
structure Linked where
  process : Bitmap.Process
  layout : Ijon.Layout
  state : BitVec 32
  stateLog : BitVec 32

inductive LinkedEvent
  | enter (bb : BlockRef)
  | call (c : Ijon.Call)
  deriving DecidableEq, Repr

def LinkedEvent.block? : LinkedEvent → Option BlockRef
  | .enter bb => some bb
  | .call _ => none

def LinkedEvent.call? : LinkedEvent → Option Ijon.Call
  | .enter _ => none
  | .call c => some c

namespace Linked

/-- The blocks that a run enters. -/
def blocks (es : List LinkedEvent) : List BlockRef :=
  es.filterMap LinkedEvent.block?

/-- The calls that a run makes. -/
def calls (es : List LinkedEvent) : List Ijon.Call :=
  es.filterMap LinkedEvent.call?

/-- Behind the constructors. -/
def start (env : Env) (segments : Segments) (mem : Mem Object) : Option Linked :=
  (Runtime.start env segments mem).map fun started =>
    { process := started.1, layout := started.2, state := 0, stateLog := 0 }

variable (p : Linked)

def mem : Mem Object := p.process.state.mem

/-- What the calls of IJON see. -/
def thread : Ijon.Thread where
  layout := p.layout
  mem := p.mem
  state := p.state
  stateLog := p.stateLog

/-- One event; `none` is the end of the process. -/
def step (code : BlockRef → List Inst) (p : Linked) : LinkedEvent → Option Linked
  | .enter bb =>
      (enterBlock code p.process.state bb).map fun s =>
        { p with process := { p.process with state := s } }
  | .call c =>
      (Ijon.step p.thread c).map fun σ =>
        { process := p.process.withMem σ.mem
          layout := σ.layout
          state := σ.state
          stateLog := σ.stateLog }

/-- The server behind a PUT, with which it shares memory. -/
def behind (server put : Linked) : Linked :=
  { server with
    process := server.process.withMem fun o => if shared o then put.mem o else server.mem o }

/-- An `ExecutePUT` whose PUT goes through `es`, up to its end or to the signal that ends it. -/
def execute (code : BlockRef → List Inst) (server : Linked) (es : List LinkedEvent) :
    Option Linked :=
  (run (step code) server es).map server.behind

end Linked

/-- No byte of the counters or of the slots is in `R`. -/
structure Ijon.Layout.Avoids (layout : Ijon.Layout) (R : Ptr Object → Prop) : Prop where
  counters : ∀ q, layout.counterPtr.Within layout.mapSize q → ¬ R q
  slots : ∀ q, layout.maxPtr.Within (8 * layout.maxMapSize) q → ¬ R q

theorem Ijon.Layout.Avoids.region {layout : Ijon.Layout} {R : Ptr Object → Prop}
    (h : layout.Avoids R) (c : Ijon.Call) (q : Ptr Object) :
    c.Region layout layout.mapSize (8 * layout.maxMapSize) q → ¬ R q := by
  cases c with
  | xorState val => exact False.elim
  | pushState x => exact False.elim
  | max addr val => exact h.slots q
  | min addr val => exact h.slots q
  | mapInc addr => exact h.counters q
  | mapSet addr => exact h.counters q

/-! ## Both runtimes side by side -/

namespace Linked

variable {env : Env} {segments : Segments} {im : InstrumentationMethod} {um : UpdateMethod}
  {ids : IdMap} {area : Ptr Object} {A : Nat} {layout : Ijon.Layout}

/-- The regions of IJON are nonempty, and apart from the map and from each other. -/
structure Placed (area : Ptr Object) (A : Nat) (layout : Ijon.Layout) : Prop where
  apart : Ijon.Apart layout
  avoids : layout.Avoids (area.Within A)
  mapSize : 0 < layout.mapSize
  maxMapSize : 0 < layout.maxMapSize

/-- The process is made of a map, which holds the bytes of `m`, and of a thread of IJON. -/
structure Joined (env : Env) (im : InstrumentationMethod) (ids : IdMap) (area : Ptr Object)
    (A : Nat) (layout : Ijon.Layout) (m : Mem Object) (prev : BitVec 32) (σ : Ijon.Thread)
    (p : Linked) : Prop where
  inv : Inv env im ids p.process area prev
  thread : p.thread = σ.inside (area.Within A) m
  keep : σ.layout = layout

variable {m : Mem Object} {prev : BitVec 32} {σ : Ijon.Thread} {p : Linked}

theorem Joined.mem (h : Joined env im ids area A layout m prev σ p) :
    p.mem = Mem.merge (area.Within A) m σ.mem :=
  congrArg Ijon.Thread.mem h.thread

theorem Joined.cell_within (h : Joined env im ids area A layout m prev σ p)
    (hA : Ijon.reserved env Ijon.AFL_SIZE_ENV_VAR = A) (hfit : IdsFitRegion env im ids)
    {bb : BlockRef} {id : BitVec 32} (hfind : ids.find bb = some id) :
    area.Within A (cell area (im.location prev id)) := by
  have hlt := h.inv.location_lt hfit hfind
  rw [hA] at hlt
  have hdist : area.dist (cell area (im.location prev id)) =
      ((im.location prev id).signExtend 64).toNat := index_cell area _
  exact ⟨rfl, hdist ▸ hlt⟩

variable (um) in
/-- A block with an id updates its cell of the map. -/
theorem Joined.enter (h : Joined env im ids area A layout m prev σ p)
    (hA : Ijon.reserved env Ijon.AFL_SIZE_ENV_VAR = A) (hfit : IdsFitRegion env im ids)
    {bb : BlockRef} {id : BitVec 32} (hfind : ids.find bb = some id) :
    ∃ p', step (instrumented im um ids) p (.enter bb) = some p' ∧
      Joined env im ids area A layout (um.bump m (cell area (im.location prev id)))
        (im.nextPrev prev id) σ p' := by
  have hwithin := h.cell_within hA hfit hfind
  rcases enterBlock_of_find_some im um hfind h.inv.ready with ⟨s, henter, hready, hmem, -⟩
  refine ⟨{ p with process := { p.process with state := s } }, ?_, ⟨hready, h.inv.area, ?_⟩, ?_,
    h.keep⟩
  · rw [step, henter, Option.map_some]
  · cases im with
    | hashedEdge => exact Or.inr ⟨rfl, bb, id, hfind, rfl⟩
    | node => exact h.inv.prev
  · have hbefore := h.thread
    simp only [Linked.thread, Ijon.Thread.inside, Ijon.Thread.mk.injEq] at hbefore ⊢
    refine ⟨hbefore.1, ?_, hbefore.2.2⟩
    calc s.mem
        = um.bump p.mem (cell area (im.location prev id)) := hmem
      _ = um.bump (Mem.merge (area.Within A) m σ.mem) (cell area (im.location prev id)) := by
            rw [h.mem]
      _ = Mem.merge (area.Within A) (um.bump m (cell area (im.location prev id))) σ.mem := by
            rw [UpdateMethod.bump, Mem.merge_of_mem hwithin, Mem.set_merge_of_mem hwithin]
            rfl

/-- A call has its effect on the thread. -/
theorem Joined.call (h : Joined env im ids area A layout m prev σ p)
    (hplaced : Placed area A layout) (code : BlockRef → List Inst) (c : Ijon.Call) :
    ∃ p', step code p (.call c) = some p' ∧
      Joined env im ids area A layout m prev (c.effect σ) p' := by
  obtain rfl := h.keep
  have hlayout : p.thread.layout = σ.layout := by
    rw [h.thread]
    rfl
  have hpos : 0 < c.divisor p.thread.layout := by
    rw [hlayout]
    cases c <;> first | exact hplaced.mapSize | exact hplaced.maxMapSize
  have heffect : c.effect p.thread = (c.effect σ).inside (area.Within A) m := by
    rw [h.thread]
    exact Ijon.Call.effect_inside hplaced.apart.counters (hlayout ▸ hpos)
      (hplaced.avoids.region c)
  have hcall : Ijon.step p.thread c = some ((c.effect σ).inside (area.Within A) m) :=
    Ijon.Call.step_eq_some.2 ⟨hpos, heffect.symm⟩
  let σ' := (c.effect σ).inside (area.Within A) m
  refine ⟨⟨p.process.withMem σ'.mem, σ'.layout, σ'.state, σ'.stateLog⟩, ?_,
    ⟨Bitmap.Process.withMem_ready h.inv.ready _, h.inv.area, h.inv.prev⟩, rfl, ?_⟩
  · rw [step, hcall]
    rfl
  · exact Ijon.Call.effect_layout

variable (um) in
/-- **One process.** The blocks of a run change the map and its calls change the thread, as if the
others did not happen. -/
theorem Joined.run (h : Joined env im ids area A layout m prev σ p)
    (hA : Ijon.reserved env Ijon.AFL_SIZE_ENV_VAR = A) (hfit : IdsFitRegion env im ids)
    (hplaced : Placed area A layout) (es : List LinkedEvent) :
    ∃ p' prev', Transition.run (step (instrumented im um ids)) p es = some p' ∧
      Joined env im ids area A layout
        (((im.locationsFrom prev (idsOf ids (blocks es))).map
          (cell area)).foldl um.bump m)
        prev' ((calls es).foldl Ijon.Call.effect σ) p' := by
  induction es generalizing p m prev σ with
  | nil => exact ⟨p, prev, rfl, h⟩
  | cons e es ih =>
      cases e with
      | enter bb =>
          have hblocks : blocks (.enter bb :: es) =
              bb :: blocks es := rfl
          have hcalls : calls (.enter bb :: es) =
              calls es := rfl
          rw [hblocks, hcalls]
          cases hfind : ids.find bb with
          | none =>
              have hids : idsOf ids (bb :: blocks es) =
                  idsOf ids (blocks es) := by
                simp [idsOf, hfind]
              have hstep : step (instrumented im um ids) p (.enter bb) = some p := by
                rw [step, enterBlock_of_find_none im um hfind]
                rfl
              rcases ih h with ⟨p', prev', hrun, hjoined⟩
              rw [hids]
              exact ⟨p', prev', run_cons_eq_some.2 ⟨p, hstep, hrun⟩, hjoined⟩
          | some id =>
              have hids : idsOf ids (bb :: blocks es) =
                  id :: idsOf ids (blocks es) := by
                simp [idsOf, hfind]
              obtain ⟨p₁, hstep, h₁⟩ := h.enter um hA hfit hfind
              rcases ih h₁ with ⟨p', prev', hrun, hjoined⟩
              rw [hids]
              exact ⟨p', prev', run_cons_eq_some.2 ⟨p₁, hstep, hrun⟩, hjoined⟩
      | call c =>
          obtain ⟨p₁, hstep, h₁⟩ := h.call hplaced (instrumented im um ids) c
          rcases ih h₁ with ⟨p', prev', hrun, hjoined⟩
          exact ⟨p', prev', run_cons_eq_some.2 ⟨p₁, hstep, hrun⟩, hjoined⟩

variable (um) in
/-- **One execution.** The server is joined of a map and of a thread that has executed the calls. -/
theorem Joined.execute (h : Joined env im ids area A layout m prev σ p)
    (hA : Ijon.reserved env Ijon.AFL_SIZE_ENV_VAR = A) (hfit : IdsFitRegion env im ids)
    (hplaced : Placed area A layout) (hshared : shared area.obj) (es : List LinkedEvent) :
    ∃ p' σ', Linked.execute (instrumented im um ids) p es = some p' ∧
      Ijon.execute σ (calls es) = some σ' ∧
      Joined env im ids area A layout
        (((im.locationsFrom prev (idsOf ids (blocks es))).map
          (cell area)).foldl um.bump m) prev σ' p' := by
  obtain rfl := h.keep
  rcases h.run um hA hfit hplaced es with ⟨put, _, hrun, hput⟩
  have hcalls : Transition.run Ijon.step σ (calls es) =
      some ((calls es).foldl Ijon.Call.effect σ) := by
    refine Ijon.run_eq_foldl fun c _ => ?_
    cases c <;> first | exact hplaced.mapSize | exact hplaced.maxMapSize
  have hexecute : Linked.execute (instrumented im um ids) p es = some (p.behind put) := by
    rw [Linked.execute, hrun, Option.map_some]
  have hthread : Ijon.execute σ (calls es) = some { σ with
      mem := fun o =>
        if shared o then ((calls es).foldl Ijon.Call.effect σ).mem o
        else σ.mem o } := by
    rw [Ijon.execute, hcalls, Option.map_some]
  refine ⟨_, _, hexecute, hthread,
    ⟨Bitmap.Process.withMem_ready h.inv.ready _, h.inv.area, h.inv.prev⟩, ?_, rfl⟩
  have hserver := h.thread
  simp only [Linked.thread, Ijon.Thread.inside, Ijon.Thread.mk.injEq] at hserver ⊢
  refine ⟨hserver.1, ?_, hserver.2.2⟩
  funext o a
  simp only [behind, Linked.mem, Bitmap.Process.withMem, Mem.merge]
  cases ho : shared o with
  | true =>
      have hmem := congrFun (congrFun hput.mem o) a
      simpa [Linked.mem, Mem.merge] using hmem
  | false =>
      -- the map is shared
      have hnot : ¬ area.Within A ⟨o, a⟩ := by
        rintro ⟨hobj, -⟩
        rw [← hobj, ho] at hshared
        cases hshared
      have hmem := congrFun (congrFun h.mem o) a
      simpa [Linked.mem, Mem.merge, hnot] using hmem

variable (um) in
/-- **All executions.** -/
theorem Joined.campaign (h : Joined env im ids area A layout m prev σ p)
    (hA : Ijon.reserved env Ijon.AFL_SIZE_ENV_VAR = A) (hfit : IdsFitRegion env im ids)
    (hplaced : Placed area A layout) (hshared : shared area.obj)
    (executions : List (List LinkedEvent)) :
    ∃ p' σ', Transition.run (Linked.execute (instrumented im um ids)) p executions = some p' ∧
      Transition.run Ijon.execute σ (executions.map calls) = some σ' ∧
      Joined env im ids area A layout
        (((executions.flatMap fun es =>
          im.locationsFrom prev (idsOf ids (blocks es))).map
            (cell area)).foldl um.bump m) prev σ' p' := by
  induction executions generalizing p m σ with
  | nil => exact ⟨p, σ, rfl, rfl, h⟩
  | cons es executions ih =>
      rcases h.execute um hA hfit hplaced hshared es with ⟨p₁, σ₁, hp₁, hσ₁, h₁⟩
      rcases ih h₁ with ⟨p', σ', hp', hσ', h'⟩
      refine ⟨p', σ', run_cons_eq_some.2 ⟨p₁, hp₁, hp'⟩, run_cons_eq_some.2 ⟨σ₁, hσ₁, hσ'⟩, ?_⟩
      rw [List.flatMap_cons, List.map_append, List.foldl_append]
      exact h'

/-! ## Behind the constructors -/

theorem set_set (m : Mem Object) (q : Ptr Object) (b : BitVec 8) :
    (m.set q b).set q b = m.set q b := by
  funext o a
  by_cases hq : Ptr.mk o a = q
  · subst hq
    simp [Mem.set]
  · rw [Mem.set_of_ne _ _ _ hq]

variable {mem : Mem Object} {idStr : String} {segment : Ptr Object} {C M : Nat}

theorem placed (h : Ijon.Consecutive segment A C M layout) (hA : A < 2 ^ 32) (hC : C < 2 ^ 32)
    (hM : M < 2 ^ 32) (hCpos : 0 < C) (hMle : 8 ≤ M) : Placed segment A layout := by
  have hmapSize := h.mapSize
  have hmaxMapSize := h.maxMapSize
  refine ⟨h.apart hC hM, ⟨fun q hq hmap => ?_, fun q hq hmap => ?_⟩, by omega, by omega⟩
  · rw [h.counterPtr, hmapSize] at hq
    exact hmap.not_add le_rfl (by omega) hq
  · rw [h.maxPtr, hmaxMapSize] at hq
    exact hmap.not_add (by omega) (by omega) hq

/-- Both constructors have set byte 0 of the segment. -/
theorem start_joined (im : InstrumentationMethod) (ids : IdMap)
    (hid : env Ijon.AFL_SHM_ENV_VAR = some idStr)
    (hdefer : env Bitmap.DEFER_ENV_VAR = none)
    (hsegment : segment = ⟨.segment (atoi idStr.toList), 0⟩)
    (hA : Ijon.reserved env Ijon.AFL_SIZE_ENV_VAR = A)
    (hC : Ijon.reserved env Ijon.IJON_COUNTER_SIZE_ENV_VAR = C)
    (hM : Ijon.reserved env Ijon.IJON_MAX_SIZE_ENV_VAR = M) (hApos : 0 < A) (hCpos : 0 < C)
    (hMle : 8 ≤ M) (hstart : Linked.start env segments mem = some p) :
    Ijon.Consecutive segment A C M p.layout ∧
      Joined env im ids segment A p.layout (mem.set segment 1) 0
        (Ijon.Thread.start p.layout (mem.set segment 1)) p := by
  rcases Option.map_eq_some_iff.1 hstart with ⟨started, hstarted, rfl⟩
  rcases start_eq_some.1 hstarted with ⟨p₀, mem', hinit, hmap, hprocess⟩
  obtain ⟨hready, hmem⟩ := Campaign.autoInit_ready hid hdefer hinit
  rcases Ijon.mapShm_eq_ok hid hmap with ⟨_, hlayout, rfl⟩
  have hregions : Ijon.Consecutive segment A C M started.2 := by
    have h := Ijon.segmentLayout_consecutive (atoi idStr.toList) (hA ▸ hApos) (hC ▸ hCpos)
      (show 0 < Ijon.reserved env Ijon.IJON_MAX_SIZE_ENV_VAR by omega)
    rwa [hA, hC, hM, ← hsegment, ← hlayout] at h
  rw [hregions.areaPtr, hmem, ← hsegment, set_set] at hprocess
  rw [← hsegment] at hready
  refine ⟨hregions, ⟨?_, Or.inr ⟨idStr, hid, hsegment⟩, Or.inl rfl⟩, ?_, rfl⟩
  · rw [hprocess]
    exact Bitmap.Process.withMem_ready hready _
  · simp only [Linked.thread, Linked.mem, Ijon.Thread.inside, Ijon.Thread.start, Mem.merge_self,
      Ijon.Thread.mk.injEq, true_and, and_true]
    rw [hprocess]
    rfl

/-- What a campaign of a linked program leaves, with `A` bytes of coverage, `C` counters and `M`
bytes of slots from `segment` on. -/
structure Records (im : InstrumentationMethod) (um : UpdateMethod) (ids : IdMap)
    (layout : Ijon.Layout) (segment : Ptr Object) (A C M : Nat) (mem : Mem Object)
    (executions : List (List LinkedEvent)) (mem' : Mem Object) : Prop where
  -- byte 0 was set by the constructors
  coverage : ∀ i < A, (mem' segment.obj (segment.add i).off).toNat =
    um.after (if i = 0 then 1 else 0)
      (((executions.flatMap fun es =>
        im.locations (idsOf ids (blocks es))).map
          (cell segment)).count (segment.add i))
  counters : ∀ i < C, mem' segment.obj (segment.add (A + i)).off =
    (executions.flatMap fun es =>
      Ijon.stated layout (calls es)).foldl
        (fun b sc => sc.2.onCounter C i sc.1 b) 0
  slots : ∀ i < M / 8, IsGreatest
    (Ijon.offers (M / 8) i (executions.flatMap calls))
    (mem'.load64 (segment.add (A + C + 8 * i))).toNat
  frame : ∀ q, ¬ segment.Within A q → ¬ (segment.add A).Within C q →
    ¬ (segment.add (A + C)).Within (8 * (M / 8)) q → mem' q.obj q.off = mem q.obj q.off

/-- The first bytes of the segment, behind the constructors. -/
theorem set_start_toNat {i : Nat} (hi : i < 2 ^ 64)
    (hzero : mem segment.obj (segment.add i).off = 0) :
    ((mem.set segment 1) segment.obj (segment.add i).off).toNat = if i = 0 then 1 else 0 := by
  by_cases hi0 : i = 0
  · subst hi0
    have hself : segment.add 0 = segment := by simp [Ptr.add]
    rw [hself, Mem.set_same]
    rfl
  · have hne : Ptr.mk segment.obj (segment.add i).off ≠ segment := by
      intro heq
      have hdist := congrArg segment.dist (show segment.add i = segment from heq)
      rw [Ptr.dist_add_self hi] at hdist
      simp [Ptr.dist] at hdist
      exact hi0 hdist
    rw [Mem.set_of_ne _ _ _ hne, if_neg hi0, hzero]
    rfl

theorem records_of_joined {executions : List (List LinkedEvent)} {p' : Linked}
    (hregions : Ijon.Consecutive segment A C M layout) (hA : A < 2 ^ 32) (hC : C < 2 ^ 32)
    (hM : M < 2 ^ 32) (hApos : 0 < A)
    (hzero : ∀ q, segment.Within (A + C + M) q → mem q.obj q.off = 0)
    (hbetween : Ijon.Between layout (mem.set segment 1)
      (executions.map calls) σ)
    (hjoined : Joined env im ids segment A layout
      (((executions.flatMap fun es =>
        im.locationsFrom 0 (idsOf ids (blocks es))).map
          (cell segment)).foldl um.bump (mem.set segment 1)) 0 σ p') :
    Records im um ids layout segment A C M mem executions p'.mem := by
  have hmapSize := hregions.mapSize
  have hmaxMapSize := hregions.maxMapSize
  rcases hbetween.regions with ⟨past, hleft, hcalls⟩
  simp only [locationsFrom_zero] at hjoined
  -- what lies behind the map is the thread's
  have hbehind : ∀ i, A ≤ i → i < 2 ^ 64 → ¬ segment.Within A (segment.add i) := by
    intro i hi hlt hwithin
    exact absurd ((Ptr.within_add_self hlt).1 hwithin) (Nat.not_lt.2 hi)
  rw [hjoined.mem]
  refine ⟨fun i hi => ?_, fun i hi => ?_, fun i hi => ?_, fun q hmap hcounter hslot => ?_⟩
  · have hwithin : segment.Within A (segment.add i) := (Ptr.within_add_self (by omega)).2 hi
    have hzero' := hzero _ ((Ptr.within_add_self (by omega)).2 (by omega : i < A + C + M))
    have hbump := foldl_bump_apply um ((executions.flatMap fun es =>
      im.locations (idsOf ids (blocks es))).map (cell segment))
        (mem.set segment 1) segment.obj (segment.add i).off
    rw [← set_start_toNat (by omega : i < 2 ^ 64) hzero', ← UpdateMethod.iterate_next_toNat]
    exact congrArg BitVec.toNat ((Mem.merge_of_mem hwithin).trans hbump)
  · have hcounter := hleft.counter i (by omega)
    have hstated : (executions.flatMap fun es =>
        Ijon.stated layout (calls es)) =
          past.map fun tc => (tc.1.state, tc.2) := by
      rw [hcalls, List.flatMap_map]
    rw [Ijon.Thread.counter, hleft.keep, hregions.counterPtr, hmapSize, Ptr.add_add] at hcounter
    have hfold : (past.map fun tc => (tc.1.state, tc.2)).foldl
        (fun b sc => sc.2.onCounter C i sc.1 b) 0 =
          past.foldl (fun b tc => tc.2.onCounter C i tc.1.state b) 0 := List.foldl_map
    have hthread := hbehind (A + i) (by omega) (by omega)
    rw [hstated, hfold, ← hcounter]
    exact Mem.merge_of_not_mem hthread
  · have hslot := hleft.slot i (by omega)
    rw [Ijon.Thread.maxSlot, hleft.keep, hregions.maxPtr, hmaxMapSize, Ptr.add_add] at hslot
    rw [Mem.load64_merge fun n hn => ?_]
    · exact hslot
    · rw [Ptr.add_add]
      exact hbehind _ (by omega) (by omega)
  · have hne : q ≠ segment := by
      rintro rfl
      exact hmap ⟨rfl, by simpa [Ptr.dist] using hApos⟩
    rw [Mem.merge_of_not_mem hmap, hleft.frame q (by rwa [hregions.counterPtr, hmapSize])
      (by rwa [hregions.maxPtr, hmaxMapSize]), Mem.set_of_ne _ _ _ hne]

/-- Behind the constructors every campaign runs through, and leaves a process that is joined of the
map and of a thread of IJON between two executions. -/
theorem start_campaign (im : InstrumentationMethod) (um : UpdateMethod) (ids : IdMap)
    (hid : env Ijon.AFL_SHM_ENV_VAR = some idStr) (hdefer : env Bitmap.DEFER_ENV_VAR = none)
    (hsegment : segment = ⟨.segment (atoi idStr.toList), 0⟩)
    (hA : Ijon.reserved env Ijon.AFL_SIZE_ENV_VAR = A)
    (hC : Ijon.reserved env Ijon.IJON_COUNTER_SIZE_ENV_VAR = C)
    (hM : Ijon.reserved env Ijon.IJON_MAX_SIZE_ENV_VAR = M) (hApos : 0 < A) (hCpos : 0 < C)
    (hMle : 8 ≤ M) (hfit : IdsFitRegion env im ids)
    (hzero : ∀ q, segment.Within (A + C + M) q → mem q.obj q.off = 0)
    (hstart : Linked.start env segments mem = some p) (executions : List (List LinkedEvent)) :
    Ijon.Consecutive segment A C M p.layout ∧
      ∃ p' σ, Transition.run (Linked.execute (instrumented im um ids)) p executions = some p' ∧
        Ijon.Between p.layout (mem.set segment 1) (executions.map calls) σ ∧
        Joined env im ids segment A p.layout
          (((executions.flatMap fun es =>
            im.locationsFrom 0 (idsOf ids (blocks es))).map
              (cell segment)).foldl um.bump (mem.set segment 1)) 0 σ p' := by
  have hAlt : A < 2 ^ 32 := hA ▸ Ijon.reserved_lt env Ijon.AFL_SIZE_ENV_VAR
  have hClt : C < 2 ^ 32 := hC ▸ Ijon.reserved_lt env Ijon.IJON_COUNTER_SIZE_ENV_VAR
  have hMlt : M < 2 ^ 32 := hM ▸ Ijon.reserved_lt env Ijon.IJON_MAX_SIZE_ENV_VAR
  have hshared : shared segment.obj := by rw [hsegment]; rfl
  rcases start_joined im ids hid hdefer hsegment hA hC hM hApos hCpos hMle hstart
    with ⟨hregions, hjoined⟩
  have hplaced := placed hregions hAlt hClt hMlt hCpos hMle
  rcases hjoined.campaign um hA hfit hplaced hshared executions with ⟨p', σ, hrun, hcalls, hjoined'⟩
  -- the thread is that of IJON alone
  have hnone : Ijon.Between p.layout (mem.set segment 1) []
      (Ijon.Thread.start p.layout (mem.set segment 1)) := by
    have hstart := hregions.start hAlt hClt hMlt hApos hzero
    rw [hregions.areaPtr] at hstart
    exact ⟨⟨[], hstart, rfl⟩, rfl, rfl⟩
  obtain ⟨σ', hcalls', hbetween⟩ : ∃ σ',
      Transition.run Ijon.execute (Ijon.Thread.start p.layout (mem.set segment 1))
        (executions.map calls) = some σ' ∧
      Ijon.Between p.layout (mem.set segment 1)
        (executions.map calls) σ' :=
    hnone.all hregions hshared hplaced.apart hplaced.mapSize hplaced.maxMapSize
  obtain rfl : σ = σ' := Option.some.inj (hcalls.symm.trans hcalls')
  exact ⟨hregions, p', σ, hrun, hbetween, hjoined'⟩

/-- **A campaign with both runtimes.** In an accepted environment with three regions, with zeros in
the segment and ids that fit the coverage region, any executions in which blocks and calls of IJON
take turns in any order leave in the map what the blocks of all of them alone leave there, in the
counters and the slots what the calls alone leave there, and every other byte as it was. -/
theorem campaign_records (im : InstrumentationMethod) (um : UpdateMethod) (ids : IdMap)
    (hid : env Ijon.AFL_SHM_ENV_VAR = some idStr) (hdefer : env Bitmap.DEFER_ENV_VAR = none)
    (hsegment : segment = ⟨.segment (atoi idStr.toList), 0⟩)
    (hA : Ijon.reserved env Ijon.AFL_SIZE_ENV_VAR = A)
    (hC : Ijon.reserved env Ijon.IJON_COUNTER_SIZE_ENV_VAR = C)
    (hM : Ijon.reserved env Ijon.IJON_MAX_SIZE_ENV_VAR = M) (hApos : 0 < A) (hCpos : 0 < C)
    (hMle : 8 ≤ M) (hfit : IdsFitRegion env im ids)
    (hzero : ∀ q, segment.Within (A + C + M) q → mem q.obj q.off = 0)
    (hstart : Linked.start env segments mem = some p) (executions : List (List LinkedEvent)) :
    ∃ p', Transition.run (Linked.execute (instrumented im um ids)) p executions = some p' ∧
      Records im um ids p.layout segment A C M mem executions p'.mem := by
  have hAlt : A < 2 ^ 32 := hA ▸ Ijon.reserved_lt env Ijon.AFL_SIZE_ENV_VAR
  have hClt : C < 2 ^ 32 := hC ▸ Ijon.reserved_lt env Ijon.IJON_COUNTER_SIZE_ENV_VAR
  have hMlt : M < 2 ^ 32 := hM ▸ Ijon.reserved_lt env Ijon.IJON_MAX_SIZE_ENV_VAR
  rcases start_campaign im um ids hid hdefer hsegment hA hC hM hApos hCpos hMle hfit hzero hstart
    executions with ⟨hregions, p', σ, hrun, hbetween, hjoined⟩
  exact ⟨p', hrun, records_of_joined hregions hAlt hClt hMlt hApos hzero hbetween hjoined⟩

/-! ### Two executions of one block -/

/-- One block with the id 6, of which the hash with itself is 5. -/
def sixId : IdMap :=
  [(⟨0, 0⟩, 6)]

/-- The block, the counter 2 and the slot 1. -/
def twoMixed : List (List LinkedEvent) :=
  [[.enter ⟨0, 0⟩, .call (.pushState 3), .call (.mapInc 5), .enter ⟨0, 0⟩, .call (.max 9 12)],
    [.call (.mapInc 2), .enter ⟨0, 0⟩]]

theorem twoMixed_records :
    ∃ p p', Linked.start Ijon.threeRegions Ijon.onlySeven (fun _ _ => 0) = some p ∧
      Transition.run (Linked.execute (instrumented .hashedEdge .naive sixId)) p twoMixed =
        some p' ∧
      (p'.mem (.segment 7) 6).toNat = 2 ∧ p'.mem (.segment 7) 18 = 2 ∧
      (p'.mem.load64 ⟨.segment 7, 28⟩).toNat = 12 := by
  obtain ⟨p, hstart, hlayout⟩ :
      ∃ p, Linked.start Ijon.threeRegions Ijon.onlySeven (fun _ _ => 0) = some p ∧
        p.layout = Ijon.segmentLayout Ijon.threeRegions 7 := ⟨_, rfl, rfl⟩
  have hid : Ijon.threeRegions Ijon.AFL_SHM_ENV_VAR = some "7" := rfl
  have hA : Ijon.reserved Ijon.threeRegions Ijon.AFL_SIZE_ENV_VAR = 16 := rfl
  have hC : Ijon.reserved Ijon.threeRegions Ijon.IJON_COUNTER_SIZE_ENV_VAR = 4 := rfl
  have hM : Ijon.reserved Ijon.threeRegions Ijon.IJON_MAX_SIZE_ENV_VAR = 16 := rfl
  have hfit : IdsFitRegion Ijon.threeRegions .hashedEdge sixId := by
    have hsix : ∀ bb id, sixId.find bb = some id → id = 6 := by
      intro bb id hfind
      simpa [sixId] using congrArg Prod.snd (List.mem_singleton.1 (IdMap.mem_of_find hfind))
    intro bb id hfind
    obtain rfl := hsix bb id hfind
    refine ⟨by decide, fun _ bb' id' hfind' => ?_⟩
    obtain rfl := hsix bb' id' hfind'
    decide
  obtain ⟨p', hrun, hrecords⟩ :=
    campaign_records .hashedEdge .naive sixId hid rfl rfl hA hC hM (by decide) (by decide)
      (by decide) hfit (fun _ _ => rfl) hstart twoMixed
  rw [hlayout] at hrecords
  have hgreatest : IsGreatest (Ijon.offers 2 1 (twoMixed.flatMap calls)) 12 := by
    constructor
    · exact Or.inr ⟨.max 9 12, by decide, rfl⟩
    · rintro v (rfl | ⟨c, hc, hoffer⟩)
      · decide
      · have hall : ∀ c ∈ twoMixed.flatMap calls, c.offer 2 1 = none ∨ c.offer 2 1 = some 12 := by
          decide
        rcases hall c hc with hnone | hsome
        · cases hnone.symm.trans hoffer
        · exact (Option.some.inj (hsome.symm.trans hoffer)).ge
  refine ⟨p, p', hstart, hrun, ?_, ?_, (hrecords.slots 1 (by decide)).unique hgreatest⟩
  · exact (hrecords.coverage 6 (by decide)).trans (by decide)
  · exact (hrecords.counters 2 (by decide)).trans (by decide)

end Linked
end Runtime
end FuzzufCc
