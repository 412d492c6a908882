import FuzzufCc.Runtime.Ijon

/-!
# SharedMemory — two runtimes in one segment

A program built with `bitmap-feedback` and `ijon-feedback` attaches one segment twice.  The IJON
runtime keeps the first `__AFL_SIZE` bytes for coverage; the bitmap runtime never reads that size.
Runs of such a program are sequences of block entries, of calls of `__bitmap_manual_init`, and of
arbitrary other changes of its memory.
-/

namespace FuzzufCc

open LLVM Libc IR AFLCoverage
open Transition (invariant_run)

namespace Runtime

/-- What happens in a run. -/
inductive Event
  | enter (bb : BlockRef)
  | manualInit
  | other (mem : Mem Object)

/-- One event; `none` is an exit of the process. -/
def step (env : Env) (segments : Segments) (code : BlockRef → List Inst) (p : Bitmap.Process) :
    Event → Option Bitmap.Process
  | .enter bb => (enterBlock code p.state bb).map fun s => { p with state := s }
  | .manualInit => Bitmap.manualInit env segments p
  | .other mem => some (p.withMem mem)

/-- The constructors, in the order of their priorities, and the layout they leave. -/
def start (env : Env) (segments : Segments) (mem : Mem Object) :
    Option (Bitmap.Process × Ijon.Layout) :=
  match Bitmap.autoInit env segments (Bitmap.image mem) with
  | none => none
  | some p =>
      match Ijon.mapShm env segments Ijon.initial p.state.mem with
      | .error _ => none
      | .ok (layout, mem') => some (p.withMem mem', layout)

/-- The bytes of the counters and of the max slots. -/
def IjonBytes (layout : Ijon.Layout) (p : Ptr Object) : Prop :=
  (∃ i < layout.mapSize,
      p = { layout.counterPtr with off := layout.counterPtr.off + BitVec.ofNat 64 i }) ∨
    ∃ i < 8 * layout.maxMapSize,
      p = { layout.maxPtr with off := layout.maxPtr.off + BitVec.ofNat 64 i }

/-- Every block entry of every run writes, if in the segment, to the coverage region, and leaves
the bytes of IJON alone. -/
def CoverageStaysInRegion (env : Env) (segments : Segments) (code : BlockRef → List Inst)
    (p₀ : Bitmap.Process) (layout : Ijon.Layout) : Prop :=
  ∀ es p bb p', Transition.run (step env segments code) p₀ es = some p →
    step env segments code p (.enter bb) = some p' →
      (∀ q ∈ p'.state.stores.drop p.state.stores.length, ∀ id, q.obj = .segment id →
          q.off.toNat < Ijon.reserved env Ijon.AFL_SIZE_ENV_VAR) ∧
        ∀ q, IjonBytes layout q → p'.state.mem q.obj q.off = p.state.mem q.obj q.off

/-- The ids fit the coverage region: each id, and with `HASHED_EDGE` each hash of two ids, is as a
signed index at least 0 and below `__AFL_SIZE`. -/
def IdsFitRegion (env : Env) (im : InstrumentationMethod) (ids : IdMap) : Prop :=
  ∀ bb id, ids.find bb = some id →
    (id.signExtend 64).toNat < Ijon.reserved env Ijon.AFL_SIZE_ENV_VAR ∧
      (im = .hashedEdge → ∀ bb' id', ids.find bb' = some id' →
        ((edgeHash id' id).signExtend 64).toNat < Ijon.reserved env Ijon.AFL_SIZE_ENV_VAR)

/-! ## The invariant of a run -/

/-- The map is the one before or the one after initialisation, and the previous location comes from
an id. -/
structure Inv (env : Env) (im : InstrumentationMethod) (ids : IdMap) (p : Bitmap.Process)
    (area : Ptr Object) (prev : BitVec 32) : Prop where
  ready : Ready p.state area prev
  area : area = ⟨.bitmapAreaInitial, 0⟩ ∨
    ∃ idStr, env Bitmap.SHM_ENV_VAR = some idStr ∧ area = ⟨.segment (atoi idStr.toList), 0⟩
  prev : prev = 0 ∨ im = .hashedEdge ∧ ∃ bb id, ids.find bb = some id ∧ prev = id >>> 1

section Runs

variable {env : Env} {segments : Segments} {im : InstrumentationMethod} {um : UpdateMethod}
  {ids : IdMap}

theorem Inv.manualInit {p p' : Bitmap.Process} {area : Ptr Object} {prev : BitVec 32}
    (h : Inv env im ids p area prev) (hstep : Bitmap.manualInit env segments p = some p') :
    ∃ area', Inv env im ids p' area' prev := by
  unfold Bitmap.manualInit at hstep
  split at hstep
  · obtain rfl := Option.some.inj hstep
    exact ⟨area, h⟩
  · rcases Option.map_eq_some_iff.1 hstep with ⟨s, hs, rfl⟩
    unfold Bitmap.mapShm at hs
    cases hid : env Bitmap.SHM_ENV_VAR with
    | none =>
        -- without a segment the map stays in the program
        simp only [hid, Option.some.injEq] at hs
        subst hs
        exact ⟨area, ⟨h.ready.area, h.ready.prev⟩, h.area, h.prev⟩
    | some idStr =>
        simp only [hid] at hs
        split at hs
        · obtain rfl := Option.some.inj hs
          have hne : prevLocValname ≠ areaPtrValname := by decide
          refine ⟨⟨.segment (atoi idStr.toList), 0⟩, ⟨by simp, ?_⟩, Or.inr ⟨idStr, hid, rfl⟩, h.prev⟩
          simpa [State.setGlobal_globals_of_ne _ _ _ hne] using h.ready.prev
        · cases hs

/-- A block entry writes nothing or one cell, whose location comes from the previous location. -/
theorem enter_cases {p p' : Bitmap.Process} {bb : BlockRef} {area : Ptr Object}
    {prev : BitVec 32} (hs : Ready p.state area prev)
    (hstep : step env segments (instrumented im um ids) p (.enter bb) = some p') :
    (ids.find bb = none ∧ p' = p) ∨
      ∃ id, ids.find bb = some id ∧ p'.initDone = p.initDone ∧
        Ready p'.state area (im.nextPrev prev id) ∧
        p'.state.mem = um.bump p.state.mem (cell area (im.location prev id)) ∧
        p'.state.stores = p.state.stores ++ [cell area (im.location prev id)] := by
  rcases Option.map_eq_some_iff.1 hstep with ⟨s, henter, rfl⟩
  cases hfind : ids.find bb with
  | none =>
      rw [enterBlock_of_find_none im um hfind] at henter
      obtain rfl := Option.some.inj henter
      exact Or.inl ⟨rfl, rfl⟩
  | some id =>
      rcases enterBlock_of_find_some im um hfind hs with ⟨s', henter', hready, hmem, hstores⟩
      obtain rfl : s' = s := Option.some.inj (henter'.symm.trans henter)
      exact Or.inr ⟨id, rfl, rfl, hready, hmem, hstores⟩

theorem Inv.step {p p' : Bitmap.Process} {area : Ptr Object} {prev : BitVec 32} {e : Event}
    (h : Inv env im ids p area prev)
    (hstep : Runtime.step env segments (instrumented im um ids) p e = some p') :
    ∃ area' prev', Inv env im ids p' area' prev' := by
  cases e with
  | enter bb =>
      rcases enter_cases h.ready hstep with ⟨_, rfl⟩ | ⟨id, hfind, _, hready, _, _⟩
      · exact ⟨area, prev, h⟩
      · refine ⟨area, _, hready, h.area, ?_⟩
        cases im with
        | hashedEdge => exact Or.inr ⟨rfl, bb, id, hfind, rfl⟩
        | node => exact h.prev
  | manualInit =>
      rcases h.manualInit hstep with ⟨area', h'⟩
      exact ⟨area', prev, h'⟩
  | other mem =>
      obtain rfl := Option.some.inj hstep
      exact ⟨area, prev, Bitmap.Process.withMem_ready h.ready mem, h.area, h.prev⟩

theorem Inv.run {es : List Event} {p p' : Bitmap.Process} {area : Ptr Object} {prev : BitVec 32}
    (h : Inv env im ids p area prev)
    (hrun : Transition.run (Runtime.step env segments (instrumented im um ids)) p es = some p') :
    ∃ area' prev', Inv env im ids p' area' prev' := by
  refine invariant_run (I := fun q => ∃ area prev, Inv env im ids q area prev) ?_
    ⟨area, prev, h⟩ hrun
  intro q e q' hq hstep
  rcases hq with ⟨area₁, prev₁, hinv⟩
  exact hinv.step hstep

theorem start_eq_some {mem : Mem Object} {p : Bitmap.Process} {layout : Ijon.Layout} :
    start env segments mem = some (p, layout) ↔
      ∃ p₀ mem', Bitmap.autoInit env segments (Bitmap.image mem) = some p₀ ∧
        Ijon.mapShm env segments Ijon.initial p₀.state.mem = .ok (layout, mem') ∧
        p = p₀.withMem mem' := by
  unfold start
  cases hinit : Bitmap.autoInit env segments (Bitmap.image mem) with
  | none => simp
  | some p₀ =>
      constructor
      · intro h
        cases hmap : Ijon.mapShm env segments Ijon.initial p₀.state.mem with
        | error e => simp [hmap] at h
        | ok res =>
            rcases res with ⟨layout', mem'⟩
            simp only [hmap] at h
            rcases Prod.mk.inj (Option.some.inj h) with ⟨rfl, rfl⟩
            exact ⟨p₀, mem', rfl, hmap, rfl⟩
      · rintro ⟨p₁, mem', hp, hmap, rfl⟩
        obtain rfl := Option.some.inj hp
        simp [hmap]

variable (im ids) in
/-- The constructors establish the invariant, with no previous location. -/
theorem Inv.start {mem : Mem Object} {p : Bitmap.Process} {layout : Ijon.Layout}
    (h : Runtime.start env segments mem = some (p, layout)) :
    ∃ area, Inv env im ids p area 0 := by
  have himage : Inv env im ids (Bitmap.image mem) ⟨.bitmapAreaInitial, 0⟩ 0 :=
    ⟨startState_ready _ _, Or.inl rfl, Or.inl rfl⟩
  rcases start_eq_some.1 h with ⟨p₀, mem', hinit, _, rfl⟩
  obtain ⟨area, hinv⟩ : ∃ area, Inv env im ids p₀ area 0 := by
    unfold Bitmap.autoInit at hinit
    split at hinit
    · obtain rfl := Option.some.inj hinit
      exact ⟨_, himage⟩
    · exact himage.manualInit hinit
  exact ⟨area, Bitmap.Process.withMem_ready hinv.ready mem', hinv.area, hinv.prev⟩

/-- The locations that the invariant allows are ids or hashes of two ids. -/
theorem Inv.location_lt {p : Bitmap.Process} {area : Ptr Object} {prev : BitVec 32}
    (h : Inv env im ids p area prev) (hfit : IdsFitRegion env im ids) {bb : BlockRef}
    {id : BitVec 32} (hfind : ids.find bb = some id) :
    ((im.location prev id).signExtend 64).toNat < Ijon.reserved env Ijon.AFL_SIZE_ENV_VAR := by
  rcases h.prev with rfl | ⟨rfl, bb', id', hfind', rfl⟩
  · rw [im.location_zero]
    exact (hfit bb id hfind).1
  · exact (hfit bb id hfind).2 rfl bb' id' hfind'

/-- Where a write goes if no segment is named or the ids fit. -/
theorem Inv.cell_cases {p : Bitmap.Process} {area : Ptr Object} {prev : BitVec 32}
    (h : Inv env im ids p area prev)
    (hcond : env Bitmap.SHM_ENV_VAR = none ∨ IdsFitRegion env im ids) {bb : BlockRef}
    {id : BitVec 32} (hfind : ids.find bb = some id) :
    (cell area (im.location prev id)).obj = .bitmapAreaInitial ∨
      ∃ shmId, (cell area (im.location prev id)).obj = .segment shmId ∧
        (cell area (im.location prev id)).off.toNat <
          Ijon.reserved env Ijon.AFL_SIZE_ENV_VAR := by
  rcases h.area with rfl | ⟨idStr, hid, rfl⟩
  · exact Or.inl rfl
  · refine Or.inr ⟨atoi idStr.toList, rfl, ?_⟩
    rcases hcond with hnone | hfit
    · exact absurd (hid.symm.trans hnone) (by simp)
    · simpa [cell] using h.location_lt hfit hfind

/-- The bytes of IJON are in its own arrays or behind the coverage region. -/
theorem ijonBytes_outside {mem : Mem Object} {p : Bitmap.Process} {layout : Ijon.Layout}
    (h : start env segments mem = some (p, layout)) {q : Ptr Object} (hq : IjonBytes layout q) :
    q.obj ≠ .bitmapAreaInitial ∧
      ∀ id, q.obj = .segment id →
        Ijon.reserved env Ijon.AFL_SIZE_ENV_VAR ≤ q.off.toNat := by
  rcases start_eq_some.1 h with ⟨p₀, mem', _, hmap, rfl⟩
  cases hid : env Ijon.AFL_SHM_ENV_VAR with
  | none =>
      simp only [Ijon.mapShm, hid, Except.ok.injEq, Prod.mk.injEq] at hmap
      rcases hmap with ⟨rfl, _⟩
      rcases hq with ⟨i, _, rfl⟩ | ⟨i, _, rfl⟩
      · exact ⟨by simp [Ijon.initial], by simp [Ijon.initial]⟩
      · exact ⟨by simp [Ijon.initial], by simp [Ijon.initial]⟩
  | some idStr =>
      -- offsets are sums of 32-bit sizes, so they do not wrap
      rcases Ijon.mapShm_layout hid hmap with ⟨_, hcounter, hmax⟩
      have hA := Ijon.reserved_lt env Ijon.AFL_SIZE_ENV_VAR
      have hC := Ijon.reserved_lt env Ijon.IJON_COUNTER_SIZE_ENV_VAR
      have hM := Ijon.reserved_lt env Ijon.IJON_MAX_SIZE_ENV_VAR
      rcases hq with ⟨i, hi, rfl⟩ | ⟨i, hi, rfl⟩
      · rcases hcounter with hptr | ⟨hptr, hsize⟩
        · simp [hptr]
        · rw [hptr]
          refine ⟨by simp, fun _ _ => ?_⟩
          simp only [BitVec.toNat_add, BitVec.toNat_ofNat]
          omega
      · rcases hmax with hptr | ⟨hptr, hsize⟩
        · simp [hptr]
        · rw [hptr]
          refine ⟨by simp, fun _ _ => ?_⟩
          simp only [BitVec.toNat_add, BitVec.toNat_ofNat]
          omega

theorem mapShm_segment {s : State Object} {area : Ptr Object} {prev : BitVec 32}
    (hs : Ready s area prev) {idStr : String} (hid : env Bitmap.SHM_ENV_VAR = some idStr)
    (hseg : segments (atoi idStr.toList)) :
    ∃ s', Bitmap.mapShm env segments s = some s' ∧
      Ready s' ⟨.segment (atoi idStr.toList), 0⟩ prev := by
  have hne : prevLocValname ≠ areaPtrValname := by decide
  refine ⟨_, by simp only [Bitmap.mapShm, hid, hseg, if_true]; rfl, by simp, ?_⟩
  simpa [State.setGlobal_globals_of_ne _ _ _ hne] using hs.prev

/-- After `__bitmap_manual_init` the map is the segment, whether or not the constructor had already
attached it. -/
theorem start_manualInit {mem : Mem Object} {p : Bitmap.Process} {layout : Ijon.Layout}
    (h : start env segments mem = some (p, layout)) {idStr : String}
    (hid : env Bitmap.SHM_ENV_VAR = some idStr) (code : BlockRef → List Inst) :
    ∃ p', step env segments code p .manualInit = some p' ∧
      Ready p'.state ⟨.segment (atoi idStr.toList), 0⟩ 0 := by
  rcases start_eq_some.1 h with ⟨p₀, mem', hinit, hmap, rfl⟩
  have hseg := (Ijon.mapShm_layout hid hmap).1
  have himage : Ready (Bitmap.image mem).state ⟨.bitmapAreaInitial, 0⟩ 0 := startState_ready _ _
  unfold Bitmap.autoInit at hinit
  split at hinit
  · -- deferred: the call attaches the segment
    obtain rfl := Option.some.inj hinit
    obtain ⟨s', hs', hready⟩ :=
      mapShm_segment (Bitmap.Process.withMem_ready himage mem') hid hseg
    refine ⟨{ state := s', initDone := true }, ?_, hready⟩
    rw [step, Bitmap.manualInit_of_not_done rfl, hs']
    rfl
  · -- attached by the constructor: the call does nothing
    rcases mapShm_segment himage hid hseg with ⟨s', hs', hready⟩
    rw [Bitmap.manualInit_of_not_done rfl, hs'] at hinit
    obtain rfl := Option.some.inj hinit
    exact ⟨_, Bitmap.manualInit_of_done rfl, Bitmap.Process.withMem_ready hready mem'⟩

variable (env segments im um) in
/-- A block with an id, entered with the map in the segment, writes there. -/
theorem enter_segment {p : Bitmap.Process} {shmId prev : BitVec 32}
    (hs : Ready p.state ⟨.segment shmId, 0⟩ prev) {bb : BlockRef} {id : BitVec 32}
    (hfind : ids.find bb = some id) :
    ∃ p', step env segments (instrumented im um ids) p (.enter bb) = some p' ∧
      Ready p'.state ⟨.segment shmId, 0⟩ (im.nextPrev prev id) ∧
      p'.state.stores = p.state.stores ++
        [⟨.segment shmId, (im.location prev id).signExtend 64⟩] := by
  rcases enterBlock_of_find_some im um hfind hs with ⟨s', henter, hready, _, hstores⟩
  refine ⟨{ p with state := s' }, by simp [step, henter], hready, ?_⟩
  simpa [cell] using hstores

end Runs

/-- **Coverage next to IJON.** In a program with both runtimes the coverage of every run stays in its
region of the segment exactly if no segment is named or the ids fit the region. -/
theorem coverageStaysInRegion_iff (env : Env) (segments : Segments) (mem : Mem Object)
    (im : InstrumentationMethod) (um : UpdateMethod) (ids : IdMap) {p : Bitmap.Process}
    {layout : Ijon.Layout} (hstart : start env segments mem = some (p, layout)) :
    CoverageStaysInRegion env segments (instrumented im um ids) p layout ↔
      env Ijon.AFL_SHM_ENV_VAR = none ∨ IdsFitRegion env im ids := by
  constructor
  · intro h
    cases hid : env Ijon.AFL_SHM_ENV_VAR with
    | none => exact Or.inl rfl
    | some idStr =>
        right
        -- attach the segment, then enter one block or two
        obtain ⟨p₁, hinit, hready₁⟩ :=
          start_manualInit hstart hid (instrumented im um ids)
        have hwrite : ∀ es p₂ prev bb id,
            Transition.run (step env segments (instrumented im um ids)) p es = some p₂ →
            Ready p₂.state ⟨.segment (atoi idStr.toList), 0⟩ prev → ids.find bb = some id →
              ((im.location prev id).signExtend 64).toNat <
                Ijon.reserved env Ijon.AFL_SIZE_ENV_VAR := by
          intro es p₂ prev bb id hrun hready hfind
          rcases enter_segment env segments im um hready hfind with ⟨p₃, hstep, _, hstores⟩
          have hmem : ⟨.segment (atoi idStr.toList), (im.location prev id).signExtend 64⟩ ∈
              p₃.state.stores.drop p₂.state.stores.length := by
            rw [hstores, List.drop_left]
            exact List.mem_singleton_self _
          exact (h es p₂ bb p₃ hrun hstep).1 _ hmem _ rfl
        intro bb id hfind
        constructor
        · have hlt := hwrite [.manualInit] p₁ 0 bb id (by simp [Transition.run, hinit]) hready₁ hfind
          rwa [im.location_zero] at hlt
        · rintro rfl bb' id' hfind'
          obtain ⟨p₂, hstep, hready₂, _⟩ := enter_segment env segments .hashedEdge um hready₁ hfind'
          exact hwrite [.manualInit, .enter bb'] p₂ _ bb id (by simp [Transition.run, hinit, hstep])
            hready₂ hfind
  · intro hcond es p₁ bb p₂ hrun hstep
    -- the invariant says where the map is and what the previous location can be
    rcases Inv.start im ids hstart with ⟨area₀, hinv₀⟩
    rcases hinv₀.run hrun with ⟨area, prev, hinv⟩
    rcases enter_cases hinv.ready hstep with ⟨_, rfl⟩ | ⟨id, hfind, _, _, hmem, hstores⟩
    · simp
    · have hcell := hinv.cell_cases hcond hfind
      constructor
      · intro q hq shmId hobj
        rw [hstores, List.drop_left, List.mem_singleton] at hq
        subst hq
        rcases hcell with hobj' | ⟨_, _, hlt⟩
        · exact absurd (hobj'.symm.trans hobj) (by simp)
        · exact hlt
      · intro q hq
        rcases ijonBytes_outside hstart hq with ⟨hinitial, hsegment⟩
        rw [hmem, UpdateMethod.bump]
        refine Mem.set_of_ne _ _ _ fun heq => ?_
        obtain rfl : q = cell area (im.location prev id) := heq
        rcases hcell with hobj | ⟨shmId, hobj, hlt⟩
        · exact hinitial hobj
        · exact absurd (hsegment shmId hobj) (Nat.not_le.2 hlt)

/-! ### Two sizes of the coverage region -/

/-- A segment 7 with a coverage region of `aflSize` bytes, counters and max slots. -/
def segmentEnv (aflSize : String) : Env := fun key =>
  if key = Ijon.AFL_SHM_ENV_VAR then some "7"
  else if key = Ijon.AFL_SIZE_ENV_VAR then some aflSize
  else if key = Ijon.IJON_COUNTER_SIZE_ENV_VAR then some "65536"
  else if key = Ijon.IJON_MAX_SIZE_ENV_VAR then some "65536"
  else none

def onlySegment : Segments := fun shmId => shmId == 7

def zeroMem : Mem Object := fun _ _ => 0

/-- One block with the id 4096. -/
def oneId : IdMap :=
  [(⟨0, 0⟩, 4096)]

/-- In a region of 65536 bytes the block stays inside. -/
theorem region_65536_suffices :
    ∃ p layout, start (segmentEnv "65536") onlySegment zeroMem = some (p, layout) ∧
      CoverageStaysInRegion (segmentEnv "65536") onlySegment
        (instrumented .hashedEdge .naive oneId) p layout := by
  obtain ⟨p, layout, hstart⟩ : ∃ p layout,
      start (segmentEnv "65536") onlySegment zeroMem = some (p, layout) := ⟨_, _, rfl⟩
  have hfit : IdsFitRegion (segmentEnv "65536") .hashedEdge oneId := by
    have hone : ∀ bb id, oneId.find bb = some id → id = 4096 := by
      intro bb id hfind
      simpa [oneId] using congrArg Prod.snd (List.mem_singleton.1 (IdMap.mem_of_find hfind))
    intro bb id hfind
    obtain rfl := hone bb id hfind
    refine ⟨by decide, fun _ bb' id' hfind' => ?_⟩
    obtain rfl := hone bb' id' hfind'
    decide
  exact ⟨p, layout, hstart,
    (coverageStaysInRegion_iff (segmentEnv "65536") onlySegment zeroMem .hashedEdge .naive oneId
      hstart).2 (Or.inr hfit)⟩

/-- In a region of 4096 bytes it overwrites the first counter. -/
theorem region_4096_overrun :
    ∃ p layout, start (segmentEnv "4096") onlySegment zeroMem = some (p, layout) ∧
      layout.counterPtr = ⟨.segment 7, 4096⟩ ∧
      ¬ CoverageStaysInRegion (segmentEnv "4096") onlySegment
        (instrumented .hashedEdge .naive oneId) p layout := by
  obtain ⟨p, layout, hstart, hcounter⟩ : ∃ p layout,
      start (segmentEnv "4096") onlySegment zeroMem = some (p, layout) ∧
        layout.counterPtr = ⟨.segment 7, 4096⟩ := ⟨_, _, rfl, rfl⟩
  refine ⟨p, layout, hstart, hcounter, fun h => ?_⟩
  obtain ⟨p₁, hinit, hready⟩ :=
    start_manualInit hstart rfl (instrumented .hashedEdge .naive oneId)
  obtain ⟨p₂, hstep, _, hstores⟩ :=
    enter_segment (segmentEnv "4096") onlySegment .hashedEdge .naive hready
      (show oneId.find ⟨0, 0⟩ = some 4096 from rfl)
  have hlt := (h [.manualInit] p₁ ⟨0, 0⟩ p₂ (by simp [Transition.run, hinit]) hstep).1
    ⟨.segment 7, 4096⟩ (by rw [hstores, List.drop_left]; decide) 7 rfl
  exact absurd hlt (by decide)

end Runtime
end FuzzufCc
