import FuzzufCc.Passes.AFLCoverage
import Mathlib.Data.List.Count
import Mathlib.Logic.Function.Iterate

/-!
# Coverage — what a run of the instrumented program leaves in the bitmap

`AFLCoverage` emits code that keeps the previous location already shifted and that works on one
byte at a time.  This module relates whole runs of that code to the documented behaviour:

* the locations of a run are the documented function of the ids of its blocks;
* a cell ends at a closed form of its start value and of the number of its hits;
* everything outside the hit cells, and every block without an id, is left alone.
-/

namespace FuzzufCc

open LLVM Libc IR

namespace AFLCoverage

/-! ## Counter cells -/

/-- The value of a cell that starts at `c` and is hit `n` times. -/
def UpdateMethod.after : UpdateMethod → Nat → Nat → Nat
  | .naive, c, n => (c + n) % 256
  | .avoidZero, c, n => if n = 0 then c else (c + n - 1) % 255 + 1
  | .capFF, c, n => min 255 (c + n)

theorem UpdateMethod.after_zero (um : UpdateMethod) {c : Nat} (hc : c < 256) :
    um.after c 0 = c := by
  cases um with
  | naive => exact Nat.mod_eq_of_lt hc
  | avoidZero => rfl
  | capFF => exact Nat.min_eq_right (Nat.le_of_lt_succ hc)

theorem UpdateMethod.after_succ (um : UpdateMethod) (c n : Nat) :
    um.after c (n + 1) = um.after (um.after c n) 1 := by
  cases um with
  | naive =>
      simp only [after]
      omega
  | avoidZero =>
      by_cases hn : n = 0
      · simp [after, hn]
      · simp only [after, hn, if_false]
        simp
        omega
  | capFF =>
      simp only [after]
      omega

theorem UpdateMethod.next_toNat (um : UpdateMethod) (c : BitVec 8) :
    (um.next c).toNat = um.after c.toNat 1 := by
  cases um with
  | naive => simp [next, after, BitVec.toNat_add]
  | avoidZero =>
      -- the carry is set only where the increment wraps
      by_cases hc : c = 255#8
      · subst hc
        rfl
      · have hne : ¬ c + 1#8 = 0#8 := by bv_omega
        simp [next, after, hne]
        bv_omega
  | capFF =>
      by_cases hc : c = 255#8
      · subst hc
        rfl
      · simp [next, after, hc]
        bv_omega

theorem UpdateMethod.iterate_next_toNat (um : UpdateMethod) (c : BitVec 8) (n : Nat) :
    (um.next^[n] c).toNat = um.after c.toNat n := by
  induction n with
  | zero => exact (um.after_zero c.isLt).symm
  | succ n ih =>
      calc (um.next^[n + 1] c).toNat
          = um.after (um.next^[n] c).toNat 1 := by rw [Function.iterate_succ_apply', next_toNat]
        _ = um.after c.toNat (n + 1) := by rw [ih, ← after_succ]

/-- Under the two methods made for it, a hit leaves a zeroed cell nonzero for good. -/
theorem UpdateMethod.after_ne_zero_iff {um : UpdateMethod} (hum : um ≠ .naive) (n : Nat) :
    um.after 0 n ≠ 0 ↔ 0 < n := by
  cases um with
  | naive => exact absurd rfl hum
  | avoidZero =>
      by_cases hn : n = 0
      · simp [after, hn]
      · simp [after, hn]
        omega
  | capFF =>
      simp only [after]
      omega

/-! ## Bitmap locations -/

/-- The bitmap locations of a run whose blocks have the ids `ids`, from the running value of the
global. -/
def InstrumentationMethod.locationsFrom (im : InstrumentationMethod) :
    BitVec 32 → List (BitVec 32) → List (BitVec 32)
  | _, [] => []
  | prev, curLoc :: ids =>
      im.location prev curLoc :: im.locationsFrom (im.nextPrev prev curLoc) ids

/-- The documented hash of an edge. -/
def edgeHash (idA idB : BitVec 32) : BitVec 32 :=
  (idA >>> 1) ^^^ idB

/-- The documented locations: an id itself, or the previous id shifted right by one bit xor the
id, with 0 before the first one. -/
def InstrumentationMethod.locations (im : InstrumentationMethod) (ids : List (BitVec 32)) :
    List (BitVec 32) :=
  match im with
  | .hashedEdge => List.zipWith edgeHash (0 :: ids) ids
  | .node => ids

theorem locationsFrom_hashedEdge (prevId : BitVec 32) (ids : List (BitVec 32)) :
    InstrumentationMethod.hashedEdge.locationsFrom (prevId >>> 1) ids =
      List.zipWith edgeHash (prevId :: ids) ids := by
  induction ids generalizing prevId with
  | nil => rfl
  | cons id ids ih =>
      rw [List.zipWith_cons_cons, ← ih id]
      rfl

theorem locationsFrom_node (prev : BitVec 32) (ids : List (BitVec 32)) :
    InstrumentationMethod.node.locationsFrom prev ids = ids := by
  induction ids generalizing prev with
  | nil => rfl
  | cons id ids ih =>
      rw [InstrumentationMethod.locationsFrom, ih]
      rfl

theorem locationsFrom_zero (im : InstrumentationMethod) (ids : List (BitVec 32)) :
    im.locationsFrom 0 ids = im.locations ids := by
  cases im with
  | hashedEdge => exact locationsFrom_hashedEdge 0 ids
  | node => exact locationsFrom_node 0 ids

/-- The ids met along a run; a block without an id contributes nothing. -/
def idsOf (ids : IdMap) (bbs : List BlockRef) : List (BitVec 32) :=
  bbs.filterMap ids.find

theorem mem_idsOf {ids : IdMap} {bbs : List BlockRef} {id : BitVec 32} :
    id ∈ idsOf ids bbs ↔ ∃ bb ∈ bbs, ids.find bb = some id :=
  List.mem_filterMap

/-! ## Memory after a sequence of updates -/

section Memory

variable {O : Type} [DecidableEq O]

/-- One counter update. -/
def UpdateMethod.bump (um : UpdateMethod) (m : Mem O) (p : Ptr O) : Mem O :=
  m.set p (um.next (m p.obj p.off))

/-- A byte is updated once for every update of its address, in whatever order they come. -/
theorem foldl_bump_apply (um : UpdateMethod) (ps : List (Ptr O)) (m : Mem O) (o : O)
    (a : BitVec 64) :
    ps.foldl um.bump m o a = um.next^[ps.count (Ptr.mk o a)] (m o a) := by
  induction ps generalizing m with
  | nil => rfl
  | cons p ps ih =>
      rw [List.foldl_cons, ih]
      by_cases hp : Ptr.mk o a = p
      · subst hp
        rw [List.count_cons_self, Function.iterate_succ_apply]
        simp [UpdateMethod.bump, Mem.set]
      · rw [List.count_cons_of_ne (Ne.symm hp), UpdateMethod.bump, Mem.set_of_ne _ _ _ hp]

end Memory

/-! ## Cells of the map -/

section Cells

variable {O : Type}

/-- The cell `__bitmap_area_ptr[loc]`. -/
def mapCell (area : Ptr O) (loc : BitVec 32) : Ptr O :=
  { area with off := area.off + loc.setWidth 64 }

theorem mapCell_injective (area : Ptr O) : Function.Injective (mapCell area) := by
  intro loc loc' h
  have hoff : area.off + loc.setWidth 64 = area.off + loc'.setWidth 64 := congrArg Ptr.off h
  have hwidth : loc.setWidth 64 = loc'.setWidth 64 := by simpa using hoff
  have hback := congrArg (BitVec.setWidth 32) hwidth
  simpa using hback

/-- Below 2^31 the sign extension of the index does nothing. -/
theorem cell_eq_mapCell (area : Ptr O) {loc : BitVec 32} (h : loc.toNat < 2 ^ 31) :
    cell area loc = mapCell area loc := by
  have hmsb : loc.msb = false := by
    rw [BitVec.msb_eq_false_iff_two_mul_lt]
    omega
  rw [cell, mapCell, BitVec.signExtend_eq_setWidth_of_msb_false hmsb]

theorem edgeHash_lt {idA idB : BitVec 32} {n : Nat} (hA : idA.toNat < 2 ^ n)
    (hB : idB.toNat < 2 ^ n) : (edgeHash idA idB).toNat < 2 ^ n := by
  rw [edgeHash, BitVec.toNat_xor, BitVec.toNat_ushiftRight]
  refine Nat.xor_lt_two_pow (lt_of_le_of_lt ?_ hA) hB
  exact Nat.shiftRight_le _ _

/-- Every location is an id or the hash of two ids, where 0 stands for the missing first one. -/
theorem mem_locations {im : InstrumentationMethod} {is : List (BitVec 32)} {loc : BitVec 32}
    (h : loc ∈ im.locations is) :
    match im with
    | .hashedEdge => ∃ idA ∈ 0 :: is, ∃ idB ∈ is, loc = edgeHash idA idB
    | .node => loc ∈ is := by
  cases im with
  | node => exact h
  | hashedEdge =>
      rcases List.mem_iff_getElem.1 h with ⟨i, hi, rfl⟩
      simp only [InstrumentationMethod.locations, List.length_zipWith, List.length_cons] at hi
      have hB : i < is.length := by omega
      have hA : i < (0 :: is).length := by
        simp only [List.length_cons]
        omega
      exact ⟨(0 :: is)[i], List.getElem_mem hA, is[i], List.getElem_mem hB,
        List.getElem_zipWith⟩

theorem locations_lt {im : InstrumentationMethod} {is : List (BitVec 32)} {n : Nat}
    (his : ∀ id ∈ is, id.toNat < 2 ^ n) : ∀ loc ∈ im.locations is, loc.toNat < 2 ^ n := by
  intro loc hloc
  have hmem := mem_locations hloc
  cases im with
  | node => exact his loc hmem
  | hashedEdge =>
      rcases hmem with ⟨idA, hA, idB, hB, rfl⟩
      refine edgeHash_lt ?_ (his idB hB)
      rcases List.mem_cons.1 hA with rfl | hA
      · exact Nat.two_pow_pos n
      · exact his idA hA

/-- What the documentation promises of a run from `s` to `s'` that meets the locations `locs`. -/
structure Documented (um : UpdateMethod) (area : Ptr O) (locs : List (BitVec 32))
    (s s' : State O) : Prop where
  /-- The bytes written, in order. -/
  stores : s'.stores = s.stores ++ locs.map (mapCell area)
  /-- A cell depends on its start value and its number of hits only. -/
  counts : ∀ loc, (s'.mem area.obj (mapCell area loc).off).toNat =
    um.after (s.mem area.obj (mapCell area loc).off).toNat (locs.count loc)
  /-- Outside the cells nothing changes. -/
  frame : ∀ p : Ptr O, p ∉ locs.map (mapCell area) → s'.mem p.obj p.off = s.mem p.obj p.off

theorem Documented.ne_zero_iff {um : UpdateMethod} {area : Ptr O} {locs : List (BitVec 32)}
    {s s' : State O}
    (h : Documented um area locs s s') (hum : um ≠ .naive) {loc : BitVec 32}
    (hzero : s.mem area.obj (mapCell area loc).off = 0) :
    s'.mem area.obj (mapCell area loc).off ≠ 0 ↔ loc ∈ locs := by
  have hcount := h.counts loc
  rw [hzero] at hcount
  rw [Ne, ← BitVec.toNat_inj, hcount, ← List.count_pos_iff,
    ← UpdateMethod.after_ne_zero_iff hum]
  rfl

end Cells

/-! ## Runs -/

section Runs

variable {O : Type} [DecidableEq O]
variable (im : InstrumentationMethod) (um : UpdateMethod) {ids : IdMap}

/-- The code that the pass leaves in a program without other instrumentation. -/
abbrev instrumented (im : InstrumentationMethod) (um : UpdateMethod) (ids : IdMap) :
    BlockRef → List Inst :=
  instrument im um ids fun _ => []

/-- The pass on a module that no pass has touched before. -/
theorem run_initial_eq_ok {tc : Toolchain} {env : Env} {M : LLVM.Module} {registered : Bool}
    {st : PassState} :
    run tc env (.initial M registered) = .ok st ↔
      registered ∧ ∃ im um res, instrumentationMethod env = .ok im ∧ updateMethod env = .ok um ∧
        BBIDAssigner.run tc env M = .ok res ∧
        st = { module := res.module, code := instrumented im um res.ids, cfgSections := [],
               registered := registered, cached := some res.ids } := by
  constructor
  · intro h
    rcases run_eq_ok h with ⟨im, um, ids, st₁, him, hum, hids, rfl⟩
    rcases PassState.getResult_eq_ok hids with ⟨hreg, ⟨hcached, _⟩ | ⟨_, res, hrun, rfl, rfl⟩⟩
    · cases hcached
    · exact ⟨hreg, im, um, res, him, hum, hrun, rfl⟩
  · rintro ⟨hreg, im, um, res, him, hum, hrun, rfl⟩
    have hrun' : BBIDAssigner.run tc env (PassState.initial M registered).module = .ok res := hrun
    simp [run, him, hum, PassState.getResult, PassState.initial, hreg, hrun, bind, Except.bind,
      pure, Except.pure]

theorem enterBlock_of_find_none {bb : BlockRef} (h : ids.find bb = none) (s : State O) :
    enterBlock (instrumented im um ids) s bb = some s := by
  simp [enterBlock, instrument, h, execAll]

theorem enterBlock_of_find_some {bb : BlockRef} {curLoc : BitVec 32}
    (h : ids.find bb = some curLoc) {s : State O} {area : Ptr O} {prev : BitVec 32}
    (hs : Ready s area prev) :
    ∃ s', enterBlock (instrumented im um ids) s bb = some s' ∧
      Ready s' area (im.nextPrev prev curLoc) ∧
      s'.mem = um.bump s.mem (cell area (im.location prev curLoc)) ∧
      s'.stores = s.stores ++ [cell area (im.location prev curLoc)] := by
  rcases blockCode_spec im um curLoc hs with ⟨s', hexec, hready, hmem, hstores⟩
  refine ⟨s', ?_, hready, hmem, hstores⟩
  simpa [enterBlock, instrument, h] using hexec

/-- **A whole run.** Its stores are the locations of its ids, in order, and its memory is the
result of one counter update for each of them. -/
theorem runBlocks_spec (ids : IdMap) (bbs : List BlockRef) {s : State O} {area : Ptr O}
    {prev : BitVec 32} (hs : Ready s area prev) :
    ∃ s', runBlocks (instrumented im um ids) s bbs = some s' ∧
      s'.stores = s.stores ++ (im.locationsFrom prev (idsOf ids bbs)).map (cell area) ∧
      s'.mem = ((im.locationsFrom prev (idsOf ids bbs)).map (cell area)).foldl um.bump s.mem := by
  induction bbs generalizing s prev with
  | nil => exact ⟨s, rfl, by simp [idsOf, InstrumentationMethod.locationsFrom], rfl⟩
  | cons bb bbs ih =>
      cases hfind : ids.find bb with
      | none =>
          -- the global keeps the last block with an id
          have hids : idsOf ids (bb :: bbs) = idsOf ids bbs := by simp [idsOf, hfind]
          rcases ih hs with ⟨s', hrun, hstores, hmem⟩
          rw [hids]
          have henter := enterBlock_of_find_none im um hfind s
          exact ⟨s', Transition.run_cons_eq_some.2 ⟨s, henter, hrun⟩, hstores, hmem⟩
      | some curLoc =>
          have hids : idsOf ids (bb :: bbs) = curLoc :: idsOf ids bbs := by simp [idsOf, hfind]
          obtain ⟨s₁, henter, hready, hmem₁, hstores₁⟩ :=
            enterBlock_of_find_some im um hfind hs
          rcases ih hready with ⟨s', hrun, hstores, hmem⟩
          rw [hids]
          refine ⟨s', Transition.run_cons_eq_some.2 ⟨s₁, henter, hrun⟩, ?_, ?_⟩
          · rw [hstores, hstores₁]
            simp [InstrumentationMethod.locationsFrom]
          · rw [hmem, hmem₁]
            rfl

theorem runBlocks_documented (hlt : ∀ bb id, ids.find bb = some id → id.toNat < 2 ^ 31)
    (bbs : List BlockRef) {s : State O} {area : Ptr O} (hs : Ready s area 0) :
    ∃ s', runBlocks (instrumented im um ids) s bbs = some s' ∧
      Documented um area (im.locations (idsOf ids bbs)) s s' := by
  rcases runBlocks_spec im um ids bbs hs with ⟨s', hrun, hstores, hmem⟩
  -- ids below 2^31 give locations below 2^31, which the sign extension leaves alone
  have hcells : (im.locations (idsOf ids bbs)).map (cell area) =
      (im.locations (idsOf ids bbs)).map (mapCell area) := by
    refine List.map_congr_left fun loc hloc => cell_eq_mapCell area ?_
    refine locations_lt (fun id hid => ?_) loc hloc
    rcases mem_idsOf.1 hid with ⟨bb, _, hfind⟩
    exact hlt bb id hfind
  rw [locationsFrom_zero, hcells] at hstores hmem
  refine ⟨s', hrun, hstores, fun loc => ?_, fun p hp => ?_⟩
  · rw [hmem, foldl_bump_apply, UpdateMethod.iterate_next_toNat]
    congr 1
    exact List.count_map_of_injective _ _ (mapCell_injective area) loc
  · rw [hmem, foldl_bump_apply, List.count_eq_zero_of_not_mem hp]
    rfl

/-- **Coverage semantics.** After the pass, a run from an arbitrary bitmap and a previous location
of 0 leaves the documented bitmap, and a block without an id leaves the whole state alone. -/
theorem run_documented (tc : Toolchain) (env : Env) (st : PassState) {ids : IdMap}
    {im : InstrumentationMethod} {um : UpdateMethod} (hcode : st.code = fun _ => [])
    (hreg : st.registered) (hids : st.cached = some ids)
    (him : instrumentationMethod env = .ok im) (hum : updateMethod env = .ok um)
    (hlt : ∀ bb id, ids.find bb = some id → id.toNat < 2 ^ 31)
    (bbs : List BlockRef) {s : State O} {area : Ptr O} (hs : Ready s area 0) :
    ∃ st', run tc env st = .ok st' ∧
      (∀ bb, ids.find bb = none → ∀ s : State O, enterBlock st'.code s bb = some s) ∧
      ∃ s', runBlocks st'.code s bbs = some s' ∧
        Documented um area (im.locations (idsOf ids bbs)) s s' ∧
        (um ≠ .naive → (∀ loc, s.mem area.obj (mapCell area loc).off = 0) →
          ∀ loc, s'.mem area.obj (mapCell area loc).off ≠ 0 ↔
            loc ∈ im.locations (idsOf ids bbs)) := by
  rcases runBlocks_documented im um hlt bbs hs with ⟨s', hrun, hdoc⟩
  refine ⟨{ st with code := instrumented im um ids }, ?_, ?_, s', hrun, hdoc, ?_⟩
  · simp [run, him, hum, PassState.getResult, hreg, hids, hcode, bind, Except.bind, pure,
      Except.pure]
  · intro bb hbb s
    exact enterBlock_of_find_none im um hbb s
  · intro hnaive hzero loc
    exact hdoc.ne_zero_iff hnaive (hzero loc)

end Runs

/-! ## Bounds on the written indices -/

section Bounds

variable {O : Type}

/-- The index at which `p` lies in the map. -/
def index (area p : Ptr O) : Nat :=
  (p.off - area.off).toNat

/-- The index of a cell is its location, sign extended as `getelementptr` does. -/
theorem index_cell (area : Ptr O) (loc : BitVec 32) :
    index area (cell area loc) = (loc.signExtend 64).toNat := by
  calc index area (cell area loc)
      = (area.off + loc.signExtend 64 - area.off).toNat := rfl
    _ = (loc.signExtend 64).toNat := by rw [BitVec.add_comm, BitVec.add_sub_cancel]

theorem toNat_signExtend_lt_iff {loc : BitVec 32} {n : Nat} (hn : n ≤ 2 ^ 31) :
    (loc.signExtend 64).toNat < n ↔ loc.toNat < n := by
  have hloc := loc.isLt
  rw [BitVec.toNat_signExtend]
  cases hmsb : loc.msb with
  | false =>
      simp
      omega
  | true =>
      have hbig : 2 ^ 31 ≤ loc.toNat := by
        have := BitVec.msb_eq_true_iff_two_mul_ge.1 hmsb
        omega
      simp
      omega

/-- Every byte that a run writes is at an index below `n`. -/
def WritesBelow (code : BlockRef → List Inst) (n : Nat) : Prop :=
  ∀ (O : Type) [DecidableEq O] (s s' : State O) (area : Ptr O) (bbs : List BlockRef),
    Ready s area 0 → runBlocks code s bbs = some s' →
      ∀ p ∈ s'.stores.drop s.stores.length, p.obj = area.obj ∧ index area p < n

theorem writesBelow_nil (n : Nat) : WritesBelow (fun _ => []) n := by
  intro O _ s s' area bbs _ hrun p hp
  -- without code no entry changes the state
  have hsame : s' = s := by
    refine Transition.invariant_run (I := fun t => t = s) ?_ rfl hrun
    intro t bb t' ht hstep
    exact (Option.some.inj hstep).symm.trans ht
  simp [hsame] at hp

/-- The written indices are below a bound exactly if the locations of all sequences of blocks
are. -/
theorem writesBelow_iff_locations (im : InstrumentationMethod) (um : UpdateMethod) (ids : IdMap)
    {n : Nat} (hn : n ≤ 2 ^ 31) :
    WritesBelow (instrumented im um ids) n ↔
      ∀ bbs, ∀ loc ∈ im.locations (idsOf ids bbs), loc.toNat < n := by
  constructor
  · intro h bbs loc hloc
    have hs := startState_ready (fun _ _ => 0) (Ptr.mk () 0)
    rcases runBlocks_spec im um ids bbs hs with ⟨s', hrun, hstores, _⟩
    rw [locationsFrom_zero] at hstores
    have hmem : cell (Ptr.mk () 0) loc ∈
        s'.stores.drop (startState (fun _ _ => 0) (Ptr.mk () 0)).stores.length := by
      rw [hstores, List.drop_left]
      exact List.mem_map_of_mem hloc
    have hlt := (h Unit _ s' _ bbs hs hrun _ hmem).2
    rw [index_cell] at hlt
    exact (toNat_signExtend_lt_iff hn).1 hlt
  · intro h O _ s s' area bbs hs hrun p hp
    rcases runBlocks_spec im um ids bbs hs with ⟨s'', hrun', hstores, _⟩
    obtain rfl : s'' = s' := Option.some.inj (hrun'.symm.trans hrun)
    rw [hstores, List.drop_left, locationsFrom_zero] at hp
    rcases List.mem_map.1 hp with ⟨loc, hloc, rfl⟩
    refine ⟨rfl, ?_⟩
    rw [index_cell, toNat_signExtend_lt_iff hn]
    exact h bbs loc hloc

/-- The written indices are below a power of two exactly if the ids are. -/
theorem writesBelow_iff (im : InstrumentationMethod) (um : UpdateMethod) (ids : IdMap) {k : Nat}
    (hk : k ≤ 31) :
    WritesBelow (instrumented im um ids) (2 ^ k) ↔
      ∀ bb id, ids.find bb = some id → id.toNat < 2 ^ k := by
  rw [writesBelow_iff_locations im um ids (Nat.pow_le_pow_right (by decide) hk)]
  constructor
  · intro h bb id hfind
    -- a run of the one block writes at its id, whatever the method
    refine h [bb] id ?_
    have hids : idsOf ids [bb] = [id] := by simp [idsOf, hfind]
    rw [hids]
    cases im with
    | hashedEdge => simp [InstrumentationMethod.locations, edgeHash]
    | node => exact List.mem_singleton_self id
  · intro h bbs
    refine locations_lt fun id hid => ?_
    rcases mem_idsOf.1 hid with ⟨bb, _, hfind⟩
    exact h bb id hfind

end Bounds

/-! ### A loop whose header has no id -/

/-- A loop of a header and a body, and its exit. -/
def countingLoop : LLVM.Module where
  name := "loop.c"
  functions :=
    [{ blocks := [⟨[], [1]⟩, ⟨[], [2, 3]⟩, ⟨[], [1]⟩, ⟨[], []⟩]
       succs_lt := by decide
       entry_no_pred := by decide }]

/-- Ids for all blocks of `countingLoop` but the header. -/
def countingLoopIds : IdMap :=
  [(⟨0, 0⟩, 6), (⟨0, 2⟩, 3), (⟨0, 3⟩, 1)]

/-- Two rounds of the loop: the hashes step over the header. -/
theorem countingLoop_documented :
    ∃ st' s',
      run identityToolchain (fun key => if key = updateMethodKey then some avoidZero else none)
        { module := countingLoop, code := fun _ => [], cfgSections := [], registered := true,
          cached := some countingLoopIds } = .ok st' ∧
      runBlocks st'.code (startState (fun _ _ => 0) (Ptr.mk () 0))
        [⟨0, 0⟩, ⟨0, 1⟩, ⟨0, 2⟩, ⟨0, 1⟩, ⟨0, 2⟩, ⟨0, 1⟩, ⟨0, 3⟩] = some s' ∧
      Documented .avoidZero (Ptr.mk () 0) [6, 0, 2, 0]
        (startState (fun _ _ => 0) (Ptr.mk () 0)) s' := by
  have hlt : ∀ bb id, countingLoopIds.find bb = some id → id.toNat < 2 ^ 31 := by
    intro bb id hfind
    have hmem : ∀ kv ∈ countingLoopIds, kv.2.toNat < 2 ^ 31 := by decide
    exact hmem (bb, id) (IdMap.mem_of_find hfind)
  obtain ⟨st', hrun, -, s', hblocks, hdoc, -⟩ :=
    run_documented identityToolchain
      (fun key => if key = updateMethodKey then some avoidZero else none)
      { module := countingLoop, code := fun _ => [], cfgSections := [], registered := true,
        cached := some countingLoopIds }
      rfl rfl rfl rfl rfl hlt [⟨0, 0⟩, ⟨0, 1⟩, ⟨0, 2⟩, ⟨0, 1⟩, ⟨0, 2⟩, ⟨0, 1⟩, ⟨0, 3⟩]
      (startState_ready (fun _ _ => 0) (Ptr.mk () 0))
  exact ⟨st', s', hrun, hblocks, hdoc⟩

end AFLCoverage
end FuzzufCc
