import FuzzufCc.Lib.Memory
import FuzzufCc.Lib.Visible
import FuzzufCc.Passes.Coverage

/-!
# Transparency — the coverage pass keeps the meaning of the program

A program brings its own code, of whatever instructions, and decides at the end of each block where
to go.  It knows neither the two globals of the instrumentation nor the bytes of the bitmap, and its
SSA registers are not those of the inserted code.  Along blocks whose locations lie inside the map
it then enters the same blocks with and without the pass, stops at the same place and ends in states
that it cannot tell apart; the map holds the documented counts.
-/

namespace FuzzufCc

open LLVM Libc IR

namespace AFLCoverage

/-- No code that the pass inserts into a block needs more registers. -/
def codeRegs := 9

/-- What a program sees that does not know of the instrumentation and of the `size` bytes of its
map, which begins at `area`. -/
def programView {O : Type} (area : Ptr O) (size : Nat) : View O where
  reg r := codeRegs ≤ r
  global g := g ≠ areaPtrValname ∧ g ≠ prevLocValname
  byte o a := ¬area.Within size ⟨o, a⟩

/-- What the own code of each block does, and what its terminator decides: the next block, or the
end of the program.  Both start from what the program sees and leave alone what it does not. -/
structure Program {O : Type} (V : View O) where
  exec : BlockRef → State O → Option (State O)
  next : BlockRef → State O → Option BlockRef
  -- what the program itself keeps, such as that none of its pointers leads into the map
  Inv : State O → Prop
  exec_rel : ∀ bb {s t : State O}, Inv s → Agree V s t →
    Option.Rel (fun s' t' => Inv s' ∧ Agree V s' t' ∧ HiddenSame V t t') (exec bb s) (exec bb t)
  next_eq : ∀ bb {s t : State O}, Agree V s t → next bb s = next bb t

section Running

variable {O : Type} [DecidableEq O]

/-- Code that names visible things only, and has no pointer to an object with a hidden byte. -/
def Program.ofCode {V : View O} (code : BlockRef → List Inst)
    (hcode : ∀ bb, ∀ i ∈ code bb, i.Visible V) (next : BlockRef → State O → Option BlockRef)
    (hnext : ∀ bb {s t : State O}, Agree V s t → next bb s = next bb t) : Program V where
  exec bb s := execAll s (code bb)
  next := next
  Inv := Confined V
  exec_rel bb s t hs h := by
    have hrel := execAll_rel (hcode bb) h hs
    generalize execAll s (code bb) = r, execAll t (code bb) = r' at hrel ⊢
    cases hrel with
    | none => exact .none
    | some htracks => exact .some ⟨htracks.confined, htracks.agree, htracks.hidden⟩
  next_eq := hnext

/-- Enter block `bb`, if it is the one to be entered next: the code in front, if the pass has
inserted any, and that of the program. -/
def stepBlock {V : View O} (P : Program V) (front : BlockRef → List Inst)
    (c : Option BlockRef × State O) (bb : BlockRef) : Option (Option BlockRef × State O) :=
  if c.1 = some bb then
    ((enterBlock front c.2 bb).bind (P.exec bb)).map fun s => (P.next bb s, s)
  else none

end Running

/-! ## The inserted code -/

/-- A location below the size of the map is a byte of the map. -/
theorem cell_within {O : Type} {area : Ptr O} {size : Nat} (hsize : size ≤ 2 ^ 31) {loc : BitVec 32}
    (hloc : loc.toNat < size) : area.Within size (cell area loc) := by
  refine ⟨rfl, ?_⟩
  rw [show area.dist (cell area loc) = index area (cell area loc) from rfl, index_cell]
  exact (toNat_signExtend_lt_iff hsize).2 hloc

section Prelude

variable (im : InstrumentationMethod) (um : UpdateMethod) (ids : IdMap)

/-- The inserted code defines low registers only. -/
theorem blockCode_dst_lt (curLoc : BitVec 32) :
    ∀ i ∈ blockCode im um curLoc, ∀ r, i.dst = some r → r < codeRegs := by
  have hall : ((blockCode im um curLoc).filterMap Inst.dst).all (· < codeRegs) := by
    cases im <;> cases um <;> rfl
  intro i hi r hr
  exact of_decide_eq_true (List.all_eq_true.1 hall r (List.mem_filterMap.2 ⟨i, hi, hr⟩))

/-- The pass puts its code in front of that of the program. -/
theorem instrument_eq_append (code : BlockRef → List Inst) (bb : BlockRef) :
    instrument im um ids code bb = instrumented im um ids bb ++ code bb := by
  cases hfind : ids.find bb with
  | none => simp [instrument, hfind]
  | some curLoc => simp [instrument, hfind]

variable {O : Type} [DecidableEq O]

/-- What the global holds after blocks with the ids `is`. -/
def InstrumentationMethod.prevAfter (is : List (BitVec 32)) : BitVec 32 :=
  is.foldl im.nextPrev 0

theorem locationsFrom_append (prev : BitVec 32) (is js : List (BitVec 32)) :
    im.locationsFrom prev (is ++ js) =
      im.locationsFrom prev is ++ im.locationsFrom (is.foldl im.nextPrev prev) js := by
  induction is generalizing prev with
  | nil => rfl
  | cons id is ih => simp [InstrumentationMethod.locationsFrom, ih]

/-- The program does not see the code in front of a block. -/
theorem enterBlock_agree {s t : State O} {area : Ptr O} {size : Nat} {bb : BlockRef}
    (henter : enterBlock (instrumented im um ids) s bb = some t)
    (hmem : ∀ o a, ¬area.Within size ⟨o, a⟩ → t.mem o a = s.mem o a) :
    Agree (programView area size) s t := by
  -- every inserted instruction is one of the code of a block
  have hmemCode : ∀ i ∈ instrumented im um ids bb, ∃ curLoc, i ∈ blockCode im um curLoc := by
    intro i hi
    cases hfind : ids.find bb with
    | none => simp [instrument, hfind] at hi
    | some curLoc => exact ⟨curLoc, by simpa [instrument, hfind] using hi⟩
  refine ⟨fun r hr => ?_, fun g hg => ?_, fun o a ha => (hmem o a ha).symm⟩
  · refine (execAll_regs (fun i hi hdst => ?_) henter).symm
    rcases hmemCode i hi with ⟨curLoc, hi⟩
    have hlt := blockCode_dst_lt im um curLoc i hi r hdst
    exact absurd hr (Nat.not_le_of_lt hlt)
  · refine (execAll_globals (fun i hi => ?_) henter).symm
    rcases hmemCode i hi with ⟨curLoc, hi⟩
    exact blockCode_storesTo im um curLoc hg.2 i hi

/-- The code in front of a block, with or without an id. -/
theorem enterBlock_spec {s : State O} {area : Ptr O} {size : Nat} (hsize : size ≤ 2 ^ 31)
    {is : List (BitVec 32)} (hs : Ready s area (im.prevAfter is)) (bb : BlockRef)
    (hlocs : ∀ loc ∈ im.locationsFrom (im.prevAfter is) (idsOf ids [bb]), loc.toNat < size) :
    ∃ t, enterBlock (instrumented im um ids) s bb = some t ∧
      Ready t area (im.prevAfter (is ++ idsOf ids [bb])) ∧
      t.mem = ((im.locationsFrom (im.prevAfter is) (idsOf ids [bb])).map (cell area)).foldl
        um.bump s.mem ∧
      Agree (programView area size) s t := by
  cases hfind : ids.find bb with
  | none =>
      have hids : idsOf ids [bb] = [] := by simp [idsOf, hfind]
      have henter := enterBlock_of_find_none im um hfind s
      rw [hids, List.append_nil]
      exact ⟨s, henter, hs, rfl, Agree.refl _ s⟩
  | some curLoc =>
      have hids : idsOf ids [bb] = [curLoc] := by simp [idsOf, hfind]
      obtain ⟨t, henter, hready, hmem, -⟩ := enterBlock_of_find_some im um hfind hs
      have hprev : im.prevAfter (is ++ [curLoc]) = im.nextPrev (im.prevAfter is) curLoc := by
        simp [InstrumentationMethod.prevAfter]
      rw [hids] at hlocs
      have hloc : (im.location (im.prevAfter is) curLoc).toNat < size :=
        hlocs _ (List.mem_singleton_self _)
      rw [hids, hprev]
      refine ⟨t, henter, hready, hmem, enterBlock_agree im um ids henter fun o a ha => ?_⟩
      -- the byte that is updated is one of the map
      have hne : Ptr.mk o a ≠ cell area (im.location (im.prevAfter is) curLoc) := by
        intro heq
        exact ha (heq ▸ cell_within hsize hloc)
      rw [hmem, UpdateMethod.bump, Mem.set_of_ne _ _ _ hne]

end Prelude

/-! ## Both programs side by side -/

/-- Hidden globals stay as they are, so the instrumentation stays ready. -/
theorem Ready.of_hiddenSame {O : Type} {area : Ptr O} {size : Nat} {s t : State O}
    {prev : BitVec 32} (hs : Ready s area prev) (h : HiddenSame (programView area size) s t) :
    Ready t area prev where
  area := (h.globals _ fun hg => hg.1 rfl).symm.trans hs.area
  prev := (h.globals _ fun hg => hg.2 rfl).symm.trans hs.prev

section Transparency

variable {O : Type} [DecidableEq O]

/-- The two programs after the same blocks: what is to be entered next is the same, the program sees
no difference, and each byte of the map has been updated once for every location that is its. -/
structure Transparent (um : UpdateMethod) (area : Ptr O) (size : Nat) (locs : List (BitVec 32))
    (mem : Mem O) (c c' : Option BlockRef × State O) : Prop where
  next : c'.1 = c.1
  agree : Agree (programView area size) c.2 c'.2
  counts : ∀ q, area.Within size q → (c'.2.mem q.obj q.off).toNat =
    um.after (mem q.obj q.off).toNat ((locs.map (cell area)).count q)

variable {im : InstrumentationMethod} {um : UpdateMethod} {ids : IdMap} {area : Ptr O} {size : Nat}

/-- What the two programs keep as they enter the blocks `bbs`. -/
structure Mirrors (im : InstrumentationMethod) (um : UpdateMethod) (ids : IdMap)
    (P : Program (programView area size)) (mem : Mem O) (bbs : List BlockRef)
    (c c' : Option BlockRef × State O) : Prop where
  next : c'.1 = c.1
  agree : Agree (programView area size) c.2 c'.2
  inv : P.Inv c.2
  ready : Ready c'.2 area (im.prevAfter (idsOf ids bbs))
  map : ∀ q, area.Within size q → c'.2.mem q.obj q.off =
    ((im.locations (idsOf ids bbs)).map (cell area)).foldl um.bump mem q.obj q.off

variable {P : Program (programView area size)} {mem : Mem O} {bbs : List BlockRef}
  {c c' : Option BlockRef × State O}

theorem Mirrors.transparent (h : Mirrors im um ids P mem bbs c c') :
    Transparent um area size (im.locations (idsOf ids bbs)) mem c c' where
  next := h.next
  agree := h.agree
  counts q hq := by
    rw [h.map q hq, foldl_bump_apply, UpdateMethod.iterate_next_toNat]

/-- The updates of a byte start from that byte alone. -/
theorem foldl_bump_congr {ps : List (Ptr O)} {m m' : Mem O} {q : Ptr O}
    (h : m q.obj q.off = m' q.obj q.off) :
    ps.foldl um.bump m q.obj q.off = ps.foldl um.bump m' q.obj q.off := by
  rw [foldl_bump_apply, foldl_bump_apply, h]

variable (im ids size) in
/-- All locations of the blocks lie inside the map. -/
def InsideMap (bbs : List BlockRef) : Prop :=
  ∀ loc ∈ im.locations (idsOf ids bbs), loc.toNat < size

theorem locations_snoc (im : InstrumentationMethod) (ids : IdMap) (bbs : List BlockRef)
    (bb : BlockRef) : im.locations (idsOf ids (bbs ++ [bb])) = im.locations (idsOf ids bbs) ++
      im.locationsFrom (im.prevAfter (idsOf ids bbs)) (idsOf ids [bb]) := by
  have hids : idsOf ids (bbs ++ [bb]) = idsOf ids bbs ++ idsOf ids [bb] := List.filterMap_append
  rw [hids, ← locationsFrom_zero, locationsFrom_append, locationsFrom_zero]
  rfl

theorem InsideMap.prefix {bb : BlockRef} (h : InsideMap im ids size (bbs ++ [bb])) :
    InsideMap im ids size bbs := by
  intro loc hloc
  refine h loc ?_
  rw [locations_snoc]
  exact List.mem_append_left _ hloc

/-- With a power of two for its size, a map that contains the ids contains all locations. -/
theorem insideMap_of_lt {n : Nat} (hids : ∀ bb id, ids.find bb = some id → id.toNat < 2 ^ n)
    (bbs : List BlockRef) : InsideMap im ids (2 ^ n) bbs := by
  refine locations_lt fun id hid => ?_
  rcases mem_idsOf.1 hid with ⟨bb, -, hfind⟩
  exact hids bb id hfind

/-- **One block.** Either both programs enter it or neither does. -/
theorem Mirrors.step (hsize : size ≤ 2 ^ 31) (h : Mirrors im um ids P mem bbs c c') (bb : BlockRef)
    (hinside : InsideMap im ids size (bbs ++ [bb])) :
    Option.Rel (Mirrors im um ids P mem (bbs ++ [bb])) (stepBlock P (fun _ => []) c bb)
      (stepBlock P (instrumented im um ids) c' bb) := by
  by_cases hbb : c.1 = some bb
  · rcases enterBlock_spec im um ids hsize h.ready bb fun loc hloc => hinside loc (by
      rw [locations_snoc]
      exact List.mem_append_right _ hloc) with ⟨t, henter, hready, hmem, hagree⟩
    have hplain : enterBlock (fun _ => []) c.2 bb = some c.2 := rfl
    have hrel := P.exec_rel bb h.inv (h.agree.trans hagree)
    rw [stepBlock, stepBlock, h.next, if_pos hbb, if_pos hbb, henter, hplain, Option.bind_some,
      Option.bind_some]
    generalize P.exec bb c.2 = r, P.exec bb t = r' at hrel
    cases hrel with
    | none => exact .none
    | @some s' t' hboth =>
        obtain ⟨hinv, hagree', hhidden⟩ := hboth
        have hids : idsOf ids (bbs ++ [bb]) = idsOf ids bbs ++ idsOf ids [bb] :=
          List.filterMap_append
        refine .some ⟨(P.next_eq bb hagree').symm, hagree', hinv, ?_, fun q hq => ?_⟩
        · rw [hids]
          exact hready.of_hiddenSame hhidden
        · -- the map is out of the program's reach
          have hsame : t'.mem q.obj q.off = t.mem q.obj q.off :=
            (hhidden.mem _ _ fun hbyte => hbyte hq).symm
          rw [hsame, hmem, locations_snoc, List.map_append, List.foldl_append]
          exact foldl_bump_congr (h.map q hq)
  · have hbb' : ¬c'.1 = some bb := by rwa [h.next]
    rw [stepBlock, stepBlock, if_neg hbb, if_neg hbb']
    exact .none

/-- **Whole runs.** -/
theorem Mirrors.run (hsize : size ≤ 2 ^ 31) (h : Mirrors im um ids P mem [] c c')
    (hinside : InsideMap im ids size bbs) :
    Option.Rel (Mirrors im um ids P mem bbs) (Transition.run (stepBlock P fun _ => []) c bbs)
      (Transition.run (stepBlock P (instrumented im um ids)) c' bbs) :=
  Transition.run_rel (fun _ _ => InsideMap.prefix)
    (fun _ _ _ bb hinside hmirrors => hmirrors.step hsize bb hinside) h hinside

/-- **The pass keeps the meaning of the program.** Whatever the settings, and whatever ids the
analysis gives: it puts its code in front of that of each block, and along blocks whose locations
lie inside the map the program with this code enters the blocks that it enters without, in the same
order, stops where it stops, and what the program can see stays the same.  The map counts the
locations of the blocks entered, whatever the program did in between. -/
theorem run_transparent {tc : Toolchain} {env : Env} {st st' : PassState}
    (hrun : AFLCoverage.run tc env st = .ok st') (hsize : size ≤ 2 ^ 31)
    (P : Program (programView area size)) {s t : State O} (hinv : P.Inv s)
    (hagree : Agree (programView area size) s t) (hready : Ready t area 0) (entry : BlockRef) :
    ∃ im um ids, instrumentationMethod env = .ok im ∧ updateMethod env = .ok um ∧
      st'.cached = some ids ∧ (∀ bb, st'.code bb = instrumented im um ids bb ++ st.code bb) ∧
      ∀ bbs, InsideMap im ids size bbs →
        Option.Rel (Transparent um area size (im.locations (idsOf ids bbs)) t.mem)
          (Transition.run (stepBlock P fun _ => []) (some entry, s) bbs)
          (Transition.run (stepBlock P (instrumented im um ids)) (some entry, t) bbs) := by
  rcases run_eq_ok hrun with ⟨im, um, ids, st₁, him, hum, hids, rfl⟩
  -- the analysis leaves the code alone and caches its ids
  have hst₁ : st₁.cached = some ids ∧ st₁.code = st.code := by
    rcases PassState.getResult_eq_ok hids with ⟨-, ⟨hcached, rfl⟩ | ⟨-, res, -, rfl, rfl⟩⟩
    · exact ⟨hcached, rfl⟩
    · exact ⟨rfl, rfl⟩
  refine ⟨im, um, ids, him, hum, hst₁.1, fun bb => ?_, fun bbs hinside => ?_⟩
  · rw [← hst₁.2]
    exact instrument_eq_append im um ids st₁.code bb
  have hstart : Mirrors im um ids P t.mem [] (some entry, s) (some entry, t) := by
    refine ⟨rfl, hagree, hinv, hready, fun q _ => ?_⟩
    cases im <;> rfl
  have hrel := hstart.run hsize hinside
  generalize Transition.run (stepBlock P fun _ => []) (some entry, s) bbs = r,
    Transition.run (stepBlock P (instrumented im um ids)) (some entry, t) bbs = r' at hrel ⊢
  cases hrel with
  | none => exact .none
  | some hmirrors => exact .some hmirrors.transparent

end Transparency

/-! ### A program that counts to two -/

/-- Block 0 adds one to a byte and goes back to itself until the byte is two. -/
def countToTwoCode (bb : BlockRef) : List Inst :=
  if bb = ⟨0, 0⟩ then
    [.load .i8 10 (.at (.reg 9)), .bin .add 11 (.reg 10) (.const8 1),
      .store (.reg 11) (.at (.reg 9))]
  else []

/-- Object `true` holds the map of eight bytes. -/
def countToTwo : Program (programView (Ptr.mk true 0) (2 ^ 3)) :=
  .ofCode countToTwoCode
    (fun bb => by
      by_cases hbb : bb = ⟨0, 0⟩
      · simp [countToTwoCode, hbb, Inst.Visible, Operand.Visible, Addr.Visible, programView,
          codeRegs]
      · simp [countToTwoCode, hbb])
    (fun bb s =>
      if bb = ⟨0, 0⟩ then if s.regs 11 = some (.i8 2) then some ⟨0, 1⟩ else some ⟨0, 0⟩ else none)
    (fun bb {s t} h => by
      have hregs : s.regs 11 = t.regs 11 := h.regs 11 (show 9 ≤ 11 by decide)
      simp only [hregs])

/-- The start of the program: register 9 points to the byte. -/
def countToTwoStart : State Bool :=
  (startState (fun _ _ => 0) (Ptr.mk true 0)).setReg 9 (.ptr ⟨false, 0⟩)

theorem countToTwoStart_inv : countToTwo.Inv countToTwoStart := by
  refine ⟨fun r p hr hp => ?_, fun g p hg hp => ?_⟩
  · by_cases h9 : r = 9
    · subst h9
      rw [countToTwoStart, State.setReg_regs_self] at hp
      obtain rfl := Value.ptr.inj (Option.some.inj hp)
      exact fun a hwithin => Bool.false_ne_true hwithin.1
    · rw [countToTwoStart, State.setReg_regs_of_ne _ _ _ h9] at hp
      cases hp
  · simp [countToTwoStart, startState, hg.1, hg.2] at hp

/-- The program before the pass, with ids for both blocks. -/
def countToTwoModule : PassState where
  module := ⟨"count.c", []⟩
  code := countToTwoCode
  cfgSections := []
  registered := true
  cached := some [(⟨0, 0⟩, 6), (⟨0, 1⟩, 3)]

/-- It enters block 0 twice and then block 1. -/
example : (Transition.run (stepBlock countToTwo fun _ => [])
    (some ⟨0, 0⟩, countToTwoStart) [⟨0, 0⟩, ⟨0, 0⟩, ⟨0, 1⟩]).isSome :=
  rfl

/-- Both ids are below eight, so no sequence of blocks leads out of the map. -/
theorem countToTwo_transparent :
    ∃ (st' : PassState) (im : InstrumentationMethod) (um : UpdateMethod) (ids : IdMap),
      run identityToolchain (fun _ => none) countToTwoModule = .ok st' ∧ st'.cached = some ids ∧
      ∀ bbs, Option.Rel
        (Transparent um (Ptr.mk true 0) (2 ^ 3) (im.locations (idsOf ids bbs)) countToTwoStart.mem)
        (Transition.run (stepBlock countToTwo fun _ => []) (some ⟨0, 0⟩, countToTwoStart) bbs)
        (Transition.run (stepBlock countToTwo (instrumented im um ids))
          (some ⟨0, 0⟩, countToTwoStart) bbs) := by
  have hready : Ready countToTwoStart (Ptr.mk true 0) 0 := ⟨rfl, rfl⟩
  have hrun : run identityToolchain (fun _ => none) countToTwoModule = .ok _ := rfl
  rcases run_transparent hrun (by decide) countToTwo countToTwoStart_inv
    (Agree.refl _ countToTwoStart) hready ⟨0, 0⟩ with ⟨im, um, ids, -, -, hids, -, hrel⟩
  obtain rfl : [(⟨0, 0⟩, 6), (⟨0, 1⟩, 3)] = ids := Option.some.inj hids
  refine ⟨_, im, um, _, hrun, hids, fun bbs => hrel bbs (insideMap_of_lt ?_ bbs)⟩
  intro bb id hfind
  by_cases h0 : bb = ⟨0, 0⟩
  · subst h0
    obtain rfl : 6 = id := Option.some.inj hfind
    decide
  · by_cases h1 : bb = ⟨0, 1⟩
    · subst h1
      obtain rfl : 3 = id := Option.some.inj hfind
      decide
    · simp [IdMap.find, List.lookup_cons, beq_eq_false_iff_ne.2 h0, beq_eq_false_iff_ne.2 h1]
        at hfind

end AFLCoverage
end FuzzufCc
