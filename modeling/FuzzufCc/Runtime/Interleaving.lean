import FuzzufCc.Lib.RelyGuarantee
import FuzzufCc.Passes.Transparency
import FuzzufCc.Runtime.Bitmap

/-!
# Interleaving — many processes over one bitmap

The fork server and its PUTs, and whatever processes a PUT forks itself, have the same segment
attached, while each has its own globals.  The inserted code loads a counter, adds to it and stores
it back, so two processes can lose each other's counts, and `SIGKILL` can fall between any two
instructions.  What no interleaving can lose, under the two methods made for it, is that a location
was hit at all.
-/

namespace FuzzufCc

open LLVM Libc IR IR.Builder AFLCoverage

namespace Runtime
namespace Interleaving

/-! ## The code of a block under interference -/

section BlockCode

variable {O : Type} (um : UpdateMethod) (area : Ptr O)

/-- A counter that is not zero does not become zero again, if the method is made for that. -/
def Rely (m m' : Mem O) : Prop :=
  um ≠ .naive → ∀ off, m area.obj off ≠ 0 → m' area.obj off ≠ 0

variable {um area}

theorem Rely.refl (m : Mem O) : Rely um area m m :=
  fun _ _ h => h

theorem Rely.trans {m₁ m₂ m₃ : Mem O} (h : Rely um area m₁ m₂) (h' : Rely um area m₂ m₃) :
    Rely um area m₁ m₃ :=
  fun hum off hoff => h' hum off (h hum off hoff)

variable [DecidableEq O]

variable (um) in
/-- At most one store, to `p`, of a value that a counter can have after a hit. -/
def Guarantee (p : Ptr O) (m m' : Mem O) : Prop :=
  m' = m ∨ ∃ b, (um ≠ .naive → b ≠ 0) ∧ m' = m.set p b

theorem Guarantee.rely {p : Ptr O} {m m' : Mem O} (h : Guarantee um p m m') :
    Rely um area m m' := by
  intro hum off hoff
  rcases h with rfl | ⟨b, hb, rfl⟩
  · exact hoff
  · by_cases hp : Ptr.mk area.obj off = p
    · subst hp
      rw [Mem.set_same (Ptr.mk area.obj off) b m]
      exact hb hum
    · rw [Mem.set_of_ne _ _ _ hp]
      exact hoff

variable {im : InstrumentationMethod} {curLoc prev : BitVec 32} {s : State O}

theorem Guarantee.refl (p : Ptr O) (m : Mem O) : Guarantee um p m m :=
  .inl rfl

theorem getBitmapLocation_runs {p : Ptr O} (hs : Ready s area prev) :
    let out := getBitmapLocation im curLoc { next := 0, insts := [] }
    Runs (Rely um area) (Guarantee um p)
      (fun s' => Ready s' area (im.nextPrev prev curLoc) ∧
        out.1.eval s' = some (.i32 (im.location prev curLoc))) s out.2.insts := by
  cases im with
  | node => exact ⟨hs, rfl⟩
  | hashedEdge =>
      have hne : areaPtrValname ≠ prevLocValname := by decide
      -- no instruction looks at the memory
      simp [getBitmapLocation, createLoad, createZExt, createStore, createXor, define, bind_apply,
        Runs, Inst.exec, Operand.eval, BinOp.eval, Value.ty, hs.prev, Guarantee.refl,
        InstrumentationMethod.location, InstrumentationMethod.nextPrev]
      intro m₁ _ m₂ _ m₃ _
      refine ⟨?_, ?_⟩
      · simpa [State.setGlobal_globals_of_ne _ _ _ hne] using hs.area
      · simp

theorem updateBitmap_runs {p n : Nat} (hp : p < n) {q : Ptr O} (hq : s.regs p = some (.ptr q))
    (hs : Ready s area prev) (hqa : q.obj = area.obj) :
    Runs (Rely um area) (Guarantee um q)
      (fun s' => Ready s' area prev ∧ (um ≠ .naive → s'.mem area.obj q.off ≠ 0)) s
      (updateBitmap um (.reg p) { next := n, insts := [] }).2.insts := by
  -- no fresh register is the one that holds the pointer
  have hne : ∀ k, p ≠ n + k := fun k => Nat.ne_of_lt (Nat.lt_of_lt_of_le hp (Nat.le_add_right n k))
  have hne0 : p ≠ n := hne 0
  have hG : ∀ m, Guarantee um q m m := Guarantee.refl q
  cases um with
  | naive =>
      have hcode : (updateBitmap .naive (.reg p) { next := n, insts := [] }).2.insts =
          [.load .i8 n (.at (.reg p)), .bin .add (n + 1) (.reg n) (.const8 1),
            .store (.reg (n + 1)) (.at (.reg p))] := rfl
      rw [hcode]
      refine .reg n (fun m => .i8 (m q.obj q.off)) (fun m => ?_) hG fun m₁ _ => ?_
      · simp [Inst.exec, Operand.eval, hq]
      refine .reg (n + 1) (fun _ => .i8 (m₁ q.obj q.off + 1)) (fun m => ?_) hG fun m₂ _ => ?_
      · simp [Inst.exec, Operand.eval, BinOp.eval]
      refine .storeByte (State.setReg_regs_self _ _ _) ?_
        (fun m => .inr ⟨_, fun hum => absurd rfl hum, rfl⟩) fun m₃ _ => ?_
      · simp [State.setReg_regs_of_ne, hne, hne0, hq]
      · exact ⟨⟨hs.area, hs.prev⟩, fun hum => absurd rfl hum⟩
  | avoidZero =>
      -- the sum wraps to zero exactly where the carry is one
      have hb : ∀ c : BitVec 8, c + 1 + (if c + 1 == 0 then 1 else 0) ≠ 0 := by decide
      have hcode : (updateBitmap .avoidZero (.reg p) { next := n, insts := [] }).2.insts =
          [.load .i8 n (.at (.reg p)), .bin .add (n + 1) (.reg n) (.const8 1),
            .icmp .eq (n + 2) (.reg (n + 1)) (.const8 0), .zext .i8 (n + 3) (.reg (n + 2)),
            .bin .add (n + 4) (.reg (n + 1)) (.reg (n + 3)),
            .store (.reg (n + 4)) (.at (.reg p))] := rfl
      rw [hcode]
      refine .reg n (fun m => .i8 (m q.obj q.off)) (fun m => ?_) hG fun m₁ _ => ?_
      · simp [Inst.exec, Operand.eval, hq]
      refine .reg (n + 1) (fun _ => .i8 (m₁ q.obj q.off + 1)) (fun m => ?_) hG fun m₂ _ => ?_
      · simp [Inst.exec, Operand.eval, BinOp.eval]
      refine .reg (n + 2) (fun _ => .i1 (m₁ q.obj q.off + 1 == 0)) (fun m => ?_) hG fun m₃ _ => ?_
      · simp [Inst.exec, Operand.eval, Pred.eval]
      refine .reg (n + 3) (fun _ => .i8 (if m₁ q.obj q.off + 1 == 0 then 1 else 0)) (fun m => ?_) hG
        fun m₄ _ => ?_
      · simp [Inst.exec, Operand.eval, Value.zext]
      refine .reg (n + 4) (fun _ => .i8 (m₁ q.obj q.off + 1 +
        if m₁ q.obj q.off + 1 == 0 then 1 else 0)) (fun m => ?_) hG fun m₅ _ => ?_
      · simp [Inst.exec, Operand.eval, BinOp.eval, State.setReg_regs_of_ne]
      refine .storeByte (State.setReg_regs_self _ _ _) ?_
        (fun m => .inr ⟨_, fun _ => hb (m₁ q.obj q.off), rfl⟩) fun m₆ _ => ?_
      · simp [State.setReg_regs_of_ne, hne, hne0, hq]
      · refine ⟨⟨hs.area, hs.prev⟩, fun _ => ?_⟩
        rw [State.storeByte_mem, ← hqa, Mem.set_same]
        exact hb (m₁ q.obj q.off)
  | capFF =>
      have hb : ∀ c : BitVec 8, c + (if c != 0xff then 1 else 0) ≠ 0 := by decide
      have hcode : (updateBitmap .capFF (.reg p) { next := n, insts := [] }).2.insts =
          [.load .i8 n (.at (.reg p)), .icmp .ne (n + 1) (.reg n) (.const8 0xff),
            .zext .i8 (n + 2) (.reg (n + 1)), .bin .add (n + 3) (.reg n) (.reg (n + 2)),
            .store (.reg (n + 3)) (.at (.reg p))] := rfl
      rw [hcode]
      refine .reg n (fun m => .i8 (m q.obj q.off)) (fun m => ?_) hG fun m₁ _ => ?_
      · simp [Inst.exec, Operand.eval, hq]
      refine .reg (n + 1) (fun _ => .i1 (m₁ q.obj q.off != 0xff)) (fun m => ?_) hG fun m₂ _ => ?_
      · simp [Inst.exec, Operand.eval, Pred.eval]
      refine .reg (n + 2) (fun _ => .i8 (if m₁ q.obj q.off != 0xff then 1 else 0)) (fun m => ?_) hG
        fun m₃ _ => ?_
      · simp [Inst.exec, Operand.eval, Value.zext]
      refine .reg (n + 3) (fun _ => .i8 (m₁ q.obj q.off +
        if m₁ q.obj q.off != 0xff then 1 else 0)) (fun m => ?_) hG fun m₄ _ => ?_
      · simp [Inst.exec, Operand.eval, BinOp.eval, State.setReg_regs_of_ne]
      refine .storeByte (State.setReg_regs_self _ _ _) ?_
        (fun m => .inr ⟨_, fun _ => hb (m₁ q.obj q.off), rfl⟩) fun m₅ _ => ?_
      · simp [State.setReg_regs_of_ne, hne, hne0, hq]
      · refine ⟨⟨hs.area, hs.prev⟩, fun _ => ?_⟩
        rw [State.storeByte_mem, ← hqa, Mem.set_same]
        exact hb (m₁ q.obj q.off)

/-- **The code of a block under interference.** It gets to its end, stores once at most and only to
its cell, and the cell is not zero then. -/
theorem blockCode_runs (hs : Ready s area prev) :
    Runs (Rely um area) (Guarantee um (cell area (im.location prev curLoc)))
      (fun s' => Ready s' area (im.nextPrev prev curLoc) ∧
        (um ≠ .naive → s'.mem area.obj (cell area (im.location prev curLoc)).off ≠ 0)) s
      (blockCode im um curLoc) := by
  have hbelow : (getBitmapLocation im curLoc { next := 0, insts := [] }).1.Below
      (getBitmapLocation im curLoc { next := 0, insts := [] }).2.next := by
    cases im with
    | node => trivial
    | hashedEdge => exact Nat.lt_succ_self 1
  rw [blockCode_eq]
  refine (getBitmapLocation_runs hs).append fun s₁ hs₁ => ?_
  obtain ⟨hready, hloc⟩ := hs₁
  generalize getBitmapLocation im curLoc { next := 0, insts := [] } = out at hbelow hloc
  -- registers `n` and `n + 1` hold the map pointer and the address of the cell
  refine Runs.cons (f := fun m => (s₁.withMem m).setReg out.2.next (.ptr area)) ?_ ?_
  · intro m _
    exact ⟨by simp [Inst.exec, hready.area, Value.ty], .refl _ _⟩
  intro m _
  refine Runs.cons (f := fun m' => ((s₁.withMem m').setReg out.2.next (.ptr area)).setReg
    (out.2.next + 1) (.ptr (cell area (im.location prev curLoc)))) ?_ ?_
  · intro m' _
    refine ⟨?_, .refl _ _⟩
    simp [Inst.exec, Operand.eval_setReg _ _ _ hbelow le_rfl, hloc]
    simp [Operand.eval, Value.gep, cell]
  intro m' _
  refine updateBitmap_runs (Nat.lt_succ_self (out.2.next + 1)) ?_ ⟨hready.area, hready.prev⟩ rfl
  simp

end BlockCode

/-! ## Processes -/

/-- A step of the program itself: anything that leaves the hidden part alone. -/
structure Move {O : Type} (V : View O) where
  apply : State O → State O
  hidden : ∀ s, HiddenSame V s (apply s)

/-- The processes that have the map attached, each with the inserted code that it has still to run.
`entered` is the history of a process, with that of the process that forked it; a process that has
not been started has none. -/
structure Processes (T O : Type) where
  par : Parallel T O
  entered : T → Option (List BlockRef)

/-- A process that is killed has no further events.  The map fills its object, and the programs leave
all of it alone. -/
inductive Event (T : Type) {O : Type} (area : Ptr O)
  | enter (t : T) (bb : BlockRef)
  -- the next inserted instruction
  | exec (t : T)
  | program (t : T) (move : Move (programView area (2 ^ 64)))
  | fork (t u : T)

section Steps

variable {T O : Type} [DecidableEq T] [DecidableEq O]
variable (im : InstrumentationMethod) (um : UpdateMethod) (ids : IdMap) (area : Ptr O)

/-- The program goes on only when the inserted code is done. -/
def step (w : Processes T O) : Event T area → Option (Processes T O)
  | .enter t bb =>
      match w.entered t, w.par.code t with
      | some bbs, [] =>
          some {
            par := w.par.put t (w.par.view t) (instrumented im um ids bb)
            entered := Function.update w.entered t (some (bbs ++ [bb])) }
      | _, _ => none
  | .exec t => (w.par.exec t).map fun par => { w with par := par }
  | .program t move =>
      match w.entered t, w.par.code t with
      | some _, [] => some { w with par := w.par.put t (move.apply (w.par.view t)) [] }
      | _, _ => none
  | .fork t u =>
      match w.entered t, w.par.code t, w.entered u with
      | some bbs, [], none =>
          some {
            par := w.par.put u (w.par.view t) []
            entered := Function.update w.entered u (some bbs) }
      | _, _, _ => none

/-- One process, which has entered no block yet. -/
def start (t : T) (s : State O) : Processes T O where
  par := { state := fun _ => s, code := fun _ => [], mem := s.mem }
  entered := Function.update (fun _ => none) t (some [])

/-- What a process guarantees: it writes its own cells. -/
def Own (entered : Option (List BlockRef)) (m m' : Mem O) : Prop :=
  m' = m ∨ ∃ bbs loc, entered = some bbs ∧ loc ∈ im.locations (idsOf ids bbs) ∧
    Guarantee um (cell area loc) m m'

/-- What holds of a process that has run its inserted code: the cells of its history have been
hit. -/
def Settled (entered : Option (List BlockRef)) (s : State O) : Prop :=
  ∀ bbs, entered = some bbs → Ready s area (im.prevAfter (idsOf ids bbs)) ∧
    (um ≠ .naive → ∀ loc ∈ im.locations (idsOf ids bbs), s.mem area.obj (cell area loc).off ≠ 0)

end Steps

/-! ## What every interleaving keeps -/

section Interleavings

variable {T O : Type}
variable {im : InstrumentationMethod} {um : UpdateMethod} {ids : IdMap} {area : Ptr O}

theorem Settled.withMem {e : Option (List BlockRef)} {s : State O} {m : Mem O}
    (hm : Rely um area s.mem m) (h : Settled im um ids area e s) :
    Settled im um ids area e (s.withMem m) := by
  intro bbs hbbs
  obtain ⟨hready, hhit⟩ := h bbs hbbs
  exact ⟨⟨hready.area, hready.prev⟩, fun hum loc hloc => hm hum _ (hhit hum loc hloc)⟩

variable [DecidableEq T] [DecidableEq O]

theorem locations_concat (im : InstrumentationMethod) (is : List (BitVec 32)) (id : BitVec 32) :
    im.locations (is ++ [id]) = im.locations is ++ [im.location (im.prevAfter is) id] := by
  rw [← locationsFrom_zero, locationsFrom_append, locationsFrom_zero]
  rfl

theorem idsOf_concat (ids : IdMap) (bbs : List BlockRef) (bb : BlockRef) :
    idsOf ids (bbs ++ [bb]) = idsOf ids bbs ++ (ids.find bb).toList := by
  cases h : ids.find bb <;> simp [idsOf, h]

theorem Own.rely {e : Option (List BlockRef)} {m m' : Mem O} (h : Own im um ids area e m m') :
    Rely um area m m' := by
  rcases h with rfl | ⟨bbs, loc, -, -, h⟩
  · exact .refl m'
  · exact h.rely

/-- The code in front of a block settles the history with the block. -/
theorem instrumented_runs {bbs : List BlockRef} {s : State O}
    (hs : Settled im um ids area (some bbs) s) (bb : BlockRef) :
    Runs (Rely um area) (Own im um ids area (some (bbs ++ [bb])))
      (Settled im um ids area (some (bbs ++ [bb]))) s (instrumented im um ids bb) := by
  obtain ⟨hready, hhit⟩ := hs bbs rfl
  have hids := idsOf_concat ids bbs bb
  cases hfind : ids.find bb with
  | none =>
      have hcode : instrumented im um ids bb = [] := by simp [instrument, hfind]
      rw [hfind, Option.toList_none, List.append_nil] at hids
      rw [hcode]
      intro bbs' hbbs'
      obtain rfl := Option.some.inj hbbs'
      rw [hids]
      exact ⟨hready, hhit⟩
  | some curLoc =>
      have hcode : instrumented im um ids bb = blockCode im um curLoc := by
        simp [instrument, hfind]
      rw [hfind, Option.toList_some] at hids
      have hlocs := locations_concat im (idsOf ids bbs) curLoc
      have hprev : im.prevAfter (idsOf ids bbs ++ [curLoc]) =
          im.nextPrev (im.prevAfter (idsOf ids bbs)) curLoc := by
        simp [InstrumentationMethod.prevAfter]
      rw [hcode]
      -- the cells of the history stay hit while the new one is
      have hblock : Runs (Rely um area) _ _ s (blockCode im um curLoc) := blockCode_runs hready
      have hkeeps := hblock.keeps
        (I := fun m => um ≠ .naive → ∀ loc ∈ im.locations (idsOf ids bbs),
          m area.obj (cell area loc).off ≠ 0)
        (fun m m' hm h hum loc hloc => hm hum _ (h hum loc hloc))
        (fun m m' hm h hum loc hloc => hm.rely hum _ (h hum loc hloc)) hhit
      refine hkeeps.mono (fun m m' hm => ?_) fun s' hs' => ?_
      · refine .inr ⟨_, _, rfl, ?_, hm⟩
        rw [hids, hlocs]
        exact List.mem_append_right _ (List.mem_singleton_self _)
      · obtain ⟨⟨hready', hcell⟩, hold⟩ := hs'
        intro bbs' hbbs'
        obtain rfl := Option.some.inj hbbs'
        rw [hids, hlocs, hprev]
        refine ⟨hready', fun hum loc hloc => ?_⟩
        rcases List.mem_append.1 hloc with hloc | hloc
        · exact hold hum loc hloc
        · obtain rfl := List.mem_singleton.1 hloc
          exact hcell hum

/-- What holds in every reachable state. -/
structure Inv (im : InstrumentationMethod) (um : UpdateMethod) (ids : IdMap) (area : Ptr O)
    (mem₀ : Mem O) (w : Processes T O) : Prop where
  runs : ∀ t, Runs (Rely um area) (Own im um ids area (w.entered t))
    (Settled im um ids area (w.entered t)) (w.par.view t) (w.par.code t)
  -- the block that a process is in may not be counted yet
  before : um ≠ .naive → ∀ t bbs, w.entered t = some bbs →
    ∀ loc ∈ im.locations (idsOf ids bbs.dropLast), w.par.mem area.obj (cell area loc).off ≠ 0
  rely : Rely um area mem₀ w.par.mem
  written : ∀ off, w.par.mem area.obj off ≠ mem₀ area.obj off →
    ∃ t bbs, w.entered t = some bbs ∧
      ∃ loc ∈ im.locations (idsOf ids bbs), (cell area loc).off = off

theorem Inv.of_put {mem₀ : Mem O} {w w' : Processes T O} {t : T} {s : State O} {is : List Inst}
    (hinv : Inv im um ids area mem₀ w) (hpar : w'.par = w.par.put t s is)
    (hentered : ∀ u, u ≠ t → w'.entered u = w.entered u)
    (hold : ∀ bbs, w.entered t = some bbs → ∃ bbs', w'.entered t = some bbs' ∧
      ∀ loc ∈ im.locations (idsOf ids bbs), loc ∈ im.locations (idsOf ids bbs'))
    (hmem : s.mem area.obj = w.par.mem area.obj)
    (hbefore : um ≠ .naive → ∀ bbs, w'.entered t = some bbs →
      ∀ loc ∈ im.locations (idsOf ids bbs.dropLast), s.mem area.obj (cell area loc).off ≠ 0)
    (ht : Runs (Rely um area) (Own im um ids area (w'.entered t))
      (Settled im um ids area (w'.entered t)) s is) : Inv im um ids area mem₀ w' := by
  have hrely : Rely um area w.par.mem s.mem := by
    intro _ off hoff
    rwa [hmem]
  refine ⟨?_, ?_, ?_, ?_⟩
  · rw [hpar]
    refine Parallel.put_runs (fun h₁ h₂ => h₁.trans h₂) (fun _ {_ _} hm h => h.withMem hm)
      (fun u hu => ?_) hrely ht
    rw [hentered u hu]
    exact hinv.runs u
  · intro hum u bbs hbbs loc hloc
    rw [hpar, Parallel.put_mem]
    by_cases hu : u = t
    · subst hu
      exact hbefore hum bbs hbbs loc hloc
    · rw [hentered u hu] at hbbs
      exact hrely hum _ (hinv.before hum u bbs hbbs loc hloc)
  · rw [hpar]
    exact hinv.rely.trans hrely
  · intro off hoff
    rw [hpar, Parallel.put_mem, hmem] at hoff
    rcases hinv.written off hoff with ⟨u, bbs, hbbs, loc, hloc, hcell⟩
    by_cases hu : u = t
    · subst hu
      rcases hold bbs hbbs with ⟨bbs', hbbs', hsub⟩
      exact ⟨u, bbs', hbbs', loc, hsub loc hloc, hcell⟩
    · exact ⟨u, bbs, (hentered u hu).trans hbbs, loc, hloc, hcell⟩

theorem mem_locations_concat {bbs : List BlockRef} {loc : BitVec 32} (bb : BlockRef)
    (h : loc ∈ im.locations (idsOf ids bbs)) : loc ∈ im.locations (idsOf ids (bbs ++ [bb])) := by
  rw [idsOf_concat]
  cases ids.find bb with
  | none => simpa using h
  | some id =>
      rw [Option.toList_some, locations_concat]
      exact List.mem_append_left _ h

/-- An inserted instruction: the process does what it guarantees. -/
theorem Inv.exec {mem₀ : Mem O} {w : Processes T O} {par : Parallel T O} {t : T}
    (hinv : Inv im um ids area mem₀ w) (h : w.par.exec t = some par) :
    Inv im um ids area mem₀ { w with par := par } := by
  have hstep := Parallel.exec_runs Rely.refl (fun h₁ h₂ => h₁.trans h₂) (fun _ _ _ h => h.rely)
    (fun _ {_ _} hm h => h.withMem hm) hinv.runs h
  obtain ⟨hown, hruns⟩ := hstep
  refine ⟨hruns, fun hum u bbs hbbs loc hloc => ?_, hinv.rely.trans hown.rely, fun off hoff => ?_⟩
  · exact hown.rely hum _ (hinv.before hum u bbs hbbs loc hloc)
  · by_cases hsame : par.mem area.obj off = w.par.mem area.obj off
    · rw [hsame] at hoff
      exact hinv.written off hoff
    · -- the byte is the one that has just been stored
      rcases hown with hown | ⟨bbs, loc, hbbs, hloc, hown | ⟨b, -, hown⟩⟩
      · exact absurd (by rw [hown]) hsame
      · exact absurd (by rw [hown]) hsame
      · refine ⟨t, bbs, hbbs, loc, hloc, ?_⟩
        by_contra hne
        refine hsame ?_
        rw [hown]
        refine Mem.set_of_ne _ _ _ fun heq => hne ?_
        exact (congrArg Ptr.off heq).symm

/-- **One step of any process.** -/
theorem Inv.step {mem₀ : Mem O} {w w' : Processes T O} (hinv : Inv im um ids area mem₀ w)
    {e : Event T area} (h : step im um ids area w e = some w') :
    Inv im um ids area mem₀ w' := by
  cases e with
  | enter t bb =>
      simp only [Interleaving.step] at h
      split at h
      case h_2 => cases h
      case h_1 bbs hbbs hcode =>
          obtain rfl := Option.some.inj h
          have hsettled := hinv.runs t
          rw [hcode, hbbs] at hsettled
          refine hinv.of_put (t := t) rfl (fun u hu => Function.update_of_ne hu _ _)
            (fun bbs' hbbs' => ?_) rfl (fun hum bbs' hbbs' loc hloc => ?_) ?_
          · obtain rfl : bbs = bbs' := Option.some.inj (hbbs.symm.trans hbbs')
            exact ⟨bbs ++ [bb], Function.update_self _ _ _, fun loc => mem_locations_concat bb⟩
          · obtain rfl : bbs ++ [bb] = bbs' := by simpa using hbbs'
            rw [List.dropLast_concat] at hloc
            exact (hsettled bbs rfl).2 hum loc hloc
          · simpa using instrumented_runs hsettled bb
  | exec t =>
      obtain ⟨par, hpar, rfl⟩ := Option.map_eq_some_iff.1 h
      exact hinv.exec hpar
  | program t move =>
      simp only [Interleaving.step] at h
      split at h
      case h_2 => cases h
      case h_1 bbs hbbs hcode =>
          obtain rfl := Option.some.inj h
          have hsettled := hinv.runs t
          rw [hcode, hbbs] at hsettled
          have hhidden := move.hidden (w.par.view t)
          have hmem : (move.apply (w.par.view t)).mem area.obj = w.par.mem area.obj := by
            funext off
            exact (hhidden.mem area.obj off fun hbyte => hbyte ⟨rfl, Ptr.dist_lt⟩).symm
          refine hinv.of_put (t := t) rfl (fun _ _ => rfl) (fun bbs' hbbs' => ?_) hmem
            (fun hum bbs' hbbs' loc hloc => ?_) ?_
          · exact ⟨bbs', hbbs', fun _ hloc => hloc⟩
          · rw [hmem]
            exact hinv.before hum t bbs' hbbs' loc hloc
          · rw [hbbs]
            intro bbs' hbbs'
            obtain ⟨hready, hhit⟩ := hsettled bbs' hbbs'
            refine ⟨hready.of_hiddenSame hhidden, fun hum loc hloc => ?_⟩
            rw [hmem]
            exact hhit hum loc hloc
  | fork t u =>
      simp only [Interleaving.step] at h
      split at h
      case h_2 => cases h
      case h_1 bbs hbbs hcode hnone =>
          obtain rfl := Option.some.inj h
          have hsettled := hinv.runs t
          rw [hcode, hbbs] at hsettled
          refine hinv.of_put (t := u) rfl (fun v hv => Function.update_of_ne hv _ _)
            (fun bbs' hbbs' => ?_) rfl (fun hum bbs' hbbs' loc hloc => ?_) ?_
          · rw [hnone] at hbbs'
            cases hbbs'
          · obtain rfl : bbs = bbs' := by simpa using hbbs'
            exact hinv.before hum t bbs hbbs loc hloc
          · simpa using hsettled

/-- The history of a process, without the block that it is in, if there is inserted code left. -/
def finished (w : Processes T O) (t : T) (bbs : List BlockRef) : List BlockRef :=
  if w.par.code t = [] then bbs else bbs.dropLast

theorem start_inv {t : T} {s : State O} (hs : Ready s area 0) :
    Inv im um ids area s.mem (start t s) := by
  have hids : idsOf ids [] = [] := rfl
  have hlocs : im.locations (idsOf ids []) = [] := by cases im <;> rfl
  have hentered : ∀ u bbs, (start t s).entered u = some bbs → bbs = [] := by
    intro u bbs hbbs
    by_cases hu : u = t
    · simpa [start, hu, eq_comm] using hbbs
    · simp [start, hu] at hbbs
  refine ⟨fun u bbs hbbs => ?_, fun _ u bbs hbbs loc hloc => ?_, .refl _, fun off hoff => ?_⟩
  · obtain rfl := hentered u bbs hbbs
    rw [hlocs]
    exact ⟨hs, fun _ _ hloc => absurd hloc List.not_mem_nil⟩
  · obtain rfl := hentered u bbs hbbs
    rw [List.dropLast_nil, hlocs] at hloc
    exact absurd hloc List.not_mem_nil
  · exact absurd rfl hoff

/-- **No interleaving loses coverage.** In every run of any number of processes, instruction by
instruction: each location that a process has finished is nonzero in the map, under the two methods
that avoid zero, and so is what was nonzero before; what has changed is a location of some process;
and no process is stuck in inserted code. -/
theorem coverage_kept {t₀ : T} {s₀ : State O} (hs : Ready s₀ area 0) {es : List (Event T area)}
    {w : Processes T O} (hrun : Transition.run (step im um ids area) (start t₀ s₀) es = some w) :
    (um ≠ .naive →
      (∀ t bbs, w.entered t = some bbs → ∀ loc ∈ im.locations (idsOf ids (finished w t bbs)),
        w.par.mem area.obj (cell area loc).off ≠ 0) ∧
      ∀ off, s₀.mem area.obj off ≠ 0 → w.par.mem area.obj off ≠ 0) ∧
    (∀ off, w.par.mem area.obj off ≠ s₀.mem area.obj off →
      ∃ t bbs, w.entered t = some bbs ∧
        ∃ loc ∈ im.locations (idsOf ids bbs), (cell area loc).off = off) ∧
    ∀ t, w.par.code t ≠ [] → ∃ w', step im um ids area w (.exec t) = some w' := by
  have hinv : Inv im um ids area s₀.mem w :=
    Transition.invariant_run (fun _ _ _ h hstep => h.step hstep) (start_inv hs) hrun
  refine ⟨fun hum => ⟨fun t bbs hbbs loc hloc => ?_, hinv.rely hum⟩, hinv.written, ?_⟩
  · by_cases hcode : w.par.code t = []
    · have hsettled := hinv.runs t
      rw [hcode] at hsettled
      rw [finished, if_pos hcode] at hloc
      exact (hsettled bbs hbbs).2 hum loc hloc
    · rw [finished, if_neg hcode] at hloc
      exact hinv.before hum t bbs hbbs loc hloc
  · intro t hcode
    rcases Parallel.exec_isSome Rely.refl (hinv.runs t) hcode with ⟨par, hpar⟩
    exact ⟨{ w with par := par }, by simp [step, hpar]⟩

end Interleavings

/-! ### Two processes that lose a count -/

/-- Both processes load the counter of block 5 before either stores it. -/
def lostCount : List (Event Nat (Ptr.mk true 0)) :=
  [.fork 0 1, .enter 0 ⟨0, 0⟩, .enter 1 ⟨0, 0⟩, .exec 0, .exec 0, .exec 0, .exec 1, .exec 1, .exec 1,
    .exec 0, .exec 0, .exec 0, .exec 0, .exec 1, .exec 1, .exec 1, .exec 1]

/-- The map of `lostCount` is object `true`. -/
def lostCountStart : State Bool :=
  startState (fun _ _ => 0) ⟨true, 0⟩

theorem lostCount_kept :
    ∃ w, Transition.run (step .node .capFF [(⟨0, 0⟩, 5)] ⟨true, 0⟩) (start 0 lostCountStart)
        lostCount = some w ∧
      ∀ t bbs, w.entered t = some bbs →
        ∀ loc ∈ InstrumentationMethod.node.locations
            (idsOf [(⟨0, 0⟩, 5)] (finished w t bbs)),
          w.par.mem true (cell (Ptr.mk true 0) loc).off ≠ 0 := by
  have hrun : Transition.run (step .node .capFF [(⟨0, 0⟩, 5)] ⟨true, 0⟩) (start 0 lostCountStart)
      lostCount = some _ := rfl
  have hkept := coverage_kept (startState_ready _ _) hrun
  exact ⟨_, hrun, (hkept.1 (by decide)).1⟩

/-- The block is entered twice and counted once. -/
example : (Transition.run (step .node .capFF [(⟨0, 0⟩, 5)] ⟨true, 0⟩) (start 0 lostCountStart)
    lostCount).map (fun w => w.par.mem true 5) = some 1 :=
  rfl

end Interleaving
end Runtime
end FuzzufCc
