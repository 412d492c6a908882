import FuzzufCc.Lib.IR

/-!
# Visible — code that sees only a part of the state

A view says which registers, globals and bytes of memory a piece of code may use.  Code that
mentions only visible names, started where every visible pointer leads to an object without hidden
bytes, behaves alike in all states that agree on the visible part, and leaves the hidden part alone.
-/

namespace IR

structure View (O : Type) where
  reg : Nat → Prop
  global : String → Prop
  byte : O → BitVec 64 → Prop

section Defs

variable {O : Type} (V : View O)

/-- All bytes of the object are visible. -/
def View.Obj (o : O) : Prop :=
  ∀ a, V.byte o a

/-- The visible part is the same. -/
structure Agree (s t : State O) : Prop where
  regs : ∀ r, V.reg r → s.regs r = t.regs r
  globals : ∀ g, V.global g → s.globals g = t.globals g
  mem : ∀ o a, V.byte o a → s.mem o a = t.mem o a

/-- The hidden globals and bytes are the same. -/
structure HiddenSame (s t : State O) : Prop where
  globals : ∀ g, ¬V.global g → s.globals g = t.globals g
  mem : ∀ o a, ¬V.byte o a → s.mem o a = t.mem o a

/-- No visible pointer leads to an object with a hidden byte. -/
structure Confined (s : State O) : Prop where
  regs : ∀ r p, V.reg r → s.regs r = some (.ptr p) → V.Obj p.obj
  globals : ∀ g p, V.global g → s.globals g = some (.ptr p) → V.Obj p.obj

def Operand.Visible : Operand → Prop
  | .reg r => V.reg r
  | _ => True

def Addr.Visible : Addr → Prop
  | .global g => V.global g
  | .at p => p.Visible V

/-- Every name in the instruction is visible. -/
def Inst.Visible : Inst → Prop
  | .load _ dst addr => V.reg dst ∧ addr.Visible V
  | .store val addr => val.Visible V ∧ addr.Visible V
  | .bin _ dst a b => V.reg dst ∧ a.Visible V ∧ b.Visible V
  | .icmp _ dst a b => V.reg dst ∧ a.Visible V ∧ b.Visible V
  | .zext _ dst a => V.reg dst ∧ a.Visible V
  | .gep dst base idx => V.reg dst ∧ base.Visible V ∧ idx.Visible V

end Defs

section Agreement

variable {O : Type} {V : View O} {s t u : State O}

theorem Agree.refl (V : View O) (s : State O) : Agree V s s :=
  ⟨fun _ _ => rfl, fun _ _ => rfl, fun _ _ _ => rfl⟩

theorem Agree.symm (h : Agree V s t) : Agree V t s :=
  ⟨fun r hr => (h.regs r hr).symm, fun g hg => (h.globals g hg).symm,
    fun o a ha => (h.mem o a ha).symm⟩

theorem Agree.trans (h : Agree V s t) (h' : Agree V t u) : Agree V s u :=
  ⟨fun r hr => (h.regs r hr).trans (h'.regs r hr),
    fun g hg => (h.globals g hg).trans (h'.globals g hg),
    fun o a ha => (h.mem o a ha).trans (h'.mem o a ha)⟩

theorem HiddenSame.refl (V : View O) (s : State O) : HiddenSame V s s :=
  ⟨fun _ _ => rfl, fun _ _ _ => rfl⟩

theorem HiddenSame.trans (h : HiddenSame V s t) (h' : HiddenSame V t u) : HiddenSame V s u :=
  ⟨fun g hg => (h.globals g hg).trans (h'.globals g hg),
    fun o a ha => (h.mem o a ha).trans (h'.mem o a ha)⟩

/-- Confinement is about the visible part. -/
theorem Confined.of_agree (hs : Confined V s) (h : Agree V s t) : Confined V t where
  regs r p hr hp := hs.regs r p hr ((h.regs r hr).trans hp)
  globals g p hg hp := hs.globals g p hg ((h.globals g hg).trans hp)

theorem Agree.eval (h : Agree V s t) {a : Operand} (ha : a.Visible V) : a.eval s = a.eval t := by
  cases a with
  | reg r => exact h.regs r ha
  | const8 _ => rfl
  | const32 _ => rfl

theorem Confined.eval (hs : Confined V s) {a : Operand} (ha : a.Visible V) {p : Ptr O}
    (hp : a.eval s = some (.ptr p)) : V.Obj p.obj := by
  cases a with
  | reg r => exact hs.regs r p ha hp
  | const8 _ => cases hp
  | const32 _ => cases hp

/-! ## Writes -/

theorem Agree.setReg (h : Agree V s t) (r : Nat) (v : Value O) :
    Agree V (s.setReg r v) (t.setReg r v) := by
  refine ⟨fun r' hr' => ?_, h.globals, h.mem⟩
  rcases eq_or_ne r' r with rfl | hne
  · rw [State.setReg_regs_self, State.setReg_regs_self]
  · rw [State.setReg_regs_of_ne _ _ _ hne, State.setReg_regs_of_ne _ _ _ hne]
    exact h.regs r' hr'

theorem Agree.setGlobal (h : Agree V s t) (g : String) (v : Value O) :
    Agree V (s.setGlobal g v) (t.setGlobal g v) := by
  refine ⟨h.regs, fun g' hg' => ?_, h.mem⟩
  rcases eq_or_ne g' g with rfl | hne
  · rw [State.setGlobal_globals_self, State.setGlobal_globals_self]
  · rw [State.setGlobal_globals_of_ne _ _ _ hne, State.setGlobal_globals_of_ne _ _ _ hne]
    exact h.globals g' hg'

theorem Confined.setReg (hs : Confined V s) (r : Nat) {v : Value O}
    (hv : ∀ p, v = .ptr p → V.Obj p.obj) : Confined V (s.setReg r v) := by
  refine ⟨fun r' p hr' hp => ?_, hs.globals⟩
  rcases eq_or_ne r' r with rfl | hne
  · rw [State.setReg_regs_self] at hp
    exact hv p (Option.some.inj hp)
  · rw [State.setReg_regs_of_ne _ _ _ hne] at hp
    exact hs.regs r' p hr' hp

theorem Confined.setGlobal (hs : Confined V s) (g : String) {v : Value O}
    (hv : ∀ p, v = .ptr p → V.Obj p.obj) : Confined V (s.setGlobal g v) := by
  refine ⟨hs.regs, fun g' p hg' hp => ?_⟩
  rcases eq_or_ne g' g with rfl | hne
  · rw [State.setGlobal_globals_self] at hp
    exact hv p (Option.some.inj hp)
  · rw [State.setGlobal_globals_of_ne _ _ _ hne] at hp
    exact hs.globals g' p hg' hp

theorem HiddenSame.setGlobal (s : State O) {g : String} (hg : V.global g) (v : Value O) :
    HiddenSame V s (s.setGlobal g v) := by
  refine ⟨fun g' hg' => ?_, fun _ _ _ => rfl⟩
  have hne : g' ≠ g := fun heq => hg' (heq ▸ hg)
  exact (State.setGlobal_globals_of_ne s v g hne).symm

variable [DecidableEq O]

theorem Agree.storeByte (h : Agree V s t) (p : Ptr O) (b : BitVec 8) :
    Agree V (s.storeByte p b) (t.storeByte p b) := by
  refine ⟨h.regs, h.globals, fun o a ha => ?_⟩
  rw [State.storeByte_mem, State.storeByte_mem, Mem.set, Mem.set, h.mem o a ha]

theorem HiddenSame.storeByte (s : State O) {p : Ptr O} (hp : V.byte p.obj p.off) (b : BitVec 8) :
    HiddenSame V s (s.storeByte p b) := by
  refine ⟨fun _ _ => rfl, fun o a ha => ?_⟩
  have hne : Ptr.mk o a ≠ p := by
    rintro rfl
    exact ha hp
  exact (Mem.set_of_ne p b s.mem hne).symm

end Agreement

/-! ## Steps -/

section Values

variable {O : Type} {a b v : Value O} {p : Ptr O}

theorem BinOp.eval_ne_ptr {op : BinOp} (h : op.eval a b = some v) : v ≠ .ptr p := by
  rintro rfl
  cases op <;> cases a <;> cases b <;> cases h

theorem Pred.eval_ne_ptr {op : Pred} (h : op.eval a b = some v) : v ≠ .ptr p := by
  rintro rfl
  cases op <;> cases a <;> cases b <;> cases h

theorem Value.zext_ne_ptr {ty : Ty} (h : a.zext ty = some v) : v ≠ .ptr p := by
  rintro rfl
  cases ty <;> cases a <;> cases h

/-- Address arithmetic stays in the object. -/
theorem Value.gep_eq_ptr (h : a.gep b = some (.ptr p)) : ∃ q, a = .ptr q ∧ q.obj = p.obj := by
  cases a with
  | ptr q =>
      cases b with
      | i32 i =>
          obtain rfl := Value.ptr.inj (Option.some.inj h)
          exact ⟨q, rfl, rfl⟩
      | _ => cases h
  | _ => cases h

end Values

section Steps

variable {O : Type} {V : View O} {s s' t t' : State O}

/-- A step to `s'` on one side and from `t` to `t'` on the other: the visible parts stay equal, the
hidden part of the second does not change. -/
structure Tracks (V : View O) (s' t t' : State O) : Prop where
  agree : Agree V s' t'
  confined : Confined V s'
  hidden : HiddenSame V t t'

theorem Tracks.setReg (h : Agree V s t) (hs : Confined V s) (r : Nat) {v : Value O}
    (hv : ∀ p, v = .ptr p → V.Obj p.obj) : Tracks V (s.setReg r v) t (t.setReg r v) :=
  ⟨h.setReg r v, hs.setReg r hv, ⟨fun _ _ => rfl, fun _ _ _ => rfl⟩⟩

theorem Tracks.setGlobal (h : Agree V s t) (hs : Confined V s) {g : String} (hg : V.global g)
    {v : Value O} (hv : ∀ p, v = .ptr p → V.Obj p.obj) :
    Tracks V (s.setGlobal g v) t (t.setGlobal g v) :=
  ⟨h.setGlobal g v, hs.setGlobal g hv, HiddenSame.setGlobal t hg v⟩

variable [DecidableEq O]

theorem Tracks.storeByte (h : Agree V s t) (hs : Confined V s) {p : Ptr O}
    (hp : V.byte p.obj p.off) (b : BitVec 8) : Tracks V (s.storeByte p b) t (t.storeByte p b) :=
  ⟨h.storeByte p b, ⟨hs.regs, hs.globals⟩, HiddenSame.storeByte t hp b⟩

/-- A visible instruction does the same in both states. -/
theorem Inst.exec_tracks {i : Inst} (hi : i.Visible V) (h : Agree V s t) (hs : Confined V s)
    (hexec : i.exec s = some s') : ∃ t', i.exec t = some t' ∧ Tracks V s' t t' := by
  cases i with
  | load ty dst addr =>
      obtain ⟨-, haddr⟩ := hi
      cases addr with
      | global g =>
          obtain ⟨v, hv, hexec⟩ := Option.bind_eq_some_iff.1 hexec
          split at hexec
          · obtain rfl := Option.some.inj hexec
            have htv : t.globals g = some v := (h.globals g haddr).symm.trans hv
            refine ⟨t.setReg dst v, ?_, Tracks.setReg h hs dst ?_⟩
            · simp only [Inst.exec, htv]
              simp [*]
            · rintro p rfl
              exact hs.globals g p haddr hv
          · cases hexec
      | «at» a =>
          obtain ⟨v, hv, hexec⟩ := Option.bind_eq_some_iff.1 hexec
          split at hexec
          · rename_i p _
            obtain rfl := Option.some.inj hexec
            have htv : a.eval t = some (.ptr p) := (h.eval haddr).symm.trans hv
            -- the byte is in an object that both sides see
            have hmem := h.mem p.obj p.off (hs.eval haddr hv p.off)
            refine ⟨t.setReg dst (.i8 (s.mem p.obj p.off)), ?_, Tracks.setReg h hs dst ?_⟩
            · simp [Inst.exec, htv, hmem]
            · intro p hp
              cases hp
          · cases hexec
  | store val addr =>
      obtain ⟨hval, haddr⟩ := hi
      cases addr with
      | global g =>
          obtain ⟨v, hv, hexec⟩ := Option.bind_eq_some_iff.1 hexec
          obtain rfl := Option.some.inj hexec
          have htv : val.eval t = some v := (h.eval hval).symm.trans hv
          refine ⟨t.setGlobal g v, by simp [Inst.exec, htv], Tracks.setGlobal h hs haddr ?_⟩
          rintro p rfl
          exact hs.eval hval hv
      | «at» a =>
          obtain ⟨v, hv, hexec⟩ := Option.bind_eq_some_iff.1 hexec
          obtain ⟨w, hw, hexec⟩ := Option.bind_eq_some_iff.1 hexec
          split at hexec
          · rename_i b p _
            obtain rfl := Option.some.inj hexec
            have htv : val.eval t = some (.i8 b) := (h.eval hval).symm.trans hv
            have htw : a.eval t = some (.ptr p) := (h.eval haddr).symm.trans hw
            refine ⟨t.storeByte p b, by simp [Inst.exec, htv, htw], ?_⟩
            exact Tracks.storeByte h hs (hs.eval haddr hw p.off) b
          · cases hexec
  | bin op dst a b =>
      obtain ⟨-, ha, hb⟩ := hi
      obtain ⟨x, hx, hexec⟩ := Option.bind_eq_some_iff.1 hexec
      obtain ⟨y, hy, hexec⟩ := Option.bind_eq_some_iff.1 hexec
      obtain ⟨v, hv, hexec⟩ := Option.bind_eq_some_iff.1 hexec
      obtain rfl := Option.some.inj hexec
      refine ⟨t.setReg dst v, ?_, Tracks.setReg h hs dst fun p hp => ?_⟩
      · simp [Inst.exec, ← h.eval ha, ← h.eval hb, hx, hy, hv]
      · exact absurd hp (BinOp.eval_ne_ptr hv)
  | icmp op dst a b =>
      obtain ⟨-, ha, hb⟩ := hi
      obtain ⟨x, hx, hexec⟩ := Option.bind_eq_some_iff.1 hexec
      obtain ⟨y, hy, hexec⟩ := Option.bind_eq_some_iff.1 hexec
      obtain ⟨v, hv, hexec⟩ := Option.bind_eq_some_iff.1 hexec
      obtain rfl := Option.some.inj hexec
      refine ⟨t.setReg dst v, ?_, Tracks.setReg h hs dst fun p hp => ?_⟩
      · simp [Inst.exec, ← h.eval ha, ← h.eval hb, hx, hy, hv]
      · exact absurd hp (Pred.eval_ne_ptr hv)
  | zext ty dst a =>
      obtain ⟨-, ha⟩ := hi
      obtain ⟨x, hx, hexec⟩ := Option.bind_eq_some_iff.1 hexec
      obtain ⟨v, hv, hexec⟩ := Option.bind_eq_some_iff.1 hexec
      obtain rfl := Option.some.inj hexec
      refine ⟨t.setReg dst v, ?_, Tracks.setReg h hs dst fun p hp => ?_⟩
      · simp [Inst.exec, ← h.eval ha, hx, hv]
      · exact absurd hp (Value.zext_ne_ptr hv)
  | gep dst base idx =>
      obtain ⟨-, hbase, hidx⟩ := hi
      obtain ⟨x, hx, hexec⟩ := Option.bind_eq_some_iff.1 hexec
      obtain ⟨y, hy, hexec⟩ := Option.bind_eq_some_iff.1 hexec
      obtain ⟨v, hv, hexec⟩ := Option.bind_eq_some_iff.1 hexec
      obtain rfl := Option.some.inj hexec
      refine ⟨t.setReg dst v, ?_, Tracks.setReg h hs dst ?_⟩
      · simp [Inst.exec, ← h.eval hbase, ← h.eval hidx, hx, hy, hv]
      · rintro p rfl
        rcases Value.gep_eq_ptr hv with ⟨q, rfl, hq⟩
        exact hq ▸ hs.eval hbase hx

/-- Visible code does the same in both states. -/
theorem execAll_tracks {is : List Inst} (his : ∀ i ∈ is, i.Visible V) (h : Agree V s t)
    (hs : Confined V s) (hexec : execAll s is = some s') :
    ∃ t', execAll t is = some t' ∧ Tracks V s' t t' := by
  induction is generalizing s t with
  | nil =>
      obtain rfl := Option.some.inj hexec
      exact ⟨t, rfl, h, hs, HiddenSame.refl V t⟩
  | cons i is ih =>
      obtain ⟨s₁, hi, hrest⟩ := Option.bind_eq_some_iff.1 hexec
      rcases Inst.exec_tracks (his i List.mem_cons_self) h hs hi with ⟨t₁, hi', htracks⟩
      rcases ih (fun j hj => his j (List.mem_cons_of_mem _ hj)) htracks.agree htracks.confined
        hrest with ⟨t', hrest', htracks'⟩
      refine ⟨t', ?_, htracks'.agree, htracks'.confined, htracks.hidden.trans htracks'.hidden⟩
      simp [execAll, hi', hrest']

/-- Both sides stop at the same instruction, or neither does. -/
theorem execAll_rel {is : List Inst} (his : ∀ i ∈ is, i.Visible V) (h : Agree V s t)
    (hs : Confined V s) :
    Option.Rel (fun s' t' => Tracks V s' t t') (execAll s is) (execAll t is) := by
  cases hexec : execAll s is with
  | some s' =>
      rcases execAll_tracks his h hs hexec with ⟨t', ht, htracks⟩
      rw [ht]
      exact .some htracks
  | none =>
      cases hexec' : execAll t is with
      | none => exact .none
      | some t' =>
          -- a run of the second side would be one of the first
          rcases execAll_tracks his h.symm (hs.of_agree h) hexec' with ⟨s', hs', -⟩
          rw [hexec] at hs'
          cases hs'

end Steps

end IR
