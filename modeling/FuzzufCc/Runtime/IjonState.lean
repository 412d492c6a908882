import FuzzufCc.Runtime.IjonCalls

/-!
# IjonState — the state word of a thread

`__ijon_state` is reduced modulo the counter size after every xor.  For a power of two the
reductions vanish: the state is one xor of everything, pushes are forgotten after four, and
`IJON_CTX` restores it.  For any other size it does not.
-/

namespace FuzzufCc

open Libc IR Transition

namespace Runtime
namespace Ijon

/-! ## Pushed values -/

/-- Four bytes, the first one highest. -/
def bigEndian (b₃ b₂ b₁ b₀ : BitVec 8) : BitVec 32 :=
  b₃.setWidth 32 <<< 24 ||| b₂.setWidth 32 <<< 16 ||| b₁.setWidth 32 <<< 8 ||| b₀.setWidth 32

/-- The low bytes of the last four values, zeros where there are fewer. -/
def packed (xs : List (BitVec 32)) : BitVec 32 :=
  let byte (i : Nat) : BitVec 8 := (xs.reverse[i]?.getD 0).setWidth 8
  bigEndian (byte 3) (byte 2) (byte 1) (byte 0)

/-- A pushed byte moves the others up and the highest one out. -/
theorem bigEndian_push (b₃ b₂ b₁ b₀ : BitVec 8) (x : BitVec 32) :
    (bigEndian b₃ b₂ b₁ b₀ <<< 8) ||| (x &&& 0xff) = bigEndian b₂ b₁ b₀ (x.setWidth 8) := by
  have hout : b₃.setWidth 32 <<< 24 <<< 8 = 0#32 := by
    rw [← BitVec.shiftLeft_add]
    simp
  have hlow : x &&& 0xff = (x.setWidth 8).setWidth 32 := by
    refine BitVec.eq_of_toNat_eq ?_
    simp only [BitVec.toNat_and, BitVec.toNat_setWidth]
    rw [show (0xff : BitVec 32).toNat = 2 ^ 8 - 1 from rfl, Nat.and_two_pow_sub_one_eq_mod]
    omega
  simp only [bigEndian, BitVec.shiftLeft_or_distrib, hout, hlow, BitVec.zero_or,
    ← BitVec.shiftLeft_add]

theorem packed_nil : packed [] = 0 := by
  decide

theorem packed_append (xs : List (BitVec 32)) (x : BitVec 32) :
    packed (xs ++ [x]) = (packed xs <<< 8) ||| (x &&& 0xff) := by
  simp only [packed]
  rw [bigEndian_push]
  simp

/-- Only the last four values matter. -/
theorem packed_congr {xs ys : List (BitVec 32)} (h : xs.reverse.take 4 = ys.reverse.take 4) :
    packed xs = packed ys := by
  have hget : ∀ i < 4, xs.reverse[i]? = ys.reverse[i]? := by
    intro i hi
    rw [← List.getElem?_take_of_lt hi, h, List.getElem?_take_of_lt hi]
  simp only [packed, hget 3 (by decide), hget 2 (by decide), hget 1 (by decide),
    hget 0 (by decide)]

/-- The exclusive or of a list. -/
def xorAll (vals : List (BitVec 32)) : BitVec 32 :=
  vals.foldl (· ^^^ ·) 0

theorem xorAll_append (vals : List (BitVec 32)) (val : BitVec 32) :
    xorAll (vals ++ [val]) = xorAll vals ^^^ val := by
  simp [xorAll]

theorem xorAll_perm {vals vals' : List (BitVec 32)} (h : vals.Perm vals') :
    xorAll vals = xorAll vals' := by
  refine h.foldl_eq' ?_ 0
  intro x _ y _ z
  ac_rfl

/-! ## The closed form -/

/-- The call changes the state word only. -/
def Call.isState : Call → Bool
  | .xorState _ | .pushState _ => true
  | _ => false

/-- The arguments of the `ijon_xor_state` calls, in order. -/
def xored (cs : List Call) : List (BitVec 32) :=
  cs.filterMap fun
    | .xorState val => some val
    | _ => none

/-- The arguments of the `ijon_push_state` calls, in order. -/
def pushed (cs : List Call) : List (BitVec 32) :=
  cs.filterMap fun
    | .pushState x => some x
    | _ => none

/-- The state is the reduced xor of `vals` and of the log, and the log packs `xs`. -/
structure ClosedForm (vals xs : List (BitVec 32)) (σ : Thread) : Prop where
  log : σ.stateLog = packed xs
  state : σ.state = σ.reduce (xorAll vals ^^^ packed xs)

section PowerOfTwo

variable {σ : Thread} {k : Nat}

theorem reduce_toNat (hsize : σ.layout.mapSize = 2 ^ k) (v : BitVec 32) :
    (σ.reduce v).toNat = v.toNat % 2 ^ k := by
  have hle := Nat.mod_le v.toNat (2 ^ k)
  have hlt := v.isLt
  rw [Thread.reduce, hsize, BitVec.toNat_ofNat, Nat.mod_eq_of_lt (by omega)]

/-- A reduction inside another one does nothing. -/
theorem reduce_reduce_xor (hsize : σ.layout.mapSize = 2 ^ k) (v w : BitVec 32) :
    σ.reduce (σ.reduce v ^^^ w) = σ.reduce (v ^^^ w) := by
  refine BitVec.eq_of_toNat_eq ?_
  rw [reduce_toNat hsize, reduce_toNat hsize, BitVec.toNat_xor, BitVec.toNat_xor,
    reduce_toNat hsize, Nat.xor_mod_two_pow, Nat.mod_mod, ← Nat.xor_mod_two_pow]

theorem ClosedForm.effect {vals xs : List (BitVec 32)} (hsize : σ.layout.mapSize = 2 ^ k)
    (h : ClosedForm vals xs σ) {c : Call} (hc : c.isState) :
    ClosedForm (vals ++ xored [c]) (xs ++ pushed [c]) (c.effect σ) := by
  cases c with
  | xorState val =>
      refine ⟨by simpa [pushed, Call.effect] using h.log, ?_⟩
      calc σ.reduce (σ.state ^^^ val)
          = σ.reduce (xorAll vals ^^^ packed xs ^^^ val) := by
            rw [h.state, reduce_reduce_xor hsize]
        _ = σ.reduce (xorAll (vals ++ [val]) ^^^ packed (xs ++ [])) := by
            rw [xorAll_append, List.append_nil, BitVec.xor_assoc, BitVec.xor_assoc,
              BitVec.xor_comm (packed xs)]
  | pushState x =>
      have hlog : σ.nextLog x = packed (xs ++ [x]) := by
        rw [packed_append, ← h.log]
        rfl
      refine ⟨hlog, ?_⟩
      -- the old log is taken out of the state before the new one goes in
      calc σ.reduce (σ.reduce (σ.state ^^^ σ.stateLog) ^^^ σ.nextLog x)
          = σ.reduce (xorAll vals ^^^ packed xs ^^^ packed xs ^^^ packed (xs ++ [x])) := by
            rw [hlog, reduce_reduce_xor hsize, h.state, h.log, BitVec.xor_assoc,
              reduce_reduce_xor hsize, BitVec.xor_assoc (xorAll vals ^^^ packed xs)]
        _ = σ.reduce (xorAll (vals ++ []) ^^^ packed (xs ++ [x])) := by
            rw [List.append_nil, BitVec.xor_assoc (xorAll vals), BitVec.xor_self, BitVec.xor_zero]
  | max addr val => cases hc
  | min addr val => cases hc
  | mapInc addr => cases hc
  | mapSet addr => cases hc

theorem ClosedForm.foldl {vals xs : List (BitVec 32)} {cs : List Call}
    (hsize : σ.layout.mapSize = 2 ^ k) (h : ClosedForm vals xs σ) (hcs : ∀ c ∈ cs, c.isState) :
    ClosedForm (vals ++ xored cs) (xs ++ pushed cs) (cs.foldl Call.effect σ) := by
  induction cs generalizing σ vals xs with
  | nil => simpa [xored, pushed] using h
  | cons c cs ih =>
      have hstep := h.effect hsize (hcs c List.mem_cons_self)
      have hrest := ih (σ := c.effect σ) (by rw [Call.effect_layout]; exact hsize) hstep
        fun c' hc' => hcs c' (List.mem_cons_of_mem _ hc')
      have hxored : vals ++ xored [c] ++ xored cs = vals ++ xored (c :: cs) := by
        rw [List.append_assoc, xored, xored, ← List.filterMap_append]
        rfl
      have hpushed : xs ++ pushed [c] ++ pushed cs = xs ++ pushed (c :: cs) := by
        rw [List.append_assoc, pushed, pushed, ← List.filterMap_append]
        rfl
      rwa [hxored, hpushed] at hrest

end PowerOfTwo

theorem ClosedForm.start (layout : Layout) (mem : Mem Object) :
    ClosedForm [] [] (Thread.start layout mem) := by
  refine ⟨packed_nil.symm, ?_⟩
  rw [packed_nil]
  simp [Thread.start, Thread.reduce, xorAll]

/-- **The state word.** For a counter size that is a power of two, any sequence of xors and pushes
leaves the packed last four values in the log, and in the state the reduced xor of the log and of
all other arguments.  So neither the order of the xors nor an earlier push matters. -/
theorem state_closedForm (layout : Layout) (mem : Mem Object) {k : Nat}
    (hsize : layout.mapSize = 2 ^ k) (cs : List Call) (hcs : ∀ c ∈ cs, c.isState) :
    ∃ σ, run step (Thread.start layout mem) cs = some σ ∧
      σ.stateLog = packed (pushed cs) ∧
      σ.state.toNat = (xorAll (xored cs) ^^^ packed (pushed cs)).toNat % 2 ^ k ∧
      ∀ cs' : List Call, (∀ c ∈ cs', c.isState) → (xored cs').Perm (xored cs) →
        (pushed cs').reverse.take 4 = (pushed cs).reverse.take 4 →
        ∃ σ', run step (Thread.start layout mem) cs' = some σ' ∧ σ'.state = σ.state := by
  have hrun : ∀ cs : List Call, (∀ c ∈ cs, c.isState) →
      ∃ σ, run step (Thread.start layout mem) cs = some σ ∧ σ.layout = layout ∧
        ClosedForm (xored cs) (pushed cs) σ := by
    intro cs hcs
    have hpos : ∀ c ∈ cs, 0 < c.divisor (Thread.start layout mem).layout := by
      intro c hc
      have hstate := hcs c hc
      have hmap : 0 < layout.mapSize := by rw [hsize]; exact Nat.two_pow_pos k
      cases c <;> first | exact hmap | cases hstate
    refine ⟨_, run_eq_foldl hpos, foldl_layout cs _, ?_⟩
    have hform := (ClosedForm.start layout mem).foldl hsize hcs
    simpa using hform
  rcases hrun cs hcs with ⟨σ, hσ, hlayout, hform⟩
  have hsizeσ : σ.layout.mapSize = 2 ^ k := by rw [hlayout, hsize]
  refine ⟨σ, hσ, hform.log, ?_, fun cs' hcs' hperm hlast => ?_⟩
  · rw [hform.state, reduce_toNat hsizeσ]
  · rcases hrun cs' hcs' with ⟨σ', hσ', hlayout', hform'⟩
    refine ⟨σ', hσ', ?_⟩
    rw [hform'.state, hform.state, xorAll_perm hperm, packed_congr hlast, Thread.reduce,
      Thread.reduce, hlayout', hlayout]

/-- Six pushes, of which two are forgotten, and two xors. -/
def sixPushes : List Call :=
  [.pushState 0x101, .xorState 0x5000f, .pushState 2, .pushState 3, .pushState 4, .pushState 5,
    .xorState 0x20, .pushState 6]

theorem sixPushes_state :
    ∃ σ, run step (Thread.start initial fun _ _ => 0) sixPushes = some σ ∧
      σ.stateLog = 0x03040506 ∧ σ.state.toNat = 0x0529 := by
  have hsize : initial.mapSize = 2 ^ 16 := by decide
  obtain ⟨σ, hrun, hlog, hstate, -⟩ :=
    state_closedForm initial (fun _ _ => 0) hsize sixPushes (by decide)
  have hpacked : packed (pushed sixPushes) = 0x03040506 := by decide
  have hxored : xorAll (xored sixPushes) = 0x5002f := by decide
  refine ⟨σ, hrun, by rw [hlog, hpacked], ?_⟩
  rw [hstate, hpacked, hxored]
  decide

/-! ## Contexts -/

/-- The evaluation of an expression, as the runtime sees it: calls in order, and the contexts of
`IJON_CTX` around some of them. -/
inductive Expr
  | nil
  | call (c : Call)
  | seq (x y : Expr)
  | ctx (hash : BitVec 32) (x : Expr)

/-- `IJON_CTX(x)` makes the same `ijon_xor_state` call before and after `x`. -/
def Expr.eval : Expr → Thread → Except Fault Thread
  | .nil, σ => .ok σ
  | .call c, σ => c.exec σ
  | .seq x y, σ => x.eval σ >>= y.eval
  | .ctx hash x, σ => do
      let σ ← σ.xorState hash
      let σ ← x.eval σ
      σ.xorState hash

/-- Outside of contexts no call changes the state word. -/
def Expr.Balanced : Expr → Prop
  | .nil => True
  | .call c => c.isState = false
  | .seq x y => x.Balanced ∧ y.Balanced
  | .ctx _ x => x.Balanced

/-- `IJON_CTX` restores the state word of every thread with this layout: around any expression that
leaves the word as it found it, and so at any depth of nesting. -/
structure RestoresContexts (layout : Layout) : Prop where
  around : ∀ (σ σ' : Thread) (hash : BitVec 32) (x : Expr), σ.layout = layout →
    σ.state.toNat < layout.mapSize →
    (∀ σ₁ σ₂, σ.xorState hash = .ok σ₁ → x.eval σ₁ = .ok σ₂ → σ₂.state = σ₁.state) →
    (Expr.ctx hash x).eval σ = .ok σ' → σ'.state = σ.state
  nested : ∀ (σ σ' : Thread) (x : Expr), σ.layout = layout → σ.state.toNat < layout.mapSize →
    x.Balanced → x.eval σ = .ok σ' → σ'.state = σ.state

/-- The three steps of a context. -/
theorem Expr.eval_ctx_eq_ok {hash : BitVec 32} {x : Expr} {σ σ' : Thread} :
    (Expr.ctx hash x).eval σ = .ok σ' ↔
      ∃ σ₁ σ₂, σ.xorState hash = .ok σ₁ ∧ x.eval σ₁ = .ok σ₂ ∧ σ₂.xorState hash = .ok σ' := by
  rw [eval, bind_eq_ok]
  constructor
  · rintro ⟨σ₁, h₁, h⟩
    rcases bind_eq_ok.1 h with ⟨σ₂, h₂, h₃⟩
    exact ⟨σ₁, σ₂, h₁, h₂, h₃⟩
  · rintro ⟨σ₁, σ₂, h₁, h₂, h₃⟩
    exact ⟨σ₁, h₁, bind_eq_ok.2 ⟨σ₂, h₂, h₃⟩⟩

theorem Thread.xorState_eq_ok {σ σ' : Thread} {val : BitVec 32} :
    σ.xorState val = .ok σ' ↔
      0 < σ.layout.mapSize ∧ σ' = { σ with state := σ.reduce (σ.state ^^^ val) } := by
  rcases Nat.eq_zero_or_pos σ.layout.mapSize with hzero | hpos
  · have hfault : σ.xorState val = .error .divisionByZero := by
      rw [xorState, hzero, modulo_bind_zero]
    simp [hfault, hzero]
  · simp [xorState_of_pos hpos, hpos, eq_comm]

theorem Call.exec_eq_ok {c : Call} {σ σ' : Thread} (h : c.exec σ = .ok σ') : σ' = c.effect σ := by
  have hstep : step σ c = some σ' := by simp [step, h, Except.toOption]
  exact (step_eq_some.1 hstep).2

theorem Expr.eval_layout {x : Expr} {σ σ' : Thread} (h : x.eval σ = .ok σ') :
    σ'.layout = σ.layout := by
  induction x generalizing σ σ' with
  | nil =>
      obtain rfl := Except.ok.inj h
      rfl
  | call c =>
      obtain rfl := Call.exec_eq_ok h
      exact Call.effect_layout
  | seq x y ihx ihy =>
      rcases bind_eq_ok.1 h with ⟨σ₁, h₁, h₂⟩
      exact (ihy h₂).trans (ihx h₁)
  | ctx hash x ih =>
      rcases eval_ctx_eq_ok.1 h with ⟨σ₁, σ₂, h₁, h₂, h₃⟩
      have hinner := ih h₂
      obtain ⟨-, rfl⟩ := Thread.xorState_eq_ok.1 h₁
      obtain ⟨-, rfl⟩ := Thread.xorState_eq_ok.1 h₃
      exact hinner

section PowerOfTwo

variable {σ σ' : Thread} {k : Nat}

theorem reduce_lt (hpos : 0 < σ.layout.mapSize) (v : BitVec 32) :
    (σ.reduce v).toNat < σ.layout.mapSize := by
  have hlt := Nat.mod_lt v.toNat hpos
  rw [Thread.reduce, BitVec.toNat_ofNat]
  exact lt_of_le_of_lt (Nat.mod_le _ _) hlt

/-- Around an expression that keeps the word, the second xor undoes the first. -/
theorem ctx_restores (hsize : σ.layout.mapSize = 2 ^ k) (hstate : σ.state.toNat < 2 ^ k)
    {hash : BitVec 32} {x : Expr}
    (hx : ∀ σ₁ σ₂, σ.xorState hash = .ok σ₁ → x.eval σ₁ = .ok σ₂ → σ₂.state = σ₁.state)
    (h : (Expr.ctx hash x).eval σ = .ok σ') : σ'.state = σ.state := by
  rcases Expr.eval_ctx_eq_ok.1 h with ⟨σ₁, σ₂, h₁, h₂, h₃⟩
  have hkeep := hx σ₁ σ₂ h₁ h₂
  have hlayout := Expr.eval_layout h₂
  obtain ⟨_, rfl⟩ := Thread.xorState_eq_ok.1 h₁
  obtain ⟨_, rfl⟩ := Thread.xorState_eq_ok.1 h₃
  have hsize₂ : σ₂.layout.mapSize = 2 ^ k := by rw [hlayout]; exact hsize
  refine BitVec.eq_of_toNat_eq ?_
  calc (σ₂.reduce (σ₂.state ^^^ hash)).toNat
      = ((σ.reduce (σ.state ^^^ hash)).toNat ^^^ hash.toNat) % 2 ^ k := by
        rw [reduce_toNat hsize₂, hkeep, BitVec.toNat_xor]
    _ = ((σ.state.toNat ^^^ hash.toNat) % 2 ^ k ^^^ hash.toNat) % 2 ^ k := by
        rw [reduce_toNat hsize, BitVec.toNat_xor]
    _ = σ.state.toNat := Xor.xor_mod_xor_mod hstate hash.toNat

theorem effect_state_of_not_isState {c : Call} (hc : c.isState = false) :
    (c.effect σ).state = σ.state := by
  cases c with
  | xorState val => cases hc
  | pushState x => cases hc
  | max addr val => exact σ.raiseMax_state _ _
  | min addr val => exact σ.raiseMax_state _ _
  | mapInc addr => rfl
  | mapSet addr => rfl

theorem balanced_restores {x : Expr} (hsize : σ.layout.mapSize = 2 ^ k)
    (hstate : σ.state.toNat < 2 ^ k) (hx : x.Balanced) (h : x.eval σ = .ok σ') :
    σ'.state = σ.state := by
  induction x generalizing σ σ' with
  | nil =>
      obtain rfl := Except.ok.inj h
      rfl
  | call c =>
      obtain rfl := Call.exec_eq_ok h
      exact effect_state_of_not_isState hx
  | seq x y ihx ihy =>
      rcases bind_eq_ok.1 h with ⟨σ₁, h₁, h₂⟩
      have hfirst := ihx hsize hstate hx.1 h₁
      have hsize₁ : σ₁.layout.mapSize = 2 ^ k := by rw [Expr.eval_layout h₁]; exact hsize
      exact (ihy hsize₁ (by rw [hfirst]; exact hstate) hx.2 h₂).trans hfirst
  | ctx hash x ih =>
      refine ctx_restores hsize hstate (fun σ₁ σ₂ h₁ h₂ => ?_) h
      -- inside the context the state is again below the size
      obtain ⟨hpos, rfl⟩ := Thread.xorState_eq_ok.1 h₁
      exact ih hsize (by rw [← hsize]; exact reduce_lt hpos _) hx h₂

end PowerOfTwo

/-- A context around nothing, entered with the state `s`. -/
theorem RestoresContexts.xor_mod {layout : Layout} (h : RestoresContexts layout)
    (hlt : layout.mapSize < 2 ^ 32) {s hash : Nat} (hs : s < layout.mapSize)
    (hhash : hash < layout.mapSize) :
    ((s ^^^ hash) % layout.mapSize ^^^ hash) % layout.mapSize = s := by
  have hpos : 0 < layout.mapSize := by omega
  have hs32 : (BitVec.ofNat 32 s).toNat = s := by
    rw [BitVec.toNat_ofNat, Nat.mod_eq_of_lt (by omega)]
  have hhash32 : (BitVec.ofNat 32 hash).toNat = hash := by
    rw [BitVec.toNat_ofNat, Nat.mod_eq_of_lt (by omega)]
  let σ : Thread := { Thread.start layout (fun _ _ => 0) with state := BitVec.ofNat 32 s }
  have hreduce : ∀ v : BitVec 32, (σ.reduce v).toNat = v.toNat % layout.mapSize := by
    intro v
    exact (BitVec.toNat_ofNat _ _).trans
      (Nat.mod_eq_of_lt (lt_trans (Nat.mod_lt v.toNat hpos) hlt))
  have heval : (Expr.ctx (BitVec.ofNat 32 hash) .nil).eval σ = .ok { σ with
      state := σ.reduce (σ.reduce (BitVec.ofNat 32 s ^^^ BitVec.ofNat 32 hash) ^^^
        BitVec.ofNat 32 hash) } :=
    Expr.eval_ctx_eq_ok.2 ⟨_, _, Thread.xorState_of_pos hpos _, rfl,
      Thread.xorState_of_pos (σ := { σ with
        state := σ.reduce (BitVec.ofNat 32 s ^^^ BitVec.ofNat 32 hash) }) hpos _⟩
  have hrestored := h.nested σ _ (.ctx (BitVec.ofNat 32 hash) .nil) rfl
    (by rw [hs32]; exact hs) trivial heval
  have hnat := congrArg BitVec.toNat hrestored
  rwa [hreduce, BitVec.toNat_xor, hreduce, BitVec.toNat_xor, hs32, hhash32] at hnat

/-- **Where contexts are restored.** With the layout of an accepted environment `IJON_CTX` restores
the state word exactly if the counter size is a power of two. -/
theorem restoresContexts_iff {env : Env} {segments : Segments} {mem mem' : Mem Object}
    {layout : Layout} (hmap : mapShm env segments initial mem = .ok (layout, mem')) :
    RestoresContexts layout ↔ ∃ k, layout.mapSize = 2 ^ k := by
  rcases mapSize_bounds hmap with ⟨hpos, hlt⟩
  constructor
  · intro h
    by_contra hnot
    rcases Xor.exists_not_restored hpos fun k hk => hnot ⟨k, hk⟩ with ⟨s, hs, hash, hhash, hne⟩
    exact hne (h.xor_mod hlt hs hhash)
  · rintro ⟨k, hk⟩
    constructor
    · rintro σ σ' hash x rfl hstate hx h
      exact ctx_restores hk (by rw [← hk]; exact hstate) hx h
    · rintro σ σ' x rfl hstate hx h
      exact balanced_restores hk (by rw [← hk]; exact hstate) hx h

/-- With 32 counters contexts are restored. -/
theorem counters_32_restore :
    ∃ layout mem', mapShm (sizesEnv none (some "32") none) onlySeven initial (fun _ _ => 0) =
        .ok (layout, mem') ∧ RestoresContexts layout := by
  obtain ⟨layout, mem', hmap, hsize⟩ : ∃ layout mem',
      mapShm (sizesEnv none (some "32") none) onlySeven initial (fun _ _ => 0) =
        .ok (layout, mem') ∧ layout.mapSize = 32 := ⟨_, _, rfl, rfl⟩
  exact ⟨layout, mem', hmap, (restoresContexts_iff hmap).2 ⟨5, hsize⟩⟩

/-- With three they are not: the hash 1 takes the state 2 to 0 and then to 1. -/
theorem counters_3_confuse :
    ∃ layout mem', mapShm (sizesEnv none (some "3") none) onlySeven initial (fun _ _ => 0) =
        .ok (layout, mem') ∧ ¬ RestoresContexts layout := by
  obtain ⟨layout, mem', hmap, hsize⟩ : ∃ layout mem',
      mapShm (sizesEnv none (some "3") none) onlySeven initial (fun _ _ => 0) =
        .ok (layout, mem') ∧ layout.mapSize = 3 := ⟨_, _, rfl, rfl⟩
  refine ⟨layout, mem', hmap, fun h => ?_⟩
  have hback : ((2 ^^^ 1) % layout.mapSize ^^^ 1) % layout.mapSize = 2 :=
    h.xor_mod (by omega) (by omega) (by omega)
  rw [hsize] at hback
  exact absurd hback (by decide)

end Ijon
end Runtime
end FuzzufCc
