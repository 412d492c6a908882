import FuzzufCc.Lib.IR

/-!
# RelyGuarantee — straight-line code under interference

Several threads run straight-line code over one memory, one instruction of one of them at a time.
`Runs R G post` says of the code of one thread that it gets to its end and establishes `post`,
whatever the others do to the memory between two instructions, as long as that is in `R`; each of
its own instructions does to the memory what is in `G`.  Threads whose guarantees are in each
other's relies keep all of this at every step of every interleaving.
-/

namespace IR

section Runs

variable {O : Type}

/-- The same registers and globals over another memory. -/
def State.withMem (s : State O) (m : Mem O) : State O :=
  { s with mem := m }

section WithMem

variable (s : State O) (m m' : Mem O)

@[simp] theorem State.withMem_mem : (s.withMem m).mem = m := rfl
@[simp] theorem State.withMem_regs : (s.withMem m).regs = s.regs := rfl
@[simp] theorem State.withMem_globals : (s.withMem m).globals = s.globals := rfl
@[simp] theorem State.withMem_withMem : (s.withMem m).withMem m' = s.withMem m' := rfl
@[simp] theorem State.withMem_self : s.withMem s.mem = s := rfl

@[simp] theorem State.setReg_withMem (r : Nat) (v : Value O) :
    (s.setReg r v).withMem m = (s.withMem m).setReg r v := rfl

@[simp] theorem State.setGlobal_withMem (g : String) (v : Value O) :
    (s.setGlobal g v).withMem m = (s.withMem m).setGlobal g v := rfl

@[simp] theorem Operand.eval_withMem (a : Operand) : a.eval (s.withMem m) = a.eval s := by
  cases a <;> rfl

end WithMem

variable [DecidableEq O] (R G : Mem O → Mem O → Prop)

def Runs (post : State O → Prop) : State O → List Inst → Prop
  | s, [] => post s
  | s, i :: is => ∀ m, R s.mem m →
      ∃ s', i.exec (s.withMem m) = some s' ∧ G m s'.mem ∧ Runs post s' is

variable {R G} {post post' : State O → Prop} {s : State O} {is js : List Inst}

theorem Runs.cons {i : Inst} {f : Mem O → State O}
    (hexec : ∀ m, R s.mem m → i.exec (s.withMem m) = some (f m) ∧ G m (f m).mem)
    (hrest : ∀ m, R s.mem m → Runs R G post (f m) is) : Runs R G post s (i :: is) :=
  fun m hm => ⟨f m, (hexec m hm).1, (hexec m hm).2, hrest m hm⟩

/-- An instruction that only sets a register. -/
theorem Runs.reg {i : Inst} (r : Nat) (v : Mem O → Value O)
    (hexec : ∀ m, i.exec (s.withMem m) = some ((s.withMem m).setReg r (v m)))
    (hG : ∀ m, G m m)
    (hrest : ∀ m, R s.mem m → Runs R G post ((s.withMem m).setReg r (v m)) is) :
    Runs R G post s (i :: is) :=
  fun m hm => ⟨(s.withMem m).setReg r (v m), hexec m, hG m, hrest m hm⟩

/-- A store of a byte. -/
theorem Runs.storeByte {a b : Nat} {v : BitVec 8} {p : Ptr O} (hval : s.regs a = some (.i8 v))
    (hptr : s.regs b = some (.ptr p)) (hG : ∀ m, G m (m.set p v))
    (hrest : ∀ m, R s.mem m → Runs R G post ((s.withMem m).storeByte p v) is) :
    Runs R G post s (.store (.reg a) (.at (.reg b)) :: is) := by
  refine fun m hm => ⟨(s.withMem m).storeByte p v, ?_, hG m, hrest m hm⟩
  simp [Inst.exec, Operand.eval, hval, hptr]

/-- One piece of code after the other. -/
theorem Runs.append (h : Runs R G post s is) (hjs : ∀ s, post s → Runs R G post' s js) :
    Runs R G post' s (is ++ js) := by
  induction is generalizing s with
  | nil => exact hjs s h
  | cons i is ih =>
      intro m hm
      rcases h m hm with ⟨s', hexec, hG, hrest⟩
      exact ⟨s', hexec, hG, ih hrest⟩

theorem Runs.mono {G' : Mem O → Mem O → Prop} (hG : ∀ m m', G m m' → G' m m')
    (hpost : ∀ s, post s → post' s) (h : Runs R G post s is) : Runs R G' post' s is := by
  induction is generalizing s with
  | nil => exact hpost s h
  | cons i is ih =>
      intro m hm
      rcases h m hm with ⟨s', hexec, hguar, hrest⟩
      exact ⟨s', hexec, hG _ _ hguar, ih hrest⟩

/-- What both sides keep of the memory holds at the end. -/
theorem Runs.keeps {I : Mem O → Prop} (hR : ∀ m m', R m m' → I m → I m')
    (hG : ∀ m m', G m m' → I m → I m') (h : Runs R G post s is) (hs : I s.mem) :
    Runs R G (fun s' => post s' ∧ I s'.mem) s is := by
  induction is generalizing s with
  | nil => exact ⟨h, hs⟩
  | cons i is ih =>
      intro m hm
      rcases h m hm with ⟨s', hexec, hguar, hrest⟩
      exact ⟨s', hexec, hguar, ih hrest (hG _ _ hguar (hR _ _ hm hs))⟩

/-- The others may move before the next instruction. -/
theorem Runs.interfere (htrans : ∀ {m₁ m₂ m₃}, R m₁ m₂ → R m₂ m₃ → R m₁ m₃)
    (hpost : ∀ {s m}, R s.mem m → post s → post (s.withMem m)) (h : Runs R G post s is)
    {m : Mem O} (hm : R s.mem m) : Runs R G post (s.withMem m) is := by
  cases is with
  | nil => exact hpost hm h
  | cons i is =>
      intro m' hm'
      exact h m' (htrans hm hm')

end Runs

/-! ## Parallel composition -/

/-- Threads over one memory, each with the code that it has still to run. -/
structure Parallel (T O : Type) where
  state : T → State O
  code : T → List Inst
  mem : Mem O

namespace Parallel

variable {T O : Type}

/-- What a thread sees. -/
def view (w : Parallel T O) (t : T) : State O :=
  (w.state t).withMem w.mem

variable [DecidableEq T]

/-- A thread in the state `s`, with its memory for all, and the code `is` before it. -/
def put (w : Parallel T O) (t : T) (s : State O) (is : List Inst) : Parallel T O where
  state := Function.update w.state t s
  code := Function.update w.code t is
  mem := s.mem

variable {w w' : Parallel T O} {t u : T} {s : State O} {is : List Inst}

@[simp] theorem put_mem : (w.put t s is).mem = s.mem := rfl

@[simp] theorem put_code_self : (w.put t s is).code t = is := by
  simp [put]

theorem put_code_of_ne (h : u ≠ t) : (w.put t s is).code u = w.code u := by
  simp [put, Function.update_of_ne h]

@[simp] theorem put_view_self : (w.put t s is).view t = s := by
  simp [view, put]

theorem put_view_of_ne (h : u ≠ t) : (w.put t s is).view u = (w.view u).withMem s.mem := by
  simp [view, put, Function.update_of_ne h]

variable [DecidableEq O]

/-- The next instruction of a thread. -/
def exec (w : Parallel T O) (t : T) : Option (Parallel T O) :=
  match w.code t with
  | [] => none
  | i :: is => (i.exec (w.view t)).map fun s => w.put t s is

variable {R : Mem O → Mem O → Prop} {G : T → Mem O → Mem O → Prop} {post : T → State O → Prop}

/-- A thread moves on, and the other threads can rely on what it did to the memory. -/
theorem put_runs (htrans : ∀ {m₁ m₂ m₃}, R m₁ m₂ → R m₂ m₃ → R m₁ m₃)
    (hpost : ∀ t {s m}, R s.mem m → post t s → post t (s.withMem m))
    (hall : ∀ u, u ≠ t → Runs R (G u) (post u) (w.view u) (w.code u)) (hrely : R w.mem s.mem)
    (ht : Runs R (G t) (post t) s is) (u : T) :
    Runs R (G u) (post u) ((w.put t s is).view u) ((w.put t s is).code u) := by
  by_cases hu : u = t
  · subst hu
    simpa using ht
  · have hrely' : R (w.view u).mem s.mem := hrely
    rw [put_view_of_ne hu, put_code_of_ne hu]
    exact Runs.interfere (R := R) (fun h₁ h₂ => htrans h₁ h₂) (fun hm => hpost u hm) (hall u hu)
      hrely'

/-- **The parallel rule.** A thread that runs on does what it guarantees, and all threads, each in
what the others rely on, still run to their ends. -/
theorem exec_runs (hrefl : ∀ m, R m m) (htrans : ∀ {m₁ m₂ m₃}, R m₁ m₂ → R m₂ m₃ → R m₁ m₃)
    (hG : ∀ t m m', G t m m' → R m m')
    (hpost : ∀ t {s m}, R s.mem m → post t s → post t (s.withMem m))
    (hall : ∀ t, Runs R (G t) (post t) (w.view t) (w.code t)) (h : w.exec t = some w') :
    G t w.mem w'.mem ∧ ∀ u, Runs R (G u) (post u) (w'.view u) (w'.code u) := by
  cases hcode : w.code t with
  | nil => simp [exec, hcode] at h
  | cons i is =>
      have ht := hall t
      rw [hcode] at ht
      rcases ht w.mem (hrefl _) with ⟨s, hexec, hguar, hrest⟩
      have hexec' : i.exec (w.view t) = some s := hexec
      simp only [exec, hcode, hexec', Option.map_some, Option.some.injEq] at h
      subst h
      have hrely : R w.mem s.mem := hG t _ _ hguar
      exact ⟨hguar, put_runs (fun h₁ h₂ => htrans h₁ h₂) (fun t {_ _} hm => hpost t hm)
        (fun u _ => hall u) hrely hrest⟩

/-- A thread that has code before it is never stuck. -/
theorem exec_isSome {G : Mem O → Mem O → Prop} {post : State O → Prop} (hrefl : ∀ m, R m m)
    (h : Runs R G post (w.view t) (w.code t)) (hcode : w.code t ≠ []) :
    ∃ w', w.exec t = some w' := by
  cases hc : w.code t with
  | nil => exact absurd hc hcode
  | cons i is =>
      rw [hc] at h
      rcases h w.mem (hrefl _) with ⟨s, hexec, -, -⟩
      have hexec' : i.exec (w.view t) = some s := hexec
      exact ⟨w.put t s is, by simp [exec, hc, hexec']⟩

end Parallel

end IR
