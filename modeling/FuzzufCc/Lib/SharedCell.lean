import Mathlib.Logic.Function.Basic

/-!
# SharedCell — one cell that many threads read and write back

An operation loads the cell and, unless it has nothing to store, stores to it later; every other
thread can load and store in between.  So the cell holds what some of the operations, in the order
in which they were made, leave of its first value, and a race can lose the others.  As long as no
two threads have a store outstanding at one time, none is lost.
-/

namespace SharedCell

/-- The value, and the stores that the threads have still to make. -/
structure Cell (T V : Type*) where
  value : V
  pending : T → Option V

/-- No store is outstanding. -/
def Cell.Settled {T V : Type*} (c : Cell T V) : Prop :=
  ∀ t, c.pending t = none

/-- Two threads have a store outstanding. -/
def Cell.Contended {T V : Type*} (c : Cell T V) : Prop :=
  ∃ t u, t ≠ u ∧ c.pending t ≠ none ∧ c.pending u ≠ none

inductive Access (T Op : Type*)
  | load (t : T) (op : Op)
  | store (t : T)

section Steps

variable {T V Op : Type*}

def Access.op : Access T Op → Option Op
  | .load _ op => some op
  | .store _ => none

-- `upd op v` is what `op` stores after it has loaded `v`, if it stores anything
variable (upd : Op → V → Option V)

/-- An operation that nobody interrupts. -/
def apply (v : V) (op : Op) : V :=
  (upd op v).getD v

variable [DecidableEq T]

/-- The value `v`, and `p` outstanding for `t`. -/
def Cell.set (c : Cell T V) (v : V) (t : T) (p : Option V) : Cell T V where
  value := v
  pending := Function.update c.pending t p

section Set

variable {c : Cell T V} {v : V} {t u : T} {p : Option V}

@[simp] theorem Cell.set_value : (c.set v t p).value = v := rfl

@[simp] theorem Cell.set_pending_self : (c.set v t p).pending t = p :=
  Function.update_self _ _ _

theorem Cell.set_pending_of_ne (h : u ≠ t) : (c.set v t p).pending u = c.pending u :=
  Function.update_of_ne h _ _

theorem Cell.set_self (h : c.pending t = p) : c.set c.value t p = c := by
  rw [Cell.set, ← h, Function.update_eq_self]

end Set

/-- A thread makes its store before it loads again. -/
def step (c : Cell T V) : Access T Op → Option (Cell T V)
  | .load t op =>
      match c.pending t with
      | some _ => none
      | none => some (c.set c.value t (upd op c.value))
  | .store t => some (c.set ((c.pending t).getD c.value) t none)

variable {upd} {c c' : Cell T V} {t : T} {op : Op}

theorem step_load : step upd c (.load t op) = some c' ↔
    c.pending t = none ∧ c' = c.set c.value t (upd op c.value) := by
  cases hpending : c.pending t <;> simp [step, hpending, eq_comm]

end Steps

/-! ## What no race can change -/

section Races

variable {T V Op : Type*} (upd : Op → V → Option V) (v₀ : V)

/-- `v` is what some of the operations leave of the first value; the last of them stored it. -/
def Stored (ops : List Op) (v : V) : Prop :=
  ∃ kept op, (kept ++ [op]).Sublist ops ∧ upd op (kept.foldl (apply upd) v₀) = some v

variable {upd v₀} {ops : List Op} {v : V} {op : Op}

theorem Stored.append (h : Stored upd v₀ ops v) (ops' : List Op) :
    Stored upd v₀ (ops ++ ops') v := by
  rcases h with ⟨kept, op, hsub, hv⟩
  exact ⟨kept, op, hsub.trans (List.sublist_append_left _ _), hv⟩

theorem Stored.first (h : upd op v₀ = some v) : Stored upd v₀ (ops ++ [op]) v :=
  ⟨[], op, List.sublist_append_right _ _, h⟩

theorem Stored.next {v' : V} (h : Stored upd v₀ ops v) (hop : upd op v = some v') :
    Stored upd v₀ (ops ++ [op]) v' := by
  rcases h with ⟨kept, last, hsub, hv⟩
  refine ⟨kept ++ [last], op, hsub.append_right [op], ?_⟩
  rw [List.foldl_append, List.foldl_cons, List.foldl_nil, apply, hv]
  exact hop

variable (upd v₀) in
/-- What holds after any interleaving of the operations `ops`. -/
structure Raced (ops : List Op) (c : Cell T V) : Prop where
  value : Stored upd v₀ ops c.value ∨
    c.value = v₀ ∧ ((∀ op ∈ ops, upd op v₀ = none) ∨ ∃ t, c.pending t ≠ none)
  pending : ∀ t v, c.pending t = some v → Stored upd v₀ ops v

variable {c c' : Cell T V}

theorem Raced.start (hvalue : c.value = v₀) (hnone : c.Settled) :
    Raced upd v₀ [] c := by
  refine ⟨.inr ⟨hvalue, .inl fun op hop => absurd hop List.not_mem_nil⟩, fun t v hv => ?_⟩
  rw [hnone t] at hv
  cases hv

variable [DecidableEq T]

theorem Raced.load {t : T} (h : Raced upd v₀ ops c) (ht : c.pending t = none) (op : Op) :
    Raced upd v₀ (ops ++ [op]) (c.set c.value t (upd op c.value)) := by
  refine ⟨?_, fun u v hv => ?_⟩
  · rcases h.value with hstored | ⟨hvalue, hcases⟩
    · exact .inl (hstored.append [op])
    · refine .inr ⟨hvalue, ?_⟩
      rcases hcases with hall | ⟨u, hu⟩
      · cases hop : upd op c.value with
        | none =>
            -- this operation has nothing to store either
            refine .inl fun op' hop' => ?_
            rcases List.mem_append.1 hop' with hold | hnew
            · exact hall op' hold
            · obtain rfl := List.mem_singleton.1 hnew
              rw [← hvalue]
              exact hop
        | some v => exact .inr ⟨t, by simp⟩
      · have hut : u ≠ t := by
          rintro rfl
          exact hu ht
        refine .inr ⟨u, ?_⟩
        rwa [Cell.set_pending_of_ne hut]
  · by_cases hut : u = t
    · subst hut
      rw [Cell.set_pending_self] at hv
      rcases h.value with hstored | ⟨hvalue, -⟩
      · exact hstored.next hv
      · rw [hvalue] at hv
        exact .first hv
    · rw [Cell.set_pending_of_ne hut] at hv
      exact (h.pending u v hv).append [op]

theorem Raced.store {t : T} {v : V} (h : Raced upd v₀ ops c) (ht : c.pending t = some v) :
    Raced upd v₀ ops (c.set v t none) := by
  refine ⟨.inl (h.pending t v ht), fun u w hw => ?_⟩
  by_cases hut : u = t
  · subst hut
    rw [Cell.set_pending_self] at hw
    cases hw
  · rw [Cell.set_pending_of_ne hut] at hw
    exact h.pending u w hw

theorem Raced.step {a : Access T Op} (h : Raced upd v₀ ops c) (ha : step upd c a = some c') :
    Raced upd v₀ (ops ++ a.op.toList) c' := by
  cases a with
  | load t op =>
      obtain ⟨ht, rfl⟩ := step_load.1 ha
      exact h.load ht op
  | store t =>
      simp only [Access.op, Option.toList_none, List.append_nil]
      obtain rfl := Option.some.inj ha
      cases ht : c.pending t with
      | none => exact (Cell.set_self ht).symm ▸ h
      | some v => exact h.store ht

omit [DecidableEq T] in
/-- No store is outstanding: either no operation had anything to store, or the last one that is
still visible has stored the value. -/
theorem Raced.settled (h : Raced upd v₀ ops c) (hnone : c.Settled) :
    (c.value = v₀ ∧ ∀ op ∈ ops, upd op v₀ = none) ∨ Stored upd v₀ ops c.value := by
  rcases h.value with hstored | ⟨hvalue, hall | ⟨t, ht⟩⟩
  · exact .inr hstored
  · exact .inl ⟨hvalue, hall⟩
  · exact absurd (hnone t) ht

end Races

/-! ## Without a race -/

section Serial

variable {T V Op : Type*}

variable (upd : Op → V → Option V) (v₀ : V)

/-- The value, or the one value that is still to be stored, is what all operations leave. -/
structure Serial (ops : List Op) (c : Cell T V) : Prop where
  settled : c.Settled → c.value = ops.foldl (apply upd) v₀
  pending : ∀ t v, c.pending t = some v →
    v = ops.foldl (apply upd) v₀ ∧ ∃ op, upd op c.value = some v

variable {upd v₀} {ops : List Op} {c c' : Cell T V}

theorem Serial.start (hvalue : c.value = v₀) (hnone : c.Settled) :
    Serial upd v₀ [] c := by
  refine ⟨fun _ => hvalue, fun t v hv => ?_⟩
  rw [hnone t] at hv
  cases hv

variable [DecidableEq T]

/-- An operation that leaves a value alone leaves alone what another one makes of that value. -/
theorem Serial.load {t : T} {op : Op}
    (hstable : ∀ op op' v v', upd op v = none → upd op' v = some v' → upd op v' = none)
    (h : Serial upd v₀ ops c) (ht : c.pending t = none)
    (hfree : ¬ (c.set c.value t (upd op c.value)).Contended) :
    Serial upd v₀ (ops ++ [op]) (c.set c.value t (upd op c.value)) := by
  have hfold : (ops ++ [op]).foldl (apply upd) v₀ = apply upd (ops.foldl (apply upd) v₀) op := by
    rw [List.foldl_append, List.foldl_cons, List.foldl_nil]
  -- an outstanding store of another thread leaves no room for one of this thread
  have hother : ∀ u v, u ≠ t → c.pending u = some v → upd op c.value = none := by
    intro u v hut hu
    by_contra hop
    refine hfree ⟨u, t, hut, ?_, ?_⟩
    · rw [Cell.set_pending_of_ne hut, hu]
      exact Option.some_ne_none v
    · rwa [Cell.set_pending_self]
  refine ⟨fun hnone => ?_, fun u v hv => ?_⟩
  · have hop : upd op c.value = none := by
      simpa using hnone t
    have hsettled := h.settled fun u => by
      by_cases hut : u = t
      · rw [hut]
        exact ht
      · simpa [Cell.set_pending_of_ne hut] using hnone u
    rw [hfold, ← hsettled, apply, hop]
    rfl
  · by_cases hut : u = t
    · subst hut
      rw [Cell.set_pending_self] at hv
      have hsettled := h.settled fun u' => by
        by_cases hut' : u' = u
        · rw [hut']
          exact ht
        · cases hu' : c.pending u' with
          | none => rfl
          | some w =>
              rw [hother u' w hut' hu'] at hv
              cases hv
      refine ⟨?_, op, hv⟩
      rw [hfold, ← hsettled, apply, hv]
      rfl
    · rw [Cell.set_pending_of_ne hut] at hv
      obtain ⟨rfl, op', hop'⟩ := h.pending u v hv
      refine ⟨?_, op', hop'⟩
      rw [hfold, apply, hstable op op' c.value _ (hother u _ hut hv) hop']
      rfl

theorem Serial.store {t : T} {v : V} (h : Serial upd v₀ ops c) (ht : c.pending t = some v)
    (hfree : ¬ c.Contended) :
    Serial upd v₀ ops (c.set v t none) := by
  refine ⟨fun _ => (h.pending t v ht).1, fun u w hw => ?_⟩
  by_cases hut : u = t
  · subst hut
    rw [Cell.set_pending_self] at hw
    cases hw
  · rw [Cell.set_pending_of_ne hut] at hw
    refine absurd ⟨u, t, hut, ?_, ?_⟩ hfree
    · rw [hw]
      exact Option.some_ne_none w
    · rw [ht]
      exact Option.some_ne_none v

theorem Serial.step {a : Access T Op}
    (hstable : ∀ op op' v v', upd op v = none → upd op' v = some v' → upd op v' = none)
    (h : Serial upd v₀ ops c) (hfree : ¬ c.Contended) (hfree' : ¬ c'.Contended)
    (ha : step upd c a = some c') : Serial upd v₀ (ops ++ a.op.toList) c' := by
  cases a with
  | load t op =>
      obtain ⟨ht, rfl⟩ := step_load.1 ha
      exact h.load hstable ht hfree'
  | store t =>
      simp only [Access.op, Option.toList_none, List.append_nil]
      obtain rfl := Option.some.inj ha
      cases ht : c.pending t with
      | none => exact (Cell.set_self ht).symm ▸ h
      | some v => exact h.store ht hfree

end Serial

end SharedCell
