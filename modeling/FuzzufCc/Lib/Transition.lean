import Mathlib.Algebra.Order.Ring.Int
import Mathlib.Data.List.Induction

/-!
# Transition — finite runs of partial step functions

A system is a function `step : S → E → Option S`: the next state, where the event can happen.
`run` takes a list of events, `AllSteps` asks a condition of every step of a run, and the rules
below pass from one step to a whole run: invariants, simulations and bounds on the number of steps.
-/

namespace Transition

variable {S E : Type*}

/-- Take the events one after the other. -/
def run (step : S → E → Option S) (s : S) : List E → Option S
  | [] => some s
  | e :: es => (step s e).bind fun s' => run step s' es

/-- Every event of the run, in the state in which it happens, meets `P`. -/
def AllSteps (step : S → E → Option S) (P : S → E → Prop) (s : S) : List E → Prop
  | [] => True
  | e :: es => P s e ∧ ∀ s', step s e = some s' → AllSteps step P s' es

variable {step : S → E → Option S}

@[simp] theorem run_nil (s : S) : run step s [] = some s := rfl

theorem run_cons_eq_some {s t : S} {e : E} {es : List E} :
    run step s (e :: es) = some t ↔ ∃ s', step s e = some s' ∧ run step s' es = some t := by
  simp [run, Option.bind_eq_some_iff]

theorem run_append (s : S) (es₁ es₂ : List E) :
    run step s (es₁ ++ es₂) = (run step s es₁).bind fun s' => run step s' es₂ := by
  induction es₁ generalizing s with
  | nil => rfl
  | cons e es ih =>
      cases hstep : step s e with
      | none => simp [run, hstep]
      | some s' => simpa [run, hstep] using ih s'

theorem run_append_eq_some {s t : S} {es₁ es₂ : List E} :
    run step s (es₁ ++ es₂) = some t ↔
      ∃ s', run step s es₁ = some s' ∧ run step s' es₂ = some t := by
  rw [run_append, Option.bind_eq_some_iff]

theorem run_snoc_eq_some {s t : S} {es : List E} {e : E} :
    run step s (es ++ [e]) = some t ↔ ∃ s', run step s es = some s' ∧ step s' e = some t := by
  rw [run_append_eq_some]
  simp [run]

/-- The events of a run, each with the state in which it happens. -/
def trace (step : S → E → Option S) (s : S) : List E → List (S × E)
  | [] => []
  | e :: es => (s, e) :: (step s e).elim [] fun s' => trace step s' es

theorem trace_snoc {s t : S} {es : List E} (hrun : run step s es = some t) (e : E) :
    trace step s (es ++ [e]) = trace step s es ++ [(t, e)] := by
  induction es generalizing s with
  | nil =>
      obtain rfl : s = t := Option.some.inj hrun
      cases hstep : step s e <;> simp [trace, hstep]
  | cons e' es ih =>
      rcases run_cons_eq_some.1 hrun with ⟨s', hs', hes⟩
      simp [trace, hs', ih hes]

/-! ## Invariants -/

/-- What a step keeps holds after every run. -/
theorem invariant_run {I : S → Prop} (hstep : ∀ s e s', I s → step s e = some s' → I s')
    {s t : S} {es : List E} : I s → run step s es = some t → I t := by
  intro hs hrun
  induction es generalizing s with
  | nil =>
      obtain rfl : s = t := Option.some.inj hrun
      exact hs
  | cons e es ih =>
      rcases run_cons_eq_some.1 hrun with ⟨s', he, hes⟩
      exact ih (hstep s e s' hs he) hes

/-- A property of the past and the state: what the next step keeps holds of every run. -/
theorem history_run {s : S} {P : List E → S → Prop} (hnil : P [] s)
    (hstep : ∀ es t e t', run step s es = some t → P es t → step t e = some t' → P (es ++ [e]) t')
    {t : S} {es : List E} : run step s es = some t → P es t := by
  induction es using List.reverseRecOn generalizing t with
  | nil =>
      intro hrun
      obtain rfl : s = t := Option.some.inj hrun
      exact hnil
  | append_singleton es e ih =>
      intro hrun
      rcases run_snoc_eq_some.1 hrun with ⟨t', hes, he⟩
      exact hstep es t' e t hes (ih hes) he

/-- The same along events that all meet `Q`. -/
theorem history_run_of_forall {s : S} {P : List E → S → Prop} {Q : E → Prop} (hnil : P [] s)
    (hstep : ∀ es t e t', (∀ e' ∈ es, Q e') → run step s es = some t → P es t → Q e →
      step t e = some t' → P (es ++ [e]) t')
    {t : S} {es : List E} (hall : ∀ e ∈ es, Q e) : run step s es = some t → P es t := by
  intro hrun
  refine history_run (P := fun es t => (∀ e ∈ es, Q e) → P es t) (fun _ => hnil)
    (fun es t e t' hes ih he hall => ?_) hrun hall
  rcases List.forall_mem_append.1 hall with ⟨hbefore, hlast⟩
  exact hstep es t e t' hbefore hes (ih hbefore) (hlast e (List.mem_singleton_self e)) he

/-- An invariant that is kept by the steps that meet `P`. -/
theorem invariant_allSteps {P : S → E → Prop} {I : S → Prop}
    (hstep : ∀ s e s', I s → P s e → step s e = some s' → I s') {s t : S} {es : List E} :
    I s → AllSteps step P s es → run step s es = some t → I t := by
  intro hs hall hrun
  induction es generalizing s with
  | nil =>
      obtain rfl : s = t := Option.some.inj hrun
      exact hs
  | cons e es ih =>
      rcases run_cons_eq_some.1 hrun with ⟨s', he, hes⟩
      exact ih (hstep s e s' hs hall.1 he) (hall.2 s' he) hes

theorem allSteps_of_forall {P : S → E → Prop} {es : List E} (hall : ∀ e ∈ es, ∀ s, P s e) (s : S) :
    AllSteps step P s es := by
  induction es generalizing s with
  | nil => trivial
  | cons e es ih =>
      have hrest : ∀ e' ∈ es, ∀ s, P s e' := fun e' he' => hall e' (List.mem_cons_of_mem _ he')
      exact ⟨hall e List.mem_cons_self s, fun s' _ => ih hrest s'⟩

theorem allSteps_append {P : S → E → Prop} {s : S} {es₁ es₂ : List E} :
    AllSteps step P s (es₁ ++ es₂) ↔
      AllSteps step P s es₁ ∧ ∀ t, run step s es₁ = some t → AllSteps step P t es₂ := by
  induction es₁ generalizing s with
  | nil => simp [AllSteps]
  | cons e es₁ ih =>
      constructor
      · intro h
        refine ⟨⟨h.1, fun s' hs' => (ih.1 (h.2 s' hs')).1⟩, fun t ht => ?_⟩
        rcases run_cons_eq_some.1 ht with ⟨s', hs', hes⟩
        exact (ih.1 (h.2 s' hs')).2 t hes
      · intro h
        refine ⟨h.1.1, fun s' hs' => ih.2 ⟨h.1.2 s' hs', fun t ht => ?_⟩⟩
        exact h.2 t (run_cons_eq_some.2 ⟨s', hs', ht⟩)

theorem allSteps_snoc {P : S → E → Prop} {s : S} {es : List E} {e : E} :
    AllSteps step P s (es ++ [e]) ↔
      AllSteps step P s es ∧ ∀ t, run step s es = some t → P t e := by
  rw [allSteps_append]
  simp [AllSteps]

theorem allSteps_iff_trace {P : S → E → Prop} {s : S} {es : List E} :
    AllSteps step P s es ↔ ∀ p ∈ trace step s es, P p.1 p.2 := by
  induction es generalizing s with
  | nil => simp [AllSteps, trace]
  | cons e es ih =>
      rw [trace, List.forall_mem_cons, AllSteps]
      cases step s e with
      | none => simp
      | some s' => simp [ih]

theorem allSteps_iff_splits {P : S → E → Prop} {s : S} {es : List E} :
    AllSteps step P s es ↔
      ∀ es₁ e es₂ t, es = es₁ ++ e :: es₂ → run step s es₁ = some t → P t e := by
  induction es generalizing s with
  | nil => simp [AllSteps]
  | cons e es ih =>
      constructor
      · rintro ⟨he, hrest⟩ es₁ e' es₂ t hsplit ht
        cases es₁ with
        | nil =>
            obtain ⟨rfl, -⟩ := List.cons.inj hsplit
            obtain rfl : s = t := Option.some.inj ht
            exact he
        | cons e₁ es₁ =>
            obtain ⟨rfl, htail⟩ := List.cons.inj hsplit
            rcases run_cons_eq_some.1 ht with ⟨s', hs', ht⟩
            exact ih.1 (hrest s' hs') es₁ e' es₂ t htail ht
      · intro h
        refine ⟨h [] e es s rfl rfl, fun s' hs' => ih.2 fun es₁ e' es₂ t hsplit ht => ?_⟩
        exact h (e :: es₁) e' es₂ t (by rw [hsplit, List.cons_append])
          (run_cons_eq_some.2 ⟨s', hs', ht⟩)

/-- Where a step can be judged by its event, so can a run, as long as the good steps exist. -/
theorem allSteps_iff_forall {P : S → E → Prop} {Q : E → Prop} {I : S → Prop}
    (hinv : ∀ s e s', I s → step s e = some s' → I s') (hiff : ∀ s e, I s → (P s e ↔ Q e))
    (hnext : ∀ s e, I s → P s e → ∃ s', step s e = some s') {s : S} {es : List E} (hs : I s) :
    AllSteps step P s es ↔ ∀ e ∈ es, Q e := by
  induction es generalizing s with
  | nil => simp [AllSteps]
  | cons e es ih =>
      rw [List.forall_mem_cons]
      constructor
      · rintro ⟨he, hrest⟩
        rcases hnext s e hs he with ⟨s', hs'⟩
        exact ⟨(hiff s e hs).1 he, (ih (hinv s e s' hs hs')).1 (hrest s' hs')⟩
      · rintro ⟨he, hrest⟩
        exact ⟨(hiff s e hs).2 he, fun s' hs' => (ih (hinv s e s' hs hs')).2 hrest⟩

/-! ## Properties of all states of a run -/

/-- Every state that the run passes through, its start and its end included, meets `P`. -/
def AllStates (step : S → E → Option S) (P : S → Prop) (s : S) (es : List E) : Prop :=
  ∀ es' t, es' <+: es → run step s es' = some t → P t

theorem AllStates.last {P : S → Prop} {s t : S} {es : List E} (hall : AllStates step P s es)
    (hrun : run step s es = some t) : P t :=
  hall es t (List.prefix_refl _) hrun

theorem allStates_snoc {P : S → Prop} {s : S} {es : List E} {e : E} :
    AllStates step P s (es ++ [e]) ↔
      AllStates step P s es ∧ ∀ t, run step s (es ++ [e]) = some t → P t := by
  constructor
  · intro h
    exact ⟨fun es' t hpre => h es' t (hpre.trans (List.prefix_append _ _)), fun t hrun =>
      h.last hrun⟩
  · intro h es' t hpre hrun
    rcases List.prefix_concat_iff.1 hpre with rfl | hpre
    · exact h.2 t hrun
    · exact h.1 es' t hpre hrun

/-- A property of states that a step keeps exactly if the step meets `Q`. -/
theorem allStates_iff_allSteps {P : S → Prop} {Q : S → E → Prop} {s : S} (hs : P s)
    (hstep : ∀ es t e t', run step s es = some t → step t e = some t' → P t → (P t' ↔ Q t e))
    {t : S} {es : List E} (hrun : run step s es = some t) :
    AllStates step P s es ↔ AllSteps step Q s es := by
  refine history_run (P := fun es _ => AllStates step P s es ↔ AllSteps step Q s es) ?_ ?_ hrun
  · refine iff_of_true (fun es' t hpre hnil => ?_) trivial
    obtain rfl : es' = [] := List.prefix_nil.1 hpre
    obtain rfl : s = t := Option.some.inj hnil
    exact hs
  · intro es t e t' hes ih he
    have hlast : run step s (es ++ [e]) = some t' := run_snoc_eq_some.2 ⟨t, hes, he⟩
    rw [allStates_snoc, allSteps_snoc, ih, hlast, hes]
    constructor
    · rintro ⟨hall, ht'⟩
      refine ⟨hall, fun u hu => ?_⟩
      obtain rfl : t = u := Option.some.inj hu
      exact (hstep es t e t' hes he ((ih.2 hall).last hes)).1 (ht' t' rfl)
    · rintro ⟨hall, hq⟩
      refine ⟨hall, fun u hu => ?_⟩
      obtain rfl : t' = u := Option.some.inj hu
      exact (hstep es t e t' hes he ((ih.2 hall).last hes)).2 (hq t rfl)

/-! ## Conditions on the events to come -/

/-- Every event of the run, in the state in which it happens and with the events behind it, meets
`P`. -/
def AllFutures (step : S → E → Option S) (P : S → E → List E → Prop) (s : S) (es : List E) : Prop :=
  ∀ es₁ e es₂ t, es = es₁ ++ e :: es₂ → run step s es₁ = some t → P t e es₂

theorem allFutures_cons_of_step {P : S → E → List E → Prop} {s s' : S} {e : E} {es : List E}
    (he : step s e = some s') :
    AllFutures step P s (e :: es) ↔ P s e es ∧ AllFutures step P s' es := by
  constructor
  · intro h
    refine ⟨h [] e es s rfl rfl, fun es₁ e' es₂ t hsplit ht => ?_⟩
    exact h (e :: es₁) e' es₂ t (by rw [hsplit, List.cons_append])
      (run_cons_eq_some.2 ⟨s', he, ht⟩)
  · rintro ⟨hfirst, hrest⟩ es₁ e' es₂ t hsplit ht
    cases es₁ with
    | nil =>
        obtain ⟨rfl, rfl⟩ := List.cons.inj hsplit
        obtain rfl : s = t := Option.some.inj ht
        exact hfirst
    | cons e₁ es₁ =>
        obtain ⟨rfl, htail⟩ := List.cons.inj hsplit
        rcases run_cons_eq_some.1 ht with ⟨s'', hs'', ht⟩
        obtain rfl : s' = s'' := Option.some.inj (he.symm.trans hs'')
        exact hrest es₁ e' es₂ t htail ht

/-- The events of a run, each with the state in which it happens and the events behind it. -/
def futures (step : S → E → Option S) (s : S) : List E → List (S × E × List E)
  | [] => []
  | e :: es => (s, e, es) :: (step s e).elim [] fun s' => futures step s' es

theorem allFutures_of_futures {P : S → E → List E → Prop} {s t : S} {es : List E}
    (hrun : run step s es = some t) (hall : ∀ p ∈ futures step s es, P p.1 p.2.1 p.2.2) :
    AllFutures step P s es := by
  induction es generalizing s with
  | nil =>
      intro es₁ e es₂ u hsplit _
      simp at hsplit
  | cons e es ih =>
      rcases run_cons_eq_some.1 hrun with ⟨s', hs', hrest⟩
      rw [futures, hs', Option.elim_some, List.forall_mem_cons] at hall
      exact (allFutures_cons_of_step hs').2 ⟨hall.1, ih hrest hall.2⟩

/-! ## Simulation -/

/-- If each step of one system is a run of another, so is each run. -/
theorem run_simulates {S' E' : Type*} {step' : S' → E' → Option S'} {f : S → S'}
    {g : E → List E'}
    (hstep : ∀ s e t, step s e = some t → run step' (f s) (g e) = some (f t))
    {s t : S} {es : List E} :
    run step s es = some t → run step' (f s) (es.flatMap g) = some (f t) := by
  intro hrun
  induction es generalizing s with
  | nil =>
      obtain rfl : s = t := Option.some.inj hrun
      rfl
  | cons e es ih =>
      rcases run_cons_eq_some.1 hrun with ⟨s', he, hes⟩
      rw [List.flatMap_cons, run_append_eq_some]
      exact ⟨f s', hstep s e s' he, ih hes⟩

/-- States related after the same events step alike, so they run alike.  This may rest on a property
of the events that every part of a run has from its start. -/
theorem run_rel {S' : Type*} {step' : S' → E → Option S'} {R : List E → S → S' → Prop}
    {P : List E → Prop} (hP : ∀ es e, P (es ++ [e]) → P es)
    (hstep : ∀ es s s' e, P (es ++ [e]) → R es s s' →
      Option.Rel (R (es ++ [e])) (step s e) (step' s' e))
    {s : S} {s' : S'} (h : R [] s s') {es : List E} (hes : P es) :
    Option.Rel (R es) (run step s es) (run step' s' es) := by
  induction es using List.reverseRecOn with
  | nil => exact .some h
  | append_singleton es e ih =>
      have hrel := ih (hP es e hes)
      rw [run_append, run_append]
      generalize run step s es = r, run step' s' es = r' at hrel
      cases hrel with
      | none => exact .none
      | @some t t' ht =>
          have hlast := hstep es t t' e hes ht
          simpa [run, Option.bind_some] using hlast

/-! ## Bounds -/

/-- Events that use up `work` are no more than there is work, if no other event makes new work. -/
theorem countP_add_le {p : E → Bool} {work : S → Nat} {I : S → Prop} {P : S → E → Prop}
    (hinv : ∀ s e s', I s → P s e → step s e = some s' → I s')
    (hwork : ∀ s e s', I s → P s e → step s e = some s' →
      work s' + (if p e then 1 else 0) ≤ work s)
    {s t : S} {es : List E} :
    I s → AllSteps step P s es → run step s es = some t → es.countP p + work t ≤ work s := by
  intro hs hall hrun
  induction es generalizing s with
  | nil =>
      obtain rfl : s = t := Option.some.inj hrun
      simp
  | cons e es ih =>
      rcases run_cons_eq_some.1 hrun with ⟨s', he, hes⟩
      -- the first event pays for itself
      have hone := hwork s e s' hs hall.1 he
      have hrest := ih (hinv s e s' hs hall.1 he) (hall.2 s' he) hes
      rw [List.countP_cons]
      omega

end Transition
