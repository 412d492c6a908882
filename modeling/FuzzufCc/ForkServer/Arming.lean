import FuzzufCc.ForkServer.Timeout

/-!
# Arming — the timer and its handler

`ExecutePUT` calls `setitimer` before `sigaction`.  From the second execution on the handler is
there already; in the first one an expiry between the two calls meets the disposition with which the
server was started, and the default one terminates the server.
-/

namespace FuzzufCc
namespace ForkServer

open Transition

namespace System

/-- An armed timer finds its handler, and no expiry ends the server. -/
structure TimerHandled (s : System) : Prop where
  handler : s.itimer.isSome → s.sigalrm = .putTimeoutHandler
  survives : ∀ errno s', s.step (.expires errno) = some s' → s'.control = s.control

/-- The step is the `setitimer` of the first execution of the session. -/
def ArmsFirst (s : System) (e : Event) : Prop :=
  e = .succeeds ∧ s.control = .setitimer ∧ s.past = []

instance (s : System) (e : Event) : Decidable (ArmsFirst s e) :=
  inferInstanceAs (Decidable (_ ∧ _ ∧ _))

variable {s s' : System} {initial : Disposition}

/-- With its handler in place the timer cannot end the server. -/
theorem timerHandled_iff :
    s.TimerHandled ↔ (s.itimer.isSome → s.sigalrm = .putTimeoutHandler) := by
  constructor
  · intro h
    exact h.handler
  · intro h
    refine ⟨h, fun errno s' hstep => ?_⟩
    simp only [step, expires] at hstep
    split at hstep
    case h_1 => cases hstep
    case h_2 armedBy htimer =>
        rw [h (by simp [htimer])] at hstep
        cases hstep
        rfl

theorem start_timerHandled (pid : Int) (fds : FdTable) (ignored : Bool) :
    (start pid fds ignored).TimerHandled := by
  rw [timerHandled_iff]
  intro hsome
  cases hsome

/-- Only a timeout of zero disarms the timer. -/
theorem setitimer_itimer (s : System) :
    s.setitimer.itimer = if s.settings.timeoutUs = 0 then none else some s.past.length := by
  have hvalue : (s.settings.timeoutUs / (1000 * 1000)).toNat * (1000 * 1000) +
      (s.settings.timeoutUs % (1000 * 1000)).toNat = s.settings.timeoutUs.toNat := by
    rw [BitVec.toNat_udiv, BitVec.toNat_umod]
    exact Nat.div_add_mod' _ _
  have hzero : s.settings.timeoutUs.toNat = 0 ↔ s.settings.timeoutUs = 0 :=
    ⟨fun h => BitVec.eq_of_toNat_eq h, fun h => congrArg BitVec.toNat h⟩
  simp only [System.setitimer, hvalue, hzero]

theorem setitimer_timerHandled_iff (hinv : s.Inv initial) (hinitial : initial ≠ .putTimeoutHandler)
    (hcontrol : s.control = .setitimer) :
    s.setitimer.TimerHandled ↔ (s.past = [] → s.settings.timeoutUs = 0) := by
  have halrm := hinv.handler (hcontrol ▸ trivial)
  simp only [hcontrol, ne_eq, reduceCtorEq, not_false_eq_true, and_true] at halrm
  rw [timerHandled_iff, setitimer_itimer, show s.setitimer.sigalrm = s.sigalrm from rfl, halrm]
  by_cases hpast : s.past = []
  · by_cases htimeout : s.settings.timeoutUs = 0
    · simp [htimeout]
    · simp [hpast, hinitial]
  · simp [hpast]

/-- **One step.** It leaves an armed timer without its handler exactly if it arms the timer of the
first execution. -/
theorem timerHandled_step {e : Event} (hinv : s.Inv initial)
    (hinitial : initial ≠ .putTimeoutHandler) (hs : s.TimerHandled) :
    s.step e = some s' →
      (s'.TimerHandled ↔ (ArmsFirst s e → s.settings.timeoutUs = 0)) := by
  intro hstep
  -- a step that arms nothing and removes no handler
  have hkeep : (s'.itimer = s.itimer ∨ s'.itimer = none) → s'.sigalrm = s.sigalrm →
      ¬ArmsFirst s e → (s'.TimerHandled ↔ (ArmsFirst s e → s.settings.timeoutUs = 0)) := by
    intro hitimer halrm hnot
    refine iff_of_true (timerHandled_iff.2 fun hsome => ?_) fun h => absurd h hnot
    rw [halrm]
    rcases hitimer with heq | hnone
    · exact hs.handler (heq ▸ hsome)
    · simp [hnone] at hsome
  have hother : e ≠ .succeeds → ¬ArmsFirst s e := fun hne h => hne h.1
  have helsewhere : s.control ≠ .setitimer → ¬ArmsFirst s e := fun hne h => hne h.2.1
  cases step_cases hstep with
  | setitimer hcontrol =>
      rw [setitimer_timerHandled_iff hinv hinitial hcontrol]
      simp [ArmsFirst, hcontrol]
  | sigaction hcontrol =>
      refine iff_of_true (timerHandled_iff.2 fun _ => rfl) fun h => ?_
      exact absurd h (helsewhere (by simp [hcontrol]))
  | handshakeFails hcontrol _ => exact hkeep (Or.inl rfl) rfl (helsewhere (by simp [hcontrol]))
  | told hcontrol => exact hkeep (Or.inl rfl) rfl (helsewhere (by simp [hcontrol]))
  | waitAgain hcontrol _ => exact hkeep (Or.inl rfl) rfl (helsewhere (by simp [hcontrol]))
  | write hcontrol => exact hkeep (Or.inl rfl) rfl (helsewhere (by simp [hcontrol]))
  | command _ _ _ =>
      exact hkeep (Or.inl (switch_same _).1.itimer) (switch_same _).1.sigalrm (hother (by simp))
  | u64 _ _ hlen =>
      exact hkeep (Or.inl (recvU64_same hlen).1.itimer) (recvU64_same hlen).1.sigalrm
        (hother (by simp))
  | exit _ => exact hkeep (Or.inr rfl) rfl (hother (by simp))
  | eof _ => exact hkeep (Or.inr rfl) rfl (hother (by simp))
  | expiresByDefault _ _ => exact hkeep (Or.inr rfl) rfl (hother (by simp))
  | expiresIgnored _ _ => exact hkeep (Or.inr rfl) rfl (hother (by simp))
  | expires _ _ => exact hkeep (Or.inr rfl) rfl (hother (by simp))
  | terminated _ => exact hkeep (Or.inr rfl) rfl (hother (by simp))
  | _ => exact hkeep (Or.inl rfl) rfl (hother (by simp))

/-- **When an armed timer has its handler.** It has in all states of a run, and no expiry ends the
server, exactly if the first execution of the session arms no timer. -/
theorem timerHandled_iff_first {pid : Int} {fds : FdTable} {ignored : Bool} {es : List Event}
    (hrun : run System.step (start pid fds ignored) es = some s) :
    AllStates System.step TimerHandled (start pid fds ignored) es ↔
      AllSteps System.step (fun t e => ArmsFirst t e → t.settings.timeoutUs = 0)
        (start pid fds ignored) es := by
  have hinitial : (start pid fds ignored).sigalrm ≠ .putTimeoutHandler := by
    cases ignored <;> simp [start]
  refine allStates_iff_allSteps (start_timerHandled pid fds ignored) ?_ hrun
  intro es t e t' hes he ht
  exact timerHandled_step (inv_run hes) hinitial ht he

end System

/-! ### An expiry before the first `sigaction` -/

/-- The first timer runs out before its handler is there, and the server dies of it. -/
theorem firstTimer_kills_server :
    ∃ s, run System.step (.start 50 clientFds false)
        (handshake ++ forkPut 100 ++ [.succeeds] ++ [.expires 0]) = some s ∧
      s.control = .killed ∧
      ¬AllStates System.step System.TimerHandled (.start 50 clientFds false)
        (handshake ++ forkPut 100 ++ [.succeeds] ++ [.expires 0]) := by
  obtain ⟨s₁, s, hrun₁, hexpires, hbefore, hkilled⟩ : ∃ s₁ s,
      run System.step (.start 50 clientFds false)
        (handshake ++ forkPut 100 ++ [.succeeds]) = some s₁ ∧
      s₁.step (.expires 0) = some s ∧ s₁.control = .sigaction ∧ s.control = .killed :=
    ⟨_, _, rfl, rfl, rfl, rfl⟩
  refine ⟨s, run_snoc_eq_some.2 ⟨s₁, hrun₁, hexpires⟩, hkilled, fun hall => ?_⟩
  have hsame := (hall _ s₁ (List.prefix_append _ _) hrun₁).survives 0 s hexpires
  rw [hbefore, hkilled] at hsame
  cases hsame

/-- A session whose first execution has no timeout. -/
def untimedFirst : List Event :=
  handshake ++ [.read (bytesOf 4 1), .read (bytesOf 8 0)] ++ forkPut 100 ++ finishPut

theorem untimedFirst_timerHandled :
    ∃ s, run System.step (.start 50 clientFds false) untimedFirst = some s ∧
      AllStates System.step System.TimerHandled (.start 50 clientFds false) untimedFirst := by
  obtain ⟨s, hrun⟩ : ∃ s, run System.step (.start 50 clientFds false) untimedFirst = some s :=
    ⟨_, rfl⟩
  refine ⟨s, hrun, (System.timerHandled_iff_first hrun).2 (allSteps_iff_trace.2 ?_)⟩
  decide

end ForkServer
end FuzzufCc
