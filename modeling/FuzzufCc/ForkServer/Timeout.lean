import FuzzufCc.ForkServer.Server

/-!
# Timeout — whom `PUTTimeoutHandler` kills

`ExecutePUT` arms the timer after `fork` and leaves it armed when the PUT has ended in time.  This
file gives the invariant that links the timer, the child and the handler to the place where the
server is, and determines in which runs the handler kills the PUT for which the timer was armed.
-/

namespace FuzzufCc
namespace ForkServer

open Transition

/-! ## The invariant of the server -/

/-- `ExecutePUT` has a PUT that is not reaped. -/
def Control.HasPut : Control → Prop
  | .setitimer | .sigaction | .waitpid => True
  | _ => False

/-- `ExecutePUT` has a PUT that is not reaped, and has armed the timer for it. -/
def Control.Timed : Control → Prop
  | .sigaction | .waitpid => True
  | _ => False

/-- The server is before or behind the execution of a PUT. -/
def Control.Idle (c : Control) : Prop :=
  c.Serving ∧ ¬ c.HasPut

namespace System

structure Inv (initial : Disposition) (s : System) : Prop where
  child : s.control.HasPut → ∃ c, s.child = some c ∧ c.put.pid = s.putPid
  noChild : s.control.Idle → s.child = none
  -- an expiry concerns the PUT of this call, or one that is reaped
  timer : ∀ k, s.itimer = some k →
    (s.control.Timed ∧ k = s.past.length) ∨ (¬ s.control.Timed ∧ k < s.past.length)
  handler : s.control.Serving →
    s.sigalrm = if s.past = [] ∧ s.control ≠ .waitpid then initial else .putTimeoutHandler

/-- The step concerns the client only. -/
structure SameKernel (s s' : System) : Prop where
  fds : s'.fds = s.fds
  child : s'.child = s.child
  itimer : s'.itimer = s.itimer
  sigalrm : s'.sigalrm = s.sigalrm
  past : s'.past = s.past
  kills : s'.kills = s.kills

variable {s s' : System} {initial : Disposition}

theorem Inv.idle (hinv : s.Inv initial) (hsame : SameKernel s s') :
    s.control.Idle → s'.control.Idle → s'.Inv initial := by
  intro hidle hidle'
  -- outside an execution the timer can only be one that was left armed
  have hnotTimed : ∀ c : Control, c.Idle → ¬ c.Timed := by
    intro c hc htimed
    cases c <;> simp_all [Control.Idle, Control.Timed, Control.HasPut]
  have hnotWait : ∀ c : Control, c.Idle → c ≠ .waitpid := by
    intro c hc heq
    exact hc.2 (heq ▸ trivial)
  constructor
  · intro hput
    exact absurd hput hidle'.2
  · intro _
    rw [hsame.child]
    exact hinv.noChild hidle
  · intro k hk
    rw [hsame.itimer] at hk
    rw [hsame.past]
    rcases hinv.timer k hk with ⟨htimed, _⟩ | ⟨_, hlt⟩
    · exact absurd htimed (hnotTimed _ hidle)
    · exact Or.inr ⟨hnotTimed _ hidle', hlt⟩
  · intro _
    have hold := hinv.handler hidle.1
    rw [hsame.sigalrm, hsame.past, hold]
    simp [hnotWait _ hidle, hnotWait _ hidle']

theorem switch_same (command : BitVec 32) :
    SameKernel s (s.switch command) ∧ (s.switch command).control.Idle := by
  simp only [switch]
  split_ifs <;> exact ⟨⟨rfl, rfl, rfl, rfl, rfl, rfl⟩, trivial, id⟩

theorem recvU64_same {buf : List Byte} (hlen : buf.length = 8) :
    SameKernel s (s.recvU64 buf) ∧ (s.recvU64 buf).control.Idle := by
  simp only [recvU64, hlen, lt_irrefl, if_false]
  exact ⟨⟨rfl, rfl, rfl, rfl, rfl, rfl⟩, trivial, id⟩

theorem start_inv (pid : Int) (fds : FdTable) (ignored : Bool) :
    (start pid fds ignored).Inv (start pid fds ignored).sigalrm := by
  constructor
  · intro hput
    exact absurd hput id
  · intro _
    rfl
  · intro k hk
    simp [start] at hk
  · intro _
    simp [start]

/-- The invariant asks nothing of a process that is no longer a server. -/
theorem inv_final {c : Control} : ¬ c.Serving → Inv initial { s with control := c, itimer := none } := by
  intro hc
  constructor
  · intro hput
    cases c <;> simp_all [Control.Serving, Control.HasPut]
  · intro hidle
    exact absurd hidle.1 hc
  · intro k hk
    cases hk
  · intro hserving
    exact absurd hserving hc

theorem Inv.forked (hinv : s.Inv initial) (pid : Int) (unopenable : List String) :
    s.control = .fork → (s.forked pid unopenable).Inv initial := by
  intro hcontrol
  constructor
  · intro _
    exact ⟨_, rfl, rfl⟩
  · intro hidle
    exact absurd trivial hidle.2
  · intro k hk
    -- the new PUT has no timer yet; an armed one belongs to an earlier call
    rcases hinv.timer k hk with ⟨htimed, _⟩ | ⟨_, hlt⟩
    · rw [hcontrol] at htimed
      exact htimed.elim
    · exact Or.inr ⟨id, hlt⟩
  · intro _
    simpa [hcontrol, System.forked] using hinv.handler (hcontrol ▸ trivial)

theorem Inv.setitimer (hinv : s.Inv initial) :
    s.control = .setitimer → s.setitimer.Inv initial := by
  intro hcontrol
  constructor
  · intro _
    exact hinv.child (hcontrol ▸ trivial)
  · intro hidle
    exact absurd trivial hidle.2
  · intro k hk
    -- `setitimer` replaces whatever was armed before
    simp only [System.setitimer] at hk
    split at hk
    · simp at hk
    · exact Or.inl ⟨trivial, (Option.some.inj hk).symm⟩
  · intro _
    simpa [hcontrol, System.setitimer] using hinv.handler (hcontrol ▸ trivial)

theorem Inv.sigaction (hinv : s.Inv initial) :
    s.control = .sigaction → s.sigaction.Inv initial := by
  intro hcontrol
  constructor
  · intro _
    exact hinv.child (hcontrol ▸ trivial)
  · intro hidle
    exact absurd trivial hidle.2
  · intro k hk
    rcases hinv.timer k hk with ⟨_, heq⟩ | ⟨hnot, _⟩
    · exact Or.inl ⟨trivial, heq⟩
    · exact absurd (hcontrol ▸ trivial) hnot
  · intro _
    simp [System.sigaction]

theorem Inv.reaped (hinv : s.Inv initial) (put : Put) (st : FinalStatus) :
    s.control = .waitpid → Inv initial { s.logTimeout with
      child := none, past := s.past ++ [(put, st)], control := .write st.response } := by
  intro hcontrol
  constructor
  · intro hput
    exact hput.elim
  · intro _
    rfl
  · intro k hk
    -- the timer stays armed, and its call is now among the past ones
    rcases hinv.timer k hk with ⟨_, heq⟩ | ⟨hnot, _⟩
    · refine Or.inr ⟨id, ?_⟩
      simp [heq]
    · exact absurd (hcontrol ▸ trivial) hnot
  · intro _
    have hold := hinv.handler (hcontrol ▸ trivial)
    simpa [hcontrol, logTimeout] using hold

theorem Inv.putTimeoutHandler (hinv : s.Inv initial) (armedBy : Nat) (errno : Int) :
    (s.putTimeoutHandler armedBy errno).Inv initial := by
  constructor
  · intro hput
    rcases hinv.child hput with ⟨c, hchild, hpid⟩
    have htarget : s.target = some c := target_eq_some.2 ⟨hchild, hpid⟩
    -- a killed PUT is still unreaped
    exact ⟨{ c with killed := c.killed || c.ended.isNone },
      by simp [System.putTimeoutHandler, htarget], hpid⟩
  · intro hidle
    have hchild : s.child = none := hinv.noChild hidle
    simp [System.putTimeoutHandler, target, hchild]
  · intro k hk
    -- `alarm(0)` has disarmed it
    cases hk
  · intro hserving
    exact hinv.handler hserving

theorem Inv.step {e : Event} (hinv : s.Inv initial) : s.step e = some s' → s'.Inv initial := by
  intro hstep
  cases step_cases hstep with
  | handshakeFails hcontrol _ =>
      refine ⟨fun hput => hput.elim, fun h => h.1.elim, fun k hk => ?_, fun h => h.elim⟩
      rcases hinv.timer k hk with ⟨htimed, _⟩ | ⟨_, hlt⟩
      · rw [hcontrol] at htimed
        exact htimed.elim
      · exact Or.inr ⟨fun h => h, hlt⟩
  | attached _ hcontrol =>
      exact hinv.idle ⟨rfl, rfl, rfl, rfl, rfl, rfl⟩ (hcontrol ▸ ⟨trivial, id⟩) ⟨trivial, id⟩
  | told hcontrol =>
      exact hinv.idle ⟨rfl, rfl, rfl, rfl, rfl, rfl⟩ (hcontrol ▸ ⟨trivial, id⟩) ⟨trivial, id⟩
  | moreCommand hcontrol =>
      exact hinv.idle ⟨rfl, rfl, rfl, rfl, rfl, rfl⟩ (hcontrol ▸ ⟨trivial, id⟩) ⟨trivial, id⟩
  | command hcontrol =>
      exact hinv.idle (switch_same _).1 (hcontrol ▸ ⟨trivial, id⟩) (switch_same _).2
  | moreU64 hcontrol =>
      exact hinv.idle ⟨rfl, rfl, rfl, rfl, rfl, rfl⟩ (hcontrol ▸ ⟨trivial, id⟩) ⟨trivial, id⟩
  | u64 hcontrol _ hlen =>
      exact hinv.idle (recvU64_same hlen).1 (hcontrol ▸ ⟨trivial, id⟩) (recvU64_same hlen).2
  | write hcontrol =>
      exact hinv.idle ⟨rfl, rfl, rfl, rfl, rfl, rfl⟩ (hcontrol ▸ ⟨trivial, id⟩) ⟨trivial, id⟩
  | readAgain _ => exact hinv
  | waitAgain _ _ => exact ⟨hinv.child, hinv.noChild, hinv.timer, hinv.handler⟩
  | fork hcontrol _ => exact hinv.forked _ _ hcontrol
  | setitimer hcontrol => exact hinv.setitimer hcontrol
  | sigaction hcontrol => exact hinv.sigaction hcontrol
  | reaped hcontrol _ _ => exact hinv.reaped _ _ hcontrol
  | putEnds hchild _ _ =>
      refine ⟨fun hput => ?_, fun hidle => ?_, hinv.timer, hinv.handler⟩
      · rcases hinv.child hput with ⟨c', hchild', hpid⟩
        obtain rfl : _ = c' := Option.some.inj (hchild.symm.trans hchild')
        exact ⟨_, rfl, hpid⟩
      · have hnone := hinv.noChild hidle
        rw [hchild] at hnone
        cases hnone
  | expiresIgnored _ _ =>
      exact ⟨hinv.child, hinv.noChild, fun k hk => (by cases hk), hinv.handler⟩
  | expires _ _ => exact hinv.putTimeoutHandler _ _
  | moves => exact ⟨hinv.child, hinv.noChild, hinv.timer, hinv.handler⟩
  | exit _ => exact inv_final id
  | eof _ => exact inv_final id
  | expiresByDefault _ _ => exact inv_final id
  | terminated _ => exact inv_final id

theorem inv_run {pid : Int} {fds : FdTable} {ignored : Bool} {es : List Event} :
    run System.step (start pid fds ignored) es = some s →
      s.Inv (start pid fds ignored).sigalrm := by
  intro hrun
  exact invariant_run (fun _ _ _ h hstep => h.step hstep) (start_inv pid fds ignored) hrun

end System

/-! ## The kills of the handler -/

/-- The target is the unreaped PUT of the `ExecutePUT` that armed the timer. -/
def Kill.Own (k : Kill) : Prop :=
  k.target = some k.armedBy

/-- The event is an expiry that runs `PUTTimeoutHandler` in the server. -/
def RunsHandler (s : System) (e : Event) : Prop :=
  ∃ errno, e = .expires errno ∧ s.itimer.isSome ∧ s.sigalrm = .putTimeoutHandler

namespace System

variable {s s' : System} {initial : Disposition}

theorem own_iff (hinv : s.Inv initial) {armedBy : Nat} :
    s.itimer = some armedBy →
      (Kill.Own ⟨armedBy, s.target.map fun _ => s.past.length⟩ ↔ s.control.Timed) := by
  intro htimer
  rcases hinv.timer armedBy htimer with ⟨htimed, heq⟩ | ⟨hnot, hlt⟩
  · -- armed for the PUT of this call, which is the target
    have hput : s.control.HasPut := by
      revert htimed
      cases s.control <;> simp [Control.Timed, Control.HasPut]
    rcases hinv.child hput with ⟨c, hc⟩
    simp [Kill.Own, target_eq_some.2 hc, heq, htimed]
  · -- armed for a PUT that is reaped, so it is not the target
    refine iff_of_false ?_ hnot
    intro hown
    rcases Option.map_eq_some_iff.1 hown with ⟨c, _, heq⟩
    have : s.past.length = armedBy := heq
    omega

theorem not_runsHandler {e : Event} : (∀ errno, e ≠ .expires errno) → ¬ RunsHandler s e := by
  intro hne hruns
  rcases hruns with ⟨errno, he, _⟩
  exact hne errno he

/-- A step adds a kill exactly if it runs the handler, and it is right exactly between the
`setitimer` of the call and the `waitpid` that reaps its PUT. -/
theorem kills_step {e : Event} (hinv : s.Inv initial) :
    s.step e = some s' →
      (s'.kills = s.kills ∧ ¬ RunsHandler s e) ∨
        (RunsHandler s e ∧ ∃ k : Kill, s'.kills = s.kills ++ [k] ∧ (k.Own ↔ s.control.Timed)) := by
  intro hstep
  cases step_cases hstep with
  | expires htimer halrm =>
      exact Or.inr ⟨⟨_, rfl, by simp [htimer], halrm⟩, _, rfl, own_iff hinv htimer⟩
  | expiresByDefault _ halrm =>
      -- without the handler the signal kills the server, not a PUT
      refine Or.inl ⟨rfl, fun hruns => ?_⟩
      rcases hruns with ⟨_, _, _, halrm'⟩
      simp [halrm] at halrm'
  | expiresIgnored _ halrm =>
      refine Or.inl ⟨rfl, fun hruns => ?_⟩
      rcases hruns with ⟨_, _, _, halrm'⟩
      simp [halrm] at halrm'
  | command _ _ _ => exact Or.inl ⟨(switch_same _).1.kills, not_runsHandler (by simp)⟩
  | u64 _ _ hlen => exact Or.inl ⟨(recvU64_same hlen).1.kills, not_runsHandler (by simp)⟩
  | handshakeFails _ he =>
      rcases he with ⟨_, rfl⟩ | rfl | rfl <;> exact Or.inl ⟨rfl, not_runsHandler (by simp)⟩
  | waitAgain _ he =>
      rcases he with rfl | ⟨_, rfl⟩ <;> exact Or.inl ⟨rfl, not_runsHandler (by simp)⟩
  | _ => exact Or.inl ⟨rfl, not_runsHandler (by simp)⟩

/-- **When the handler kills the right PUT.** All kills of a run hit the unreaped PUT whose call
armed the timer exactly if no expiry runs the handler outside the part of `ExecutePUT` between
`setitimer` and the `waitpid` that reaps the PUT. -/
theorem kills_own_iff {pid : Int} {fds : FdTable} {ignored : Bool} {es : List Event}
    (hrun : run System.step (start pid fds ignored) es = some s) :
    (∀ k ∈ s.kills, k.Own) ↔
      AllSteps System.step (fun t e => RunsHandler t e → t.control.Timed)
        (start pid fds ignored) es := by
  -- both sides are split at the last event of the run
  refine history_run
    (P := fun es s => (∀ k ∈ s.kills, k.Own) ↔
      AllSteps System.step (fun t e => RunsHandler t e → t.control.Timed)
        (start pid fds ignored) es) ?_ ?_ hrun
  · simp [start, AllSteps]
  · intro es t e t' hes ih he
    have hlast : (∀ t', run System.step (start pid fds ignored) es = some t' →
        RunsHandler t' e → t'.control.Timed) ↔ (RunsHandler t e → t.control.Timed) := by
      simp [hes]
    rw [allSteps_snoc, ← ih, hlast]
    rcases kills_step (inv_run hes) he with ⟨hkills, hnot⟩ | ⟨hruns, k, hkills, hown⟩
    · simp [hkills, hnot]
    · simp [hkills, hruns, hown, or_imp, forall_and]

end System

/-! ### A second PUT behind a first one -/

/-- The descriptors of a fork server under a client. -/
def clientFds : FdTable :=
  [(0, .inherited 0), (1, .inherited 1), (2, .inherited 2), (FORKSRV_FD_READ, .inherited 3),
    (FORKSRV_FD_WRITE, .inherited 4)]

/-- The handshake with executor 1. -/
def handshake : List Event :=
  [.read (bytesOf 8 1), .succeeds]

/-- The request and the fork of a PUT. -/
def forkPut (pid : Int) : List Event :=
  [.read Call.executePUT.send, .fork pid []]

/-- The rest of an execution in which the PUT ends by itself. -/
def finishPut : List Event :=
  [.succeeds, .succeeds, .putEnds (.exited 0) false, .reaped, .succeeds]

/-- A PUT that overruns its time is killed as such, while the server waits for it. -/
theorem slowPut_killed :
    ∃ s, run System.step (.start 50 clientFds false)
        (handshake ++ forkPut 100 ++ [.succeeds, .succeeds, .expires 0]) = some s ∧
      s.kills = [⟨0, some 0⟩] ∧
      AllSteps System.step (fun t e => RunsHandler t e → t.control.Timed)
        (.start 50 clientFds false)
        (handshake ++ forkPut 100 ++ [.succeeds, .succeeds, .expires 0]) := by
  obtain ⟨s, hrun, hkills⟩ : ∃ s, run System.step (.start 50 clientFds false)
      (handshake ++ forkPut 100 ++ [.succeeds, .succeeds, .expires 0]) = some s ∧
      s.kills = [⟨0, some 0⟩] := ⟨_, rfl, rfl⟩
  refine ⟨s, hrun, hkills, (System.kills_own_iff hrun).1 ?_⟩
  simp [hkills, Kill.Own]

/-- The timer of a PUT that ended in time kills the next one, whose own timer is not yet set. -/
theorem nextPut_killed :
    ∃ s, run System.step (.start 50 clientFds false)
        (handshake ++ forkPut 100 ++ finishPut ++ forkPut 101 ++ [.expires 0]) = some s ∧
      s.kills = [⟨0, some 1⟩] ∧ ¬ ∀ k ∈ s.kills, k.Own := by
  obtain ⟨s, hrun, hkills⟩ : ∃ s, run System.step (.start 50 clientFds false)
      (handshake ++ forkPut 100 ++ finishPut ++ forkPut 101 ++ [.expires 0]) = some s ∧
      s.kills = [⟨0, some 1⟩] := ⟨_, rfl, rfl⟩
  refine ⟨s, hrun, hkills, ?_⟩
  simp [hkills, Kill.Own]

end ForkServer
end FuzzufCc
