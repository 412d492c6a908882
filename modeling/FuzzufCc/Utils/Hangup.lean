import FuzzufCc.Utils.Calls

/-!
# Hangup — the loop of an executor whose server dies

A descriptor that nobody can write any more is detached from `epoll_fd`, and only the response sets
`wait_for` to zero.  So the loop goes on as long as no call is without its response when the server
dies.  A call that is left without one waits forever.
-/

namespace FuzzufCc
namespace Utils

open Transition ForkServer

namespace World

/-! ## The loop goes on -/

/-- The descriptor is attached, and there is something to report about it or somebody who can write
to it and hang up. -/
def CanReport (w : World) (fd : Source) : Prop :=
  fd ∈ w.executor.attached ∧ (w.reportable fd ∨ w.endsHeld)

/-- The loop of `operator()` does not wait forever. -/
structure Unstuck (w : World) : Prop where
  registered : w.executor.control.looping →
    w.executor.waitFor = 0 ∨ ∃ fd, w.CanReport fd
  -- so the call is brought forward, and returns after a bounded number of such events
  progress : w.executor.control.looping → ∃ e : WorldEvent, e.productive ∧ (w.step e).isSome
  bounded : ∀ es w', run step w es = some w' → (∀ e ∈ es, e.isInput = false) →
    es.countP WorldEvent.productive + w'.work ≤ w.work

/-- Every `ExecutePUT` that was sent has its response written. -/
def Answered (w : World) : Prop :=
  w.session.system.responses.length = w.session.sent.count .executePUT

/-- The server does not die in this step with an `ExecutePUT` unanswered. -/
def AnswersFirst (w : World) (e : WorldEvent) : Prop :=
  ∀ w', w.step e = some w' → w.serverLives → w'.serverLives ∨ w.Answered

variable {w w' : World} {disposition : Disposition}

/-! ## A server that does not live -/

theorem serverLives_eq_false : w.serverLives = false ↔
    w.session.system.control = .exited ∨ w.session.system.control = .killed := by
  cases hcontrol : w.session.system.control <;> simp [serverLives, hcontrol]

theorem not_serving_of_dead (hdead : w.serverLives = false) :
    ¬ w.session.system.control.Serving := by
  rcases serverLives_eq_false.1 hdead with h | h <;> simp [h, Control.Serving]

theorem not_executing_of_dead (hdead : w.serverLives = false) :
    ¬ w.session.system.control.Executing := by
  rcases serverLives_eq_false.1 hdead with h | h <;> simp [h, Control.Executing]

/-- It does not come back. -/
theorem dead_step {e : WorldEvent} (hdead : w.serverLives = false) :
    w.step e = some w' → w'.serverLives = false := by
  intro hstep
  cases step_cases hstep with
  | callForkServerAPI _ _ hsession =>
      obtain ⟨-, rfl⟩ := Session.send_eq_some.1 hsession
      exact hdead
  | server hsession =>
      rcases Session.server_eq_some.1 hsession with ⟨s, _, hs, _, _, rfl⟩
      rcases System.control_step (System.step_cases hs) with hserving | hsame | hkilled
      · exact absurd hserving (not_serving_of_dead hdead)
      · exact serverLives_eq_false.2 (hsame ▸ serverLives_eq_false.1 hdead)
      · exact serverLives_eq_false.2 (Or.inr hkilled)
  | _ => exact hdead

theorem answersFirst_of_dead {e : WorldEvent} (hdead : w.serverLives = false) :
    AnswersFirst w e := by
  intro _ _ hlives
  simp [hdead] at hlives

theorem answersFirst_of_lives {e : WorldEvent} (hstep : w.step e = some w')
    (hlives : w'.serverLives) : AnswersFirst w e := by
  intro w₁ hstep₁ _
  obtain rfl : w' = w₁ := Option.some.inj (hstep.symm.trans hstep₁)
  exact Or.inl hlives

theorem allSteps_of_dead (hdead : w.serverLives = false) (es : List WorldEvent) :
    AllSteps step AnswersFirst w es := by
  induction es generalizing w with
  | nil => trivial
  | cons e es ih => exact ⟨answersFirst_of_dead hdead, fun _ hstep => ih (dead_step hdead hstep)⟩

/-- It writes nothing. -/
theorem dead_replies {e : Event} {session : Session} (hdead : w.serverLives = false) :
    w.session.step (.server e) = some session → replies w.session.system e = [] := by
  intro hsession
  rcases Session.server_eq_some.1 hsession with ⟨s, _, hs, _, _, _⟩
  exact (no_effects (System.step_cases hs) (not_executing_of_dead hdead)).1

theorem replies_of_dies {s s' : System} {e : Event} :
    s.step e = some s' → s'.control = .exited ∨ s'.control = .killed → replies s e = [] := by
  intro hs hdead
  cases e with
  | succeeds =>
      cases hcontrol : s.control with
      | write r =>
          -- behind its response the server waits for the next call
          simp only [System.step, System.callSucceeds, hcontrol] at hs
          cases hs
          simp at hdead
      | _ => simp [replies, hcontrol]
  | _ => rfl

/-- The death of the server changes nothing of what was sent and answered. -/
theorem answered_of_dies {e : WorldEvent} (hstep : w.step e = some w') (hlives : w.serverLives)
    (hdead : w'.serverLives = false) : w'.Answered ↔ w.Answered := by
  cases step_cases hstep with
  | server hsession =>
      rcases Session.server_eq_some.1 hsession with ⟨s, _, hs, _, _, rfl⟩
      have hresponses := System.responses_step (System.step_cases hs)
      rw [replies_of_dies hs (serverLives_eq_false.1 hdead), List.append_nil] at hresponses
      simp only [Answered, hresponses]
  | callForkServerAPI _ _ hsession =>
      -- a `write` of the executor kills nobody
      obtain ⟨-, rfl⟩ := Session.send_eq_some.1 hsession
      have hsame : w.serverLives = false := hdead
      simp [hsame] at hlives
  | _ => exact Iff.rfl

/-! ## The server dies behind the response -/

/-- A server that is dead after a step has not forked a child in it. -/
theorem childless_of_dead {e : WorldEvent} (hdead : w'.serverLives = false)
    (hnone : w.session.system.child = none) (hstep : w.step e = some w') :
    w'.session.system.child = none := by
  cases step_cases hstep with
  | callForkServerAPI _ _ hsession =>
      obtain ⟨-, rfl⟩ := Session.send_eq_some.1 hsession
      exact hnone
  | server hsession =>
      rcases Session.server_eq_some.1 hsession with ⟨s, _, hs, _, _, rfl⟩
      refine (System.childless_step (System.step_cases hs) hnone).resolve_right fun hforked => ?_
      rcases serverLives_eq_false.1 hdead with h | h <;> cases hforked.symm.trans h
  | _ => exact hnone

theorem endsHeld_eq_false (hdead : w.serverLives = false)
    (hnone : w.session.system.child = none) : w.endsHeld = false := by
  simp [endsHeld, hdead, hnone]

/-- The server is dead, its PUTs are reaped, and the response of the call, if there is a call, is in
the pipe or read. -/
structure Finishing (w : World) : Prop where
  dead : w.serverLives = false
  childless : w.session.system.child = none
  reply : w.executor.control.looping →
    (w.executor.waitFor = -1 ∧ .fromForkServer ∈ w.executor.attached ∧
      ∃ r : ExecutePUTAPIResponse, w.fromForkServer = r.bytes) ∨
    (w.executor.waitFor = 0 ∧ w.fromForkServer = [])

theorem bytes_ne_nil (r : ExecutePUTAPIResponse) : r.bytes ≠ [] := by
  intro hnil
  have hlen := r.length_bytes
  simp [hnil, ExecutePUTAPIResponse.size] at hlen

theorem Finishing.step (hfinishing : Finishing w) {e : WorldEvent} (hstep : w.step e = some w') :
    Finishing w' := by
  have hdead := dead_step hfinishing.dead hstep
  refine ⟨hdead, childless_of_dead hdead hfinishing.childless hstep, ?_⟩
  have hold := hfinishing.reply
  cases step_cases hstep with
  | call _ => exact fun h => (by cases h)
  | callForkServerAPI _ hheld _ =>
      simp [endsHeld_eq_false hfinishing.dead hfinishing.childless] at hheld
  | epollInterrupted _ => exact hold
  | epollTimeout _ _ _ => exact fun h => (by cases h)
  | epollin hcontrol _ _ => exact fun _ => hold (by rw [hcontrol]; rfl)
  | @epollhup fd hcontrol _ hpipe _ =>
      intro hloop
      rcases hold hloop with ⟨hwait, hmem, r, hbytes⟩ | hreceived
      · -- what is not read yet keeps its descriptor
        have hne : Source.fromForkServer ≠ fd := by
          rintro rfl
          exact bytes_ne_nil r (hbytes.symm.trans hpipe)
        exact Or.inl ⟨hwait, (List.mem_erase_of_ne hne).2 hmem, r, hbytes⟩
      · exact Or.inr hreceived
  | readTarget hcontrol _ _ => exact fun _ => hold (by rw [hcontrol]; rfl)
  | readResponse hcontrol _ _ =>
      intro _
      refine Or.inr ⟨rfl, ?_⟩
      rcases hold (by rw [hcontrol]; rfl) with ⟨_, _, r, hbytes⟩ | ⟨_, hnil⟩
      · simp only [World.readResponse, hbytes]
        exact List.drop_of_length_le r.length_bytes.le
      · simp [World.readResponse, hnil]
  | server hsession =>
      rw [dead_replies hfinishing.dead hsession, List.flatMap_nil, List.append_nil]
      exact hold
  | putWrites _ => exact hold

theorem Finishing.progress (hfinishing : Finishing w) (hreading : Reading w) :
    w.executor.control.looping → ∃ e : WorldEvent, e.productive ∧ (w.step e).isSome := by
  intro hloop
  have hreply := hfinishing.reply hloop
  cases hcontrol : w.executor.control with
  | idle => simp [hcontrol, Executor.Control.looping] at hloop
  | callForkServerAPI => simp [hcontrol, Executor.Control.looping] at hloop
  | read fd =>
      refine read_progress hreading hcontrol fun hpipe => ?_
      rcases hreply with ⟨_, _, r, hbytes⟩ | ⟨_, hnil⟩
      · rw [hbytes, r.length_bytes]
      · exact absurd hnil hpipe
  | epollWait =>
      by_cases hready : ∃ fd, w.reportable fd
      · rcases hready with ⟨fd, hfd⟩
        exact ⟨.epoll fd, rfl, by simp [World.step, hcontrol, hfd]⟩
      · simp only [not_exists, Bool.not_eq_true] at hready
        rcases hreply with ⟨_, hmem, r, hbytes⟩ | ⟨hwait, _⟩
        · -- the response can be read
          have hin := hready .fromForkServer
          simp [reportable, hmem, World.epollin, pipe, hbytes, bytes_ne_nil] at hin
        · exact ⟨.epollTimeout, rfl, by simp [World.step, hcontrol, hwait, hready]⟩

theorem Finishing.unstuck (hfinishing : Finishing w) (hreading : Reading w) : Unstuck w where
  registered := by
    intro hloop
    rcases hfinishing.reply hloop with ⟨_, hmem, r, hbytes⟩ | ⟨hwait, _⟩
    · refine Or.inr ⟨.fromForkServer, hmem, Or.inl ?_⟩
      simp [reportable, hmem, World.epollin, pipe, hbytes, bytes_ne_nil]
    · exact Or.inl hwait
  progress := hfinishing.progress hreading
  bounded := fun _ _ => work_run hreading

/-! ## The server lives -/

theorem Live.unstuck (hlive : Live w) (hlives : w.serverLives) (hreading : Reading w)
    (hcounts : Session.Counts w.session) {initial : RuntimeSettings}
    (hconforms : Session.Conforms initial w.session) : Unstuck w where
  registered _ :=
    Or.inr ⟨.fromForkServer, hlive.attached _, Or.inr (endsHeld_of_lives hlives)⟩
  progress hloop := by
    rcases hlive.progress hreading hcounts hconforms with hidle | hnext
    · simp [hidle, Executor.Control.looping] at hloop
    · exact hnext
  bounded := fun _ _ => work_run hreading

/-! ## The server dies without a response -/

/-- The server is dead and the loop waits for its response. -/
structure Abandoned (w : World) : Prop where
  dead : w.serverLives = false
  waits : w.executor.waitFor = -1
  control : w.executor.control = .epollWait ∨
    ∃ stream, w.executor.control = .read (.target stream)
  silent : w.fromForkServer = []

theorem Abandoned.looping (habandoned : Abandoned w) : w.executor.control.looping := by
  rcases habandoned.control with hcontrol | ⟨stream, hcontrol⟩ <;> rw [hcontrol] <;> rfl

/-- It waits on, and the call does not return. -/
theorem Abandoned.step (habandoned : Abandoned w) {e : WorldEvent} (hstep : w.step e = some w') :
    Abandoned w' ∧ w'.results = w.results := by
  have hdead := dead_step habandoned.dead hstep
  have hloop := habandoned.looping
  cases step_cases hstep with
  | call hcontrol => simp [hcontrol, Executor.Control.looping] at hloop
  | callForkServerAPI hcontrol _ _ => simp [hcontrol, Executor.Control.looping] at hloop
  | epollInterrupted _ => exact ⟨habandoned, rfl⟩
  | epollTimeout _ hwait _ => simp [habandoned.waits] at hwait
  | @epollin fd _ _ hpipe =>
      cases fd with
      | fromForkServer => exact absurd habandoned.silent hpipe
      | target stream =>
          exact ⟨⟨hdead, habandoned.waits, Or.inr ⟨stream, rfl⟩, habandoned.silent⟩, rfl⟩
  | epollhup hcontrol _ _ _ =>
      exact ⟨⟨hdead, habandoned.waits, Or.inl hcontrol, habandoned.silent⟩, rfl⟩
  | readTarget _ _ _ => exact ⟨⟨hdead, habandoned.waits, Or.inl rfl, habandoned.silent⟩, rfl⟩
  | readResponse hcontrol _ _ =>
      rcases habandoned.control with h | ⟨stream, h⟩ <;> simp [hcontrol] at h
  | server hsession =>
      refine ⟨⟨hdead, habandoned.waits, habandoned.control, ?_⟩, rfl⟩
      rw [dead_replies habandoned.dead hsession, List.flatMap_nil, List.append_nil]
      exact habandoned.silent
  | putWrites _ =>
      exact ⟨⟨hdead, habandoned.waits, habandoned.control, habandoned.silent⟩, rfl⟩

theorem Abandoned.run (habandoned : Abandoned w) {es : List WorldEvent} :
    run World.step w es = some w' → Abandoned w' ∧ w'.results = w.results := by
  refine invariant_run (I := fun w' => Abandoned w' ∧ w'.results = w.results) ?_
    ⟨habandoned, rfl⟩
  intro w₁ e w₂ h hstep
  have hnext := h.1.step hstep
  exact ⟨hnext.1, hnext.2.trans h.2⟩

theorem child_of_endsHeld (hdead : w.serverLives = false) (hheld : w.endsHeld) :
    ∃ c, w.session.system.child = some c ∧ c.ended = none := by
  simpa [endsHeld, hdead, Option.any_eq_true] using hheld

/-- A PUT can be killed at any time. -/
theorem putEnds_isSome {c : Child} (hchild : w.session.system.child = some c)
    (hended : c.ended = none) :
    (w.step (.server (.putEnds (.signaled SIGKILL) false))).isSome := by
  apply server_isSome
  simp [Session.step, System.step, hchild, hended, Child.canEnd]

/-- Until nothing is attached, the descriptors can be drained and detached. -/
theorem Abandoned.next (habandoned : Abandoned w) (hreading : Reading w) :
    (w.executor.control = .epollWait ∧ w.executor.attached = []) ∨
      ∃ e : WorldEvent, e.productive ∧ (w.step e).isSome := by
  rcases habandoned.control with hcontrol | ⟨stream, hcontrol⟩
  · cases hattached : w.executor.attached with
    | nil => exact Or.inl ⟨hcontrol, rfl⟩
    | cons fd fds =>
        have hmem : fd ∈ w.executor.attached := by rw [hattached]; exact List.mem_cons_self
        right
        cases hready : w.reportable fd with
        | true => exact ⟨.epoll fd, rfl, by simp [World.step, hcontrol, hready]⟩
        | false =>
            -- a PUT holds the other end
            have hheld : w.endsHeld := by
              simp [reportable, hmem] at hready
              exact hready.2
            rcases child_of_endsHeld habandoned.dead hheld with ⟨c, hchild, hended⟩
            exact ⟨_, rfl, putEnds_isSome hchild hended⟩
  · refine Or.inr (read_progress hreading hcontrol fun hpipe => ?_)
    exact absurd habandoned.silent hpipe

theorem Abandoned.not_unstuck (habandoned : Abandoned w) (hattached : w.executor.attached = []) :
    ¬ Unstuck w := by
  intro hunstuck
  rcases hunstuck.registered habandoned.looping with hwait | ⟨fd, hmem, _⟩
  · simp [habandoned.waits] at hwait
  · simp [hattached] at hmem

/-- In the end nothing is attached. -/
theorem Abandoned.stuck (habandoned : Abandoned w) (hreading : Reading w) :
    ∃ es w', Transition.run World.step w es = some w' ∧ ¬ Unstuck w' := by
  -- by induction on the work that is left
  induction hwork : w.work using Nat.strong_induction_on generalizing w with
  | _ n ih =>
      subst hwork
      rcases habandoned.next hreading with ⟨_, hattached⟩ | ⟨e, hproductive, hnext⟩
      · exact ⟨[], w, rfl, habandoned.not_unstuck hattached⟩
      · rcases Option.isSome_iff_exists.1 hnext with ⟨w₁, hstep⟩
        have hinput : e.isInput = false := by
          cases e <;> first | rfl | cases hproductive
        have hless := work_step hreading hinput hstep
        rw [if_pos hproductive] at hless
        rcases ih w₁.work hless (habandoned.step hstep).1 (hreading.step hstep) rfl with
          ⟨es, w', hrun, hnot⟩
        exact ⟨e :: es, w', run_cons_eq_some.2 ⟨w₁, hstep, hrun⟩, hnot⟩

/-! ## Runs -/

/-- With all calls answered there is no PUT any more. -/
theorem Live.childless (hlive : Live w) (hcounts : Session.Counts w.session)
    (hsystem : w.session.system.Inv disposition) (hanswered : w.Answered) :
    w.session.system.child = none := by
  have hnot := (hcounts.settled hlive.opened hanswered).1
  exact hsystem.noChild ⟨hcounts.serving hlive.opened, fun hput => hnot hput.executing⟩

/-- Behind its last step a server is dead either with all calls answered or with one unanswered. -/
theorem Live.dead (hlive : Live w) (hreading : Reading w) (hdead : w.serverLives = false)
    (hchildless : w.Answered → w.session.system.child = none) :
    (w.Answered ∧ Finishing w) ∨ (¬ w.Answered ∧ Abandoned w) := by
  have hcalls := hlive.calls
  cases hloop : w.executor.control.looping with
  | false =>
      rw [hloop] at hcalls
      have hanswered : w.Answered := (hlive.quiet hloop).1.trans hcalls.symm
      refine Or.inl ⟨hanswered, hdead, hchildless hanswered, fun h => ?_⟩
      simp [hloop] at h
  | true =>
      rw [hloop, if_pos rfl] at hcalls
      cases hlive.reply hloop with
      | awaited hwait hnil hlen =>
          refine Or.inr ⟨fun hanswered => ?_, hdead, hwait, ?_, hnil⟩
          · simp only [Answered] at hanswered
            omega
          · -- where nothing is in the pipe, it is not read
            cases hcontrol : w.executor.control with
            | idle => simp [hcontrol, Executor.Control.looping] at hloop
            | callForkServerAPI => simp [hcontrol, Executor.Control.looping] at hloop
            | epollWait => exact Or.inl rfl
            | read fd =>
                cases fd with
                | target stream => exact Or.inr ⟨stream, rfl⟩
                | fromForkServer => exact absurd hnil (hreading _ hcontrol)
      | written r hwait hbytes _ hlen =>
          have hanswered : w.Answered := hlen.trans hcalls.symm
          exact Or.inl ⟨hanswered, hdead, hchildless hanswered,
            fun _ => Or.inl ⟨hwait, hlive.attached _, r, hbytes⟩⟩
      | received hwait hnil _ hlen =>
          have hanswered : w.Answered := hlen.trans hcalls.symm
          exact Or.inl ⟨hanswered, hdead, hchildless hanswered, fun _ => Or.inr ⟨hwait, hnil⟩⟩

/-- A server that lives on has served a part of its calls as before. -/
theorem at_step {initial : RuntimeSettings} {done todo : List Call} {sts : List FinalStatus}
    (hat : Session.At initial w.session done todo sts) {e : WorldEvent} :
    w.step e = some w' → w'.serverLives →
      ∃ done todo sts, Session.At initial w'.session done todo sts := by
  intro hstep hlives
  cases step_cases hstep with
  | callForkServerAPI _ _ hsession =>
      obtain ⟨hopen, rfl⟩ := Session.send_eq_some.1 hsession
      exact ⟨done, _, sts, hat.send .executePUT hopen⟩
  | @server e _ hsession =>
      by_cases hfails : e = .fails
      · -- a failure ends the server, which is behind its handshake
        subst hfails
        rcases Session.server_eq_some.1 hsession with ⟨s, _, hs, _, _, rfl⟩
        cases System.step_cases hs with
        | handshakeFails hcontrol _ =>
            have hinput := hat.input
            rw [hcontrol] at hinput
            exact hinput.elim
        | waitAgain _ he => simp at he
        | exit _ => simp [serverLives, System.exit] at hlives
      · have hne : SessionEvent.server e ≠ .server .fails := by simp [hfails]
        rcases Session.Inv.step (Or.inr ⟨done, todo, sts, hat⟩) hne hsession with hkilled | hat'
        · simp [serverLives, hkilled] at hlives
        · exact hat'
  | _ => exact ⟨done, todo, sts, hat⟩

/-- How a run has left the server, and whether it has answered before it died. -/
inductive Standing (initial : RuntimeSettings) (w : World) (kept : Prop) : Prop
  | living {done todo : List Call} {sts : List FinalStatus} :
      Session.At initial w.session done todo sts → Live w → kept → Standing initial w kept
  | finishing : Finishing w → kept → Standing initial w kept
  | abandoned : Abandoned w → ¬ kept → Standing initial w kept

variable {pid : Int} {fds : FdTable} {ignored : Bool} {executorId : BitVec 64}
  {es : List WorldEvent}

theorem start_at : Session.At { executorId := executorId }
    (start pid fds ignored executorId).session [] [.readStdin] [] :=
  (Session.start_at pid fds ignored executorId).send .readStdin rfl

theorem standing_run :
    run step (start pid fds ignored executorId) es = some w →
      Standing { executorId := executorId } w
        (AllSteps step AnswersFirst (start pid fds ignored executorId) es) := by
  refine history_run (P := fun es w => Standing { executorId := executorId } w
    (AllSteps step AnswersFirst (start pid fds ignored executorId) es))
    (.living start_at start_live trivial) ?_
  intro es w₁ e w₂ hes hstanding hstep
  have hsnoc : AllSteps step AnswersFirst (start pid fds ignored executorId) (es ++ [e]) ↔
      AllSteps step AnswersFirst (start pid fds ignored executorId) es ∧ AnswersFirst w₁ e := by
    rw [allSteps_snoc]
    simp [hes]
  cases hstanding with
  | living hat hlive hkept =>
      have hsystem := Session.system_inv_run (session_run hes)
      have hcounts := hat.counts hsystem
      have hlives := serverLives_of_serving (hcounts.serving hlive.opened)
      have hlive' := hlive.step hcounts hsystem hstep
      cases hlives' : w₂.serverLives with
      | true =>
          rcases at_step hat hstep hlives' with ⟨done, todo, sts, hat'⟩
          exact .living hat' hlive' (hsnoc.2 ⟨hkept, answersFirst_of_lives hstep hlives'⟩)
      | false =>
          have hsame := answered_of_dies hstep hlives hlives'
          have hchildless : w₂.Answered → w₂.session.system.child = none := fun hanswered =>
            childless_of_dead hlives' (hlive.childless hcounts hsystem (hsame.1 hanswered)) hstep
          rcases hlive'.dead ((reading_run hes).step hstep) hlives' hchildless with
            ⟨hanswered, hfinishing⟩ | ⟨hnot, habandoned⟩
          · exact .finishing hfinishing
              (hsnoc.2 ⟨hkept, fun _ _ _ => Or.inr (hsame.1 hanswered)⟩)
          · refine .abandoned habandoned fun hall => ?_
            rcases (hsnoc.1 hall).2 w₂ hstep hlives with hlives'' | hanswered
            · simp [hlives'] at hlives''
            · exact hnot (hsame.2 hanswered)
  | finishing hfinishing hkept =>
      exact .finishing (hfinishing.step hstep)
        (hsnoc.2 ⟨hkept, answersFirst_of_dead hfinishing.dead⟩)
  | abandoned habandoned hnot =>
      exact .abandoned (habandoned.step hstep).1 fun hall => hnot (hsnoc.1 hall).1

theorem unstuck_run (hrun : run step (start pid fds ignored executorId) es = some w)
    (hkept : AllSteps step AnswersFirst (start pid fds ignored executorId) es) : Unstuck w := by
  have hreading := reading_run hrun
  cases standing_run hrun with
  | living hat hlive _ =>
      have hsystem := Session.system_inv_run (session_run hrun)
      have hcounts := hat.counts hsystem
      have hlives := serverLives_of_serving (hcounts.serving hlive.opened)
      exact hlive.unstuck hlives hreading hcounts (hat.conforms hsystem)
  | finishing hfinishing _ => exact hfinishing.unstuck hreading
  | abandoned _ hnot => exact absurd hkept hnot

/-- **The loop never gets stuck if no call is abandoned.** As long as the server does not die with
an `ExecutePUT` unanswered, every state of the loop has a descriptor that can still report something
or a timeout of zero, and the call returns.  After a run in which it did, this fails in a state to
which the kernel and the executor alone can lead. -/
theorem unstuck_iff (hrun : run step (start pid fds ignored executorId) es = some w) :
    AllSteps step AnswersFirst (start pid fds ignored executorId) es ↔
      ∀ es' w', AllSteps step AnswersFirst w es' → run step w es' = some w' → Unstuck w' := by
  constructor
  · intro hkept es' w' hkept' hrun'
    refine unstuck_run (run_append_eq_some.2 ⟨w, hrun, hrun'⟩) (allSteps_append.2 ⟨hkept, ?_⟩)
    intro t ht
    obtain rfl : w = t := Option.some.inj (hrun.symm.trans ht)
    exact hkept'
  · intro hunstuck
    cases standing_run hrun with
    | living _ _ hkept => exact hkept
    | finishing _ hkept => exact hkept
    | abandoned habandoned _ =>
        rcases habandoned.stuck (reading_run hrun) with ⟨es', w', hrun', hnot⟩
        exact absurd (hunstuck es' w' (allSteps_of_dead habandoned.dead es') hrun') hnot

/-! ### A server that dies behind its response, and one that dies before it -/

/-- The server is killed when the response is written and not yet read. -/
def lateDeath : List WorldEvent :=
  [.call [], .callForkServerAPI, .server (.read [2, 0, 0, 0]), .server (.read [4, 0, 0, 0]),
    .server (.fork 100 []), .server .succeeds, .server .succeeds,
    .server (.putEnds (.exited 5) false), .server .reaped, .server .succeeds, .server .terminated,
    .epoll (.target .stdout)]

theorem lateDeath_unstuck :
    ∃ w, run step (start 50 clientFds false 1) lateDeath = some w ∧ w.serverLives = false ∧
      Unstuck w := by
  obtain ⟨w, hrun, hdead, hpipe⟩ : ∃ w,
      run step (start 50 clientFds false 1) lateDeath = some w ∧ w.serverLives = false ∧
        w.fromForkServer = (FinalStatus.response (.exited 5)).bytes := ⟨_, rfl, rfl, rfl⟩
  have hkept : AllSteps step AnswersFirst (start 50 clientFds false 1) lateDeath := by
    cases standing_run hrun with
    | living _ _ hkept => exact hkept
    | finishing _ hkept => exact hkept
    | abandoned habandoned _ =>
        exact absurd (hpipe.symm.trans habandoned.silent) (bytes_ne_nil _)
  exact ⟨w, hrun, hdead, (unstuck_iff hrun).1 hkept [] w trivial rfl⟩

/-- The server is killed before it has read the command. -/
def earlyDeath : List WorldEvent :=
  [.call [], .callForkServerAPI, .server .terminated, .epoll .fromForkServer,
    .epoll (.target .stdout), .epoll (.target .stderr)]

/-- Nothing is attached, and the call never returns. -/
theorem earlyDeath_stuck :
    ∃ w, run step (start 50 clientFds false 1) earlyDeath = some w ∧
      w.executor.control.looping ∧ ¬ Unstuck w ∧
      ∀ es w', run step w es = some w' → w'.executor.control.looping ∧ w'.results = [] := by
  obtain ⟨w, hrun, hdead, hwait, hcontrol, hpipe, hattached, hresults⟩ : ∃ w,
      run step (start 50 clientFds false 1) earlyDeath = some w ∧ w.serverLives = false ∧
        w.executor.waitFor = -1 ∧ w.executor.control = .epollWait ∧ w.fromForkServer = [] ∧
        w.executor.attached = [] ∧ w.results = [] := ⟨_, rfl, rfl, rfl, rfl, rfl, rfl, rfl⟩
  have habandoned : Abandoned w := ⟨hdead, hwait, Or.inl hcontrol, hpipe⟩
  refine ⟨w, hrun, habandoned.looping, habandoned.not_unstuck hattached, fun es w' hrun' => ?_⟩
  rcases habandoned.run hrun' with ⟨habandoned', hsame⟩
  exact ⟨habandoned'.looping, hsame.trans hresults⟩

end World
end Utils
end FuzzufCc
