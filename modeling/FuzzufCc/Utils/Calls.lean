import FuzzufCc.Utils.Results

/-!
# Calls — every call of an executor returns

While the server lives, some event brings the current call forward, and if the PUT writes nothing
more, the call returns after a bounded number of such events.
-/

namespace FuzzufCc
namespace Utils

open Transition ForkServer

/-- The event brings the current call forward.  A call of `operator()` and what a PUT writes only
make more work. -/
def WorldEvent.productive : WorldEvent → Bool
  | .callForkServerAPI | .epollTimeout | .epoll _ | .read _ => true
  | .server e => e.productive
  | .call _ | .epollInterrupted | .putWrites _ _ => false

def WorldEvent.isInput : WorldEvent → Bool
  | .call _ | .putWrites _ _ => true
  | _ => false

namespace World

variable {w w' : World}

/-! ## Progress -/

/-- The executor reads only where there is something to read. -/
def Reading (w : World) : Prop :=
  ∀ fd, w.executor.control = .read fd → w.pipe fd ≠ []

theorem Reading.step (hreading : Reading w) {e : WorldEvent} :
    w.step e = some w' → Reading w' := by
  intro hstep fd hfd
  cases step_cases hstep with
  | epollin _ _ hpipe =>
      cases hfd
      exact hpipe
  | epollhup hcontrol _ _ _ => simp [hcontrol] at hfd
  | epollInterrupted _ => exact hreading fd hfd
  -- between a `read` and the next one, what is in the pipes only grows
  | server _ =>
      have hold := hreading fd hfd
      cases fd with
      | fromForkServer => exact List.append_ne_nil_of_left_ne_nil hold _
      | target stream => exact hold
  | @putWrites stream bytes _ =>
      have hold := hreading fd hfd
      cases fd with
      | fromForkServer => exact hold
      | target stream' =>
          by_cases hstream : stream' = stream
          · subst hstream
            simp only [pipe, writeOutput, Function.update_self]
            exact List.append_ne_nil_of_left_ne_nil hold _
          · simpa [pipe, writeOutput, Function.update_of_ne hstream] using hold
  | _ => cases hfd

/-- A descriptor in which there is something can be read; the response comes in one piece. -/
theorem read_progress (hreading : Reading w) {fd : Source} (hcontrol : w.executor.control = .read fd)
    (hsize : w.fromForkServer ≠ [] → ExecutePUTAPIResponse.size ≤ w.fromForkServer.length) :
    ∃ e : WorldEvent, e.productive ∧ (w.step e).isSome := by
  have hnonempty := hreading fd hcontrol
  cases fd with
  | target stream =>
      refine ⟨.read 1, rfl, ?_⟩
      have hone : 1 ≤ (w.target stream).length := List.length_pos_iff.2 hnonempty
      simp [World.step, readReturns, hcontrol, hone, chunkSize]
  | fromForkServer =>
      refine ⟨.read ExecutePUTAPIResponse.size, rfl, ?_⟩
      simp [World.step, readReturns, hcontrol, hsize hnonempty]

theorem server_isSome {e : Event} :
    (w.session.step (.server e)).isSome → (w.step (.server e)).isSome := by
  intro h
  rw [step, Option.isSome_map]
  exact h

/-- While its response is awaited, the server has a call to serve. -/
theorem Live.not_idle (hlive : Live w) {initial : RuntimeSettings}
    (hconforms : Session.Conforms initial w.session) :
    w.executor.control.looping → w.session.system.responses.length = w.results.length →
      ¬ w.session.Idle := by
  intro hloop hlen hidle
  rcases hconforms.served (Or.inl hidle) with ⟨htrace, hexecuted⟩
  have hresponses : w.session.system.responses.length = w.session.system.statuses.length := by
    calc w.session.system.responses.length
        = ((expected initial w.session.sent w.session.system.statuses).filterMap
            Obs.response?).length := by rw [System.responses, htrace]
      _ = w.session.system.statuses.length := by
            rw [expected_responses _ _ _ hexecuted, List.length_map]
  have hcalls := hlive.calls
  rw [if_pos hloop] at hcalls
  omega

theorem Live.progress (hlive : Live w) (hreading : Reading w)
    (hcounts : Session.Counts w.session)
    {initial : RuntimeSettings} (hconforms : Session.Conforms initial w.session) :
    w.executor.control = .idle ∨ ∃ e : WorldEvent, e.productive ∧ (w.step e).isSome := by
  have hlives := serverLives_of_serving (hcounts.serving hlive.opened)
  cases hcontrol : w.executor.control with
  | idle => exact Or.inl rfl
  | callForkServerAPI =>
      refine Or.inr ⟨.callForkServerAPI, rfl, ?_⟩
      simp [World.step, hcontrol, endsHeld_of_lives hlives, Session.step, hlive.opened]
  | read fd =>
      refine Or.inr (read_progress hreading hcontrol fun hpipe => ?_)
      cases hlive.reply (by rw [hcontrol]; rfl) with
      | awaited _ hnil _ => exact absurd hnil hpipe
      | written r _ hbytes _ _ => rw [hbytes, r.length_bytes]
      | received _ hnil _ _ => exact absurd hnil hpipe
  | epollWait =>
      have hloop : w.executor.control.looping := by rw [hcontrol]; rfl
      refine Or.inr ?_
      by_cases hready : ∃ fd, w.pipe fd ≠ []
      · rcases hready with ⟨fd, hfd⟩
        refine ⟨.epoll fd, rfl, ?_⟩
        simp [World.step, hcontrol, reportable, World.epollin, hfd, hlive.attached fd]
      · have hempty : ∀ fd, w.pipe fd = [] := by simpa using hready
        cases hlive.reply hloop with
        | awaited _ _ hlen =>
            -- the server has not answered yet
            rcases hconforms.progress with hidle | hexited | ⟨e, he, hstep⟩
            · exact absurd hidle (hlive.not_idle hconforms hloop hlen)
            · have hserving := hcounts.serving hlive.opened
              rw [hexited] at hserving
              exact hserving.elim
            · exact ⟨.server e, he, server_isSome hstep⟩
        | written r _ hbytes _ _ =>
            have hnil := hempty .fromForkServer
            have hlen := r.length_bytes
            simp [← hbytes, show w.fromForkServer = [] from hnil,
              ExecutePUTAPIResponse.size] at hlen
        | received hwait _ _ _ =>
            refine ⟨.epollTimeout, rfl, ?_⟩
            have hheld := endsHeld_of_lives hlives
            simp [World.step, hcontrol, hwait, reportable, World.epollin, hempty, hheld]

/-! ## The work of a call -/

/-- The bytes that are written and not read. -/
def unread (w : World) : Nat :=
  (w.target .stdout).length + (w.target .stderr).length + w.fromForkServer.length

def stepsLeft : Executor.Control → Nat
  | .idle => 0
  -- with what the server does for one `ExecutePUT`
  | .callForkServerAPI => 802
  | .epollWait => 1
  | .read _ => 0

/-- An upper bound for the number of productive events, if nothing more is called or written.  A
byte costs an `epoll_wait` and a `read`, and a step of the server may write a response. -/
def work (w : World) : Nat :=
  25 * w.session.work + 2 * w.unread + w.executor.attached.length + stepsLeft w.executor.control

theorem unread_update (stream : Stream) (bytes : List Byte) :
    ({ w with target := Function.update w.target stream bytes } : World).unread +
      (w.target stream).length = w.unread + bytes.length := by
  cases stream <;> simp [unread] <;> omega

theorem send_work {session : Session} {c : Call} :
    w.session.step (.send c) = some session →
      session.work = w.session.work + 8 * c.send.length := by
  intro hstep
  obtain ⟨_, rfl⟩ := Session.send_eq_some.1 hstep
  simp [Session.work]
  omega

theorem length_replies {s : System} {e : Event} :
    ((replies s e).flatMap ExecutePUTAPIResponse.bytes).length ≤
      12 * (if e.productive then 1 else 0) := by
  cases e with
  | succeeds =>
      cases hcontrol : s.control with
      | write r =>
          simp [replies, hcontrol, r.length_bytes, ExecutePUTAPIResponse.size, Event.productive]
      | _ => simp [replies, hcontrol]
  | _ => simp [replies]

theorem work_step {e : WorldEvent} (hreading : Reading w) :
    e.isInput = false → w.step e = some w' →
      w'.work + (if e.productive then 1 else 0) ≤ w.work := by
  intro hinput hstep
  cases step_cases hstep with
  | call _ => cases hinput
  | putWrites _ => cases hinput
  | callForkServerAPI hcontrol _ hsession =>
      -- four bytes for the server to read
      have hwork := send_work hsession
      have hlen : Call.executePUT.send.length = 4 := rfl
      simp [work, hwork, hlen, hcontrol, stepsLeft, beginLoop, unread, WorldEvent.productive]
      omega
  | epollInterrupted _ => simp [WorldEvent.productive]
  | epollTimeout hcontrol _ _ =>
      simp [work, finishCall, unread, stepsLeft, hcontrol, WorldEvent.productive]
  | epollin hcontrol _ _ => simp [work, unread, stepsLeft, hcontrol, WorldEvent.productive]
  | epollhup hcontrol hmem _ _ =>
      -- the descriptor was attached until now
      have hpos := List.length_pos_of_mem hmem
      simp [work, unread, stepsLeft, hcontrol, WorldEvent.productive, List.length_erase_of_mem hmem]
      omega
  | @readTarget stream n hcontrol hlen hnil =>
      -- no `read` is made in vain
      have hpos : 0 < n := by
        by_contra hzero
        exact hreading _ hcontrol (hnil (by omega))
      have hunread := unread_update (w := w) stream ((w.target stream).drop n)
      rw [List.length_drop] at hunread
      have hread : (w.readTarget stream n).unread + n = w.unread := by
        have hsame : (w.readTarget stream n).unread =
            ({ w with target := Function.update w.target stream ((w.target stream).drop n) } :
              World).unread := rfl
        omega
      simp only [work, hcontrol, stepsLeft, WorldEvent.productive, if_true]
      simp only [World.readTarget] at hread ⊢
      omega
  | readResponse hcontrol hsize hlen =>
      subst hsize
      simp [work, unread, World.readResponse, hcontrol, stepsLeft, WorldEvent.productive,
        ExecutePUTAPIResponse.size] at hlen ⊢
      omega
  | @server e _ hsession =>
      -- a productive step of the server gives up 25 units, twelve bytes cost 24
      have hwork := Session.work_step (e := .server e) rfl hsession
      have hreplies := length_replies (s := w.session.system) (e := e)
      have hserver : (SessionEvent.server e).productive = e.productive := rfl
      have hworld : (WorldEvent.server e).productive = e.productive := rfl
      rw [hserver] at hwork
      rw [hworld]
      simp only [work, unread, List.length_append]
      omega

/-- A run without input has no more productive events than there is work. -/
theorem work_run (hreading : Reading w) {es : List WorldEvent} :
    run step w es = some w' → (∀ e ∈ es, e.isInput = false) →
      es.countP WorldEvent.productive + w'.work ≤ w.work := by
  intro hrun hinput
  exact countP_add_le (I := Reading) (P := fun _ (e : WorldEvent) => e.isInput = false)
    (fun _ _ _ hreading _ hstep => hreading.step hstep)
    (fun _ _ _ hreading hinput hstep => work_step hreading hinput hstep) hreading
    (allSteps_of_forall (fun e he _ => hinput e he) _) hrun

/-! ## What the calls return -/

/-- The calls of an executor return what they should. -/
structure Exact (w : World) : Prop where
  -- the `k`-th call: the response of the `k`-th execution, and what the `k`-th PUT wrote
  results : ∀ (k : Nat) r, w.results[k]? = some r →
    ∃ st : FinalStatus, w.session.system.statuses[k]? = some st ∧ r.response = st.response ∧
      w.puts[k]? = some r.output
  -- one PUT for each call, and nothing is left for the next one
  settled : w.executor.control.looping = false →
    w.results.length = w.session.sent.count .executePUT ∧
      w.results.length = w.session.system.statuses.length ∧ w.results.length = w.puts.length ∧
      ∀ fd, w.pipe fd = []
  progress : w.executor.control = .idle ∨ ∃ e : WorldEvent, e.productive ∧ (w.step e).isSome

theorem Live.exact (hlive : Live w) (hreading : Reading w) (hcounts : Session.Counts w.session)
    {disposition : Disposition} (hsystem : w.session.system.Inv disposition)
    {initial : RuntimeSettings} (hconforms : Session.Conforms initial w.session) : Exact w := by
  refine ⟨fun k r hr => ?_, fun hquiet => ?_, hlive.progress hreading hcounts hconforms⟩
  · rcases hlive.results k r hr with ⟨hresponse, hput⟩
    rcases hcounts.statuses k r.response hresponse with ⟨st, hst, hr⟩
    exact ⟨st, hst, hr, hput⟩
  · rcases hlive.quiet hquiet with ⟨hlen, hempty⟩
    have hcalls := hlive.calls
    rw [hquiet] at hcalls
    rcases hcounts.settled hlive.opened (hlen.trans hcalls.symm) with ⟨hnot, hforks⟩
    have hnone : w.session.system.child = none :=
      hsystem.noChild ⟨hcounts.serving hlive.opened, fun hput => hnot hput.executing⟩
    have hstatuses : w.session.system.statuses.length = w.session.system.forkCount := by
      simp [System.statuses, System.forkCount, hnone]
    exact ⟨hcalls.symm, by omega, by rw [hlive.puts, hforks, hlen], hempty⟩

variable {pid : Int} {fds : FdTable} {ignored : Bool} {executorId : BitVec 64}
  {es : List WorldEvent}

theorem reading_run : run step (start pid fds ignored executorId) es = some w → Reading w := by
  intro hrun
  have hstart : Reading (start pid fds ignored executorId) := fun fd hfd => (by cases hfd)
  exact invariant_run (I := Reading) (fun _ _ _ hreading hstep => hreading.step hstep) hstart hrun

/-- **Every call returns its own execution.** In whatever order the PUTs write and end, the server
answers and the executor is woken or interrupted, a call returns the response of its execution and
exactly what its PUT wrote, and it returns in a bounded number of productive events. -/
theorem run_exact (hrun : run step (start pid fds ignored executorId) es = some w)
    (hok : ∀ e ∈ es, e.callsSucceed) (hserver : w.session.system.control ≠ .killed) :
    Exact w ∧
      ∀ es' w', run step w es' = some w' → (∀ e ∈ es', e.isInput = false) →
        es'.countP WorldEvent.productive + w'.work ≤ w.work := by
  have hreading := reading_run hrun
  constructor
  · rcases live_run hok hrun with hkilled | hlive
    · exact absurd hkilled hserver
    · rcases session_facts hok hrun with hkilled | ⟨hcounts, hsystem, hconforms⟩
      · exact absurd hkilled hserver
      · exact hlive.exact hreading hcounts hsystem hconforms
  · exact fun es' w' => work_run hreading

/-! ### A call whose output arrives around its response -/

/-- The PUT writes to both streams; one `epoll_wait` is interrupted, and the response is read before
the rest of the output. -/
def lateOutput : List WorldEvent :=
  [.call [0x61], .callForkServerAPI, .server (.read [2, 0, 0, 0]), .server (.read [4, 0, 0, 0]),
    .server (.fork 100 []), .putWrites .stdout [1, 2], .epoll (.target .stdout), .read 1,
    .server .succeeds, .server .succeeds, .putWrites .stderr [3], .epollInterrupted,
    .server (.putEnds (.exited 5) false), .server .reaped, .server .succeeds,
    .epoll .fromForkServer, .read 12, .epoll (.target .stdout), .read 1,
    .epoll (.target .stderr), .read 1, .epollTimeout]

theorem lateOutput_exact :
    ∃ w, run step (start 50 clientFds false 1) lateOutput = some w ∧ Exact w ∧
      w.results.map (fun r => (r.response, r.output .stdout, r.output .stderr)) =
        [(FinalStatus.response (.exited 5), [1, 2], [3])] := by
  obtain ⟨w, hrun, hcontrol, hresults⟩ : ∃ w,
      run step (start 50 clientFds false 1) lateOutput = some w ∧
        w.session.system.control = .waitForAPICall [] ∧
        w.results.map (fun r => (r.response, r.output .stdout, r.output .stderr)) =
          [(FinalStatus.response (.exited 5), [1, 2], [3])] :=
    ⟨_, rfl, rfl, rfl⟩
  have hok : ∀ e ∈ lateOutput, e.callsSucceed := by decide
  have hserver : w.session.system.control ≠ .killed := by simp [hcontrol]
  exact ⟨w, hrun, (run_exact hrun hok hserver).1, hresults⟩

end World
end Utils
end FuzzufCc
