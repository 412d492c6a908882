import FuzzufCc.Utils.Executor

/-!
# Results — what the calls of an executor return

The output of a PUT is complete when its response arrives, and `operator()` reads on until the pipes
are empty.  The invariant counts the calls, the forks and the responses, and keeps what was read
together with what is still in the pipes.
-/

namespace FuzzufCc

open Transition

namespace ForkServer

/-! ## Forks and responses of a session -/

def Obs.response? : Obs → Option ExecutePUTAPIResponse
  | .response r => some r
  | _ => none

/-- The server is between reading an `ExecutePUT` and writing its response. -/
def Control.Executing : Control → Prop
  | .fork | .setitimer | .sigaction | .waitpid | .write _ => True
  | _ => False

namespace System

/-- The responses written so far. -/
def responses (s : System) : List ExecutePUTAPIResponse :=
  s.trace.filterMap Obs.response?

/-- The number of PUTs forked so far. -/
def forkCount (s : System) : Nat :=
  s.past.length + (if s.child.isSome then 1 else 0)

end System

theorem expected_responses (settings : RuntimeSettings) (cs : List Call)
    (sts : List FinalStatus) : sts.length = cs.count .executePUT →
      (expected settings cs sts).filterMap Obs.response? = sts.map FinalStatus.response := by
  intro hlen
  induction cs generalizing settings sts with
  | nil =>
      obtain rfl : sts = [] := by simpa using hlen
      rfl
  | cons c cs ih =>
      by_cases hc : c = .executePUT
      · subst hc
        cases sts with
        | nil => simp at hlen
        | cons st sts =>
            have hrest := ih settings sts (by simpa using hlen)
            simp [expected, launch, Obs.response?, List.filterMap_cons, hrest]
      · have hrest := ih (settings.apply c) sts (by simpa [List.count_cons, hc] using hlen)
        simpa [expected_cons hc, Obs.response?, List.filterMap_cons] using hrest

theorem shown_responses (settings : RuntimeSettings) (c : Control) :
    (c.shown settings).filterMap Obs.response? = [] := by
  cases c <;> simp [Control.shown, launch, Obs.response?, List.filterMap_cons]

namespace Session

variable {initial : RuntimeSettings} {σ : Session} {done todo : List Call}
  {sts : List FinalStatus} {disposition : Disposition}

theorem At.responses (hat : At initial σ done todo sts) :
    σ.system.responses = sts.map FinalStatus.response := by
  calc σ.system.responses
      = (expected initial done sts).filterMap Obs.response? ++
          (σ.system.control.shown σ.system.settings).filterMap Obs.response? := by
        rw [System.responses, hat.trace, List.filterMap_append]
    _ = sts.map FinalStatus.response := by
        rw [expected_responses _ _ _ hat.executed, shown_responses, List.append_nil]

/-- The numbers of calls, forks and responses in a session. -/
structure Counts (σ : Session) : Prop where
  outstanding : σ.system.responses.length ≤ σ.sent.count .executePUT
  executing : σ.system.control.Executing →
    σ.system.responses.length < σ.sent.count .executePUT
  -- before the fork and behind the response
  idle : σ.system.control.Idle → (∀ r, σ.system.control ≠ .write r) →
    σ.system.forkCount = σ.system.responses.length
  -- in between
  hasPut : σ.system.control.HasPut → σ.system.forkCount = σ.system.responses.length + 1
  statuses : ∀ (k : Nat) r, σ.system.responses[k]? = some r →
    ∃ st : FinalStatus, σ.system.statuses[k]? = some st ∧ r = st.response
  serving : σ.closed = false → σ.system.control.Serving

theorem Awaits.executing {pipe : List Byte} {c : Control} :
    Awaits pipe todo c → c.Executing → ∃ cs, todo = .executePUT :: cs := by
  intro h hexec
  have hcall : ∃ cs, todo = .executePUT :: cs ∧ pipe = sendAll cs := by
    cases c <;> first | exact h | exact hexec.elim
  rcases hcall with ⟨cs, htodo, _⟩
  exact ⟨cs, htodo⟩

theorem Reaped.map_eq {past : List (Put × FinalStatus)} {c : Control} :
    Reaped past sts c → (∀ r, c ≠ .write r) → past.map (·.2) = sts := by
  intro h hwrite
  cases c with
  | write r => exact absurd rfl (hwrite r)
  | _ => exact h

theorem At.counts (hat : At initial σ done todo sts) (hsystem : σ.system.Inv disposition) :
    Counts σ := by
  have hreaped := hat.statuses
  -- `sts` has one status for each response, and `past` one more while it is being written
  have hlen : σ.system.responses.length = sts.length := by
    rw [hat.responses, List.length_map]
  have hsent : σ.sent.count .executePUT = sts.length + todo.count .executePUT := by
    rw [hat.sent, List.count_append, hat.executed]
  have hpast : (∀ r, σ.system.control ≠ .write r) → σ.system.past.length = sts.length := by
    intro hwrite
    rw [← Reaped.map_eq hreaped hwrite, List.length_map]
  refine ⟨by omega, ?_, ?_, ?_, ?_, ?_⟩
  · intro hexec
    rcases Awaits.executing hat.input hexec with ⟨cs, rfl⟩
    simp at hsent
    omega
  · intro hidle hwrite
    rw [System.forkCount, hsystem.noChild hidle, hpast hwrite, hlen]
    rfl
  · intro hput
    rcases hsystem.child hput with ⟨c, hchild, _⟩
    have hwrite : ∀ r, σ.system.control ≠ .write r := by
      intro r hcontrol
      rw [hcontrol] at hput
      exact hput
    rw [System.forkCount, hchild, hpast hwrite, hlen]
    rfl
  · intro k r hr
    rw [hat.responses, List.getElem?_map, Option.map_eq_some_iff] at hr
    rcases hr with ⟨st, hst, rfl⟩
    rcases hat.shown_isPrefix with ⟨rest, hrest, _⟩
    refine ⟨st, ?_, rfl⟩
    rw [hrest, List.getElem?_append_left (List.getElem?_eq_some_iff.1 hst).1]
    exact hst
  · intro hopen
    rcases (hat.conforms hsystem).serving with hserving | ⟨_, hclosed, _⟩
    · exact hserving
    · simp [hopen] at hclosed

end Session

/-! ## One step of the server -/

namespace System

variable {s s' : System}

theorem responses_append {obs : List Obs} (htrace : s'.trace = s.trace ++ obs) :
    s'.responses = s.responses ++ obs.filterMap Obs.response? := by
  rw [responses, htrace, List.filterMap_append]
  rfl

theorem responses_switch (command : BitVec 32) :
    (s.switch command).responses = s.responses := by
  simp only [switch]
  split_ifs <;> simp [responses, Obs.response?]

theorem responses_step {e : Event} :
    Step s e s' → s'.responses = s.responses ++ Utils.World.replies s e := by
  intro hstep
  cases hstep with
  | write hcontrol =>
      rw [responses_append rfl]
      simp [Utils.World.replies, hcontrol, Obs.response?]
  | command _ _ _ => simpa [Utils.World.replies] using responses_switch _
  | u64 _ _ hlen =>
      simp [recvU64, hlen, responses, Utils.World.replies, Obs.response?]
  | fork _ _ =>
      rw [responses_append rfl]
      simp [Utils.World.replies, Obs.response?]
  | setitimer hcontrol =>
      rw [responses_append rfl]
      simp [Utils.World.replies, hcontrol, Obs.response?]
  | sigaction hcontrol => simp [Utils.World.replies, hcontrol, responses, sigaction]
  | told hcontrol => simp [Utils.World.replies, hcontrol, responses]
  | handshakeFails _ he =>
      rcases he with ⟨_, rfl⟩ | rfl | rfl <;> simp [Utils.World.replies, responses]
  | waitAgain _ he =>
      rcases he with rfl | ⟨_, rfl⟩ <;> simp [Utils.World.replies, responses, logTimeout]
  | _ => simp [Utils.World.replies, responses, logTimeout, exit, putTimeoutHandler]

theorem SameKernel.forkCount (hsame : SameKernel s s') : s'.forkCount = s.forkCount := by
  rw [System.forkCount, System.forkCount, hsame.past, hsame.child]

theorem forkCount_putTimeoutHandler (armedBy : Nat) (errno : Int) :
    (s.putTimeoutHandler armedBy errno).forkCount = s.forkCount := by
  cases htarget : s.target with
  | none => simp [forkCount, putTimeoutHandler, htarget]
  | some c =>
      have hchild : s.child = some c := (target_eq_some.1 htarget).1
      simp [forkCount, putTimeoutHandler, htarget, hchild]

theorem forkCount_step {e : Event} (hnoChild : s.control = .fork → s.child = none) :
    Step s e s' → s'.forkCount = s.forkCount + (Utils.World.forks e).length := by
  intro hstep
  cases hstep with
  | fork hcontrol _ =>
      have hchild := hnoChild hcontrol
      simp [forkCount, forked, hchild, Utils.World.forks]
  | reaped _ htarget _ =>
      have hchild := (target_eq_some.1 htarget).1
      simp [forkCount, hchild, Utils.World.forks]
  | putEnds hchild _ _ => simp [forkCount, hchild, Utils.World.forks]
  | command _ _ _ => exact (switch_same _).1.forkCount
  | u64 _ _ hlen => exact (recvU64_same hlen).1.forkCount
  | expires _ _ => exact forkCount_putTimeoutHandler _ _
  | handshakeFails _ he => rcases he with ⟨_, rfl⟩ | rfl | rfl <;> rfl
  | waitAgain _ he => rcases he with rfl | ⟨_, rfl⟩ <;> rfl
  | _ => rfl

/-- A child comes from `fork`. -/
theorem childless_step {e : Event} (hstep : Step s e s') (hnone : s.child = none) :
    s'.child = none ∨ s'.control = .setitimer := by
  cases hstep with
  | fork _ _ => exact Or.inr rfl
  | command _ _ _ => exact Or.inl ((switch_same _).1.child.trans hnone)
  | u64 _ _ hlen => exact Or.inl ((recvU64_same hlen).1.child.trans hnone)
  | reaped _ _ _ => exact Or.inl rfl
  | putEnds hchild _ _ => cases hnone.symm.trans hchild
  | expires _ _ => exact Or.inl (by simp [putTimeoutHandler, target, hnone])
  | _ => exact Or.inl hnone

end System

theorem Control.HasPut.executing {c : Control} : c.HasPut → c.Executing := by
  intro h
  cases c <;> trivial

namespace Session

variable {σ : Session}

/-- Without an outstanding call there are as many forks as responses. -/
theorem Counts.settled (hcounts : Counts σ) (hopen : σ.closed = false) :
    σ.system.responses.length = σ.sent.count .executePUT →
      ¬ σ.system.control.Executing ∧ σ.system.forkCount = σ.system.responses.length := by
  intro heq
  -- an execution would be an outstanding call
  have hnot : ¬ σ.system.control.Executing := by
    intro hexec
    have := hcounts.executing hexec
    omega
  refine ⟨hnot, hcounts.idle ⟨hcounts.serving hopen, fun hput => hnot hput.executing⟩ ?_⟩
  intro r hcontrol
  exact hnot (hcontrol ▸ trivial)

end Session
end ForkServer

namespace Utils

open ForkServer

/-! ## The invariant of an executor and its server -/

/-- A call of `operator()` is in its loop. -/
def Executor.Control.looping : Executor.Control → Bool
  | .epollWait | .read _ => true
  | _ => false

namespace World

/-- How far the response of the current call is. -/
inductive Reply (w : World) : Prop
  | awaited : w.executor.waitFor = -1 → w.fromForkServer = [] →
      w.session.system.responses.length = w.results.length → Reply w
  | written (r : ExecutePUTAPIResponse) : w.executor.waitFor = -1 → w.fromForkServer = r.bytes →
      w.session.system.responses[w.results.length]? = some r →
      w.session.system.responses.length = w.results.length + 1 → Reply w
  | received : w.executor.waitFor = 0 → w.fromForkServer = [] →
      w.session.system.responses[w.results.length]? = some w.executor.response →
      w.session.system.responses.length = w.results.length + 1 → Reply w

/-- What the PUT of the current call has written. -/
def current (w : World) : Output :=
  w.puts[w.results.length]?.getD fun _ => []

structure Live (w : World) : Prop where
  opened : w.session.closed = false
  attached : ∀ fd, fd ∈ w.executor.attached
  calls : w.session.sent.count .executePUT =
    w.results.length + (if w.executor.control.looping then 1 else 0)
  puts : w.puts.length = w.session.system.forkCount
  results : ∀ (k : Nat) r, w.results[k]? = some r →
    w.session.system.responses[k]? = some r.response ∧ w.puts[k]? = some r.output
  -- between two calls nothing is on the way
  quiet : w.executor.control.looping = false →
    w.session.system.responses.length = w.results.length ∧ ∀ fd, w.pipe fd = []
  reply : w.executor.control.looping → Reply w
  -- what was read, and then what is in the pipe, is what was written
  output : w.executor.control.looping →
    ∀ stream, w.executor.output stream ++ w.target stream = w.current stream

variable {w w' : World} {disposition : Disposition}

/-- The reply depends on these parts of the state only. -/
theorem Reply.congr (hreply : Reply w) (hwait : w'.executor.waitFor = w.executor.waitFor)
    (hresponse : w'.executor.response = w.executor.response)
    (hpipe : w'.fromForkServer = w.fromForkServer)
    (hresponses : w'.session.system.responses = w.session.system.responses)
    (hresults : w'.results = w.results) : Reply w' := by
  cases hreply with
  | awaited h₁ h₂ h₃ =>
      exact .awaited (hwait.trans h₁) (hpipe.trans h₂) (by rw [hresponses, hresults]; exact h₃)
  | written r h₁ h₂ h₃ h₄ =>
      exact .written r (hwait.trans h₁) (hpipe.trans h₂) (by rw [hresponses, hresults]; exact h₃)
        (by rw [hresponses, hresults]; exact h₄)
  | received h₁ h₂ h₃ h₄ =>
      exact .received (hwait.trans h₁) (hpipe.trans h₂)
        (by rw [hresponses, hresults, hresponse]; exact h₃) (by rw [hresponses, hresults]; exact h₄)

theorem Live.call (hlive : Live w) (standardInput : List Byte) :
    w.executor.control = .idle →
      Live { w with
        executor := { w.executor with control := .callForkServerAPI, stdin := standardInput } } := by
  intro hcontrol
  have hloop : w.executor.control.looping = false := by rw [hcontrol]; rfl
  have hcalls := hlive.calls
  rw [hloop] at hcalls
  exact ⟨hlive.opened, hlive.attached, hcalls, hlive.puts, hlive.results,
    fun _ => hlive.quiet hloop, fun h => (by cases h), fun h => (by cases h)⟩

theorem Live.callForkServerAPI (hlive : Live w) (hcounts : Session.Counts w.session)
    {session : Session} (hsession : w.session.step (.send .executePUT) = some session) :
    w.executor.control = .callForkServerAPI →
      Live { w with session := session, executor := w.beginLoop } := by
  intro hcontrol
  have hloop : w.executor.control.looping = false := by rw [hcontrol]; rfl
  rcases hlive.quiet hloop with ⟨hlen, hempty⟩
  have hcalls := hlive.calls
  rw [hloop] at hcalls
  have hforks := (hcounts.settled hlive.opened (hlen.trans hcalls.symm)).2
  -- the PUT of this call is not yet forked
  have hnone : w.puts[w.results.length]? = none := by
    rw [List.getElem?_eq_none_iff, hlive.puts, hforks, hlen]
  obtain ⟨_, rfl⟩ := Session.send_eq_some.1 hsession
  refine ⟨hlive.opened, hlive.attached, ?_, hlive.puts, hlive.results, fun h => (by cases h),
    fun _ => .awaited rfl (hempty .fromForkServer) hlen, fun _ stream => ?_⟩
  · simpa [Executor.Control.looping, beginLoop] using hcalls
  · have htarget : w.target stream = [] := hempty (.target stream)
    simp [beginLoop, current, hnone, htarget]

theorem Live.pipes_empty (hlive : Live w)
    (hready : ∀ fd ∈ w.executor.attached, w.reportable fd = false) (fd : Source) :
    w.pipe fd = [] := by
  have h := hready fd (hlive.attached fd)
  simp only [reportable, epollin, Bool.and_eq_false_iff, Bool.or_eq_false_iff] at h
  rcases h with h | h
  · exact absurd (hlive.attached fd) (by simpa using h)
  · simpa using h.1

/-- The loop ends: all that the PUT has written is read. -/
theorem Live.epollTimeout (hlive : Live w) (hcounts : Session.Counts w.session)
    (hwait : w.executor.waitFor = 0)
    (hready : ∀ fd ∈ w.executor.attached, w.reportable fd = false) :
    w.executor.control = .epollWait → Live w.finishCall := by
  intro hcontrol
  have hloop : w.executor.control.looping := by rw [hcontrol]; rfl
  have hempty := hlive.pipes_empty hready
  have hcalls := hlive.calls
  rw [hloop, if_pos rfl] at hcalls
  -- the timeout is zero only after the response was read
  cases hlive.reply hloop with
  | awaited hwaiting => simp [hwait] at hwaiting
  | written r hwaiting => simp [hwait] at hwaiting
  | received _ _ hresponse hlen =>
      have hforks := (hcounts.settled hlive.opened (hlen.trans hcalls.symm)).2
      have hputs : w.results.length < w.puts.length := by
        rw [hlive.puts, hforks, hlen]
        exact Nat.lt_succ_self _
      have hlast : w.puts[w.results.length]? = some w.executor.output := by
        have hcurrent : w.current = w.executor.output := by
          funext stream
          have htarget : w.target stream = [] := hempty (.target stream)
          calc w.current stream
              = w.executor.output stream ++ w.target stream := (hlive.output hloop stream).symm
            _ = w.executor.output stream := by rw [htarget, List.append_nil]
        rw [← hcurrent, current, List.getElem?_eq_getElem hputs]
        rfl
      -- the results so far stay, and the new one is the last
      refine ⟨hlive.opened, hlive.attached, ?_, hlive.puts, ?_, fun _ => ⟨?_, hempty⟩,
        fun h => (by cases h), fun h => (by cases h)⟩
      · simpa [finishCall, Executor.Control.looping] using hcalls
      · intro k r hr
        simp only [finishCall] at hr ⊢
        by_cases hk : k < w.results.length
        · rw [List.getElem?_append_left hk] at hr
          exact hlive.results k r hr
        · have hkn : k = w.results.length := by
            have := (List.getElem?_eq_some_iff.1 hr).1
            simp at this
            omega
          subst hkn
          simp only [List.getElem?_concat_length, Option.some.injEq] at hr
          subst hr
          exact ⟨hresponse, hlast⟩
      · simpa [finishCall] using hlen

theorem serverLives_of_serving : w.session.system.control.Serving → w.serverLives := by
  intro hserving
  cases hcontrol : w.session.system.control with
  | exited => simp [hcontrol, Control.Serving] at hserving
  | killed => simp [hcontrol, Control.Serving] at hserving
  | _ => simp [serverLives, hcontrol]

theorem endsHeld_of_lives (hlives : w.serverLives) : w.endsHeld := by
  simp [endsHeld, hlives]

theorem Live.epollin (hlive : Live w) (fd : Source) :
    w.executor.control = .epollWait →
      Live { w with executor := { w.executor with control := .read fd } } := by
  intro hcontrol
  have hloop : w.executor.control.looping := by rw [hcontrol]; rfl
  have hcalls := hlive.calls
  rw [hloop] at hcalls
  exact ⟨hlive.opened, hlive.attached, hcalls, hlive.puts, hlive.results, fun h => (by cases h),
    fun _ => (hlive.reply hloop).congr rfl rfl rfl rfl rfl, fun _ => hlive.output hloop⟩

theorem Live.readTarget (hlive : Live w) {stream : Stream} (n : Nat) :
    w.executor.control = .read (.target stream) → Live (w.readTarget stream n) := by
  intro hcontrol
  have hloop : w.executor.control.looping := by rw [hcontrol]; rfl
  have hcalls := hlive.calls
  rw [hloop] at hcalls
  refine ⟨hlive.opened, hlive.attached, hcalls, hlive.puts, hlive.results, fun h => (by cases h),
    fun _ => (hlive.reply hloop).congr rfl rfl rfl rfl rfl, fun _ stream' => ?_⟩
  have hold := hlive.output hloop stream'
  by_cases hstream : stream' = stream
  · subst hstream
    calc (w.readTarget stream' n).executor.output stream' ++ (w.readTarget stream' n).target stream'
        = (w.executor.output stream' ++ (w.target stream').take n) ++ (w.target stream').drop n := by
            simp [World.readTarget]
      _ = w.executor.output stream' ++ w.target stream' := by
            rw [List.append_assoc, List.take_append_drop]
      _ = w.current stream' := hold
  · calc (w.readTarget stream n).executor.output stream' ++ (w.readTarget stream n).target stream'
        = w.executor.output stream' ++ w.target stream' := by
            simp [World.readTarget, Function.update_of_ne hstream]
      _ = w.current stream' := hold

theorem Live.readResponse (hlive : Live w)
    (hlen : ExecutePUTAPIResponse.size ≤ w.fromForkServer.length) :
    w.executor.control = .read .fromForkServer → Live w.readResponse := by
  intro hcontrol
  have hloop : w.executor.control.looping := by rw [hcontrol]; rfl
  have hcalls := hlive.calls
  rw [hloop] at hcalls
  -- so the response of this call is written and not yet read
  have hpipe : w.fromForkServer ≠ [] := by
    intro hnil
    simp [hnil, ExecutePUTAPIResponse.size] at hlen
  refine ⟨hlive.opened, hlive.attached, hcalls, hlive.puts, hlive.results, fun h => (by cases h),
    fun _ => ?_, fun _ => hlive.output hloop⟩
  cases hlive.reply hloop with
  | awaited _ hnil => exact absurd hnil hpipe
  | received _ hnil => exact absurd hnil hpipe
  | written r _ hbytes hresponse hlen =>
      have htake : w.fromForkServer.take ExecutePUTAPIResponse.size = r.bytes := by
        rw [hbytes]
        exact List.take_of_length_le r.length_bytes.le
      have hdrop : w.fromForkServer.drop ExecutePUTAPIResponse.size = [] := by
        rw [hbytes]
        exact List.drop_of_length_le r.length_bytes.le
      refine .received rfl hdrop ?_ hlen
      simpa [World.readResponse, htake, ExecutePUTAPIResponse.ofBytes_bytes] using hresponse

/-- A step of the server that is not between an `ExecutePUT` and its response writes nothing and
forks nothing. -/
theorem no_effects {s s' : System} {e : Event} (hstep : Step s e s')
    (hnot : ¬ s.control.Executing) : replies s e = [] ∧ forks e = [] := by
  constructor
  · cases e with
    | succeeds =>
        cases hcontrol : s.control with
        | write r => exact absurd (hcontrol ▸ trivial) hnot
        | _ => simp [replies, hcontrol]
    | _ => rfl
  · cases hstep with
    | fork hcontrol _ => exact absurd (hcontrol ▸ trivial) hnot
    | handshakeFails _ he => rcases he with ⟨_, rfl⟩ | rfl | rfl <;> rfl
    | waitAgain _ he => rcases he with rfl | ⟨_, rfl⟩ <;> rfl
    | _ => rfl

/-- While a call is outstanding, its response is awaited. -/
theorem Live.awaited_of_executing (hlive : Live w) (hcounts : Session.Counts w.session) :
    w.session.system.control.Executing →
      w.executor.control.looping ∧ w.executor.waitFor = -1 ∧ w.fromForkServer = [] ∧
        w.session.system.responses.length = w.results.length := by
  intro hexec
  have hlt := hcounts.executing hexec
  have hcalls := hlive.calls
  cases hloop : w.executor.control.looping with
  | false =>
      rw [hloop] at hcalls
      have := (hlive.quiet hloop).1
      simp at hcalls
      omega
  | true =>
      rw [hloop, if_pos rfl] at hcalls
      cases hlive.reply hloop with
      | awaited hwait hnil hlen => exact ⟨rfl, hwait, hnil, hlen⟩
      | written _ _ _ _ hlen => omega
      | received _ _ _ hlen => omega

theorem Live.putWrites (hlive : Live w) (hcounts : Session.Counts w.session)
    (hsystem : w.session.system.Inv disposition) (stream : Stream) (bytes : List Byte) :
    w.putRuns →
      Live { w with
        target := writeOutput stream bytes w.target
        puts := w.puts.modify (w.puts.length - 1) (writeOutput stream bytes) } := by
  intro hruns
  -- a PUT that writes is not reaped, so its response is not written
  have hput : w.session.system.control.HasPut := by
    by_contra hnot
    have hnone := hsystem.noChild ⟨hcounts.serving hlive.opened, hnot⟩
    simp [putRuns, hnone] at hruns
  rcases hlive.awaited_of_executing hcounts hput.executing with ⟨hloop, hwait, hnil, hlen⟩
  have hcalls := hlive.calls
  rw [hloop] at hcalls
  -- the PUT of this call is the last one
  have hputs : w.puts.length = w.results.length + 1 := by
    rw [hlive.puts, hcounts.hasPut hput, hlen]
  refine ⟨hlive.opened, hlive.attached, by rw [hloop]; exact hcalls, ?_, ?_, ?_, ?_, ?_⟩
  · simpa using hlive.puts
  · intro k r hr
    rcases hlive.results k r hr with ⟨hresponse, hold⟩
    have hk : k < w.results.length := (List.getElem?_eq_some_iff.1 hr).1
    refine ⟨hresponse, ?_⟩
    rw [List.getElem?_modify_ne]
    · exact hold
    · omega
  · intro hquiet
    simp [hloop] at hquiet
  · intro _
    exact .awaited hwait hnil hlen
  · intro _ stream'
    have hold := hlive.output hloop stream'
    obtain ⟨out, hout⟩ : ∃ out, w.puts[w.results.length]? = some out :=
      ⟨_, List.getElem?_eq_getElem (by omega)⟩
    have hindex : w.puts.length - 1 = w.results.length := by omega
    have hcurrent : w.current = out := by simp [current, hout]
    rw [hcurrent] at hold
    by_cases hstream : stream' = stream
    · subst hstream
      simp [current, hindex, hout, writeOutput, ← hold]
    · simp [current, hindex, hout, writeOutput, Function.update_of_ne hstream, hold]

theorem replies_cases (s : System) (e : Event) : replies s e = [] ∨ ∃ r, replies s e = [r] := by
  cases e with
  | succeeds =>
      cases hcontrol : s.control with
      | write r => exact Or.inr ⟨r, by simp [replies, hcontrol]⟩
      | _ => exact Or.inl (by simp [replies, hcontrol])
  | _ => exact Or.inl rfl

/-- A new PUT has written nothing. -/
theorem getD_append_forks (puts : List Output) (e : Event) (n : Nat) :
    ((puts ++ forks e)[n]?.getD fun _ => []) = puts[n]?.getD fun _ => [] := by
  cases e with
  | fork pid unopenable =>
      by_cases hn : n < puts.length
      · rw [List.getElem?_append_left hn]
      · have hnone : puts[n]? = none := List.getElem?_eq_none (not_lt.1 hn)
        rw [List.getElem?_append_right (not_lt.1 hn), hnone, forks]
        cases n - puts.length <;> rfl
  | _ => simp [forks]

theorem Live.server (hlive : Live w) (hcounts : Session.Counts w.session)
    (hsystem : w.session.system.Inv disposition) (e : Event) {session : Session} :
    w.session.step (.server e) = some session →
      Live { w with
        session := session
        fromForkServer := w.fromForkServer ++
          (replies w.session.system e).flatMap ExecutePUTAPIResponse.bytes
        puts := w.puts ++ forks e } := by
  intro hsession
  rcases Session.server_eq_some.1 hsession with ⟨s, bytes, hs, _, _, rfl⟩
  have hcases := System.step_cases hs
  have hresponses := System.responses_step hcases
  have hforks := System.forkCount_step
    (fun hfork => hsystem.noChild (hfork ▸ ⟨trivial, fun h => h⟩)) hcases
  have hputs : (w.puts ++ forks e).length = s.forkCount := by
    rw [List.length_append, hlive.puts, hforks]
  have hresults : ∀ (k : Nat) r, w.results[k]? = some r →
      s.responses[k]? = some r.response ∧ (w.puts ++ forks e)[k]? = some r.output := by
    intro k r hr
    rcases hlive.results k r hr with ⟨hresponse, hput⟩
    rw [hresponses, List.getElem?_append_left (List.getElem?_eq_some_iff.1 hresponse).1,
      List.getElem?_append_left (List.getElem?_eq_some_iff.1 hput).1]
    exact ⟨hresponse, hput⟩
  -- between two calls the server has nothing to execute
  have hquiet : w.executor.control.looping = false → ¬ w.session.system.control.Executing := by
    intro hloop hexec
    simp [(hlive.awaited_of_executing hcounts hexec).1] at hloop
  refine ⟨hlive.opened, hlive.attached, hlive.calls, hputs, hresults, ?_, ?_, ?_⟩
  · intro hloop
    rcases no_effects hcases (hquiet hloop) with ⟨hreplies, _⟩
    rw [hreplies, List.append_nil] at hresponses
    rcases hlive.quiet hloop with ⟨hlen, hempty⟩
    refine ⟨by rw [hresponses]; exact hlen, fun fd => ?_⟩
    have hold := hempty fd
    cases fd with
    | fromForkServer => simpa [pipe, hreplies] using hold
    | target stream => exact hold
  · intro hloop
    -- at most one response is written, and only while it is awaited
    rcases replies_cases w.session.system e with hreplies | ⟨r, hreplies⟩
    · rw [hreplies, List.append_nil] at hresponses
      exact (hlive.reply hloop).congr rfl rfl (by simp [hreplies]) hresponses rfl
    · have hexec : w.session.system.control.Executing := by
        by_contra hnot
        have := (no_effects hcases hnot).1
        simp [hreplies] at this
      rcases hlive.awaited_of_executing hcounts hexec with ⟨_, hwait, hnil, hlen⟩
      rw [hreplies] at hresponses
      refine .written r hwait (by simp [hnil, hreplies]) ?_ (by simp [hresponses, hlen])
      rw [hresponses, ← hlen]
      exact List.getElem?_concat_length
  · intro hloop stream
    rw [hlive.output hloop stream, current, current]
    rw [getD_append_forks]

/-! ## Runs -/

theorem Live.step {e : WorldEvent} (hlive : Live w) (hcounts : Session.Counts w.session)
    (hsystem : w.session.system.Inv disposition) : w.step e = some w' → Live w' := by
  intro hstep
  cases step_cases hstep with
  | call hcontrol => exact hlive.call _ hcontrol
  | callForkServerAPI hcontrol _ hsession =>
      exact hlive.callForkServerAPI hcounts hsession hcontrol
  | epollInterrupted _ => exact hlive
  | epollTimeout hcontrol hwait hready => exact hlive.epollTimeout hcounts hwait hready hcontrol
  | epollin hcontrol _ _ => exact hlive.epollin _ hcontrol
  | epollhup _ _ _ hheld =>
      -- the server holds the write ends of the three pipes
      have hlives := serverLives_of_serving (hcounts.serving hlive.opened)
      simp [endsHeld_of_lives hlives] at hheld
  | readTarget hcontrol _ _ => exact hlive.readTarget _ hcontrol
  | readResponse hcontrol hsize hlen => exact hlive.readResponse (hsize ▸ hlen) hcontrol
  | server hsession => exact hlive.server hcounts hsystem _ hsession
  | putWrites hruns => exact hlive.putWrites hcounts hsystem _ _ hruns

end World

/-- What an event is for the session of the fork server. -/
def WorldEvent.toSession : WorldEvent → List SessionEvent
  | .callForkServerAPI => [.send .executePUT]
  | .server e => [.server e]
  | _ => []

namespace World

variable {w w' : World} {pid : Int} {fds : FdTable} {ignored : Bool} {executorId : BitVec 64}
  {es : List WorldEvent}

theorem session_step {e : WorldEvent} :
    w.step e = some w' → run Session.step w.session e.toSession = some w'.session := by
  intro hstep
  cases step_cases hstep with
  | callForkServerAPI _ _ hsession => exact run_cons_eq_some.2 ⟨_, hsession, rfl⟩
  | server hsession => exact run_cons_eq_some.2 ⟨_, hsession, rfl⟩
  | _ => rfl

/-- The executor and its pipes are one of the environments in which the fork server conforms. -/
theorem session_run :
    run step (start pid fds ignored executorId) es = some w →
      run Session.step (Session.start pid fds ignored executorId)
          (.send .readStdin :: es.flatMap WorldEvent.toSession) = some w.session := by
  intro hrun
  have hsession := run_simulates (f := World.session) (g := WorldEvent.toSession)
    (fun _ _ _ hstep => session_step hstep) hrun
  exact run_cons_eq_some.2 ⟨_, rfl, hsession⟩

theorem start_live : Live (start pid fds ignored executorId) where
  opened := rfl
  attached := by
    intro fd
    rcases fd with stream | _
    · cases stream <;> simp [start]
    · simp [start]
  calls := rfl
  puts := rfl
  results := by simp [start]
  quiet := by
    intro _
    refine ⟨rfl, fun fd => ?_⟩
    cases fd <;> rfl
  reply := by
    intro h
    cases h
  output := by
    intro h
    cases h

theorem toSession_ne_fails {e : WorldEvent} (hok : e.callsSucceed) :
    ∀ e' ∈ e.toSession, e' ≠ .server .fails := by
  intro e' he' heq
  subst heq
  cases e with
  | server e =>
      obtain rfl : Event.fails = e := by simpa [WorldEvent.toSession] using he'
      cases hok
  | _ => simp [WorldEvent.toSession] at he'

/-- The session is killed, or the invariants of its server hold. -/
theorem session_facts (hok : ∀ e ∈ es, e.callsSucceed) :
    run step (start pid fds ignored executorId) es = some w →
      w.session.system.control = .killed ∨
        (Session.Counts w.session ∧
          w.session.system.Inv (System.start pid fds ignored).sigalrm ∧
          Session.Conforms { executorId := executorId } w.session) := by
  intro hrun
  have hsession := session_run hrun
  have hnofail : ∀ e ∈ SessionEvent.send .readStdin :: es.flatMap WorldEvent.toSession,
      e ≠ .server .fails := by
    intro e he
    rcases List.mem_cons.1 he with rfl | he
    · simp
    · rcases List.mem_flatMap.1 he with ⟨e', he', hmem⟩
      exact toSession_ne_fails (hok e' he') e hmem
  have hsystem := Session.system_inv_run hsession
  rcases Session.inv_run hnofail hsession with hkilled | ⟨done, todo, sts, hat⟩
  · exact Or.inl hkilled
  · exact Or.inr ⟨hat.counts hsystem, hsystem, hat.conforms hsystem⟩

theorem killed_step {e : WorldEvent} :
    w.session.system.control = .killed → w.step e = some w' →
      w'.session.system.control = .killed := by
  intro hkilled hstep
  refine invariant_run (I := fun σ : Session => σ.system.control = .killed) ?_ hkilled
    (session_step hstep)
  intro σ e σ' hkilled hstep
  cases e with
  | send c =>
      obtain ⟨_, rfl⟩ := Session.send_eq_some.1 hstep
      exact hkilled
  | close =>
      cases hstep
      exact hkilled
  | server e =>
      rcases Session.server_eq_some.1 hstep with ⟨s, _, hs, _, _, rfl⟩
      exact System.killed_step hkilled hs

theorem live_run (hok : ∀ e ∈ es, e.callsSucceed) :
    run step (start pid fds ignored executorId) es = some w →
      w.session.system.control = .killed ∨ Live w := by
  intro hrun
  -- the step needs what the session has kept so far, so the induction carries the events
  refine history_run_of_forall (P := fun _ w => w.session.system.control = .killed ∨ Live w)
    (Or.inr start_live) ?_ hok hrun
  intro es w₁ e w₂ hok₁ hes ih _ he
  rcases ih with hkilled | hlive
  · exact Or.inl (killed_step hkilled he)
  · rcases session_facts hok₁ hes with hkilled | ⟨hcounts, hsystem, _⟩
    · exact Or.inl (killed_step hkilled he)
    · exact Or.inr (hlive.step hcounts hsystem he)

end World
end Utils
end FuzzufCc
