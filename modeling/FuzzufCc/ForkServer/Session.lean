import FuzzufCc.ForkServer.Timeout

/-!
# Session — a client, a pipe and the fork server

The client sends its calls into a pipe and the server reads them in pieces of any size.  `expected`
says what a session should show: each call in order, and for each `ExecutePUT` a fork with the
settings requested so far, the timer and one response.  The server refines it in every run, and it
never stops before the calls are served.
-/

namespace FuzzufCc
namespace ForkServer

open Transition

/-! ## What a session should show -/

def RuntimeSettings.apply (settings : RuntimeSettings) : Call → RuntimeSettings
  | .setPUTExecutionTimeout timeoutUs => { settings with timeoutUs := timeoutUs }
  | .readStdin => { settings with readStdin := true }
  | .saveStdoutStderr => { settings with saveStdoutStderr := true }
  | .executePUT => settings
  | .unknown _ => settings

/-- What an `ExecutePUT` shows before its response. -/
def launch (settings : RuntimeSettings) : List Obs :=
  [.call .executePUT, .fork settings, .setitimer settings.timeoutUs.toNat]

/-- The calls in order, and the executions with the final statuses of their PUTs.  Where the
statuses end, the last PUT is still running. -/
def expected (settings : RuntimeSettings) : List Call → List FinalStatus → List Obs
  | [], _ => []
  | .executePUT :: _, [] => launch settings
  | .executePUT :: cs, st :: sts => launch settings ++ .response st.response :: expected settings cs sts
  | .setPUTExecutionTimeout timeoutUs :: cs, sts =>
      .call (.setPUTExecutionTimeout timeoutUs) ::
        expected (settings.apply (.setPUTExecutionTimeout timeoutUs)) cs sts
  | .readStdin :: cs, sts => .call .readStdin :: expected (settings.apply .readStdin) cs sts
  | .saveStdoutStderr :: cs, sts =>
      .call .saveStdoutStderr :: expected (settings.apply .saveStdoutStderr) cs sts
  | .unknown c :: cs, sts => .call (.unknown c) :: expected (settings.apply (.unknown c)) cs sts

theorem expected_cons {settings : RuntimeSettings} {c : Call} {cs : List Call}
    {sts : List FinalStatus} : c ≠ .executePUT →
      expected settings (c :: cs) sts = .call c :: expected (settings.apply c) cs sts := by
  intro hc
  cases c with
  | executePUT => exact absurd rfl hc
  | _ => simp [expected]

theorem launch_isPrefix (settings : RuntimeSettings) (cs : List Call) (sts : List FinalStatus) :
    launch settings <+: expected settings (.executePUT :: cs) sts := by
  cases sts with
  | nil => exact List.prefix_refl _
  | cons st sts => exact List.prefix_append _ _

theorem expected_append (settings : RuntimeSettings) (cs cs' : List Call)
    (sts sts' : List FinalStatus) : sts.length = cs.count .executePUT →
      expected settings (cs ++ cs') (sts ++ sts') =
        expected settings cs sts ++ expected (cs.foldl RuntimeSettings.apply settings) cs' sts' := by
  intro hlen
  induction cs generalizing settings sts with
  | nil =>
      obtain rfl : sts = [] := by simpa using hlen
      simp [expected]
  | cons c cs ih =>
      -- an `ExecutePUT` takes one status, any other call none
      by_cases hc : c = .executePUT
      · subst hc
        cases sts with
        | nil => simp at hlen
        | cons st sts =>
            have hrest := ih settings sts (by simpa using hlen)
            simp [expected, RuntimeSettings.apply, hrest]
      · have hrest := ih (settings.apply c) sts (by simpa [List.count_cons, hc] using hlen)
        simp [expected_cons hc, hrest]

/-! ## The session -/

structure Session where
  system : System
  -- what the client has sent and the server has not read
  pipe : List Byte
  -- the client has closed its end
  closed : Bool
  sent : List Call
  deriving DecidableEq, Repr

inductive SessionEvent
  | send (c : Call)
  | close
  | server (e : Event)
  deriving DecidableEq, Repr

namespace Session

/-- A `read` returns bytes of the pipe, and the end of the file only behind the last one. -/
def step (σ : Session) : SessionEvent → Option Session
  | .send c =>
      if σ.closed then none
      else some { σ with pipe := σ.pipe ++ c.send, sent := σ.sent ++ [c] }
  | .close => some { σ with closed := true }
  | .server (.read data) =>
      if data.isPrefixOf σ.pipe && (!data.isEmpty || (σ.pipe.isEmpty && σ.closed)) then
        (σ.system.step (.read data)).map fun s =>
          { σ with system := s, pipe := σ.pipe.drop data.length }
      else none
  | .server e => (σ.system.step e).map fun s => { σ with system := s }

end Session

/-- The server when the handshake is complete. -/
def System.ready (pid : Int) (fds : FdTable) (ignored : Bool) (executorId : BitVec 64) : System :=
  { System.start pid fds ignored with
    settings := { executorId := executorId }
    control := .waitForAPICall [] }

/-- A client that sends its id leads the server there. -/
theorem System.run_handshake (pid : Int) (fds : FdTable) (ignored : Bool)
    {executorId : BitVec 64} : executorId ≠ HANDSHAKE_FAILED →
      run System.step (System.start pid fds ignored)
          [.read (bytesOf 8 executorId.toNat), .succeeds] =
        some (System.ready pid fds ignored executorId) := by
  intro hid
  have hvalue : BitVec.ofNat 64 (valueOf (bytesOf 8 executorId.toNat)) = executorId :=
    ofNat_valueOf_bytesOf 8 executorId rfl
  have hread : (System.start pid fds ignored).step (.read (bytesOf 8 executorId.toNat)) =
      some { System.start pid fds ignored with
        control := .tellClientServerHasStarted executorId } := by
    simp [System.step, System.readReturns, System.start, System.waitClientAttach, hvalue, hid]
  exact run_cons_eq_some.2 ⟨_, hread, rfl⟩

def Session.start (pid : Int) (fds : FdTable) (ignored : Bool) (executorId : BitVec 64) :
    Session where
  system := System.ready pid fds ignored executorId
  pipe := []
  closed := false
  sent := []

/-! ## Decoding -/

/-- The first four bytes of the stream are the next command, its value follows. -/
theorem command_of_stream {bs rest : List Byte} {todo : List Call} (hlen : bs.length = 4) :
    bs ++ rest = sendAll todo →
      ∃ c cs, todo = c :: cs ∧ BitVec.ofNat 32 (valueOf bs) = c.command ∧
        rest = c.payload ++ sendAll cs := by
  intro h
  cases todo with
  | nil =>
      have := congrArg List.length h
      simp [hlen] at this
  | cons c cs =>
      rw [sendAll_cons, Call.send, List.append_assoc] at h
      rcases List.append_inj h (by simp [hlen]) with ⟨rfl, hrest⟩
      exact ⟨c, cs, rfl, ofNat_valueOf_bytesOf 4 c.command rfl, hrest⟩

theorem value_of_stream {bs rest tail : List Byte} {timeoutUs : BitVec 64} (hlen : bs.length = 8) :
    bs ++ rest = bytesOf 8 timeoutUs.toNat ++ tail →
      BitVec.ofNat 64 (valueOf bs) = timeoutUs ∧ rest = tail := by
  intro h
  rcases List.append_inj h (by simp [hlen]) with ⟨rfl, hrest⟩
  exact ⟨ofNat_valueOf_bytesOf 8 timeoutUs rfl, hrest⟩

/-- A stream of less than four bytes holds no call. -/
theorem todo_nil_of_short {bs : List Byte} {todo : List Call} (hlen : bs.length < 4) :
    bs = sendAll todo → bs = [] ∧ todo = [] := by
  intro h
  cases todo with
  | nil => exact ⟨h, rfl⟩
  | cons c cs =>
      have := congrArg List.length h
      simp [sendAll_cons, Call.send] at this
      omega

namespace System

variable (s : System)

/-- The `switch`, for the command of a call. -/
theorem switch_command (c : Call) :
    s.switch c.command =
      match c with
      | .setPUTExecutionTimeout _ => { s with control := .recvU64 [] }
      | .executePUT => { s with trace := s.trace ++ [.call .executePUT], control := .fork }
      | c =>
          { s with
            settings := s.settings.apply c
            trace := s.trace ++ [.call c]
            control := .waitForAPICall [] } := by
  cases c with
  | unknown c =>
      simp [switch, Call.command, c.ne_set, c.ne_read, c.ne_save, c.ne_execute,
        RuntimeSettings.apply]
  | _ => simp [switch, Call.command, ForkServerAPI.code, RuntimeSettings.apply]

/-- The timer is set to the timeout. -/
theorem setitimer_trace :
    s.setitimer.trace = s.trace ++ [.setitimer s.settings.timeoutUs.toNat] := by
  have hsum : (s.settings.timeoutUs / (1000 * 1000)).toNat * (1000 * 1000) +
      (s.settings.timeoutUs % (1000 * 1000)).toNat = s.settings.timeoutUs.toNat := by
    rw [BitVec.toNat_udiv, BitVec.toNat_umod]
    exact Nat.div_add_mod' _ _
  simp only [setitimer, hsum]

end System

/-- The bytes that a step takes from the pipe. -/
def Event.consumed : Event → List Byte
  | .read data => data
  | _ => []

theorem Session.send_eq_some {σ σ' : Session} {c : Call} :
    σ.step (.send c) = some σ' ↔
      σ.closed = false ∧ σ' = { σ with pipe := σ.pipe ++ c.send, sent := σ.sent ++ [c] } := by
  cases hclosed : σ.closed <;> simp [step, hclosed, eq_comm]

theorem Session.server_eq_some {σ σ' : Session} {e : Event} :
    σ.step (.server e) = some σ' ↔
      ∃ s pipe, σ.system.step e = some s ∧ σ.pipe = e.consumed ++ pipe ∧
        (e = .read [] → σ.pipe = [] ∧ σ.closed) ∧ σ' = { σ with system := s, pipe := pipe } := by
  cases e with
  | read data =>
      simp only [step]
      split_ifs with h
      · rcases Bool.and_eq_true_iff.1 h with ⟨hpre, hnil⟩
        rcases List.isPrefixOf_iff_prefix.1 hpre with ⟨rest, hrest⟩
        -- what is not read stays in the pipe
        have hdrop : σ.pipe.drop data.length = rest := by
          rw [← hrest]
          exact List.drop_left
        rw [hdrop, Option.map_eq_some_iff]
        constructor
        · rintro ⟨s, hs, rfl⟩
          refine ⟨s, rest, hs, hrest.symm, fun he => ?_, rfl⟩
          cases he
          simpa using hnil
        · rintro ⟨s, pipe, hs, hpipe, _, rfl⟩
          obtain rfl : rest = pipe := List.append_cancel_left (hrest.trans hpipe)
          exact ⟨s, hs, rfl⟩
      · refine iff_of_false (by simp) ?_
        rintro ⟨s, pipe, _, hpipe, hnil, rfl⟩
        apply h
        have hpre : data.isPrefixOf σ.pipe := List.isPrefixOf_iff_prefix.2 ⟨pipe, hpipe.symm⟩
        cases data with
        | nil => simp [hnil rfl]
        | cons b bs => simp [hpre]
  | _ =>
      simp only [step, Event.consumed, List.nil_append, Option.map_eq_some_iff]
      constructor
      · rintro ⟨s, hs, rfl⟩
        exact ⟨s, σ.pipe, hs, rfl, fun he => (by cases he), rfl⟩
      · rintro ⟨s, pipe, hs, rfl, _, rfl⟩
        exact ⟨s, hs, rfl⟩

/-! ## The invariant of a session -/

/-- What the current `ExecutePUT` has shown so far. -/
def Control.shown (settings : RuntimeSettings) : Control → List Obs
  | .fork => [.call .executePUT]
  | .setitimer => [.call .executePUT, .fork settings]
  | .sigaction | .waitpid | .write _ => launch settings
  | _ => []

/-- The server has the calls `todo` before it, the first of them perhaps read in part. -/
def Awaits (pipe : List Byte) (todo : List Call) : Control → Prop
  | .waitForAPICall buf => buf.length < 4 ∧ buf ++ pipe = sendAll todo
  | .recvU64 buf =>
      buf.length < 8 ∧ ∃ timeoutUs cs, todo = .setPUTExecutionTimeout timeoutUs :: cs ∧
        buf ++ pipe = bytesOf 8 timeoutUs.toNat ++ sendAll cs
  | .fork | .setitimer | .sigaction | .waitpid | .write _ =>
      ∃ cs, todo = .executePUT :: cs ∧ pipe = sendAll cs
  | .exited => pipe = [] ∧ todo = []
  | _ => False

/-- The reaped PUTs have the final statuses `sts`, and behind them that of the response that is
being written. -/
def Reaped (past : List (Put × FinalStatus)) (sts : List FinalStatus) : Control → Prop
  | .write r => ∃ st, past.map (·.2) = sts ++ [st] ∧ r = st.response
  | _ => past.map (·.2) = sts

namespace Session

/-- The calls `done` are served, with the final statuses `sts`. -/
structure At (initial : RuntimeSettings) (σ : Session) (done todo : List Call)
    (sts : List FinalStatus) : Prop where
  sent : σ.sent = done ++ todo
  settings : σ.system.settings = done.foldl RuntimeSettings.apply initial
  executed : sts.length = done.count .executePUT
  trace : σ.system.trace = expected initial done sts ++ σ.system.control.shown σ.system.settings
  input : Awaits σ.pipe todo σ.system.control
  statuses : Reaped σ.system.past sts σ.system.control
  exited : σ.system.control = .exited → σ.closed = true

/-- A session that no signal has ended. -/
def Inv (initial : RuntimeSettings) (σ : Session) : Prop :=
  σ.system.control = .killed ∨ ∃ done todo sts, At initial σ done todo sts

variable {initial : RuntimeSettings} {σ : Session} {done todo : List Call}
  {sts : List FinalStatus}

/-- A step within a call: what it shows is the next part of the current `ExecutePUT`. -/
theorem At.advance (hat : At initial σ done todo sts) {s : System} {pipe : List Byte}
    (obs : List Obs) (hsettings : s.settings = σ.system.settings)
    (htrace : s.trace = σ.system.trace ++ obs)
    (hshown : s.control.shown s.settings = σ.system.control.shown σ.system.settings ++ obs)
    (hinput : Awaits pipe todo s.control) (hstatuses : Reaped s.past sts s.control)
    (hexited : s.control = .exited → σ.closed = true) :
    At initial { σ with system := s, pipe := pipe } done todo sts where
  sent := hat.sent
  settings := hsettings.trans hat.settings
  executed := hat.executed
  trace := by
    calc s.trace
        = σ.system.trace ++ obs := htrace
      _ = (expected initial done sts ++ σ.system.control.shown σ.system.settings) ++ obs := by
            rw [hat.trace]
      _ = expected initial done sts ++ s.control.shown s.settings := by
            rw [hshown, List.append_assoc]
  input := hinput
  statuses := hstatuses
  exited := hexited

/-- A call other than `ExecutePUT` is served. -/
theorem At.served (hat : At initial σ done todo sts) {c : Call} {cs : List Call}
    {pipe : List Byte} (hc : c ≠ .executePUT) (htodo : todo = c :: cs)
    (hshown : σ.system.control.shown σ.system.settings = [])
    (hstatuses : σ.system.past.map (·.2) = sts) (hpipe : pipe = sendAll cs) :
    At initial
      { σ with
        system := { σ.system with
          settings := σ.system.settings.apply c
          trace := σ.system.trace ++ [.call c]
          control := .waitForAPICall [] }
        pipe := pipe } (done ++ [c]) cs sts where
  sent := by
    rw [hat.sent, htodo]
    simp
  settings := by
    rw [List.foldl_append, ← hat.settings]
    rfl
  executed := by
    simpa [List.count_append, List.count_singleton, hc] using hat.executed
  trace := by
    calc σ.system.trace ++ [.call c]
        = expected initial done sts ++ [.call c] := by rw [hat.trace, hshown, List.append_nil]
      _ = expected initial done sts ++ expected (done.foldl RuntimeSettings.apply initial) [c] [] := by
            rw [expected_cons hc]
            rfl
      _ = expected initial (done ++ [c]) (sts ++ []) :=
            (expected_append initial done [c] sts [] hat.executed).symm
      _ = expected initial (done ++ [c]) sts ++ [] := by rw [List.append_nil, List.append_nil]
  input := ⟨by simp, by simpa using hpipe⟩
  statuses := hstatuses
  exited := by simp

/-- An `ExecutePUT` is served. -/
theorem At.executed_put (hat : At initial σ done todo sts) {r : ExecutePUTAPIResponse} :
    σ.system.control = .write r →
      ∃ cs st, At initial
        { σ with
          system := { σ.system with
            trace := σ.system.trace ++ [.response r], control := .waitForAPICall [] } }
        (done ++ [.executePUT]) cs (sts ++ [st]) := by
  intro hcontrol
  have hinput := hat.input
  have hreaped := hat.statuses
  rw [hcontrol] at hinput hreaped
  rcases hinput with ⟨cs, htodo, hpipe⟩
  rcases hreaped with ⟨st, hpast, rfl⟩
  refine ⟨cs, st, ?_, ?_, ?_, ?_, ⟨by simp, by simpa using hpipe⟩, hpast, by simp⟩
  · simpa [htodo] using hat.sent
  · simpa [RuntimeSettings.apply] using hat.settings
  · simpa using hat.executed
  · -- the call was announced before, and its response ends it
    calc σ.system.trace ++ [.response st.response]
        = expected initial done sts ++
            (Control.shown σ.system.settings (.write st.response) ++ [.response st.response]) := by
          rw [hat.trace, hcontrol, List.append_assoc]
      _ = expected initial done sts ++ expected σ.system.settings [.executePUT] [st] := by
          simp [Control.shown, expected]
      _ = expected initial (done ++ [.executePUT]) (sts ++ [st]) ++ [] := by
          rw [hat.settings, expected_append initial done _ sts _ hat.executed, List.append_nil]

/-- The command of the next call is complete. -/
theorem At.command (hat : At initial σ done todo sts) {buf data pipe : List Byte}
    (hcontrol : σ.system.control = .waitForAPICall buf) (hlen : (buf ++ data).length = 4)
    (hpipe : σ.pipe = data ++ pipe) :
    ∃ done todo, At initial
      { σ with
        system := σ.system.switch (BitVec.ofNat 32 (valueOf (buf ++ data))), pipe := pipe }
      done todo sts := by
  have hinput := hat.input
  have hreaped := hat.statuses
  rw [hcontrol] at hinput hreaped
  have hstream : (buf ++ data) ++ pipe = sendAll todo := by
    rw [List.append_assoc, ← hpipe]
    exact hinput.2
  rcases command_of_stream hlen hstream with ⟨c, cs, htodo, hcommand, hrest⟩
  rw [hcommand, System.switch_command]
  cases c with
  | setPUTExecutionTimeout timeoutUs =>
      -- the value is still to be read
      refine ⟨done, todo, hat.advance [] rfl (by simp) (by simp [hcontrol, Control.shown])
        ⟨by simp, timeoutUs, cs, htodo, ?_⟩ hreaped (by simp)⟩
      simpa [Call.payload] using hrest
  | executePUT =>
      -- the call is not done before its response is written
      refine ⟨done, todo, hat.advance [.call .executePUT] rfl rfl
        (by simp [hcontrol, Control.shown]) ⟨cs, htodo, ?_⟩ hreaped (by simp)⟩
      simpa [Call.payload] using hrest
  -- the other calls are complete with their command
  | readStdin =>
      exact ⟨_, cs, hat.served (by simp) htodo (by simp [hcontrol, Control.shown]) hreaped hrest⟩
  | saveStdoutStderr =>
      exact ⟨_, cs, hat.served (by simp) htodo (by simp [hcontrol, Control.shown]) hreaped hrest⟩
  | unknown c =>
      exact ⟨_, cs, hat.served (by simp) htodo (by simp [hcontrol, Control.shown]) hreaped hrest⟩

/-- The value of a timeout is complete. -/
theorem At.value (hat : At initial σ done todo sts) {buf data pipe : List Byte}
    (hcontrol : σ.system.control = .recvU64 buf) (hlen : (buf ++ data).length = 8)
    (hpipe : σ.pipe = data ++ pipe) :
    ∃ done todo, At initial { σ with system := σ.system.recvU64 (buf ++ data), pipe := pipe }
      done todo sts := by
  have hinput := hat.input
  have hreaped := hat.statuses
  rw [hcontrol] at hinput hreaped
  rcases hinput with ⟨_, timeoutUs, cs, htodo, hstream⟩
  rw [hpipe, ← List.append_assoc] at hstream
  rcases value_of_stream hlen hstream with ⟨hvalue, hrest⟩
  refine ⟨done ++ [.setPUTExecutionTimeout timeoutUs], cs, ?_⟩
  simp only [System.recvU64, hlen, lt_irrefl, if_false, hvalue]
  exact hat.served (by simp) htodo (by simp [hcontrol, Control.shown]) hreaped hrest

/-- The client has closed the pipe, and no call is left in it. -/
theorem At.eof (hat : At initial σ done todo sts) {buf : List Byte}
    (hcontrol : σ.system.control = .waitForAPICall buf ∨ σ.system.control = .recvU64 buf)
    (hnil : σ.pipe = []) (hclosed : σ.closed = true) :
    At initial { σ with system := σ.system.exit, pipe := [] } done todo sts := by
  have hinput := hat.input
  have hreaped := hat.statuses
  rcases hcontrol with hcontrol | hcontrol
  · rw [hcontrol] at hinput hreaped
    rcases hinput with ⟨hlen, hstream⟩
    rw [hnil, List.append_nil] at hstream
    have htodo := (todo_nil_of_short hlen hstream).2
    exact hat.advance [] rfl (by simp [System.exit])
      (by simp [hcontrol, Control.shown, System.exit]) ⟨rfl, htodo⟩ hreaped (fun _ => hclosed)
  · -- a timeout has eight bytes
    rw [hcontrol] at hinput
    rcases hinput with ⟨hlen, timeoutUs, cs, _, hstream⟩
    have := congrArg List.length hstream
    simp [hnil] at this
    omega

/-- Steps that change neither the place of the server nor what the client sees. -/
theorem At.frame (hat : At initial σ done todo sts) {s : System}
    (hsettings : s.settings = σ.system.settings) (htrace : s.trace = σ.system.trace)
    (hcontrol : s.control = σ.system.control) (hpast : s.past = σ.system.past) :
    At initial { σ with system := s } done todo sts := by
  refine hat.advance [] hsettings (by simp [htrace]) (by simp [hcontrol, hsettings]) ?_ ?_ ?_
  · rw [hcontrol]
    exact hat.input
  · rw [hcontrol, hpast]
    exact hat.statuses
  · rw [hcontrol]
    exact hat.exited

/-- **One step of the server**, unless a system call fails. -/
theorem At.server (hat : At initial σ done todo sts) {e : Event} {s : System} {pipe : List Byte}
    (hstep : Step σ.system e s) (hpipe : σ.pipe = e.consumed ++ pipe)
    (heof : e = .read [] → σ.pipe = [] ∧ σ.closed) (hok : e ≠ .fails) :
    Inv initial { σ with system := s, pipe := pipe } := by
  have hinput := hat.input
  have hreaped := hat.statuses
  cases hstep with
  -- the handshake is behind the server
  | handshakeFails hcontrol _ =>
      rw [hcontrol] at hinput
      exact hinput.elim
  | attached _ hcontrol =>
      rw [hcontrol] at hinput
      exact hinput.elim
  | told hcontrol =>
      rw [hcontrol] at hinput
      exact hinput.elim
  | moreCommand hcontrol hne hlen =>
      rw [hcontrol] at hinput hreaped
      refine Or.inr ⟨done, todo, sts, hat.advance [] rfl (by simp)
        (by simp [hcontrol, Control.shown]) ⟨hlen, ?_⟩ hreaped (by simp)⟩
      rw [List.append_assoc, ← hinput.2, hpipe]
      rfl
  | command hcontrol hne hlen =>
      rcases hat.command hcontrol hlen hpipe with ⟨done', todo', hat'⟩
      exact Or.inr ⟨done', todo', sts, hat'⟩
  | moreU64 hcontrol hne hlen =>
      rw [hcontrol] at hinput hreaped
      rcases hinput with ⟨_, timeoutUs, cs, htodo, hstream⟩
      refine Or.inr ⟨done, todo, sts, hat.advance [] rfl (by simp)
        (by simp [hcontrol, Control.shown]) ⟨hlen, timeoutUs, cs, htodo, ?_⟩ hreaped (by simp)⟩
      rw [List.append_assoc, ← hstream, hpipe]
      rfl
  | u64 hcontrol hne hlen =>
      rcases hat.value hcontrol hlen hpipe with ⟨done', todo', hat'⟩
      exact Or.inr ⟨done', todo', sts, hat'⟩
  | readAgain _ =>
      obtain rfl : σ.pipe = pipe := hpipe
      exact Or.inr ⟨done, todo, sts, hat⟩
  | waitAgain hcontrol he =>
      -- an interruption or a stop of the PUT shows nothing
      obtain rfl : σ.pipe = pipe := by
        rcases he with rfl | ⟨_, rfl⟩ <;> exact hpipe
      exact Or.inr ⟨done, todo, sts, hat.frame rfl rfl rfl rfl⟩
  | fork hcontrol _ =>
      obtain rfl : σ.pipe = pipe := hpipe
      rw [hcontrol] at hinput hreaped
      exact Or.inr ⟨done, todo, sts, hat.advance [.fork σ.system.settings] rfl rfl
        (by simp [hcontrol, Control.shown, System.forked]) hinput hreaped (by simp [System.forked])⟩
  | setitimer hcontrol =>
      obtain rfl : σ.pipe = pipe := hpipe
      rw [hcontrol] at hinput hreaped
      exact Or.inr ⟨done, todo, sts, hat.advance [.setitimer σ.system.settings.timeoutUs.toNat] rfl
        (System.setitimer_trace _) (by simp [hcontrol, Control.shown, launch, System.setitimer])
        hinput hreaped (by simp [System.setitimer])⟩
  | sigaction hcontrol =>
      obtain rfl : σ.pipe = pipe := hpipe
      rw [hcontrol] at hinput hreaped
      exact Or.inr ⟨done, todo, sts, hat.advance [] rfl (by simp [System.sigaction])
        (by simp [hcontrol, Control.shown, System.sigaction]) hinput hreaped
        (by simp [System.sigaction])⟩
  | reaped hcontrol _ _ =>
      -- the status is the one that the response will encode
      obtain rfl : σ.pipe = pipe := hpipe
      rw [hcontrol] at hinput hreaped
      refine Or.inr ⟨done, todo, sts, hat.advance [] rfl (by simp [System.logTimeout])
        (by simp [hcontrol, Control.shown, System.logTimeout]) hinput ⟨_, ?_, rfl⟩ (by simp)⟩
      have hpast : σ.system.past.map (·.2) = sts := hreaped
      simp [hpast]
  | write hcontrol =>
      obtain rfl : σ.pipe = pipe := hpipe
      rcases hat.executed_put hcontrol with ⟨cs, st, hat'⟩
      exact Or.inr ⟨_, cs, _, hat'⟩
  | exit _ => exact absurd rfl hok
  | eof hcontrol =>
      rcases heof rfl with ⟨hnil, hclosed⟩
      obtain rfl : pipe = [] := hpipe.symm.trans hnil
      exact Or.inr ⟨done, todo, sts, hat.eof hcontrol hnil hclosed⟩
  | putEnds _ _ _ =>
      obtain rfl : σ.pipe = pipe := hpipe
      exact Or.inr ⟨done, todo, sts, hat.frame rfl rfl rfl rfl⟩
  | moves =>
      obtain rfl : σ.pipe = pipe := hpipe
      exact Or.inr ⟨done, todo, sts, hat.frame rfl rfl rfl rfl⟩
  -- a timeout is invisible to the client until the PUT is reaped
  | expiresByDefault _ _ => exact Or.inl rfl
  | expiresIgnored _ _ =>
      obtain rfl : σ.pipe = pipe := hpipe
      exact Or.inr ⟨done, todo, sts, hat.frame rfl rfl rfl rfl⟩
  | expires _ _ =>
      obtain rfl : σ.pipe = pipe := hpipe
      exact Or.inr ⟨done, todo, sts, hat.frame rfl rfl rfl rfl⟩
  | terminated _ => exact Or.inl rfl

theorem At.send (hat : At initial σ done todo sts) (c : Call) : σ.closed = false →
    At initial { σ with pipe := σ.pipe ++ c.send, sent := σ.sent ++ [c] } done (todo ++ [c]) sts := by
  intro hopen
  refine ⟨by simp [hat.sent], hat.settings, hat.executed, hat.trace, ?_, hat.statuses, hat.exited⟩
  have hinput := hat.input
  have hall : ∀ cs, sendAll (cs ++ [c]) = sendAll cs ++ c.send := by
    intro cs
    calc sendAll (cs ++ [c])
        = sendAll cs ++ sendAll [c] := sendAll_append cs [c]
      _ = sendAll cs ++ c.send := by rw [sendAll_cons, sendAll_nil, List.append_nil]
  cases hcontrol : σ.system.control with
  | waitForAPICall buf =>
      rw [hcontrol] at hinput
      refine ⟨hinput.1, ?_⟩
      rw [hall, ← hinput.2, List.append_assoc]
  | recvU64 buf =>
      rw [hcontrol] at hinput
      rcases hinput with ⟨hlen, timeoutUs, cs, htodo, hstream⟩
      refine ⟨hlen, timeoutUs, cs ++ [c], by simp [htodo], ?_⟩
      calc buf ++ (σ.pipe ++ c.send)
          = (buf ++ σ.pipe) ++ c.send := (List.append_assoc buf σ.pipe c.send).symm
        _ = bytesOf 8 timeoutUs.toNat ++ (sendAll cs ++ c.send) := by
              rw [hstream, List.append_assoc]
        _ = bytesOf 8 timeoutUs.toNat ++ sendAll (cs ++ [c]) := by rw [hall]
  | exited =>
      have hclosed := hat.exited hcontrol
      simp [hopen] at hclosed
  | waitClientAttach => simp [hcontrol, Awaits] at hinput
  | tellClientServerHasStarted _ => simp [hcontrol, Awaits] at hinput
  | standalone => simp [hcontrol, Awaits] at hinput
  | killed => simp [hcontrol, Awaits] at hinput
  | _ =>
      rw [hcontrol] at hinput
      rcases hinput with ⟨cs, htodo, hpipe⟩
      exact ⟨cs ++ [c], by simp [htodo], by rw [hall, hpipe]⟩

end Session

namespace Session

variable {initial : RuntimeSettings} {σ σ' : Session}

/-- **One step of a session**, unless a system call fails. -/
theorem Inv.step (hinv : Inv initial σ) {e : SessionEvent} :
    e ≠ .server .fails → σ.step e = some σ' → Inv initial σ' := by
  intro hok hstep
  cases e with
  | send c =>
      obtain ⟨hopen, rfl⟩ := send_eq_some.1 hstep
      rcases hinv with hkilled | ⟨done, todo, sts, hat⟩
      · exact Or.inl hkilled
      · exact Or.inr ⟨done, todo ++ [c], sts, hat.send c hopen⟩
  | close =>
      cases hstep
      rcases hinv with hkilled | ⟨done, todo, sts, hat⟩
      · exact Or.inl hkilled
      · exact Or.inr ⟨done, todo, sts, hat.sent, hat.settings, hat.executed, hat.trace, hat.input,
          hat.statuses, fun _ => rfl⟩
  | server e =>
      rcases server_eq_some.1 hstep with ⟨s, pipe, hs, hpipe, heof, rfl⟩
      rcases hinv with hkilled | ⟨done, todo, sts, hat⟩
      · exact Or.inl (System.killed_step hkilled hs)
      · exact hat.server (System.step_cases hs) hpipe heof fun he => hok (he ▸ rfl)

theorem start_at (pid : Int) (fds : FdTable) (ignored : Bool) (executorId : BitVec 64) :
    At { executorId := executorId } (start pid fds ignored executorId) [] [] [] where
  sent := rfl
  settings := rfl
  executed := rfl
  trace := rfl
  input := ⟨by simp, rfl⟩
  statuses := rfl
  exited := by simp [start, System.ready]

theorem inv_run {pid : Int} {fds : FdTable} {ignored : Bool} {executorId : BitVec 64}
    {es : List SessionEvent} (hok : ∀ e ∈ es, e ≠ .server .fails) :
    run step (start pid fds ignored executorId) es = some σ →
      Inv { executorId := executorId } σ := by
  intro hrun
  refine invariant_allSteps (P := fun _ e => e ≠ .server .fails)
    (fun _ _ _ h hne hstep => h.step hne hstep)
    (Or.inr ⟨[], [], [], start_at pid fds ignored executorId⟩) ?_ hrun
  exact allSteps_of_forall (fun e he _ => hok e he) _

end Session

/-! ## Progress -/

/-- The event brings the session forward; the others interrupt it. -/
def Event.productive : Event → Bool
  | .read _ | .fork _ _ | .succeeds | .reaped | .putEnds _ _ => true
  | _ => false

def SessionEvent.productive : SessionEvent → Bool
  | .server e => e.productive
  | _ => false

def SessionEvent.isSend : SessionEvent → Bool
  | .send _ => true
  | _ => false

namespace System

def alive (s : System) : Nat :=
  s.child.elim 0 fun c => if c.ended.isNone then 1 else 0

/-- The number of steps that the server has before it without reading on. -/
def stepsLeft : Control → Nat
  | .waitClientAttach => 3
  | .tellClientServerHasStarted _ => 2
  | .waitForAPICall _ => 1
  | .recvU64 _ => 1
  | .fork => 7
  | .setitimer => 5
  | .sigaction => 4
  | .waitpid => 3
  | .write _ => 2
  | .standalone | .exited | .killed => 0

/-- The steps of the server and the end of the PUT. -/
def phase (s : System) : Nat :=
  stepsLeft s.control + s.alive

variable {s s' : System}

theorem alive_putTimeoutHandler (armedBy : Nat) (errno : Int) :
    (s.putTimeoutHandler armedBy errno).alive = s.alive := by
  cases htarget : s.target with
  | none => simp [alive, putTimeoutHandler, htarget]
  | some c =>
      have hchild : s.child = some c := (target_eq_some.1 htarget).1
      simp [alive, putTimeoutHandler, htarget, hchild]

theorem phase_switch (command : BitVec 32) : (s.switch command).phase ≤ 7 + s.alive := by
  simp only [switch]
  split_ifs <;> simp [phase, stepsLeft, alive]

/-- A step that leaves the child alone changes the phase by what is left to the server. -/
theorem phase_le {a b : Nat} (hchild : s'.child = s.child) :
    stepsLeft s'.control + a ≤ stepsLeft s.control + b → s'.phase + a ≤ s.phase + b := by
  intro hsteps
  have halive : s'.alive = s.alive := by rw [alive, alive, hchild]
  simp only [phase, halive]
  omega

/-- A productive step takes a byte or makes the rest of the call shorter; one byte can at most
complete the command of an execution. -/
theorem phase_step {e : Event} :
    Step s e s' →
      s'.phase + (if e.productive then 1 else 0) ≤ s.phase + 8 * e.consumed.length := by
  intro hstep
  cases hstep with
  | handshakeFails hcontrol he =>
      apply phase_le (by rfl)
      rcases he with ⟨_, rfl⟩ | rfl | rfl <;> simp [hcontrol, stepsLeft, Event.productive]
      omega
  | attached _ hcontrol _ _ _ =>
      apply phase_le (by rfl)
      simp [hcontrol, stepsLeft, Event.productive]
  | told hcontrol =>
      apply phase_le (by rfl)
      simp [hcontrol, stepsLeft, Event.productive]
  | moreCommand hcontrol hne _ =>
      have hpos := List.length_pos_iff.2 hne
      apply phase_le (by rfl)
      simp only [hcontrol, stepsLeft, Event.productive, Event.consumed, if_true]
      omega
  | @command buf data hcontrol hne _ =>
      -- the byte that completes an `ExecutePUT` pays for all its steps
      have hpos := List.length_pos_iff.2 hne
      have hswitch := phase_switch (s := s) (BitVec.ofNat 32 (valueOf (buf ++ data)))
      have hphase : s.phase = 1 + s.alive := by rw [phase, hcontrol, stepsLeft]
      simp only [Event.productive, Event.consumed, if_true]
      omega
  | moreU64 hcontrol hne _ =>
      have hpos := List.length_pos_iff.2 hne
      apply phase_le (by rfl)
      simp only [hcontrol, stepsLeft, Event.productive, Event.consumed, if_true]
      omega
  | u64 hcontrol hne hlen =>
      have hpos := List.length_pos_iff.2 hne
      apply phase_le (recvU64_same hlen).1.child
      simp only [hcontrol, recvU64, hlen, stepsLeft, Event.productive, Event.consumed, if_true]
      simp
      omega
  | readAgain _ => simp [Event.productive, Event.consumed]
  | waitAgain _ he =>
      apply phase_le (by rfl)
      rcases he with rfl | ⟨_, rfl⟩ <;> simp [Event.productive, Event.consumed, logTimeout]
  | fork hcontrol _ =>
      -- the new PUT is alive, and its end is one of the steps to come
      simp [phase, hcontrol, forked, stepsLeft, Event.productive, alive]
      omega
  | setitimer hcontrol =>
      apply phase_le (by rfl)
      simp [hcontrol, setitimer, stepsLeft, Event.productive]
  | sigaction hcontrol =>
      apply phase_le (by rfl)
      simp [hcontrol, sigaction, stepsLeft, Event.productive]
  | reaped hcontrol _ _ =>
      simp [phase, hcontrol, stepsLeft, Event.productive, alive]
      omega
  | write hcontrol =>
      apply phase_le (by rfl)
      simp [hcontrol, stepsLeft, Event.productive]
  | exit _ =>
      apply phase_le (by rfl)
      simp [exit, stepsLeft, Event.productive]
  | eof hcontrol =>
      apply phase_le (by rfl)
      rcases hcontrol with hcontrol | hcontrol <;>
        simp [hcontrol, exit, stepsLeft, Event.productive]
  | putEnds hchild hended _ => simp [phase, hchild, hended, Event.productive, alive]
  | moves =>
      apply phase_le (by rfl)
      simp [Event.productive]
  | expiresByDefault _ _ =>
      apply phase_le (by rfl)
      simp [stepsLeft, Event.productive]
  | expiresIgnored _ _ =>
      apply phase_le (by rfl)
      simp [Event.productive]
  | expires _ _ =>
      rw [phase, alive_putTimeoutHandler]
      simp [phase, putTimeoutHandler, Event.productive]
  | terminated _ =>
      apply phase_le (by rfl)
      simp [stepsLeft, Event.productive]

end System

namespace Session

/-- An upper bound for the number of productive events, if nothing more is sent. -/
def work (σ : Session) : Nat :=
  8 * σ.pipe.length + σ.system.phase

variable {initial : RuntimeSettings} {σ σ' : Session}

theorem work_step {e : SessionEvent} :
    e.isSend = false → σ.step e = some σ' →
      σ'.work + (if e.productive then 1 else 0) ≤ σ.work := by
  intro hsend hstep
  cases e with
  | send c => cases hsend
  | close =>
      cases hstep
      exact le_rfl
  | server e =>
      rcases server_eq_some.1 hstep with ⟨s, pipe, hs, hpipe, _, rfl⟩
      have hphase := System.phase_step (System.step_cases hs)
      have hlen : σ.pipe.length = e.consumed.length + pipe.length := by
        rw [hpipe, List.length_append]
      have hproductive : (SessionEvent.server e).productive = e.productive := rfl
      rw [hproductive]
      simp only [work, hlen]
      omega

/-- The server waits for a call, and none is on the way. -/
def Idle (σ : Session) : Prop :=
  σ.system.control = .waitForAPICall [] ∧ σ.pipe = []

theorem recv_isSome {size : Nat} {buf : List Byte} (b : Byte) :
    buf.length < size → (recv size buf [b]).isSome := by
  intro hlen
  have hle : (buf ++ [b]).length ≤ size := by simpa using Nat.succ_le_of_lt hlen
  simp only [recv, hlen, hle, and_self, if_true]
  split_ifs <;> rfl

theorem server_isSome {e : Event} (hread : ∀ data, e ≠ .read data) :
    (σ.system.step e).isSome → (σ.step (.server e)).isSome := by
  intro h
  rcases Option.isSome_iff_exists.1 h with ⟨s, hs⟩
  have hconsumed : e.consumed = [] := by
    cases e with
    | read data => exact absurd rfl (hread data)
    | _ => rfl
  rw [Option.isSome_iff_exists]
  exact ⟨_, server_eq_some.2 ⟨s, σ.pipe, hs, by simp [hconsumed], fun he => absurd he (hread []), rfl⟩⟩

/-- A byte of the pipe can be read. -/
theorem read_isSome {b : Byte} {bs : List Byte} (hpipe : σ.pipe = b :: bs) :
    (σ.system.step (.read [b])).isSome → (σ.step (.server (.read [b]))).isSome := by
  intro h
  rcases Option.isSome_iff_exists.1 h with ⟨s, hs⟩
  rw [Option.isSome_iff_exists]
  exact ⟨_, server_eq_some.2 ⟨s, bs, hs, hpipe, fun he => (by cases he), rfl⟩⟩

/-- **The session does not get stuck.** -/
theorem At.progress {done todo : List Call} {sts : List FinalStatus} {disposition : Disposition}
    (hat : At initial σ done todo sts) (hsystem : σ.system.Inv disposition) :
    σ.Idle ∨ σ.system.control = .exited ∨
      ∃ e : Event, e.productive ∧ (σ.step (.server e)).isSome := by
  have hinput := hat.input
  cases hcontrol : σ.system.control with
  | waitClientAttach => simp [hcontrol, Awaits] at hinput
  | tellClientServerHasStarted _ => simp [hcontrol, Awaits] at hinput
  | standalone => simp [hcontrol, Awaits] at hinput
  | killed => simp [hcontrol, Awaits] at hinput
  | exited => exact Or.inr (Or.inl rfl)
  | waitForAPICall buf =>
      rw [hcontrol] at hinput
      rcases hinput with ⟨hlen, hstream⟩
      cases hpipe : σ.pipe with
      | nil =>
          rw [hpipe, List.append_nil] at hstream
          rw [(todo_nil_of_short hlen hstream).1] at hcontrol
          exact Or.inl ⟨hcontrol, hpipe⟩
      | cons b bs =>
          refine Or.inr (Or.inr ⟨.read [b], rfl, read_isSome hpipe ?_⟩)
          rcases Option.isSome_iff_exists.1 (recv_isSome b hlen) with ⟨r, hr⟩
          cases r <;> simp [System.step, System.readReturns, hcontrol, hr]
  | recvU64 buf =>
      rw [hcontrol] at hinput
      rcases hinput with ⟨hlen, timeoutUs, cs, _, hstream⟩
      cases hpipe : σ.pipe with
      | nil =>
          -- the value is always on the way
          have := congrArg List.length hstream
          simp [hpipe] at this
          omega
      | cons b bs =>
          refine Or.inr (Or.inr ⟨.read [b], rfl, read_isSome hpipe ?_⟩)
          rcases Option.isSome_iff_exists.1 (recv_isSome b hlen) with ⟨r, hr⟩
          cases r <;> simp [System.step, System.readReturns, hcontrol, hr]
  | fork =>
      refine Or.inr (Or.inr ⟨.fork 1 [], rfl, server_isSome (by simp) ?_⟩)
      simp [System.step, hcontrol]
  | setitimer =>
      refine Or.inr (Or.inr ⟨.succeeds, rfl, server_isSome (by simp) ?_⟩)
      simp [System.step, System.callSucceeds, hcontrol]
  | sigaction =>
      refine Or.inr (Or.inr ⟨.succeeds, rfl, server_isSome (by simp) ?_⟩)
      simp [System.step, System.callSucceeds, hcontrol]
  | write r =>
      refine Or.inr (Or.inr ⟨.succeeds, rfl, server_isSome (by simp) ?_⟩)
      simp [System.step, System.callSucceeds, hcontrol]
  | waitpid =>
      rcases hsystem.child (hcontrol ▸ trivial) with ⟨c, hchild, hpid⟩
      cases hended : c.ended with
      | none =>
          -- whatever the PUT does, it can end by `SIGKILL`
          refine Or.inr (Or.inr ⟨.putEnds (.signaled SIGKILL) false, rfl, server_isSome (by simp) ?_⟩)
          simp [System.step, hchild, hended, Child.canEnd]
      | some st =>
          have htarget := System.target_eq_some.2 ⟨hchild, hpid⟩
          refine Or.inr (Or.inr ⟨.reaped, rfl, server_isSome (by simp) ?_⟩)
          rcases c with ⟨put, killed, ended⟩
          cases hended
          simp [System.step, hcontrol, htarget]

end Session

/-! ## The refinement -/

/-- The final statuses of the reaped PUTs, in order. -/
def System.statuses (s : System) : List FinalStatus :=
  s.past.map (·.2)

namespace Session

variable {initial : RuntimeSettings} {σ : Session}

/-- The server shows the client what it should. -/
structure Conforms (initial : RuntimeSettings) (σ : Session) : Prop where
  -- nothing else at any time
  shown : σ.system.trace <+: expected initial σ.sent σ.system.statuses
  -- everything, as soon as the server waits again or has met the end of the file
  served : σ.Idle ∨ σ.system.control = .exited →
    σ.system.trace = expected initial σ.sent σ.system.statuses ∧
      σ.system.statuses.length = σ.sent.count .executePUT
  -- it runs until the client closes the pipe
  serving : σ.system.control.Serving ∨ (σ.system.control = .exited ∧ σ.closed ∧ σ.pipe = [])
  progress : σ.Idle ∨ σ.system.control = .exited ∨
    ∃ e : Event, e.productive ∧ (σ.step (.server e)).isSome

/-- What is shown of the current call belongs to it. -/
theorem At.shown_isPrefix {done todo : List Call} {sts : List FinalStatus}
    (hat : At initial σ done todo sts) :
    ∃ rest, σ.system.statuses = sts ++ rest ∧
      σ.system.control.shown σ.system.settings <+: expected σ.system.settings todo rest := by
  have hinput := hat.input
  have hreaped := hat.statuses
  cases hcontrol : σ.system.control with
  | write r =>
      -- the PUT is reaped, its response not yet written
      rw [hcontrol] at hinput hreaped
      rcases hinput with ⟨cs, rfl, _⟩
      rcases hreaped with ⟨st, hpast, _⟩
      exact ⟨[st], hpast, launch_isPrefix _ _ _⟩
  | fork =>
      rw [hcontrol] at hinput hreaped
      rcases hinput with ⟨cs, rfl, _⟩
      exact ⟨[], Eq.trans hreaped (List.append_nil sts).symm, by simp [Control.shown, expected, launch]⟩
  | setitimer =>
      rw [hcontrol] at hinput hreaped
      rcases hinput with ⟨cs, rfl, _⟩
      exact ⟨[], Eq.trans hreaped (List.append_nil sts).symm, by simp [Control.shown, expected, launch]⟩
  | sigaction =>
      rw [hcontrol] at hinput hreaped
      rcases hinput with ⟨cs, rfl, _⟩
      exact ⟨[], Eq.trans hreaped (List.append_nil sts).symm, launch_isPrefix _ _ _⟩
  | waitpid =>
      rw [hcontrol] at hinput hreaped
      rcases hinput with ⟨cs, rfl, _⟩
      exact ⟨[], Eq.trans hreaped (List.append_nil sts).symm, launch_isPrefix _ _ _⟩
  | _ =>
      rw [hcontrol] at hreaped
      exact ⟨[], Eq.trans hreaped (List.append_nil sts).symm, List.nil_prefix⟩

theorem At.conforms {done todo : List Call} {sts : List FinalStatus} {disposition : Disposition}
    (hat : At initial σ done todo sts) (hsystem : σ.system.Inv disposition) :
    Conforms initial σ := by
  have hinput := hat.input
  have hreaped := hat.statuses
  refine ⟨?_, ?_, ?_, hat.progress hsystem⟩
  · -- the served calls in full, and a part of the current one
    rcases hat.shown_isPrefix with ⟨rest, hrest, hshown⟩
    rw [hat.sent, hrest, expected_append initial done todo sts rest hat.executed, hat.trace,
      ← hat.settings]
    exact (List.prefix_append_right_inj _).2 hshown
  · intro hidle
    -- nothing is before the server any more
    have hdone : todo = [] ∧ σ.system.statuses = sts ∧
        σ.system.control.shown σ.system.settings = [] := by
      rcases hidle with ⟨hcontrol, hpipe⟩ | hcontrol
      · rw [hcontrol] at hinput hreaped
        rcases hinput with ⟨hlen, hstream⟩
        rw [hpipe] at hstream
        exact ⟨(todo_nil_of_short hlen hstream).2, hreaped, by simp [hcontrol, Control.shown]⟩
      · rw [hcontrol] at hinput hreaped
        exact ⟨hinput.2, hreaped, by simp [hcontrol, Control.shown]⟩
    rcases hdone with ⟨rfl, hstatuses, hshown⟩
    have hsent : σ.sent = done := hat.sent.trans (List.append_nil done)
    rw [hsent, hstatuses]
    refine ⟨?_, hat.executed⟩
    calc σ.system.trace
        = expected initial done sts ++ σ.system.control.shown σ.system.settings := hat.trace
      _ = expected initial done sts := by rw [hshown, List.append_nil]
  · cases hcontrol : σ.system.control with
    | exited =>
        rw [hcontrol] at hinput
        exact Or.inr ⟨rfl, hat.exited hcontrol, hinput.1⟩
    | standalone => simp [hcontrol, Awaits] at hinput
    | killed => simp [hcontrol, Awaits] at hinput
    | _ => exact Or.inl trivial

theorem system_inv_run {pid : Int} {fds : FdTable} {ignored : Bool} {executorId : BitVec 64}
    {es : List SessionEvent} :
    run step (start pid fds ignored executorId) es = some σ →
      σ.system.Inv (System.start pid fds ignored).sigalrm := by
  intro hrun
  refine invariant_run (I := fun σ => σ.system.Inv (System.start pid fds ignored).sigalrm)
    ?_ ?_ hrun
  · intro σ e σ' hinv hstep
    cases e with
    | send c =>
        obtain ⟨_, rfl⟩ := send_eq_some.1 hstep
        exact hinv
    | close =>
        cases hstep
        exact hinv
    | server e =>
        rcases server_eq_some.1 hstep with ⟨s, pipe, hs, _, _, rfl⟩
        exact hinv.step hs
  · -- the handshake leaves the kernel's part of the state as it is
    exact (System.start_inv pid fds ignored).idle ⟨rfl, rfl, rfl, rfl, rfl, rfl⟩
      ⟨trivial, fun h => h⟩ ⟨trivial, fun h => h⟩

/-- **The fork server serves every session.** However the calls arrive and whatever interrupts the
server, it shows what it should: each call once and in order, each execution with the timeout and
the flags requested before it, and its final status in exactly one response, which no other status
shares.  It goes on until the calls are served, in a bounded number of productive events. -/
theorem run_conforms {pid : Int} {fds : FdTable} {ignored : Bool} {executorId : BitVec 64}
    {es : List SessionEvent} (hrun : run step (start pid fds ignored executorId) es = some σ)
    (hok : ∀ e ∈ es, e ≠ .server .fails) (hlive : σ.system.control ≠ .killed) :
    Conforms { executorId := executorId } σ ∧
      (∀ es' σ', run step σ es' = some σ' → (∀ e ∈ es', e.isSend = false) →
        es'.countP SessionEvent.productive + σ'.work ≤ σ.work) ∧
      ∀ st st' : FinalStatus, st.response = st'.response → st = st' := by
  refine ⟨?_, ?_, fun _ _ => response_injective⟩
  · rcases inv_run hok hrun with hkilled | ⟨done, todo, sts, hat⟩
    · exact absurd hkilled hlive
    · exact hat.conforms (system_inv_run hrun)
  · intro es' σ' hrun' hsends
    exact countP_add_le (I := fun _ => True) (P := fun _ e => e.isSend = false)
      (fun _ _ _ _ _ _ => trivial) (fun _ _ _ _ hsend hstep => work_step hsend hstep) trivial
      (allSteps_of_forall (fun e he _ => hsends e he) _) hrun'

/-! ### A session with a timeout and an unknown command -/

/-- The command 9. -/
def nine : UnknownCommand :=
  ⟨9, by decide, by decide, by decide, by decide⟩

/-- A timeout of 5 ms, read in two pieces, the unknown command, and an execution in which the PUT is
stopped once before it exits with 3. -/
def stoppedPut : List SessionEvent :=
  [.send (.setPUTExecutionTimeout 5000), .send (.unknown nine), .send .executePUT,
    .server .eintr, .server (.read [1, 0, 0]), .server .eintr, .server (.read [0]),
    .server (.read [0x88, 0x13, 0]), .server (.read [0, 0, 0, 0, 0]), .server (.read [9, 0, 0, 0]),
    .server (.read [4, 0, 0, 0]), .server (.fork 100 []), .server .succeeds, .server .succeeds,
    .server (.stopped SIGSTOP), .server .eintr, .server (.putEnds (.exited 3) false),
    .server .reaped, .server .succeeds]

theorem stoppedPut_conforms :
    ∃ σ, run step (start 50 clientFds false 1) stoppedPut = some σ ∧
      Conforms { executorId := 1 } σ ∧ σ.system.statuses = [.exited 3] := by
  obtain ⟨σ, hrun, hcontrol, hstatuses⟩ : ∃ σ,
      run step (start 50 clientFds false 1) stoppedPut = some σ ∧
        σ.system.control = .waitForAPICall [] ∧ σ.system.statuses = [.exited 3] :=
    ⟨_, rfl, rfl, rfl⟩
  have hok : ∀ e ∈ stoppedPut, e ≠ .server .fails := by decide
  have hlive : σ.system.control ≠ .killed := by simp [hcontrol]
  exact ⟨σ, hrun, (run_conforms hrun hok hlive).1, hstatuses⟩

end Session
end ForkServer
end FuzzufCc
