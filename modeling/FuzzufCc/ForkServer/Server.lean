import FuzzufCc.ForkServer.Child
import FuzzufCc.Lib.Transition

/-!
# Server — the fork server as a state machine

`features/forkserver/forkserver.c` between two system calls is one step.  A state holds where the
server is, its variables, what the kernel keeps for it (the disposition of `SIGALRM`, the interval
timer, the child that is not yet reaped, the moved offsets of the files it was started with) and two
histories that no step reads: what the server has done for its client and whom `PUTTimeoutHandler`
has killed.

A signal is handled before the next instruction of the server, so the expiry of the timer and the
run of the handler are one step, which can fall between any two others.
-/

namespace FuzzufCc
namespace ForkServer

/-! ## States -/

/-- The system call that the server has made or makes next. -/
inductive Control
  | waitClientAttach
  | tellClientServerHasStarted (executorId : BitVec 64)
  | waitForAPICall (buf : List Byte)
  | recvU64 (buf : List Byte)
  | fork
  | setitimer
  | sigaction
  | waitpid
  | write (response : ExecutePUTAPIResponse)
  -- the handshake failed and the constructor returned to the program
  | standalone
  -- `exit(EXIT_FAILURE)`
  | exited
  -- terminated by a signal
  | killed
  deriving DecidableEq, Repr

structure Put where
  pid : Int
  start : PutState
  deriving DecidableEq, Repr

/-- A PUT that is not yet reaped. -/
structure Child where
  put : Put
  -- `SIGKILL` was sent while it was alive
  killed : Bool := false
  -- its final status and whether it dumped core
  ended : Option (FinalStatus × Bool) := none
  deriving DecidableEq, Repr

/-- What a client can tell from the outside. -/
inductive Obs
  | call (c : Call)
  | fork (settings : RuntimeSettings)
  | setitimer (microseconds : Nat)
  | response (r : ExecutePUTAPIResponse)
  deriving DecidableEq, Repr

/-- A `kill(put_pid, SIGKILL)` of the handler: the number of the `ExecutePUT` that armed the timer,
and the number of the unreaped PUT that has the pid, if there is one. -/
structure Kill where
  armedBy : Nat
  target : Option Nat
  deriving DecidableEq, Repr

structure System where
  pid : Int
  fds : FdTable
  moves : Moves
  control : Control
  settings : RuntimeSettings
  putPid : Int
  lastTimeout : LastTimeout
  sigalrm : Disposition
  -- the number of the `ExecutePUT` that armed the timer
  itimer : Option Nat
  child : Option Child
  -- the reaped PUTs, in order
  past : List (Put × FinalStatus)
  trace : List Obs
  kills : List Kill
  deriving DecidableEq, Repr

/-- What happens next: the result of the server's system call, or something outside the server. -/
inductive Event
  -- `read` returns these bytes, or the end of the file
  | read (data : List Byte)
  | eintr
  -- any other failure of the system call
  | fails
  -- `fork` succeeds, and the child cannot open the listed files
  | fork (pid : Int) (unopenable : List String)
  -- `write`, `setitimer` or `sigaction` succeeds
  | succeeds
  -- `waitpid` reports that the PUT was stopped
  | stopped (signal : Signal)
  -- `waitpid` reaps the PUT
  | reaped
  | putEnds (st : FinalStatus) (coreDumped : Bool)
  -- the timer runs out; `errno` is what `kill` sets if no unreaped PUT has the pid
  | expires (errno : Int)
  -- a process that has the inherited file open reads, writes or seeks
  | moves (file : Nat) (distance : Int)
  -- a signal from elsewhere terminates the server
  | terminated
  deriving DecidableEq, Repr

/-- A program that has just been started, with `SIGALRM` ignored or not. -/
def System.start (pid : Int) (fds : FdTable) (ignored : Bool) : System where
  pid := pid
  fds := fds
  moves := []
  control := .waitClientAttach
  settings := {}
  putPid := 0
  lastTimeout := {}
  sigalrm := if ignored then .ign else .dfl
  itimer := none
  child := none
  past := []
  trace := []
  kills := []

/-! ## The code between two system calls -/

def HANDSHAKE_FAILED : BitVec 64 := -1

/-- The loop of `Recv` after one `read`: it reads on, or returns the bytes it has. -/
inductive RecvResult
  | again (buf : List Byte)
  | ret (buf : List Byte)
  deriving DecidableEq, Repr

/-- `read` is called while bytes are missing, and returns no more than these. -/
def recv (size : Nat) (buf data : List Byte) : Option RecvResult :=
  if buf.length < size ∧ (buf ++ data).length ≤ size then
    if data = [] then some (.ret buf)
    else if (buf ++ data).length < size then some (.again (buf ++ data))
    else some (.ret (buf ++ data))
  else none

namespace System

variable (s : System)

/-- The process is gone, and its timer with it. -/
def exit : System :=
  { s with control := .exited, itimer := none }

/-- `WaitClientAttach` after its only `read`, and the test in `DoHandshake`. -/
def waitClientAttach (data : List Byte) : System :=
  let executorId := BitVec.ofNat 64 (valueOf data)
  if data.length < 8 ∨ executorId = HANDSHAKE_FAILED then { s with control := .standalone }
  else { s with control := .tellClientServerHasStarted executorId }

/-- The `switch` of `StartForkServer`. -/
def switch (command : BitVec 32) : System :=
  if hset : command = ForkServerAPI.setPUTExecutionTimeoutCommand.code then
    { s with control := .recvU64 [] }
  else if hread : command = ForkServerAPI.readStdinCommand.code then
    { s with
      settings := { s.settings with readStdin := true }
      trace := s.trace ++ [.call .readStdin]
      control := .waitForAPICall [] }
  else if hsave : command = ForkServerAPI.saveStdoutStderrCommand.code then
    { s with
      settings := { s.settings with saveStdoutStderr := true }
      trace := s.trace ++ [.call .saveStdoutStderr]
      control := .waitForAPICall [] }
  else if hexec : command = ForkServerAPI.executePUTCommand.code then
    { s with trace := s.trace ++ [.call .executePUT], control := .fork }
  else
    { s with
      trace := s.trace ++ [.call (.unknown ⟨command, hset, hread, hsave, hexec⟩)]
      control := .waitForAPICall [] }

/-- `WaitForAPICall` after `Recv`. -/
def waitForAPICall (buf : List Byte) : System :=
  if buf.length < 4 then s.exit else s.switch (BitVec.ofNat 32 (valueOf buf))

/-- `RecvU64` after `Recv`, and the rest of its case in the `switch`. -/
def recvU64 (buf : List Byte) : System :=
  if buf.length < 8 then s.exit
  else
    let timeoutUs := BitVec.ofNat 64 (valueOf buf)
    { s with
      settings := { s.settings with timeoutUs := timeoutUs }
      trace := s.trace ++ [.call (.setPUTExecutionTimeout timeoutUs)]
      control := .waitForAPICall [] }

/-- `ExecutePUT` after `fork`, up to `setitimer`. -/
def forked (pid : Int) (unopenable : List String) : System :=
  let start := putStart s.settings unopenable s.sigalrm s.lastTimeout s.moves s.fds
  { s with
    putPid := pid
    child := some { put := ⟨pid, start⟩ }
    lastTimeout := { s.lastTimeout with valid := 0 }
    trace := s.trace ++ [.fork s.settings]
    control := .setitimer }

/-- The value of the timer; zero disarms it. -/
def setitimer : System :=
  let tvSec := s.settings.timeoutUs / (1000 * 1000)
  let tvUsec := s.settings.timeoutUs % (1000 * 1000)
  let microseconds := tvSec.toNat * (1000 * 1000) + tvUsec.toNat
  { s with
    itimer := if microseconds = 0 then none else some s.past.length
    trace := s.trace ++ [.setitimer microseconds]
    control := .sigaction }

def sigaction : System :=
  { s with sigalrm := .putTimeoutHandler, control := .waitpid }

/-- The report about the last timeout, which each return of `waitpid` resets. -/
def logTimeout : System :=
  { s with lastTimeout := { s.lastTimeout with valid := 0 } }

/-- The loop of `ExecutePUT` after `waitpid` has returned a status. -/
def waitpidReturns (wstatus : BitVec 32) : System :=
  match responseOf wstatus with
  | none => s.logTimeout
  | some response => { s.logTimeout with control := .write response }

/-- The PUT that has the pid `put_pid`, if it is not reaped. -/
def target : Option Child :=
  match s.child with
  | none => none
  | some c => if c.put.pid = s.putPid then some c else none

/-- `PUTTimeoutHandler`, called by the timer that `ExecutePUT` number `armedBy` armed.  A timer of
the kernel sends `SIGALRM` with `SI_KERNEL` and neither a pid nor a status. -/
def putTimeoutHandler (armedBy : Nat) (errno : Int) : System :=
  { s with
    lastTimeout :=
      { valid := 1
        selfPid := s.pid
        childPid := 0
        signalNumber := SIGALRM.number.val
        signalCode := 0x80
        signalStatus := 0
        killErrno := if s.target.isSome then 0 else errno }
    -- `alarm(0)`
    itimer := none
    child := s.target.elim s.child fun c => some { c with killed := c.killed || c.ended.isNone }
    kills := s.kills ++ [⟨armedBy, s.target.map fun _ => s.past.length⟩] }

end System

/-- A PUT that gave up in `AttachStdxxxFiles` exits with `EXIT_FAILURE`; one that was sent `SIGKILL`
ends by it. -/
def Child.canEnd (c : Child) : FinalStatus → Bool
  | .exited exitCode => !c.killed && (c.put.start.fds.isSome || exitCode == 1)
  | .signaled signal => !c.killed || signal == SIGKILL

/-! ## Steps -/

namespace System

def readReturns (s : System) (data : List Byte) : Option System :=
  match s.control with
  | .waitClientAttach => if data.length ≤ 8 then some (s.waitClientAttach data) else none
  | .waitForAPICall buf =>
      match recv 4 buf data with
      | some (.again buf) => some { s with control := .waitForAPICall buf }
      | some (.ret buf) => some (s.waitForAPICall buf)
      | none => none
  | .recvU64 buf =>
      match recv 8 buf data with
      | some (.again buf) => some { s with control := .recvU64 buf }
      | some (.ret buf) => some (s.recvU64 buf)
      | none => none
  | _ => none

def callInterrupted (s : System) : Option System :=
  match s.control with
  | .waitClientAttach => some { s with control := .standalone }
  | .waitForAPICall _ | .recvU64 _ => some s
  | .waitpid => some s.logTimeout
  | _ => none

def callFails (s : System) : Option System :=
  match s.control with
  | .waitClientAttach => some { s with control := .standalone }
  | .standalone | .exited | .killed => none
  | _ => some s.exit

def callSucceeds (s : System) : Option System :=
  match s.control with
  | .tellClientServerHasStarted executorId =>
      some { s with
        settings := { s.settings with executorId := executorId }
        control := .waitForAPICall [] }
  | .setitimer => some s.setitimer
  | .sigaction => some s.sigaction
  | .write response =>
      some { s with trace := s.trace ++ [.response response], control := .waitForAPICall [] }
  | _ => none

/-- The expiry of an armed timer sends `SIGALRM`. -/
def expires (s : System) (errno : Int) : Option System :=
  match s.itimer with
  | none => none
  | some armedBy =>
      match s.sigalrm with
      | .dfl => some { s with control := .killed, itimer := none }
      | .ign => some { s with itimer := none }
      | .putTimeoutHandler => some (s.putTimeoutHandler armedBy errno)

def step (s : System) : Event → Option System
  | .read data => s.readReturns data
  | .eintr => s.callInterrupted
  | .fails => s.callFails
  | .fork pid unopenable =>
      if s.control = .fork ∧ 0 < pid then some (s.forked pid unopenable) else none
  | .succeeds => s.callSucceeds
  | .stopped signal =>
      match s.control, s.target with
      | .waitpid, some { ended := none, .. } => some (s.waitpidReturns signal.stopStatus)
      | _, _ => none
  | .reaped =>
      match s.control, s.target with
      | .waitpid, some { put, ended := some (st, coreDumped), .. } =>
          let s := { s with child := none, past := s.past ++ [(put, st)] }
          some (s.waitpidReturns (st.wstatus coreDumped))
      | _, _ => none
  | .putEnds st coreDumped =>
      match s.child with
      | some c =>
          if c.ended.isNone && c.canEnd st then
            some { s with child := some { c with ended := some (st, coreDumped) } }
          else none
      | none => none
  | .expires errno => s.expires errno
  | .moves file distance => some { s with moves := s.moves ++ [(file, distance)] }
  | .terminated =>
      match s.control with
      | .standalone | .exited | .killed => none
      | _ => some { s with control := .killed, itimer := none }

end System

/-! ## What a step can do -/

/-- The server still talks to its client. -/
def Control.Serving : Control → Prop
  | .standalone | .exited | .killed => False
  | _ => True

/-- The cases of `step`, each with what it requires. -/
inductive Step (s : System) : Event → System → Prop
  | handshakeFails {e : Event} : s.control = .waitClientAttach →
      (∃ data, e = .read data) ∨ e = .eintr ∨ e = .fails →
      Step s e { s with control := .standalone }
  | attached {data : List Byte} (executorId : BitVec 64) : s.control = .waitClientAttach →
      data.length = 8 → executorId = BitVec.ofNat 64 (valueOf data) →
      executorId ≠ HANDSHAKE_FAILED →
      Step s (.read data) { s with control := .tellClientServerHasStarted executorId }
  | told {executorId : BitVec 64} : s.control = .tellClientServerHasStarted executorId →
      Step s .succeeds { s with
        settings := { s.settings with executorId := executorId }
        control := .waitForAPICall [] }
  | moreCommand {buf data : List Byte} : s.control = .waitForAPICall buf → data ≠ [] →
      (buf ++ data).length < 4 →
      Step s (.read data) { s with control := .waitForAPICall (buf ++ data) }
  | command {buf data : List Byte} : s.control = .waitForAPICall buf → data ≠ [] →
      (buf ++ data).length = 4 →
      Step s (.read data) (s.switch (BitVec.ofNat 32 (valueOf (buf ++ data))))
  | moreU64 {buf data : List Byte} : s.control = .recvU64 buf → data ≠ [] →
      (buf ++ data).length < 8 →
      Step s (.read data) { s with control := .recvU64 (buf ++ data) }
  | u64 {buf data : List Byte} : s.control = .recvU64 buf → data ≠ [] →
      (buf ++ data).length = 8 →
      Step s (.read data) (s.recvU64 (buf ++ data))
  | readAgain {buf : List Byte} : s.control = .waitForAPICall buf ∨ s.control = .recvU64 buf →
      Step s .eintr s
  | waitAgain {e : Event} : s.control = .waitpid → e = .eintr ∨ (∃ signal, e = .stopped signal) →
      Step s e s.logTimeout
  | fork {pid : Int} {unopenable : List String} : s.control = .fork → 0 < pid →
      Step s (.fork pid unopenable) (s.forked pid unopenable)
  | setitimer : s.control = .setitimer → Step s .succeeds s.setitimer
  | sigaction : s.control = .sigaction → Step s .succeeds s.sigaction
  | reaped {c : Child} {st : FinalStatus} {coreDumped : Bool} : s.control = .waitpid →
      s.target = some c → c.ended = some (st, coreDumped) →
      Step s .reaped { s.logTimeout with
        child := none, past := s.past ++ [(c.put, st)], control := .write st.response }
  | write {response : ExecutePUTAPIResponse} : s.control = .write response →
      Step s .succeeds { s with
        trace := s.trace ++ [.response response], control := .waitForAPICall [] }
  | exit : s.control.Serving → Step s .fails s.exit
  -- the end of the file
  | eof {buf : List Byte} : s.control = .waitForAPICall buf ∨ s.control = .recvU64 buf →
      Step s (.read []) s.exit
  | putEnds {c : Child} {st : FinalStatus} {coreDumped : Bool} : s.child = some c →
      c.ended = none → c.canEnd st →
      Step s (.putEnds st coreDumped)
        { s with child := some { c with ended := some (st, coreDumped) } }
  | expiresByDefault {errno : Int} {armedBy : Nat} : s.itimer = some armedBy → s.sigalrm = .dfl →
      Step s (.expires errno) { s with control := .killed, itimer := none }
  | expiresIgnored {errno : Int} {armedBy : Nat} : s.itimer = some armedBy → s.sigalrm = .ign →
      Step s (.expires errno) { s with itimer := none }
  | expires {errno : Int} {armedBy : Nat} : s.itimer = some armedBy →
      s.sigalrm = .putTimeoutHandler →
      Step s (.expires errno) (s.putTimeoutHandler armedBy errno)
  | moves {file : Nat} {distance : Int} :
      Step s (.moves file distance) { s with moves := s.moves ++ [(file, distance)] }
  | terminated : s.control.Serving →
      Step s .terminated { s with control := .killed, itimer := none }

theorem recv_cases {size : Nat} {buf data : List Byte} {r : RecvResult} :
    recv size buf data = some r →
      (data = [] ∧ buf.length < size ∧ r = .ret buf) ∨
        (data ≠ [] ∧ (buf ++ data).length < size ∧ r = .again (buf ++ data)) ∨
        (data ≠ [] ∧ (buf ++ data).length = size ∧ r = .ret (buf ++ data)) := by
  intro h
  simp only [recv] at h
  split at h
  case isFalse => simp at h
  case isTrue hlen =>
      split at h
      case isTrue hnil => exact Or.inl ⟨hnil, hlen.1, (Option.some.inj h).symm⟩
      case isFalse hnil =>
          split at h
          case isTrue hlt => exact Or.inr (Or.inl ⟨hnil, hlt, (Option.some.inj h).symm⟩)
          case isFalse hlt =>
              exact Or.inr (Or.inr ⟨hnil, le_antisymm hlen.2 (not_lt.1 hlt),
                (Option.some.inj h).symm⟩)

namespace System

variable {s s' : System}

theorem readReturns_cases {data : List Byte} :
    s.readReturns data = some s' → Step s (.read data) s' := by
  intro h
  cases hcontrol : s.control with
  | waitClientAttach =>
      -- one `read`, short or with the reserved id, ends the handshake
      simp only [readReturns, hcontrol, waitClientAttach] at h
      split at h
      · split at h
        · cases h
          exact .handshakeFails hcontrol (Or.inl ⟨data, rfl⟩)
        · rename_i hlen hok
          cases h
          rcases not_or.1 hok with ⟨hshort, hid⟩
          exact .attached _ hcontrol (by omega) rfl hid
      · simp at h
  | waitForAPICall buf =>
      simp only [readReturns, hcontrol] at h
      cases hrecv : recv 4 buf data with
      | none => simp [hrecv] at h
      | some r =>
          -- the end of the file, a part of the command, or the rest of it
          rcases recv_cases hrecv with ⟨rfl, hlen, rfl⟩ | ⟨hnil, hlen, rfl⟩ | ⟨hnil, hlen, rfl⟩
          · simp only [hrecv, waitForAPICall, hlen, if_true] at h
            cases h
            exact .eof (Or.inl hcontrol)
          · simp only [hrecv] at h
            cases h
            exact .moreCommand hcontrol hnil hlen
          · simp only [hrecv, waitForAPICall, hlen, lt_irrefl, if_false] at h
            cases h
            exact .command hcontrol hnil hlen
  | recvU64 buf =>
      simp only [readReturns, hcontrol] at h
      cases hrecv : recv 8 buf data with
      | none => simp [hrecv] at h
      | some r =>
          rcases recv_cases hrecv with ⟨rfl, hlen, rfl⟩ | ⟨hnil, hlen, rfl⟩ | ⟨hnil, hlen, rfl⟩
          · simp only [hrecv, recvU64, hlen, if_true] at h
            cases h
            exact .eof (Or.inr hcontrol)
          · simp only [hrecv] at h
            cases h
            exact .moreU64 hcontrol hnil hlen
          · simp only [hrecv] at h
            cases h
            exact .u64 hcontrol hnil hlen
  | _ => simp [readReturns, hcontrol] at h

theorem callInterrupted_cases : s.callInterrupted = some s' → Step s .eintr s' := by
  intro h
  cases hcontrol : s.control with
  | waitClientAttach =>
      -- `WaitClientAttach` does not look at `errno`
      simp only [callInterrupted, hcontrol] at h
      cases h
      exact .handshakeFails hcontrol (Or.inr (Or.inl rfl))
  | waitForAPICall buf =>
      simp only [callInterrupted, hcontrol] at h
      cases h
      exact .readAgain (Or.inl hcontrol)
  | recvU64 buf =>
      simp only [callInterrupted, hcontrol] at h
      cases h
      exact .readAgain (Or.inr hcontrol)
  | waitpid =>
      simp only [callInterrupted, hcontrol] at h
      cases h
      exact .waitAgain hcontrol (Or.inl rfl)
  | _ => simp [callInterrupted, hcontrol] at h

theorem callFails_cases : s.callFails = some s' → Step s .fails s' := by
  intro h
  cases hcontrol : s.control with
  | waitClientAttach =>
      simp only [callFails, hcontrol] at h
      cases h
      exact .handshakeFails hcontrol (Or.inr (Or.inr rfl))
  | standalone => simp [callFails, hcontrol] at h
  | exited => simp [callFails, hcontrol] at h
  | killed => simp [callFails, hcontrol] at h
  | _ =>
      simp only [callFails, hcontrol] at h
      cases h
      exact .exit (by simp [hcontrol, Control.Serving])

theorem callSucceeds_cases : s.callSucceeds = some s' → Step s .succeeds s' := by
  intro h
  cases hcontrol : s.control with
  | tellClientServerHasStarted executorId =>
      simp only [callSucceeds, hcontrol] at h
      cases h
      exact .told hcontrol
  | setitimer =>
      simp only [callSucceeds, hcontrol] at h
      cases h
      exact .setitimer hcontrol
  | sigaction =>
      simp only [callSucceeds, hcontrol] at h
      cases h
      exact .sigaction hcontrol
  | write response =>
      simp only [callSucceeds, hcontrol] at h
      cases h
      exact .write hcontrol
  | _ => simp [callSucceeds, hcontrol] at h

theorem expires_cases {errno : Int} : s.expires errno = some s' → Step s (.expires errno) s' := by
  intro h
  simp only [expires] at h
  split at h
  case h_1 => simp at h
  case h_2 armedBy htimer =>
      split at h
      case h_1 halrm =>
          cases h
          exact .expiresByDefault htimer halrm
      case h_2 halrm =>
          cases h
          exact .expiresIgnored htimer halrm
      case h_3 halrm =>
          cases h
          exact .expires htimer halrm

theorem target_eq_some {c : Child} :
    s.target = some c ↔ s.child = some c ∧ c.put.pid = s.putPid := by
  cases hchild : s.child with
  | none => simp [target, hchild]
  | some c' =>
      by_cases hpid : c'.put.pid = s.putPid
      · simp only [target, hchild, hpid, if_true, Option.some.injEq]
        constructor
        · intro h
          exact ⟨h, h ▸ hpid⟩
        · intro h
          exact h.1
      · simp only [target, hchild, hpid, if_false, Option.some.injEq]
        constructor
        · intro h
          cases h
        · intro h
          exact absurd (h.1 ▸ h.2) hpid

/-- **Inversion of a step.** -/
theorem step_cases {e : Event} : s.step e = some s' → Step s e s' := by
  intro h
  cases e with
  | read data => exact readReturns_cases h
  | eintr => exact callInterrupted_cases h
  | fails => exact callFails_cases h
  | succeeds => exact callSucceeds_cases h
  | expires errno => exact expires_cases h
  | moves file distance =>
      cases h
      exact .moves
  | fork pid unopenable =>
      simp only [step] at h
      split at h
      · rename_i hfork
        cases h
        exact .fork hfork.1 hfork.2
      · simp at h
  | stopped signal =>
      simp only [step] at h
      split at h
      · -- neither `WIFEXITED` nor `WIFSIGNALED`, so the loop waits again
        rename_i hcontrol _
        rw [waitpidReturns, responseOf_stopStatus] at h
        cases h
        exact .waitAgain hcontrol (Or.inr ⟨signal, rfl⟩)
      · simp at h
  | reaped =>
      simp only [step] at h
      split at h
      · rename_i hcontrol htarget
        rw [waitpidReturns, responseOf_wstatus] at h
        cases h
        exact .reaped hcontrol htarget rfl
      · simp at h
  | putEnds st coreDumped =>
      simp only [step] at h
      split at h
      · rename_i c hchild
        split at h
        · rename_i hcan
          rcases Bool.and_eq_true_iff.1 hcan with ⟨hended, hst⟩
          cases h
          exact .putEnds hchild (Option.isNone_iff_eq_none.1 hended) hst
        · simp at h
      · simp at h
  | terminated =>
      cases hcontrol : s.control with
      | standalone => simp [step, hcontrol] at h
      | exited => simp [step, hcontrol] at h
      | killed => simp [step, hcontrol] at h
      | _ =>
          simp only [step, hcontrol] at h
          cases h
          exact .terminated (by simp [hcontrol, Control.Serving])

/-- A server that does not run stays where it is, or is killed. -/
theorem control_step {e : Event} :
    Step s e s' → s.control.Serving ∨ s'.control = s.control ∨ s'.control = .killed := by
  intro hstep
  cases hstep with
  -- these leave the server where it is
  | putEnds _ _ _ => exact Or.inr (Or.inl rfl)
  | moves => exact Or.inr (Or.inl rfl)
  | expiresIgnored _ _ => exact Or.inr (Or.inl rfl)
  | expires _ _ => exact Or.inr (Or.inl rfl)
  | expiresByDefault _ _ => exact Or.inr (Or.inr rfl)
  -- the other steps are taken by a server that runs
  | terminated hserving => exact Or.inl hserving
  | exit hserving => exact Or.inl hserving
  | readAgain h => rcases h with h | h <;> exact Or.inl (h ▸ trivial)
  | eof h => rcases h with h | h <;> exact Or.inl (h ▸ trivial)
  | handshakeFails h _ => exact Or.inl (h ▸ trivial)
  | attached _ h => exact Or.inl (h ▸ trivial)
  | told h => exact Or.inl (h ▸ trivial)
  | moreCommand h => exact Or.inl (h ▸ trivial)
  | command h => exact Or.inl (h ▸ trivial)
  | moreU64 h => exact Or.inl (h ▸ trivial)
  | u64 h => exact Or.inl (h ▸ trivial)
  | waitAgain h _ => exact Or.inl (h ▸ trivial)
  | fork h _ => exact Or.inl (h ▸ trivial)
  | setitimer h => exact Or.inl (h ▸ trivial)
  | sigaction h => exact Or.inl (h ▸ trivial)
  | reaped h => exact Or.inl (h ▸ trivial)
  | write h => exact Or.inl (h ▸ trivial)

theorem killed_step {e : Event} :
    s.control = .killed → s.step e = some s' → s'.control = .killed := by
  intro hkilled hstep
  rcases control_step (step_cases hstep) with hserving | hsame | hkilled'
  · rw [hkilled] at hserving
    exact hserving.elim
  · exact hsame.trans hkilled
  · exact hkilled'

end System

end ForkServer
end FuzzufCc
