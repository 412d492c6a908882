import FuzzufCc.ForkServer.Session
import Mathlib.Logic.Function.Basic

/-!
# Executor — the client of `src/utils/executor.cpp`

`Executor::operator()` asks the fork server for one execution and collects the response and the
output of the PUT from three pipes with `epoll`.  A `World` is an executor, its pipes and a session
of the fork server; the kernel, the PUT, the server and the executor take turns in any order.

Two histories are kept that no step reads: the output of every PUT and the results of the calls.
No system call of the executor other than `epoll_wait` fails here.
-/

namespace FuzzufCc
namespace Utils

open ForkServer

/-! ## The executor -/

/-- The two streams of a PUT. -/
inductive Stream
  | stdout
  | stderr
  deriving DecidableEq, Repr

/-- The descriptors that the executor reads: `target_stdout`, `target_stderr` and
`from_fork_server`. -/
inductive Source
  | target (stream : Stream)
  | fromForkServer
  deriving DecidableEq, Repr

abbrev Output := Stream → List Byte

/-- Where `operator()` is: the system call it makes next. -/
inductive Executor.Control
  -- between two calls
  | idle
  | callForkServerAPI
  | epollWait
  | read (fd : Source)
  deriving DecidableEq, Repr

structure Executor where
  control : Executor.Control
  waitFor : Int
  -- `standard_output` and `standard_error`
  output : Output
  response : ExecutePUTAPIResponse
  -- the descriptors in `epoll_fd`
  attached : List Source
  -- the file that the PUT reads
  stdin : List Byte

def chunkSize : Nat := 512

/-- The tuple that `operator()` returns. -/
structure Result where
  response : ExecutePUTAPIResponse
  output : Output

/-! ## The executor, its pipes and the server -/

structure World where
  session : Session
  -- what is written to the pipes and not yet read
  target : Output
  fromForkServer : List Byte
  executor : Executor
  -- what each PUT has written, in the order of the forks
  puts : List Output
  results : List Result

inductive WorldEvent
  -- `operator()` is called, and `WriteTestcaseToStdin` is done
  | call (standardInput : List Byte)
  | callForkServerAPI
  -- `epoll_wait` fails with `EINTR`, returns 0, or returns one descriptor
  | epollInterrupted
  | epollTimeout
  | epoll (fd : Source)
  -- `read` returns `n` bytes
  | read (n : Nat)
  | server (e : Event)
  | putWrites (stream : Stream) (bytes : List Byte)
  deriving DecidableEq, Repr

/-- No system call of the server or of its child fails. -/
def WorldEvent.callsSucceed : WorldEvent → Bool
  | .server .fails => false
  | .server (.fork _ unopenable) => unopenable.isEmpty
  | _ => true

namespace World

/-- The state that the constructor of `Executor` leaves: the handshake is complete, all three
descriptors are attached, and `ReadStdinCommand` is sent. -/
def start (pid : Int) (fds : FdTable) (ignored : Bool) (executorId : BitVec 64) : World where
  session :=
    { Session.start pid fds ignored executorId with
      pipe := Call.readStdin.send
      sent := [.readStdin] }
  target _ := []
  fromForkServer := []
  executor :=
    { control := .idle
      waitFor := -1
      output := fun _ => []
      response := ⟨0, 0, 0⟩
      attached := [.target .stdout, .target .stderr, .fromForkServer]
      stdin := [] }
  puts := []
  results := []

variable (w : World)

def pipe : Source → List Byte
  | .target stream => w.target stream
  | .fromForkServer => w.fromForkServer

/-- The process of the fork server exists. -/
def serverLives : Bool :=
  match w.session.system.control with
  | .exited | .killed => false
  | _ => true

/-- Somebody holds the ends of the pipes that the constructor leaves to the fork server: the server,
or a PUT that has not ended.  A PUT closes `FORKSRV_FD_READ` and `FORKSRV_FD_WRITE`, but `PipeToFd`
and `FdToPipe` have left the numbers open from which they were duplicated. -/
def endsHeld : Bool :=
  w.serverLives || w.session.system.child.any fun c => c.ended.isNone

/-- `EPOLLIN` for a descriptor. -/
def epollin (fd : Source) : Bool :=
  !(w.pipe fd).isEmpty

/-- `epoll_wait` can report a descriptor in which there is something, or which nobody can write
any more (`EPOLLHUP`; the read end of a pipe has no `EPOLLERR`). -/
def reportable (fd : Source) : Bool :=
  w.executor.attached.contains fd && (w.epollin fd || !w.endsHeld)

/-- The body of the loop for one event: `EPOLLIN` is looked at first, `EPOLLHUP` alone detaches. -/
def handleEvent (fd : Source) : World :=
  if w.epollin fd then { w with executor := { w.executor with control := .read fd } }
  else { w with executor := { w.executor with attached := w.executor.attached.erase fd } }

/-- `read` from one of the streams, at the end of what was read before. -/
def readTarget (stream : Stream) (n : Nat) : World :=
  let data := (w.target stream).take n
  { w with
    target := Function.update w.target stream ((w.target stream).drop n)
    executor :=
      { w.executor with
        output := Function.update w.executor.output stream (w.executor.output stream ++ data)
        control := .epollWait } }

/-- `read` of the response, after which `epoll_wait` no longer waits. -/
def readResponse : World :=
  { w with
    fromForkServer := w.fromForkServer.drop ExecutePUTAPIResponse.size
    executor :=
      { w.executor with
        response :=
          ExecutePUTAPIResponse.ofBytes (w.fromForkServer.take ExecutePUTAPIResponse.size)
        waitFor := 0
        control := .epollWait } }

/-- The end of the loop. -/
def finishCall : World :=
  { w with
    results := w.results ++ [⟨w.executor.response, w.executor.output⟩]
    executor := { w.executor with control := .idle } }

/-- The local variables of `operator()` before the loop; only `error` of the response is set. -/
def beginLoop : Executor :=
  { w.executor with
    control := .epollWait
    waitFor := -1
    output := fun _ => []
    response := { w.executor.response with error := ExecutePUTError.noResponseError.code } }

/-- A `read` returns what there is, up to the size asked for, and nothing at the end of the file.
The twelve bytes of a response come in one piece. -/
def readReturns (n : Nat) : Option World :=
  match w.executor.control with
  | .read (.target stream) =>
      if n ≤ chunkSize ∧ n ≤ (w.target stream).length ∧ (n = 0 → w.target stream = []) then
        some (w.readTarget stream n)
      else none
  | .read .fromForkServer =>
      if n = ExecutePUTAPIResponse.size ∧ n ≤ w.fromForkServer.length then some w.readResponse
      else none
  | _ => none

/-- The responses that a step of the server writes. -/
def replies (s : System) : Event → List ExecutePUTAPIResponse
  | .succeeds =>
      match s.control with
      | .write response => [response]
      | _ => []
  | _ => []

/-- The PUTs that a step of the server forks, with nothing written yet. -/
def forks : Event → List Output
  | .fork _ _ => [fun _ => []]
  | _ => []

def writeOutput (stream : Stream) (bytes : List Byte) (output : Output) : Output :=
  Function.update output stream (output stream ++ bytes)

/-- The PUT is alive and its own code has begun. -/
def putRuns : Bool :=
  w.session.system.child.any fun c => c.ended.isNone && c.put.start.fds.isSome

def step : WorldEvent → Option World
  | .call standardInput =>
      if w.executor.control = .idle then
        some { w with
          executor := { w.executor with control := .callForkServerAPI, stdin := standardInput } }
      else none
  | .callForkServerAPI =>
      -- where nobody holds the read end the command is not written (`EPIPE`)
      if w.executor.control = .callForkServerAPI ∧ w.endsHeld then
        (w.session.step (.send .executePUT)).map fun session =>
          { w with session := session, executor := w.beginLoop }
      else none
  | .epollInterrupted => if w.executor.control = .epollWait then some w else none
  | .epollTimeout =>
      if w.executor.control = .epollWait ∧ w.executor.waitFor = 0 ∧
          ∀ fd ∈ w.executor.attached, w.reportable fd = false then
        some w.finishCall
      else none
  | .epoll fd =>
      if w.executor.control = .epollWait ∧ w.reportable fd then some (w.handleEvent fd) else none
  | .read n => w.readReturns n
  | .server e =>
      (w.session.step (.server e)).map fun session =>
        { w with
          session := session
          fromForkServer :=
            w.fromForkServer ++ (replies w.session.system e).flatMap ExecutePUTAPIResponse.bytes
          puts := w.puts ++ forks e }
  | .putWrites stream bytes =>
      if w.putRuns then
        some { w with
          target := writeOutput stream bytes w.target
          puts := w.puts.modify (w.puts.length - 1) (writeOutput stream bytes) }
      else none

end World

/-! ## What a step can do -/

/-- The cases of `World.step`, each with what it requires. -/
inductive WorldStep (w : World) : WorldEvent → World → Prop
  | call {standardInput : List Byte} : w.executor.control = .idle →
      WorldStep w (.call standardInput) { w with
        executor := { w.executor with control := .callForkServerAPI, stdin := standardInput } }
  | callForkServerAPI {session : Session} : w.executor.control = .callForkServerAPI →
      w.endsHeld → w.session.step (.send .executePUT) = some session →
      WorldStep w .callForkServerAPI { w with session := session, executor := w.beginLoop }
  | epollInterrupted : w.executor.control = .epollWait → WorldStep w .epollInterrupted w
  | epollTimeout : w.executor.control = .epollWait → w.executor.waitFor = 0 →
      (∀ fd ∈ w.executor.attached, w.reportable fd = false) →
      WorldStep w .epollTimeout w.finishCall
  | epollin {fd : Source} : w.executor.control = .epollWait → fd ∈ w.executor.attached →
      w.pipe fd ≠ [] →
      WorldStep w (.epoll fd) { w with executor := { w.executor with control := .read fd } }
  | epollhup {fd : Source} : w.executor.control = .epollWait → fd ∈ w.executor.attached →
      w.pipe fd = [] → w.endsHeld = false →
      WorldStep w (.epoll fd)
        { w with executor := { w.executor with attached := w.executor.attached.erase fd } }
  | readTarget {stream : Stream} {n : Nat} : w.executor.control = .read (.target stream) →
      n ≤ (w.target stream).length → (n = 0 → w.target stream = []) →
      WorldStep w (.read n) (w.readTarget stream n)
  | readResponse {n : Nat} : w.executor.control = .read .fromForkServer →
      n = ExecutePUTAPIResponse.size → n ≤ w.fromForkServer.length →
      WorldStep w (.read n) w.readResponse
  | server {e : Event} {session : Session} : w.session.step (.server e) = some session →
      WorldStep w (.server e) { w with
        session := session
        fromForkServer := w.fromForkServer ++
          (World.replies w.session.system e).flatMap ExecutePUTAPIResponse.bytes
        puts := w.puts ++ World.forks e }
  | putWrites {stream : Stream} {bytes : List Byte} : w.putRuns →
      WorldStep w (.putWrites stream bytes) { w with
        target := World.writeOutput stream bytes w.target
        puts := w.puts.modify (w.puts.length - 1) (World.writeOutput stream bytes) }

namespace World

variable {w w' : World}

theorem reportable_cases {fd : Source} :
    w.reportable fd → fd ∈ w.executor.attached ∧ (w.pipe fd ≠ [] ∨ w.endsHeld = false) := by
  intro h
  simpa [reportable, epollin] using h

theorem readReturns_cases {n : Nat} : w.readReturns n = some w' → WorldStep w (.read n) w' := by
  intro h
  simp only [readReturns] at h
  split at h
  case h_1 stream hcontrol =>
      split_ifs at h with hlen
      cases h
      exact .readTarget hcontrol hlen.2.1 hlen.2.2
  case h_2 hcontrol =>
      split_ifs at h with hlen
      cases h
      exact .readResponse hcontrol hlen.1 hlen.2
  case h_3 => cases h

/-- **Inversion of a step.** -/
theorem step_cases {e : WorldEvent} : w.step e = some w' → WorldStep w e w' := by
  intro h
  cases e with
  | call standardInput =>
      simp only [step] at h
      split_ifs at h with hcontrol
      cases h
      exact .call hcontrol
  | callForkServerAPI =>
      simp only [step] at h
      split_ifs at h with hcontrol
      rcases Option.map_eq_some_iff.1 h with ⟨session, hsession, rfl⟩
      exact .callForkServerAPI hcontrol.1 hcontrol.2 hsession
  | epollInterrupted =>
      simp only [step] at h
      split_ifs at h with hcontrol
      cases h
      exact .epollInterrupted hcontrol
  | epollTimeout =>
      simp only [step] at h
      split_ifs at h with hready
      cases h
      exact .epollTimeout hready.1 hready.2.1 hready.2.2
  | epoll fd =>
      simp only [step, handleEvent] at h
      split_ifs at h with hready hin
      · cases h
        have hpipe : w.pipe fd ≠ [] := by simpa [World.epollin] using hin
        exact .epollin hready.1 (reportable_cases hready.2).1 hpipe
      · cases h
        -- reported without `EPOLLIN`, so the writers are gone
        have hpipe : w.pipe fd = [] := by simpa [World.epollin] using hin
        rcases reportable_cases hready.2 with ⟨hmem, hcases⟩
        exact .epollhup hready.1 hmem hpipe (hcases.resolve_left fun hne => hne hpipe)
  | read n => exact readReturns_cases h
  | server e =>
      rcases Option.map_eq_some_iff.1 h with ⟨session, hsession, rfl⟩
      exact .server hsession
  | putWrites stream bytes =>
      simp only [step] at h
      split_ifs at h with hruns
      cases h
      exact .putWrites hruns

end World

end Utils
end FuzzufCc
