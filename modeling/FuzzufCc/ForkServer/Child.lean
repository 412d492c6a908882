import FuzzufCc.ForkServer.Protocol

/-!
# Child — what a forked PUT starts with

The settings and globals of `features/forkserver/forkserver.c`, `AttachStdxxxFiles`, and the part of
its process state that a PUT gets from the server: the disposition of `SIGALRM`, the globals that
the handler uses, the interval timer, and the descriptors with the offsets of their files.
-/

namespace FuzzufCc
namespace ForkServer

structure RuntimeSettings where
  executorId : BitVec 64 := 0
  timeoutUs : BitVec 64 := 20 * 1000
  readStdin : Bool := false
  saveStdoutStderr : Bool := false
  deriving DecidableEq, Repr

/-- What `PUTTimeoutHandler` records about its last run. -/
structure LastTimeout where
  valid : Int := 0
  selfPid : Int := 0
  childPid : Int := 0
  signalNumber : Int := 0
  signalCode : Int := 0
  signalStatus : Int := 0
  killErrno : Int := 0
  deriving DecidableEq, Repr

inductive Disposition
  | dfl
  | ign
  | putTimeoutHandler
  deriving DecidableEq, Repr

/-! ## Descriptors -/

inductive OpenFlags
  | readOnly
  | writeCreateTruncate
  deriving DecidableEq, Repr

/-- An open file: one that the server was started with, or one opened by path. -/
inductive File
  | inherited (n : Nat)
  | opened (path : String) (flags : OpenFlags)
  deriving DecidableEq, Repr

/-- The moves of the offsets of inherited files: which file, and how far.  A `fork` does not copy an
offset, so a move by one process is one for all that have the file open. -/
abbrev Moves := List (Nat × Int)

/-- Where the next `read` or `write` of a file begins.  For an inherited file this counts from where
the program found it; what a child opens is at its beginning. -/
def File.offset (moves : Moves) : File → Int
  | .inherited n => ((moves.filter fun m => m.1 == n).map (·.2)).sum
  | .opened _ _ => 0

abbrev FdTable := List (Nat × File)

namespace FdTable

variable (t : FdTable) (fd : Nat) (f : File)

def get : Option File :=
  List.lookup fd t

def close : FdTable :=
  List.filter (fun p => p.1 != fd) t

def set : FdTable :=
  (fd, f) :: t.close fd

/-- The number that `open` gives to a new file. -/
def lowestFree : Nat :=
  ((List.range (t.length + 1)).find? fun n => (t.get n).isNone).getD t.length

def dup2 (old new : Nat) : FdTable :=
  match t.get old with
  | none => t
  | some file => t.set new file

theorem get_close_self : (t.close fd).get fd = none := by
  simp only [get, close, List.lookup_eq_none_iff, List.mem_filter, bne_iff_ne]
  intro p hp
  exact hp.2.symm

variable {fd} {fd' : Nat}

theorem get_close_of_ne (h : fd' ≠ fd) : (t.close fd).get fd' = t.get fd' := by
  induction t with
  | nil => rfl
  | cons p t ih =>
      rcases p with ⟨n, file⟩
      by_cases hn : n = fd
      · have hne : (fd' == n) = false := beq_eq_false_iff_ne.2 (hn ▸ h)
        simpa [get, close, hn, List.lookup_cons, beq_eq_false_iff_ne.2 h] using ih
      · cases hfd : fd' == n with
        | true => simp [get, close, hn, List.lookup_cons, hfd]
        | false => simpa [get, close, hn, List.lookup_cons, hfd] using ih

@[simp] theorem get_set_self : (t.set fd f).get fd = some f := by
  simp [get, set]

end FdTable

/-! ## `AttachStdxxxFiles` -/

/-- `PREDEFINED_STDXXX_FILE_PATH`. -/
def stdxxxFilePath (executorId : BitVec 64) (name : String) : String :=
  "/dev/shm/fuzzuf-cc.forkserver.executor_id-" ++ toString executorId.toNat ++ "." ++ name

/-- Open one of the executor's files and make it descriptor `fd`.  A failure to open it ends the
child. -/
def attach (settings : RuntimeSettings) (unopenable : List String) (name : String)
    (flags : OpenFlags) (fd : Nat) (t : FdTable) : Option FdTable :=
  let path := stdxxxFilePath settings.executorId name
  if path ∈ unopenable then none
  else
    let put := t.lowestFree
    some ((t.set put (.opened path flags)).dup2 put fd)

def attachStdxxxFiles (settings : RuntimeSettings) (unopenable : List String) (t : FdTable) :
    Option FdTable := do
  let t ← if settings.readStdin then attach settings unopenable "stdin" .readOnly 0 t else some t
  if settings.saveStdoutStderr then
    let t ← attach settings unopenable "stdout" .writeCreateTruncate 1 t
    attach settings unopenable "stderr" .writeCreateTruncate 2 t
  else some t

/-- An attached descriptor is the executor's file of that name. -/
theorem attach_get {settings : RuntimeSettings} {unopenable : List String} {name : String}
    {flags : OpenFlags} {fd : Nat} {t t' : FdTable} :
    attach settings unopenable name flags fd t = some t' →
      t'.get fd = some (.opened (stdxxxFilePath settings.executorId name) flags) := by
  intro h
  simp only [attach] at h
  split at h
  · simp at h
  · cases h
    simp [FdTable.dup2]

/-! ## The state of a new PUT -/

def FORKSRV_FD_READ : Nat := 196
def FORKSRV_FD_WRITE : Nat := 197

/-- What a PUT finds when its own code begins.  Without descriptors it never begins: the child has
left `AttachStdxxxFiles` by `exit(EXIT_FAILURE)`. -/
structure PutState where
  sigalrm : Disposition
  putPid : Int
  lastTimeout : LastTimeout
  itimer : Option Nat
  fds : Option FdTable
  -- of the files in `fds`, in the same order
  offsets : List Int
  deriving DecidableEq, Repr

/-- The descriptors that the child has when it returns from `ExecutePUT`. -/
def putFds (settings : RuntimeSettings) (unopenable : List String) (fds : FdTable) :
    Option FdTable :=
  (attachStdxxxFiles settings unopenable fds).map fun t =>
    (t.close FORKSRV_FD_READ).close FORKSRV_FD_WRITE

/-- The child's side of `ExecutePUT`: `fork` returned 0 and cleared the timers. -/
def putStart (settings : RuntimeSettings) (unopenable : List String) (sigalrm : Disposition)
    (lastTimeout : LastTimeout) (moves : Moves) (fds : FdTable) : PutState where
  sigalrm := sigalrm
  putPid := 0
  lastTimeout := lastTimeout
  itimer := none
  fds := putFds settings unopenable fds
  offsets := ((putFds settings unopenable fds).getD []).map fun p => p.2.offset moves

/-- The PUT holds neither of the two descriptors over which the server talks to its client. -/
theorem putStart_closed {settings : RuntimeSettings} {unopenable : List String}
    {sigalrm : Disposition} {lastTimeout : LastTimeout} {moves : Moves} {fds t : FdTable} :
    (putStart settings unopenable sigalrm lastTimeout moves fds).fds = some t →
      t.get FORKSRV_FD_READ = none ∧ t.get FORKSRV_FD_WRITE = none := by
  intro h
  rcases Option.map_eq_some_iff.1 h with ⟨t', _, rfl⟩
  have hne : FORKSRV_FD_READ ≠ FORKSRV_FD_WRITE := by decide
  constructor
  · rw [FdTable.get_close_of_ne _ hne]
    exact FdTable.get_close_self _ _
  · exact FdTable.get_close_self _ _

end ForkServer
end FuzzufCc
