import Mathlib.Algebra.Order.Ring.Int
import Mathlib.Data.List.Basic

/-!
# Protocol — commands, responses and wait statuses

The commands of `features/forkserver/config.h` and their layout on the pipe, the response to an
`ExecutePUT`, and the status word of `waitpid` with the macros of `sys/wait.h` that the fork server
applies to it.
-/

namespace FuzzufCc
namespace ForkServer

abbrev Byte := BitVec 8

/-! ## Values in memory -/

/-- The first `n` bytes of a value, the lowest first. -/
def bytesOf : Nat → Nat → List Byte
  | 0, _ => []
  | n + 1, v => BitVec.ofNat 8 v :: bytesOf n (v / 256)

def valueOf : List Byte → Nat
  | [] => 0
  | b :: bs => b.toNat + 256 * valueOf bs

@[simp] theorem length_bytesOf (n v : Nat) : (bytesOf n v).length = n := by
  induction n generalizing v with
  | zero => rfl
  | succ n ih => simp [bytesOf, ih]

theorem valueOf_bytesOf (n v : Nat) : valueOf (bytesOf n v) = v % 256 ^ n := by
  induction n generalizing v with
  | zero => simp [bytesOf, valueOf, Nat.mod_one]
  | succ n ih =>
      calc valueOf (bytesOf (n + 1) v)
          = v % 256 + 256 * (v / 256 % 256 ^ n) := by simp [bytesOf, valueOf, ih]
        _ = v % 256 ^ (n + 1) := by rw [Nat.pow_succ', Nat.mod_mul]

theorem ofNat_valueOf_bytesOf {w : Nat} (n : Nat) (v : BitVec w) :
    w = 8 * n → BitVec.ofNat w (valueOf (bytesOf n v.toNat)) = v := by
  intro hw
  have hpow : 256 ^ n = 2 ^ w := by
    rw [hw, Nat.pow_mul]
  calc BitVec.ofNat w (valueOf (bytesOf n v.toNat))
      = BitVec.ofNat w (v.toNat % 2 ^ w) := by rw [valueOf_bytesOf, hpow]
    _ = BitVec.ofNat w v.toNat := by rw [Nat.mod_eq_of_lt v.isLt]
    _ = v := by rw [BitVec.ofNat_toNat, BitVec.setWidth_eq]

/-! ## Commands -/

inductive ForkServerAPI
  | invalidCommand
  | setPUTExecutionTimeoutCommand
  | readStdinCommand
  | saveStdoutStderrCommand
  | executePUTCommand
  deriving DecidableEq, Repr

def ForkServerAPI.code : ForkServerAPI → BitVec 32
  | .invalidCommand => 0
  | .setPUTExecutionTimeoutCommand => 1
  | .readStdinCommand => 2
  | .saveStdoutStderrCommand => 3
  | .executePUTCommand => 4

/-- A command word for which the server's `switch` has no case of its own. -/
structure UnknownCommand where
  command : BitVec 32
  ne_set : command ≠ ForkServerAPI.setPUTExecutionTimeoutCommand.code
  ne_read : command ≠ ForkServerAPI.readStdinCommand.code
  ne_save : command ≠ ForkServerAPI.saveStdoutStderrCommand.code
  ne_execute : command ≠ ForkServerAPI.executePUTCommand.code
  deriving DecidableEq, Repr

/-- What a client can ask for. -/
inductive Call
  | setPUTExecutionTimeout (timeoutUs : BitVec 64)
  | readStdin
  | saveStdoutStderr
  | executePUT
  | unknown (command : UnknownCommand)
  deriving DecidableEq, Repr

namespace Call

def command : Call → BitVec 32
  | setPUTExecutionTimeout _ => ForkServerAPI.setPUTExecutionTimeoutCommand.code
  | readStdin => ForkServerAPI.readStdinCommand.code
  | saveStdoutStderr => ForkServerAPI.saveStdoutStderrCommand.code
  | executePUT => ForkServerAPI.executePUTCommand.code
  | unknown c => c.command

/-- What follows the command: only a timeout has a value. -/
def payload : Call → List Byte
  | setPUTExecutionTimeout timeoutUs => bytesOf 8 timeoutUs.toNat
  | _ => []

/-- `SendCommand`, and for a timeout `Send` of the value. -/
def send (c : Call) : List Byte :=
  bytesOf 4 c.command.toNat ++ c.payload

end Call

/-- The byte stream of a sequence of calls. -/
def sendAll (cs : List Call) : List Byte :=
  cs.flatMap Call.send

@[simp] theorem sendAll_nil : sendAll [] = [] := rfl

theorem sendAll_cons (c : Call) (cs : List Call) : sendAll (c :: cs) = c.send ++ sendAll cs := rfl

theorem sendAll_append (cs cs' : List Call) : sendAll (cs ++ cs') = sendAll cs ++ sendAll cs' :=
  List.flatMap_append

/-! ## Responses -/

inductive ExecutePUTError
  | none
  | daemonAlreadyExitError
  | daemonBusyError
  | spawnPUTError
  | unknownPUTStateError
  | noResponseError
  deriving DecidableEq, Repr

def ExecutePUTError.code : ExecutePUTError → BitVec 32
  | .none => 0
  | .daemonAlreadyExitError => 1
  | .daemonBusyError => 2
  | .spawnPUTError => 3
  | .unknownPUTStateError => 4
  | .noResponseError => 5

/-- `error` holds the code of an `ExecutePUTError`, or whatever was read from the pipe. -/
structure ExecutePUTAPIResponse where
  error : BitVec 32
  exitCode : BitVec 32
  signalNumber : BitVec 32
  deriving DecidableEq, Repr

namespace ExecutePUTAPIResponse

/-- `sizeof(ExecutePUTAPIResponse)`. -/
def size : Nat := 12

def bytes (r : ExecutePUTAPIResponse) : List Byte :=
  bytesOf 4 r.error.toNat ++ (bytesOf 4 r.exitCode.toNat ++ bytesOf 4 r.signalNumber.toNat)

def ofBytes (bs : List Byte) : ExecutePUTAPIResponse where
  error := BitVec.ofNat 32 (valueOf (bs.take 4))
  exitCode := BitVec.ofNat 32 (valueOf ((bs.drop 4).take 4))
  signalNumber := BitVec.ofNat 32 (valueOf ((bs.drop 8).take 4))

@[simp] theorem length_bytes (r : ExecutePUTAPIResponse) : r.bytes.length = size := by
  simp [bytes, size]

theorem ofBytes_bytes (r : ExecutePUTAPIResponse) : ofBytes r.bytes = r := by
  have hexit : r.bytes.drop 4 = bytesOf 4 r.exitCode.toNat ++ bytesOf 4 r.signalNumber.toNat :=
    List.drop_left' (length_bytesOf 4 _)
  have hsignal : r.bytes.drop 8 = bytesOf 4 r.signalNumber.toNat := by
    rw [show 8 = 4 + 4 from rfl, ← List.drop_drop, hexit]
    exact List.drop_left' (length_bytesOf 4 _)
  have herror : r.bytes.take 4 = bytesOf 4 r.error.toNat := List.take_left' (length_bytesOf 4 _)
  have htail : (bytesOf 4 r.signalNumber.toNat).take 4 = bytesOf 4 r.signalNumber.toNat :=
    List.take_of_length_le (length_bytesOf 4 _).le
  simp [ofBytes, herror, hexit, hsignal, htail, List.take_left', ofNat_valueOf_bytesOf]

end ExecutePUTAPIResponse

/-! ## Wait statuses -/

/-- A signal number. -/
structure Signal where
  number : Fin 65
  ne_zero : number ≠ 0
  deriving DecidableEq, Repr

def SIGKILL : Signal := ⟨9, by decide⟩
def SIGALRM : Signal := ⟨14, by decide⟩
def SIGSTOP : Signal := ⟨19, by decide⟩

/-- How a process ends. -/
inductive FinalStatus
  | exited (exitCode : BitVec 8)
  | signaled (signal : Signal)
  deriving DecidableEq, Repr

/-- The status word of a process that has ended, with or without a core dump. -/
def FinalStatus.wstatus (coreDumped : Bool) : FinalStatus → BitVec 32
  | exited exitCode => exitCode.setWidth 32 <<< 8
  | signaled signal =>
      BitVec.ofNat 32 signal.number.val ||| if coreDumped then 0x80 else 0

/-- The status word of a process that a signal has stopped. -/
def Signal.stopStatus (signal : Signal) : BitVec 32 :=
  BitVec.ofNat 32 signal.number.val <<< 8 ||| 0x7f

def WTERMSIG (status : BitVec 32) : BitVec 32 :=
  status &&& 0x7f

def WEXITSTATUS (status : BitVec 32) : BitVec 32 :=
  (status &&& 0xff00) >>> 8

def WIFEXITED (status : BitVec 32) : Bool :=
  WTERMSIG status == 0

/-- The macro narrows to `signed char` before it shifts. -/
def WIFSIGNALED (status : BitVec 32) : Bool :=
  decide (0 < (((WTERMSIG status + 1).setWidth 8).sshiftRight 1).toInt)

/-- The response to a status word, if the PUT has ended. -/
def responseOf (wstatus : BitVec 32) : Option ExecutePUTAPIResponse :=
  if WIFEXITED wstatus || WIFSIGNALED wstatus then
    let response : ExecutePUTAPIResponse := ⟨ExecutePUTError.none.code, 0, 0⟩
    let response :=
      if WIFEXITED wstatus then { response with exitCode := WEXITSTATUS wstatus } else response
    let response :=
      if WIFSIGNALED wstatus then
        { response with exitCode := WTERMSIG wstatus, signalNumber := WTERMSIG wstatus }
      else response
    some response
  else none

/-- The response that a final status deserves. -/
def FinalStatus.response : FinalStatus → ExecutePUTAPIResponse
  | exited exitCode => ⟨ExecutePUTError.none.code, exitCode.setWidth 32, 0⟩
  | signaled signal =>
      ⟨ExecutePUTError.none.code, BitVec.ofNat 32 signal.number.val,
        BitVec.ofNat 32 signal.number.val⟩

theorem responseOf_exited (exitCode : BitVec 8) :
    responseOf ((FinalStatus.exited exitCode).wstatus false) =
      some (FinalStatus.exited exitCode).response := by
  revert exitCode
  decide +kernel

theorem responseOf_wstatus (st : FinalStatus) (coreDumped : Bool) :
    responseOf (st.wstatus coreDumped) = some st.response := by
  cases st with
  | exited exitCode => exact responseOf_exited exitCode
  | signaled signal =>
      rcases signal with ⟨n, hn⟩
      revert n coreDumped
      decide +kernel

theorem responseOf_stopStatus (signal : Signal) : responseOf signal.stopStatus = none := by
  rcases signal with ⟨n, hn⟩
  revert n
  decide +kernel

/-- **Responses tell final statuses apart.** -/
theorem response_injective {st st' : FinalStatus} : st.response = st'.response → st = st' := by
  have hnumber : ∀ n : Fin 65, n ≠ 0 → BitVec.ofNat 32 n.val ≠ 0 := by decide
  have hinj : ∀ n m : Fin 65, BitVec.ofNat 32 n.val = BitVec.ofNat 32 m.val → n = m := by
    decide +kernel
  intro h
  cases st with
  | exited c =>
      cases st' with
      | exited c' =>
          have hcode : c.setWidth 32 = c'.setWidth 32 := congrArg (·.exitCode) h
          have : c = c' := by
            simpa using congrArg (BitVec.setWidth 8) hcode
          rw [this]
      | signaled s =>
          -- only an exit has the signal number 0
          exact absurd (congrArg (·.signalNumber) h).symm (hnumber s.number s.ne_zero)
  | signaled s =>
      cases st' with
      | exited c => exact absurd (congrArg (·.signalNumber) h) (hnumber s.number s.ne_zero)
      | signaled s' =>
          have hs : s.number = s'.number := hinj _ _ (congrArg (·.signalNumber) h)
          rcases s with ⟨n, hn⟩
          rcases s' with ⟨n', hn'⟩
          cases hs
          rfl

end ForkServer
end FuzzufCc
