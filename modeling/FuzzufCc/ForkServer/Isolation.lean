import FuzzufCc.ForkServer.Timeout

/-!
# Isolation — what a PUT can tell about the executions before it

A PUT starts with the signal dispositions, the globals, the timer and the descriptors that the
server has at the `fork`.  Two forks of one session with the same settings and files are compared:
the server installs its handler only behind the first one, `last_timeout` keeps what the handler
last wrote there, and the offsets of the inherited files are shared by all.

What a PUT does with this shows in the response that the server writes, if it lives to write one.
-/

namespace FuzzufCc
namespace ForkServer

open Transition

namespace System

variable {s s' : System}

/-- A PUT has been forked, or the server is gone. -/
def Begun (s : System) : Prop :=
  s.control.Serving → s.past ≠ [] ∨ s.control.HasPut

theorem Begun.step {e : Event} (hbegun : s.Begun) : s.step e = some s' → s'.Begun := by
  intro hstep
  -- idle steps keep the reaped PUTs, and there is one already
  have hidle : SameKernel s s' → s.control.Idle → s'.Begun := by
    intro hsame hold _
    rw [hsame.past]
    exact Or.inl ((hbegun hold.1).resolve_right hold.2)
  cases step_cases hstep with
  | attached _ hcontrol =>
      exact hidle ⟨rfl, rfl, rfl, rfl, rfl, rfl⟩ (hcontrol ▸ ⟨trivial, id⟩)
  | told hcontrol => exact hidle ⟨rfl, rfl, rfl, rfl, rfl, rfl⟩ (hcontrol ▸ ⟨trivial, id⟩)
  | moreCommand hcontrol =>
      exact hidle ⟨rfl, rfl, rfl, rfl, rfl, rfl⟩ (hcontrol ▸ ⟨trivial, id⟩)
  | command hcontrol => exact hidle (switch_same _).1 (hcontrol ▸ ⟨trivial, id⟩)
  | moreU64 hcontrol => exact hidle ⟨rfl, rfl, rfl, rfl, rfl, rfl⟩ (hcontrol ▸ ⟨trivial, id⟩)
  | u64 hcontrol _ hlen => exact hidle (recvU64_same hlen).1 (hcontrol ▸ ⟨trivial, id⟩)
  | write hcontrol => exact hidle ⟨rfl, rfl, rfl, rfl, rfl, rfl⟩ (hcontrol ▸ ⟨trivial, id⟩)
  | readAgain _ => exact hbegun
  | waitAgain _ _ => exact hbegun
  | putEnds _ _ _ => exact hbegun
  | expiresIgnored _ _ => exact hbegun
  | expires _ _ => exact hbegun
  | moves => exact hbegun
  | fork _ _ => exact fun _ => Or.inr trivial
  | setitimer _ => exact fun _ => Or.inr trivial
  | sigaction _ => exact fun _ => Or.inr trivial
  | reaped _ _ _ => exact fun _ => Or.inl (by simp)
  | handshakeFails _ _ => exact fun h => h.elim
  | exit _ => exact fun h => h.elim
  | eof _ => exact fun h => h.elim
  | expiresByDefault _ _ => exact fun h => h.elim
  | terminated _ => exact fun h => h.elim

theorem fork_eq_some {pid : Int} {unopenable : List String} :
    s.step (.fork pid unopenable) = some s' ↔
      s.control = .fork ∧ 0 < pid ∧ s' = s.forked pid unopenable := by
  simp only [step]
  split_ifs with h
  · constructor
    · intro hs
      exact ⟨h.1, h.2, (Option.some.inj hs).symm⟩
    · intro hs
      rw [hs.2.2]
  · constructor
    · intro hs
      cases hs
    · intro hs
      exact absurd ⟨hs.1, hs.2.1⟩ h

end System

/-! ## Timeouts -/

/-- The last expiry among the events that runs the handler: the `errno` of its `kill`, 0 if there is
a process to kill, and whether a PUT is reaped behind it. -/
def LastExpiry (s : System) (es : List Event) (killErrno : Int) (reaped : Bool) : Prop :=
  ∃ es' errno rest t t', es = es' ++ .expires errno :: rest ∧
    run System.step s es' = some t ∧ RunsHandler t (.expires errno) ∧
    t.step (.expires errno) = some t' ∧ AllSteps System.step (fun u e => ¬RunsHandler u e) t' rest ∧
    killErrno = (if t.target.isSome then 0 else errno) ∧ reaped = decide (.reaped ∈ rest)

theorem LastExpiry.mem {s : System} {es : List Event} {killErrno : Int} {reaped : Bool} :
    LastExpiry s es killErrno reaped → ∃ errno, .expires errno ∈ es := by
  rintro ⟨es', errno, rest, _, _, rfl, _⟩
  exact ⟨errno, by simp⟩

namespace System

variable {s s' : System}

end System

/-! ## Offsets -/

def Event.move : Event → Option (Nat × Int)
  | .moves file distance => some (file, distance)
  | _ => none

namespace System

variable {s s' : System}

end System

/-! ## Two executions of a session -/

/-- The state with which the PUT forked by `ExecutePUT` in state `s` begins. -/
def startOf (s : System) (unopenable : List String) : PutState :=
  putStart s.settings unopenable s.sigalrm s.lastTimeout s.moves s.fds

theorem forked_start (s : System) (pid : Int) (unopenable : List String) :
    (s.forked pid unopenable).child = some { put := ⟨pid, startOf s unopenable⟩ } :=
  rfl

namespace System

variable {s s' : System}

end System

/-! ## Responses -/

/-- How a PUT ends that nobody disturbs. -/
inductive Outcome
  | ends (st : FinalStatus)
  -- `kill(0, SIGKILL)`, which also kills the server of the same process group
  | killsGroup
  | loops
  deriving DecidableEq, Repr

/-- How the child ends whose PUT behaves like this: without its streams it gives up. -/
def outcomeOf (behaviour : PutState → Outcome) (p : PutState) : Outcome :=
  if p.fds.isNone then .ends (.exited 1) else behaviour p

/-- The child ends by itself, and nothing else happens to it or to the server. -/
def Undisturbed (behaviour : PutState → Outcome) (s : System) : Event → Prop
  | .putEnds st _ => ∀ c, s.child = some c →
      outcomeOf behaviour c.put.start = .ends st ∨
        (outcomeOf behaviour c.put.start = .killsGroup ∧ s.control = .killed ∧
          st = .signaled SIGKILL)
  | .terminated => ∀ c, s.child = some c → outcomeOf behaviour c.put.start = .killsGroup
  | .expires _ => False
  | _ => True

/-- An execution that nobody disturbs, up to the response. -/
def executePUT (st : FinalStatus) : List Event :=
  [.succeeds, .succeeds, .putEnds st false, .reaped, .succeeds]

/-- How far the server has come behind the `fork` of a child with outcome `o`. -/
inductive Execution (o : Outcome) (put : Put) (before : List Obs) (s : System) : Prop
  | runs {c : Child} : s.child = some c → c.put = put → s.control.HasPut →
      (∀ st coreDumped, c.ended = some (st, coreDumped) → o = .ends st) →
      (s.control = .setitimer → s.trace = before) →
      (s.control ≠ .setitimer → ∃ microseconds, s.trace = before ++ [.setitimer microseconds]) →
      Execution o put before s
  | reaped {st : FinalStatus} {microseconds : Nat} : o = .ends st →
      s.control = .write st.response → s.trace = before ++ [.setitimer microseconds] →
      Execution o put before s
  | answered {st : FinalStatus} {microseconds : Nat} {later : List Obs} : o = .ends st →
      s.trace = before ++ .setitimer microseconds :: .response st.response :: later →
      Execution o put before s
  | dead : ¬s.control.Serving →
      (s.trace = before ∨ ∃ microseconds, s.trace = before ++ [.setitimer microseconds]) →
      Execution o put before s

namespace System

variable {s s' : System} {behaviour : PutState → Outcome}

end System

namespace System

variable {s s' : System}

end System

/-! ### A PUT that raises `SIGALRM` -/

end ForkServer
end FuzzufCc
