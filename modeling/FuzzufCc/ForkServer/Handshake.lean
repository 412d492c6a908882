import FuzzufCc.ForkServer.Server

/-!
# Handshake — how the id of the executor reaches the server

A `read` on a pipe may return fewer bytes than it was asked for, or none because of a signal.
`Recv` copes with both; `WaitClientAttach` does not use it.  Its result shares the type of the ids with the
value that stands for a failed handshake.
-/

namespace FuzzufCc
namespace ForkServer

/-- `es` is one way in which `read` delivers the bytes `bs`: in pieces that are not empty, with any
number of interruptions before a piece. -/
inductive Delivers : List Byte → List Event → Prop
  | done : Delivers [] []
  | interrupted {bs : List Byte} {es : List Event} : bs ≠ [] → Delivers bs es →
      Delivers bs (.eintr :: es)
  | piece {data bs : List Byte} {es : List Event} : data ≠ [] → Delivers bs es →
      Delivers (data ++ bs) (.read data :: es)

namespace System

/-- The server takes what `read` returns as long as it waits for the id. -/
def attachTo (s : System) : List Event → Option System
  | [] => some s
  | e :: es =>
      if s.control = .waitClientAttach then (s.step e).bind fun s' => s'.attachTo es
      else some s

/-- The bytes that the server hands to `write` in its present system call. -/
def writes (s : System) : List Byte :=
  match s.control with
  | .tellClientServerHasStarted _ => bytesOf 4 (BitVec.ofInt 32 s.pid).toNat
  | .write response => response.bytes
  | _ => []

/-- From the id to the loop of commands: the server answers with its pid, and changes nothing of its
settings but the id. -/
def CompletesHandshake (s : System) (executorId : BitVec 64) (es : List Event) : Prop :=
  ∃ s₁ s₂, s.attachTo es = some s₁ ∧ s₁.writes = bytesOf 4 (BitVec.ofInt 32 s.pid).toNat ∧
    s₁.step .succeeds = some s₂ ∧ s₂.control = .waitForAPICall [] ∧
    s₂.settings = { s.settings with executorId := executorId }

variable {s : System}

theorem attachTo_of_ne (h : s.control ≠ .waitClientAttach) (es : List Event) :
    s.attachTo es = some s := by
  cases es with
  | nil => rfl
  | cons e es => rw [attachTo, if_neg h]

/-- A handshake that the first result of `read` ends. -/
theorem attachTo_cons {s' : System} {e : Event} (hcontrol : s.control = .waitClientAttach)
    (hstep : s.step e = some s') (hended : s'.control ≠ .waitClientAttach) (es : List Event) :
    s.attachTo (e :: es) = some s' := by
  rw [attachTo, if_pos hcontrol, hstep, Option.bind_some, attachTo_of_ne hended]

theorem attachTo_eintr (hcontrol : s.control = .waitClientAttach) (es : List Event) :
    s.attachTo (.eintr :: es) = some { s with control := .standalone } :=
  attachTo_cons hcontrol (by simp [step, callInterrupted, hcontrol]) (by simp) es

theorem attachTo_short (hcontrol : s.control = .waitClientAttach) {data : List Byte}
    (hshort : data.length < 8) (es : List Event) :
    s.attachTo (.read data :: es) = some { s with control := .standalone } := by
  refine attachTo_cons hcontrol ?_ (by simp) es
  simp [step, readReturns, waitClientAttach, hcontrol, hshort, hshort.le]

/-- All eight bytes at once. -/
theorem attachTo_whole (hcontrol : s.control = .waitClientAttach) (executorId : BitVec 64)
    (es : List Event) :
    s.attachTo (.read (bytesOf 8 executorId.toNat) :: es) =
      some { s with control :=
        if executorId = HANDSHAKE_FAILED then .standalone
        else .tellClientServerHasStarted executorId } := by
  have hid : BitVec.ofNat 64 (valueOf (bytesOf 8 executorId.toNat)) = executorId :=
    ofNat_valueOf_bytesOf 8 executorId rfl
  refine attachTo_cons hcontrol ?_ (by split <;> simp) es
  simp only [step, readReturns, waitClientAttach, hcontrol, hid, length_bytesOf, le_refl, if_true,
    lt_irrefl, false_or]
  split <;> rfl

theorem not_completes_of_standalone {executorId : BitVec 64} {es : List Event}
    (h : s.attachTo es = some { s with control := .standalone }) :
    ¬s.CompletesHandshake executorId es := by
  rintro ⟨s₁, s₂, hs₁, _, hstep, -⟩
  obtain rfl := Option.some.inj (h.symm.trans hs₁)
  simp [step, callSucceeds] at hstep

end System

/-- An end of the input before the eighth byte leaves the program without a client. -/
theorem Delivers.standalone {bs : List Byte} {es : List Event} (h : Delivers bs es)
    (hshort : bs.length < 8) {s : System} (hcontrol : s.control = .waitClientAttach) :
    s.attachTo (es ++ [.read []]) = some { s with control := .standalone } := by
  cases h with
  | done => exact System.attachTo_short hcontrol (by simp) _
  | interrupted _ _ => exact System.attachTo_eintr hcontrol _
  | piece _ _ =>
      rw [List.length_append] at hshort
      exact System.attachTo_short hcontrol (by omega) _

/-- Nothing is left to deliver behind the last byte. -/
theorem Delivers.eq_nil {es : List Event} (h : Delivers [] es) : es = [] := by
  generalize hbs : ([] : List Byte) = bs at h
  cases h with
  | done => rfl
  | interrupted hne _ => exact absurd hbs.symm hne
  | piece hne _ => exact absurd (List.append_eq_nil_iff.1 hbs.symm).1 hne

theorem Delivers.completes_iff {executorId : BitVec 64} {es : List Event}
    (h : Delivers (bytesOf 8 executorId.toNat) es) {s : System}
    (hcontrol : s.control = .waitClientAttach) :
    s.CompletesHandshake executorId es ↔
      es = [.read (bytesOf 8 executorId.toNat)] ∧ executorId ≠ HANDSHAKE_FAILED := by
  generalize hbs : bytesOf 8 executorId.toNat = bs at h
  have hlen : bs.length = 8 := by rw [← hbs, length_bytesOf]
  cases h with
  | done => simp at hlen
  | interrupted _ _ =>
      refine iff_of_false (System.not_completes_of_standalone ?_) (by simp)
      exact System.attachTo_eintr hcontrol _
  | @piece data rest es' hdata hrest =>
      rw [List.length_append] at hlen
      cases rest with
      | cons b rest =>
          -- the first piece is not all
          rw [List.length_cons] at hlen
          refine iff_of_false (System.not_completes_of_standalone ?_) fun hes => ?_
          · exact System.attachTo_short hcontrol (by omega) _
          · simp at hes
      | nil =>
          rw [List.append_nil] at hbs ⊢
          obtain rfl := hrest.eq_nil
          subst hbs
          have hattach := System.attachTo_whole hcontrol executorId []
          by_cases hid : executorId = HANDSHAKE_FAILED
          · rw [if_pos hid] at hattach
            exact iff_of_false (System.not_completes_of_standalone hattach) fun hes => hes.2 hid
          · rw [if_neg hid] at hattach
            exact iff_of_true ⟨_, _, hattach, rfl, rfl, rfl, rfl⟩ ⟨rfl, hid⟩

/-- **When the handshake is completed.** For an id that arrives in full the server attaches exactly
if one `read` returns all of it without an interruption and the id is not the one that stands for a
failure; it runs without a client if the input ends earlier. -/
theorem completesHandshake_iff (pid : Int) (fds : FdTable) (ignored : Bool) :
    (∀ (executorId : BitVec 64) (es : List Event), Delivers (bytesOf 8 executorId.toNat) es →
      ((System.start pid fds ignored).CompletesHandshake executorId es ↔
        es = [.read (bytesOf 8 executorId.toNat)] ∧ executorId ≠ HANDSHAKE_FAILED)) ∧
    ∀ (bs : List Byte) (es : List Event), Delivers bs es → bs.length < 8 →
      (System.start pid fds ignored).attachTo (es ++ [.read []]) =
        some { System.start pid fds ignored with control := .standalone } := by
  constructor
  · intro executorId es h
    exact h.completes_iff rfl
  · intro bs es h hshort
    exact h.standalone hshort rfl

/-! ### A signal before the id -/

/-- The id 1 in one piece. -/
theorem delivers_whole : Delivers (bytesOf 8 1) [.read (bytesOf 8 1)] := by
  have h : Delivers (bytesOf 8 1 ++ []) [.read (bytesOf 8 1)] := .piece (by decide) .done
  rwa [List.append_nil] at h

/-- A signal arrives before the id of executor 1, and the server gives up. -/
theorem interruptedAttach_fails :
    Delivers (bytesOf 8 1) [.eintr, .read (bytesOf 8 1)] ∧
      ¬(System.start 50 [] false).CompletesHandshake 1 [.eintr, .read (bytesOf 8 1)] := by
  constructor
  · exact .interrupted (by decide) delivers_whole
  · exact System.not_completes_of_standalone (System.attachTo_eintr rfl _)

/-- Without the signal it attaches. -/
theorem wholeAttach_completes :
    (System.start 50 [] false).CompletesHandshake 1 [.read (bytesOf 8 1)] :=
  ((completesHandshake_iff 50 [] false).1 1 [.read (bytesOf 8 1)] delivers_whole).2
    ⟨rfl, by decide⟩

end ForkServer
end FuzzufCc
