import FuzzufCc.ForkServer.Isolation

/-!
# Reports — what a response says about a PUT that never ran

A child that cannot open one of its streams leaves `AttachStdxxxFiles` by `exit(EXIT_FAILURE)`, and
the server learns of it through the same wait status as of a PUT that exits with 1.  The responses
carry an `ExecutePUTError`, but the server only ever writes `None`.

The server does not see when a child begins the PUT's own code, so a flag beside its state records
that.
-/

namespace FuzzufCc
namespace ForkServer

open Transition

/-- The server, and whether the child it has last forked has come to the code of the PUT. -/
structure Watched where
  server : System
  begun : Bool
  deriving DecidableEq, Repr

inductive WatchedEvent
  | server (e : Event)
  -- the child returns from the constructor with its streams attached
  | begins
  deriving DecidableEq, Repr

namespace Watched

def start (pid : Int) (fds : FdTable) (ignored : Bool) : Watched where
  server := .start pid fds ignored
  begun := false

/-- The flag of the child behind an event of the server. -/
def begunAfter (w : Watched) : Event → Bool
  | .fork _ _ => false
  | _ => w.begun

/-- A child exits by the code of the PUT or by giving up; a signal can end it at any time. -/
def endsAsItMay (w : Watched) : Event → Bool
  | .putEnds (.exited _) _ =>
      w.begun || w.server.child.any fun c => c.put.start.fds.isNone
  | _ => true

def step (w : Watched) : WatchedEvent → Option Watched
  | .begins =>
      match w.server.child with
      | some c =>
          if c.ended.isNone && c.put.start.fds.isSome then some { w with begun := true } else none
      | none => none
  | .server e =>
      if w.endsAsItMay e then
        (w.server.step e).map fun s => { server := s, begun := w.begunAfter e }
      else none

/-- The PUT that was reaped last could not attach its streams. -/
def FailedToAttach (w : Watched) : Prop :=
  ∃ put st, w.server.past.getLast? = some (put, st) ∧ put.start.fds = none

/-- What a response may claim about the child it reports. -/
structure Honest (w : Watched) (response : ExecutePUTAPIResponse) : Prop where
  ran : response.error = ExecutePUTError.none.code → w.begun ∧ ¬w.FailedToAttach
  distinct : w.FailedToAttach → ∀ st : FinalStatus, response ≠ st.response

/-- Every response that the server is about to write is honest. -/
def Reports (w : Watched) : Prop :=
  ∀ response, w.server.control = .write response → w.Honest response

/-! ## Steps -/

section Steps

variable {w w' : Watched}

theorem step_server_cases {e : Event} : w.step (.server e) = some w' →
    w.endsAsItMay e ∧ w.server.step e = some w'.server ∧ w'.begun = w.begunAfter e := by
  intro h
  simp only [step] at h
  split at h
  · rename_i hend
    rcases Option.map_eq_some_iff.1 h with ⟨s, hs, rfl⟩
    exact ⟨hend, hs, rfl⟩
  · cases h

theorem step_begins_cases : w.step .begins = some w' →
    (∃ c, w.server.child = some c ∧ c.ended = none ∧ c.put.start.fds.isSome) ∧
      w' = { w with begun := true } := by
  intro h
  simp only [step] at h
  split at h
  · rename_i c hchild
    split at h
    · rename_i hc
      rcases Bool.and_eq_true_iff.1 hc with ⟨hended, hfds⟩
      exact ⟨⟨c, hchild, Option.isNone_iff_eq_none.1 hended, hfds⟩, (Option.some.inj h).symm⟩
    · cases h
  · cases h

/-- Only a child with its streams attached comes to the code of the PUT. -/
def BegunAttached (w : Watched) : Prop :=
  w.begun → ∀ c, w.server.child = some c → c.put.start.fds.isSome

end Steps
end Watched

namespace System

variable {s s' : System}

/-- Where the child behind a step comes from: the step forked it, ended it, or found it. -/
inductive ChildFrom (s : System) (e : Event) (c' : Child) : Prop
  | forked {pid : Int} {unopenable : List String} : e = .fork pid unopenable →
      c' = { put := ⟨pid, startOf s unopenable⟩ } → ChildFrom s e c'
  | ended {c : Child} {st : FinalStatus} {coreDumped : Bool} : e = .putEnds st coreDumped →
      s.child = some c → c.ended = none → c'.put = c.put → c'.ended = some (st, coreDumped) →
      ChildFrom s e c'
  | kept {c : Child} : (∀ pid unopenable, e ≠ .fork pid unopenable) →
      (∀ st coreDumped, e ≠ .putEnds st coreDumped) → s.child = some c → c'.put = c.put →
      c'.ended = c.ended → ChildFrom s e c'

theorem child_step {e : Event} (hstep : s.step e = some s') {c' : Child}
    (hc' : s'.child = some c') : ChildFrom s e c' := by
  cases step_cases hstep with
  | fork _ _ => exact .forked rfl (Option.some.inj hc').symm
  | reaped _ _ _ => cases hc'
  | putEnds hchild hnone _ =>
      obtain rfl := Option.some.inj hc'
      exact .ended rfl hchild hnone rfl rfl
  | command _ _ _ => exact .kept (by simp) (by simp) ((switch_same _).1.child ▸ hc') rfl rfl
  | u64 _ _ hlen => exact .kept (by simp) (by simp) ((recvU64_same hlen).1.child ▸ hc') rfl rfl
  | handshakeFails _ he =>
      rcases he with ⟨_, rfl⟩ | rfl | rfl <;> exact .kept (by simp) (by simp) hc' rfl rfl
  | waitAgain _ he => rcases he with rfl | ⟨_, rfl⟩ <;> exact .kept (by simp) (by simp) hc' rfl rfl
  | @expires errno armedBy _ _ =>
      cases htarget : s.target with
      | none =>
          have hsame : (s.putTimeoutHandler armedBy errno).child = s.child := by
            simp [putTimeoutHandler, htarget]
          exact .kept (by simp) (by simp) (hsame ▸ hc') rfl rfl
      | some c =>
          simp only [putTimeoutHandler, htarget, Option.elim_some] at hc'
          obtain rfl := Option.some.inj hc'
          exact .kept (by simp) (by simp) (target_eq_some.1 htarget).1 rfl rfl
  | _ => exact .kept (by simp) (by simp) hc' rfl rfl

/-- `waitpid` reaps a child that has ended, and its response is the next thing to write. -/
theorem reaped_cases (hstep : s.step .reaped = some s') :
    ∃ c st coreDumped, s.child = some c ∧ c.ended = some (st, coreDumped) ∧
      s'.control = .write st.response ∧ s'.past = s.past ++ [(c.put, st)] := by
  cases step_cases hstep with
  | reaped _ htarget hended =>
      exact ⟨_, _, _, (target_eq_some.1 htarget).1, hended, rfl, rfl⟩
  | handshakeFails _ he => simp at he
  | waitAgain _ he => simp at he

theorem switch_control_ne (command : BitVec 32) (response : ExecutePUTAPIResponse) :
    (s.switch command).control ≠ .write response := by
  simp only [switch]
  split_ifs <;> simp

/-- Only `waitpid` makes the server write a response. -/
theorem write_step {e : Event} (hstep : s.step e = some s') {response : ExecutePUTAPIResponse}
    (hwrite : s'.control = .write response) :
    (s.control = .write response ∧ s'.past = s.past ∧ e ≠ .reaped ∧
        ∀ pid unopenable, e ≠ .fork pid unopenable) ∨
      (e = .reaped ∧ ∃ c st, s.child = some c ∧ s'.past = s.past ++ [(c.put, st)] ∧
        response = st.response) := by
  cases step_cases hstep with
  | @reaped c st _ _ htarget _ =>
      refine Or.inr ⟨rfl, c, st, (target_eq_some.1 htarget).1, rfl, ?_⟩
      exact (Control.write.inj hwrite).symm
  | command _ _ _ => exact absurd hwrite (switch_control_ne _ _)
  | u64 _ _ hlen => simp [recvU64, hlen] at hwrite
  | waitAgain hcontrol _ =>
      rw [show s.logTimeout.control = s.control from rfl, hcontrol] at hwrite
      cases hwrite
  | readAgain hcontrol =>
      rcases hcontrol with h | h <;> simp [h] at hwrite
  | putEnds _ _ _ => exact Or.inl ⟨hwrite, rfl, by simp, by simp⟩
  | moves => exact Or.inl ⟨hwrite, rfl, by simp, by simp⟩
  | expiresIgnored _ _ => exact Or.inl ⟨hwrite, rfl, by simp, by simp⟩
  | expires _ _ => exact Or.inl ⟨hwrite, rfl, by simp, by simp⟩
  | _ => cases hwrite

end System

namespace Watched

variable {w w' : Watched}

theorem begunAfter_of_ne {e : Event} (hfork : ∀ pid unopenable, e ≠ .fork pid unopenable) :
    w.begunAfter e = w.begun := by
  cases e <;> first | rfl | exact absurd rfl (hfork _ _)

theorem BegunAttached.step {e : WatchedEvent} (hw : w.BegunAttached) :
    w.step e = some w' → w'.BegunAttached := by
  intro hstep
  cases e with
  | begins =>
      rcases step_begins_cases hstep with ⟨⟨c, hc, -, hfds⟩, rfl⟩
      intro _ c' hc'
      obtain rfl : c = c' := Option.some.inj (hc.symm.trans hc')
      exact hfds
  | server e =>
      obtain ⟨-, hserver, hbegun⟩ := step_server_cases hstep
      intro hbegun' c' hc'
      rw [hbegun] at hbegun'
      cases System.child_step hserver hc' with
      | forked he _ =>
          -- a new child has not begun
          subst he
          cases hbegun'
      | ended he hc _ hput _ =>
          subst he
          exact hput ▸ hw hbegun' _ hc
      | kept hfork _ hc hput _ =>
          rw [begunAfter_of_ne hfork] at hbegun'
          exact hput ▸ hw hbegun' _ hc

/-- The response about a PUT is honest exactly if the PUT has run: the server writes `None` for all
of them, and `FinalStatus.response` is what a PUT can produce. -/
theorem honest_response_iff {put : Put} {st : FinalStatus}
    (hlast : w.server.past.getLast? = some (put, st))
    (hattached : w.begun → put.start.fds.isSome) : w.Honest st.response ↔ w.begun := by
  have hnone : st.response.error = ExecutePUTError.none.code := by cases st <;> rfl
  have hnot : w.begun → ¬w.FailedToAttach := by
    rintro hbegun ⟨put', st', hlast', hfailed⟩
    obtain ⟨rfl, rfl⟩ := Prod.mk.inj (Option.some.inj (hlast.symm.trans hlast'))
    simpa [hfailed] using hattached hbegun
  constructor
  · intro h
    exact (h.ran hnone).1
  · intro hbegun
    exact ⟨fun _ => ⟨hbegun, hnot hbegun⟩, fun hfailed => absurd hfailed (hnot hbegun)⟩

/-- **One step.** -/
theorem reports_step {e : WatchedEvent} (hw : w.BegunAttached) (hreports : w.Reports) :
    w.step e = some w' → (w'.Reports ↔ (e = .server .reaped → w.begun)) := by
  intro hstep
  cases e with
  | begins =>
      rcases step_begins_cases hstep with ⟨-, rfl⟩
      refine iff_of_true (fun response hwrite => ?_) (by simp)
      exact ⟨fun hnone => ⟨rfl, ((hreports response hwrite).ran hnone).2⟩,
        (hreports response hwrite).distinct⟩
  | server e =>
      obtain ⟨-, hserver, hbegun⟩ := step_server_cases hstep
      by_cases he : e = .reaped
      · subst he
        have hbegun' : w'.begun = w.begun := hbegun
        obtain ⟨c, st, _, hchild, _, hwrite, hpast⟩ := System.reaped_cases hserver
        have hone : w'.Reports ↔ w'.Honest st.response := by
          constructor
          · intro h
            exact h _ hwrite
          · intro h response hresponse
            rw [hwrite] at hresponse
            exact Control.write.inj hresponse ▸ h
        rw [hone, honest_response_iff (by rw [hpast, List.getLast?_concat])
          fun h => hw (hbegun' ▸ h) c hchild, hbegun']
        simp
      · refine iff_of_true (fun response hwrite => ?_) (by simp [he])
        rcases System.write_step hserver hwrite with ⟨hold, hpast, -, hfork⟩ | ⟨hreaped, -⟩
        · have hhonest := hreports response hold
          rw [begunAfter_of_ne hfork] at hbegun
          have hsame : w'.FailedToAttach ↔ w.FailedToAttach := by
            simp only [FailedToAttach, hpast]
          constructor
          · rw [hbegun, hsame]
            exact hhonest.ran
          · rw [hsame]
            exact hhonest.distinct
        · exact absurd hreaped he

theorem start_begunAttached (pid : Int) (fds : FdTable) (ignored : Bool) :
    (start pid fds ignored).BegunAttached := by
  intro h
  cases h

theorem start_reports (pid : Int) (fds : FdTable) (ignored : Bool) :
    (start pid fds ignored).Reports := by
  intro response hwrite
  cases hwrite

theorem reports_iff_begun {pid : Int} {fds : FdTable} {ignored : Bool} {es : List WatchedEvent}
    (hrun : run Watched.step (start pid fds ignored) es = some w) :
    AllStates Watched.step Reports (start pid fds ignored) es ↔
      AllSteps Watched.step (fun t e => e = .server .reaped → t.begun) (start pid fds ignored)
        es := by
  refine allStates_iff_allSteps (start_reports pid fds ignored) ?_ hrun
  intro es t e t' hes he ht
  have hattached : t.BegunAttached :=
    invariant_run (fun _ _ _ h hstep => h.step hstep) (start_begunAttached pid fds ignored) hes
  exact reports_step hattached ht he

end Watched

/-! ## From the fork of a child to its end -/

/-- A signal ends the child before it comes to the code of the PUT. -/
def signaledFirst : List WatchedEvent → Bool
  | [] => false
  | .begins :: _ => false
  | .server .reaped :: _ => false
  | .server (.putEnds (.signaled _) _) :: _ => true
  | _ :: es => signaledFirst es

/-- The files that a child cannot open, if the event is its fork. -/
def WatchedEvent.forks : WatchedEvent → Option (List String)
  | .server (.fork _ unopenable) => some unopenable
  | _ => none

theorem signaledFirst_append {es es' : List WatchedEvent} (hreaped : .server .reaped ∉ es) :
    signaledFirst (es ++ es') =
      (signaledFirst es || (decide (.begins ∉ es) && signaledFirst es')) := by
  induction es with
  | nil => simp [signaledFirst]
  | cons e es ih =>
      have hreaped' : .server .reaped ∉ es := fun h => hreaped (List.mem_cons_of_mem _ h)
      cases e with
      | begins => simp [signaledFirst]
      | server e =>
          cases e with
          | reaped => exact absurd List.mem_cons_self hreaped
          | putEnds st coreDumped => cases st <;> simp [signaledFirst, ih hreaped']
          | _ => simp [signaledFirst, ih hreaped']

theorem signaledFirst_of_ne {e : Event} (hends : ∀ st coreDumped, e ≠ .putEnds st coreDumped) :
    signaledFirst [.server e] = false := by
  cases e with
  | putEnds st coreDumped => exact absurd rfl (hends st coreDumped)
  | _ => rfl

namespace System

variable {s s' : System}

theorem reaped_control (hstep : s.step .reaped = some s') : s.control = .waitpid := by
  simp only [step] at hstep
  split at hstep
  · assumption
  · cases hstep

/-- A child is forked; or it is reaped; or the server stays with the child that it has, or ends. -/
theorem hasPut_step {e : Event} : s.step e = some s' →
    (∃ pid unopenable, e = .fork pid unopenable ∧ s.control = .fork ∧
        s' = s.forked pid unopenable) ∨
      (e = .reaped ∧ ¬s'.control.HasPut) ∨
      (e ≠ .reaped ∧ (∀ pid unopenable, e ≠ .fork pid unopenable) ∧
        (s'.control.HasPut → s.control.HasPut) ∧
        (s.control.HasPut → ¬s'.control.Serving ∨ s'.control.HasPut)) := by
  intro hstep
  cases step_cases hstep with
  | fork h _ => exact Or.inl ⟨_, _, rfl, h, rfl⟩
  | reaped _ _ _ => exact Or.inr (Or.inl ⟨rfl, id⟩)
  | setitimer h =>
      exact Or.inr (Or.inr ⟨by simp, by simp, fun _ => h ▸ trivial, fun _ => Or.inr trivial⟩)
  | sigaction h =>
      exact Or.inr (Or.inr ⟨by simp, by simp, fun _ => h ▸ trivial, fun _ => Or.inr trivial⟩)
  | waitAgain _ he =>
      rcases he with rfl | ⟨_, rfl⟩ <;> exact Or.inr (Or.inr ⟨by simp, by simp, id, Or.inr⟩)
  | readAgain _ => exact Or.inr (Or.inr ⟨by simp, by simp, id, Or.inr⟩)
  | putEnds _ _ _ => exact Or.inr (Or.inr ⟨by simp, by simp, id, Or.inr⟩)
  | moves => exact Or.inr (Or.inr ⟨by simp, by simp, id, Or.inr⟩)
  | expires _ _ => exact Or.inr (Or.inr ⟨by simp, by simp, id, Or.inr⟩)
  | expiresIgnored _ _ => exact Or.inr (Or.inr ⟨by simp, by simp, id, Or.inr⟩)
  -- the server ends
  | handshakeFails _ he =>
      rcases he with ⟨_, rfl⟩ | rfl | rfl <;>
        exact Or.inr (Or.inr ⟨by simp, by simp, False.elim, fun _ => Or.inl id⟩)
  | exit _ => exact Or.inr (Or.inr ⟨by simp, by simp, False.elim, fun _ => Or.inl id⟩)
  | eof _ => exact Or.inr (Or.inr ⟨by simp, by simp, False.elim, fun _ => Or.inl id⟩)
  | expiresByDefault _ _ =>
      exact Or.inr (Or.inr ⟨by simp, by simp, False.elim, fun _ => Or.inl id⟩)
  | terminated _ => exact Or.inr (Or.inr ⟨by simp, by simp, False.elim, fun _ => Or.inl id⟩)
  -- there is no child here
  | attached _ h =>
      exact Or.inr (Or.inr ⟨by simp, by simp, False.elim, fun hput => (h ▸ hput).elim⟩)
  | told h =>
      exact Or.inr (Or.inr ⟨by simp, by simp, False.elim, fun hput => (h ▸ hput).elim⟩)
  | moreCommand h =>
      exact Or.inr (Or.inr ⟨by simp, by simp, False.elim, fun hput => (h ▸ hput).elim⟩)
  | command h =>
      exact Or.inr (Or.inr ⟨by simp, by simp, fun hput => absurd hput (switch_same _).2.2,
        fun hput => (h ▸ hput).elim⟩)
  | moreU64 h =>
      exact Or.inr (Or.inr ⟨by simp, by simp, False.elim, fun hput => (h ▸ hput).elim⟩)
  | u64 h _ hlen =>
      exact Or.inr (Or.inr ⟨by simp, by simp, fun hput => absurd hput (recvU64_same hlen).2.2,
        fun hput => (h ▸ hput).elim⟩)
  | write h =>
      exact Or.inr (Or.inr ⟨by simp, by simp, False.elim, fun hput => (h ▸ hput).elim⟩)

end System

namespace Watched

variable {w w' : Watched}

/-- What the events `a` behind the fork of a child with the descriptors `fds` have done to it, as
long as it is not reaped. -/
structure SinceFork (fds : Option FdTable) (a : List WatchedEvent) (w : Watched) : Prop where
  place : ¬w.server.control.Serving ∨ w.server.control.HasPut
  begun : w.begun = decide (.begins ∈ a)
  attached : ∀ c, w.server.child = some c → c.put.start.fds = fds
  lives : ∀ c, w.server.child = some c → c.ended = none → signaledFirst a = false
  signaled : ∀ c signal coreDumped, w.server.child = some c →
    c.ended = some (.signaled signal, coreDumped) → signaledFirst a = !w.begun
  exited : ∀ c exitCode coreDumped, w.server.child = some c →
    c.ended = some (.exited exitCode, coreDumped) →
      signaledFirst a = false ∧ (w.begun = true ∨ fds = none)

theorem SinceFork.step {fds : Option FdTable} {a : List WatchedEvent} {e : WatchedEvent}
    (h : SinceFork fds a w) (hreaped : .server .reaped ∉ a ++ [e]) :
    w.step e = some w' → SinceFork fds (a ++ [e]) w' := by
  intro hstep
  have hold : .server .reaped ∉ a := fun hmem => hreaped (List.mem_append_left _ hmem)
  have hne : e ≠ .server .reaped := fun he => hreaped (by simp [he])
  cases e with
  | begins =>
      obtain ⟨⟨c, hchild, hnone, -⟩, rfl⟩ := step_begins_cases hstep
      have hlast : signaledFirst (a ++ [.begins]) = signaledFirst a := by
        simp [signaledFirst_append hold, signaledFirst]
      refine ⟨h.place, by simp, h.attached, fun c' hc' hended => ?_,
        fun c' signal coreDumped hc' hended => ?_, fun c' exitCode coreDumped hc' hended => ?_⟩
      · exact hlast.trans (h.lives c' hc' hended)
      all_goals
        obtain rfl : c = c' := Option.some.inj (hchild.symm.trans hc')
        rw [hnone] at hended
        cases hended
  | server e =>
      obtain ⟨hend, hserver, hbegun⟩ := step_server_cases hstep
      rcases System.hasPut_step hserver with
        ⟨pid, unopenable, -, hcontrol, -⟩ | ⟨rfl, -⟩ | ⟨-, hfork, -, hstays⟩
      · rcases h.place with hnot | hput
        · exact absurd (hcontrol ▸ trivial) hnot
        · rw [hcontrol] at hput
          exact hput.elim
      · exact absurd rfl hne
      have hsame : w'.begun = w.begun := hbegun.trans (begunAfter_of_ne hfork)
      have hlast : (∀ st coreDumped, e ≠ .putEnds st coreDumped) →
          signaledFirst (a ++ [.server e]) = signaledFirst a := by
        intro hends
        rw [signaledFirst_append hold, signaledFirst_of_ne hends]
        simp
      refine ⟨?_, by simp [hsame, h.begun], fun c' hc' => ?_, fun c' hc' hended => ?_,
        fun c' signal coreDumped hc' hended => ?_, fun c' exitCode coreDumped hc' hended => ?_⟩
      · rcases h.place with hnot | hput
        · rcases System.control_step (System.step_cases hserver) with hserving | heq | hkilled
          · exact absurd hserving hnot
          · exact Or.inl (heq ▸ hnot)
          · exact Or.inl (hkilled ▸ id)
        · exact hstays hput
      · cases System.child_step hserver hc' with
        | forked he _ => exact absurd he (hfork _ _)
        | ended _ hc _ hput _ => exact hput ▸ h.attached _ hc
        | kept _ _ hc hput _ => exact hput ▸ h.attached _ hc
      · cases System.child_step hserver hc' with
        | forked he _ => exact absurd he (hfork _ _)
        | ended _ _ _ _ hst =>
            rw [hst] at hended
            cases hended
        | kept _ hends hc _ hst => exact (hlast hends).trans (h.lives _ hc (hst ▸ hended))
      · cases System.child_step hserver hc' with
        | forked he _ => exact absurd he (hfork _ _)
        | ended he hc hnone _ hst =>
            -- the signal comes first if the child has not begun
            rw [hst] at hended
            obtain ⟨rfl, -⟩ := Prod.mk.inj (Option.some.inj hended)
            subst he
            rw [hsame, h.begun, signaledFirst_append hold, h.lives _ hc hnone]
            simp [signaledFirst]
        | kept _ hends hc _ hst =>
            rw [hlast hends, hsame]
            exact h.signaled _ signal coreDumped hc (hst ▸ hended)
      · cases System.child_step hserver hc' with
        | forked he _ => exact absurd he (hfork _ _)
        | ended he hc hnone _ hst =>
            rw [hst] at hended
            obtain ⟨rfl, -⟩ := Prod.mk.inj (Option.some.inj hended)
            subst he
            refine ⟨?_, ?_⟩
            · rw [signaledFirst_append hold, h.lives _ hc hnone]
              simp [signaledFirst]
            · rw [hsame, ← h.attached _ hc]
              simpa [endsAsItMay, hc] using hend
        | kept _ hends hc _ hst =>
            rw [hlast hends, hsame]
            exact h.exited _ exitCode coreDumped hc (hst ▸ hended)

/-- A child that is reaped has come to the code of the PUT exactly if it could attach its streams
and no signal came first. -/
theorem SinceFork.begun_iff {fds : Option FdTable} {a : List WatchedEvent}
    (h : SinceFork fds a w) (hattached : w.BegunAttached)
    (hstep : w.step (.server .reaped) = some w') :
    w.begun = true ↔ fds.isSome ∧ signaledFirst a = false := by
  obtain ⟨c, st, coreDumped, hchild, hended, -⟩ :=
    System.reaped_cases (step_server_cases hstep).2.1
  have hsome : w.begun = true → fds.isSome := by
    intro hbegun
    exact h.attached c hchild ▸ hattached hbegun c hchild
  cases st with
  | signaled signal =>
      have hfirst := h.signaled c signal coreDumped hchild hended
      constructor
      · intro hbegun
        exact ⟨hsome hbegun, by simp [hfirst, hbegun]⟩
      · intro hboth
        simpa [hfirst] using hboth.2
  | exited exitCode =>
      obtain ⟨hnot, hor⟩ := h.exited c exitCode coreDumped hchild hended
      constructor
      · intro hbegun
        exact ⟨hsome hbegun, hnot⟩
      · intro hboth
        refine hor.resolve_right fun hnone => ?_
        simp [hnone] at hboth

/-- The event is no fork of a child that is reaped later but cannot attach its streams, or is ended
by a signal before it comes to the code of the PUT. -/
def BeginsIfReaped (w : Watched) (e : WatchedEvent) (es : List WatchedEvent) : Prop :=
  ∀ unopenable ∈ e.forks, .server .reaped ∈ es →
    (putFds w.server.settings unopenable w.server.fds).isSome ∧ signaledFirst es = false

instance (w : Watched) (e : WatchedEvent) (es : List WatchedEvent) :
    Decidable (w.BeginsIfReaped e es) :=
  inferInstanceAs (Decidable (∀ unopenable ∈ e.forks, _ → _ ∧ _))

/-- Behind a fork there is no other one before the child is reaped. -/
theorem sinceFork_run {t : Watched} {pid : Int} {unopenable : List String} {a : List WatchedEvent}
    (hfork : t.step (.server (.fork pid unopenable)) = some w) (hreaped : .server .reaped ∉ a)
    (hrun : run Watched.step w a = some w') :
    SinceFork (putFds t.server.settings unopenable t.server.fds) a w' := by
  refine history_run (P := fun a w' => .server .reaped ∉ a →
    SinceFork (putFds t.server.settings unopenable t.server.fds) a w') ?_ ?_ hrun hreaped
  · intro _
    obtain ⟨-, hserver, hbegun⟩ := step_server_cases hfork
    have hforked : w.server = t.server.forked pid unopenable := (System.fork_eq_some.1 hserver).2.2
    have hchild : ∀ c, w.server.child = some c →
        c = { put := ⟨pid, startOf t.server unopenable⟩ } := by
      intro c hc
      rw [hforked, forked_start] at hc
      exact (Option.some.inj hc).symm
    refine ⟨Or.inr (hforked ▸ trivial), by simp [hbegun, begunAfter], fun c hc => hchild c hc ▸ rfl,
      fun _ _ _ => rfl, fun c signal coreDumped hc hended => ?_,
      fun c exitCode coreDumped hc hended => ?_⟩
    all_goals
      rw [hchild c hc] at hended
      cases hended
  · intro a u e u' _ ih he hnot
    exact (ih fun hmem => hnot (List.mem_append_left _ hmem)).step hnot he

/-- Before a child is reaped it is forked. -/
theorem forked_before {s : Watched} (hs : ¬s.server.control.HasPut) {es : List WatchedEvent}
    (hrun : run Watched.step s es = some w) (hput : w.server.control.HasPut) :
    ∃ es₁ pid unopenable a, es = es₁ ++ .server (.fork pid unopenable) :: a ∧
      .server .reaped ∉ a := by
  refine history_run (P := fun es w => w.server.control.HasPut → ∃ es₁ pid unopenable a,
    es = es₁ ++ .server (.fork pid unopenable) :: a ∧ .server .reaped ∉ a) ?_ ?_ hrun hput
  · exact fun h => absurd h hs
  · intro es u e u' _ ih he hput'
    have hnext : u.server.control.HasPut → e ≠ .server .reaped → ∃ es₁ pid unopenable a,
        es ++ [e] = es₁ ++ .server (.fork pid unopenable) :: a ∧ .server .reaped ∉ a := by
      intro hput hne
      obtain ⟨es₁, pid, unopenable, a, rfl, hnot⟩ := ih hput
      refine ⟨es₁, pid, unopenable, a ++ [e], by simp, fun hmem => ?_⟩
      rcases List.mem_append.1 hmem with h | h
      · exact hnot h
      · exact hne (List.mem_singleton.1 h).symm
    cases e with
    | begins =>
        obtain ⟨-, rfl⟩ := step_begins_cases he
        exact hnext hput' (by simp)
    | server e =>
        rcases System.hasPut_step (step_server_cases he).2.1 with
          ⟨pid, unopenable, rfl, -, -⟩ | ⟨-, hnot⟩ | ⟨hne, -, hback, -⟩
        · exact ⟨es, pid, unopenable, [], rfl, by simp⟩
        · exact absurd hput' hnot
        · exact hnext (hback hput') (by simp [hne])

/-- A child from its fork, in `t`, to its reaping, in `u`. -/
theorem begun_iff_of_split {pid pid' : Int} {fds : FdTable} {ignored : Bool}
    {es₁ a b : List WatchedEvent} {unopenable : List String} {t u : Watched}
    (hrun : run Watched.step (start pid fds ignored)
      ((es₁ ++ .server (.fork pid' unopenable) :: a) ++ .server .reaped :: b) = some w)
    (hnot : .server .reaped ∉ a) (ht : run Watched.step (start pid fds ignored) es₁ = some t)
    (hu : run Watched.step (start pid fds ignored)
      (es₁ ++ .server (.fork pid' unopenable) :: a) = some u) :
    u.begun = true ↔ (putFds t.server.settings unopenable t.server.fds).isSome ∧
      signaledFirst (a ++ .server .reaped :: b) = false := by
  have hfirst : signaledFirst (a ++ .server .reaped :: b) = signaledFirst a := by
    simp [signaledFirst_append hnot, signaledFirst]
  obtain ⟨u', hu', hrest⟩ := run_append_eq_some.1 hrun
  obtain rfl : u = u' := Option.some.inj (hu.symm.trans hu')
  obtain ⟨v, hreaped, -⟩ := run_cons_eq_some.1 hrest
  obtain ⟨t', ht', hrest⟩ := run_append_eq_some.1 hu
  obtain rfl : t = t' := Option.some.inj (ht.symm.trans ht')
  obtain ⟨w', hfork, ha⟩ := run_cons_eq_some.1 hrest
  have hattached : u.BegunAttached :=
    invariant_run (fun _ _ _ h hstep => h.step hstep) (start_begunAttached pid fds ignored) hu
  rw [hfirst]
  exact (sinceFork_run hfork hnot ha).begun_iff hattached hreaped

theorem allBegun_iff {pid : Int} {fds : FdTable} {ignored : Bool} {es : List WatchedEvent}
    (hrun : run Watched.step (start pid fds ignored) es = some w) :
    AllSteps Watched.step (fun t e => e = .server .reaped → t.begun) (start pid fds ignored) es ↔
      AllFutures Watched.step BeginsIfReaped (start pid fds ignored) es := by
  rw [allSteps_iff_splits]
  constructor
  · intro hall es₁ e es₂ t hsplit ht unopenable hforks hmem
    obtain ⟨pid', rfl⟩ : ∃ pid', e = .server (.fork pid' unopenable) := by
      cases e with
      | begins => cases hforks
      | server e =>
          cases e with
          | fork pid' unopenable' =>
              obtain rfl := Option.some.inj hforks
              exact ⟨pid', rfl⟩
          | _ => cases hforks
    obtain ⟨a, b, rfl, hnot⟩ := List.eq_append_cons_of_mem hmem
    have hsplit' : es = (es₁ ++ .server (.fork pid' unopenable) :: a) ++ .server .reaped :: b := by
      simp [hsplit]
    obtain ⟨u, hu, -⟩ := run_append_eq_some.1 (hsplit' ▸ hrun)
    exact (begun_iff_of_split (hsplit' ▸ hrun) hnot ht hu).1 (hall _ _ _ u hsplit' hu rfl)
  · intro hall es₁ e es₂ u hsplit hu he
    subst he
    obtain ⟨u', hu', hrest⟩ := run_append_eq_some.1 (hsplit ▸ hrun)
    obtain rfl : u = u' := Option.some.inj (hu.symm.trans hu')
    obtain ⟨v, hreaped, -⟩ := run_cons_eq_some.1 hrest
    have hput : u.server.control.HasPut :=
      System.reaped_control (step_server_cases hreaped).2.1 ▸ trivial
    obtain ⟨es₀, pid', unopenable, a, rfl, hnot⟩ := forked_before id hu hput
    obtain ⟨t, ht, -⟩ := run_append_eq_some.1 hu
    have hsplit' :
        es = es₀ ++ .server (.fork pid' unopenable) :: (a ++ .server .reaped :: es₂) := by
      simp [hsplit]
    exact (begun_iff_of_split (hsplit ▸ hrun) hnot ht hu).2
      (hall _ _ _ t hsplit' ht unopenable rfl (by simp))

/-- **When the responses are honest.** All responses of a run tell PUTs that have run from children
that have not exactly if every child that is reaped could attach its streams when it was forked, and
no signal ended it before it came to the code of the PUT. -/
theorem reports_iff {pid : Int} {fds : FdTable} {ignored : Bool} {es : List WatchedEvent}
    (hrun : run Watched.step (start pid fds ignored) es = some w) :
    AllStates Watched.step Reports (start pid fds ignored) es ↔
      AllFutures Watched.step BeginsIfReaped (start pid fds ignored) es :=
  (reports_iff_begun hrun).trans (allBegun_iff hrun)

end Watched

/-! ### A PUT without its stdin -/

/-- The client asks for stdin and an execution, and the file is not there: the child exits. -/
def missingStdin : List WatchedEvent :=
  List.map .server (handshake ++ [.read Call.readStdin.send, .read Call.executePUT.send,
    .fork 100 [stdxxxFilePath 1 "stdin"], .succeeds, .succeeds, .putEnds (.exited 1) false,
    .reaped])

/-- The response is that to a PUT that exits with 1. -/
theorem missingStdin_reported_as_exit :
    ∃ w, run Watched.step (.start 50 clientFds false) missingStdin = some w ∧ w.FailedToAttach ∧
      w.server.control = .write (FinalStatus.exited 1).response ∧
      ¬AllStates Watched.step Watched.Reports (.start 50 clientFds false) missingStdin := by
  obtain ⟨w, hrun, hfailed, hwrite⟩ :
      ∃ w, run Watched.step (.start 50 clientFds false) missingStdin = some w ∧ w.FailedToAttach ∧
        w.server.control = .write (FinalStatus.exited 1).response :=
    ⟨_, rfl, ⟨_, _, rfl, rfl⟩, rfl⟩
  refine ⟨w, hrun, hfailed, hwrite, fun hall => ?_⟩
  exact (hall.last hrun _ hwrite).distinct hfailed (.exited 1) rfl

/-- The same session with the file in its place. -/
def attachedStdin : List WatchedEvent :=
  List.map .server
      (handshake ++ [.read Call.readStdin.send, .read Call.executePUT.send, .fork 100 []]) ++
    [.begins] ++ finishPut.map .server

theorem attachedStdin_reports :
    ∃ w, run Watched.step (.start 50 clientFds false) attachedStdin = some w ∧
      AllStates Watched.step Watched.Reports (.start 50 clientFds false) attachedStdin := by
  obtain ⟨w, hrun⟩ : ∃ w, run Watched.step (.start 50 clientFds false) attachedStdin = some w :=
    ⟨_, rfl⟩
  exact ⟨w, hrun, (Watched.reports_iff hrun).2 (allFutures_of_futures hrun (by decide))⟩

end ForkServer
end FuzzufCc
