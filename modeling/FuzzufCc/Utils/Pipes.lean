import FuzzufCc.ForkServer.Child
import FuzzufCc.Lib.Descriptors
import FuzzufCc.Utils.SystemError

/-!
# Pipes — the descriptors of a fork server that an executor starts

The constructor of `Executor` creates four pipes and forks; the child brings one end of each to a
fixed number, closes the other one and calls `execve`.  The kernel chooses the numbers of the eight
ends among those that are free, and the fixed numbers may be among these.
-/

namespace FuzzufCc
namespace Utils

open ForkServer

def EBADF : Int := 9

/-- The pipes of an `Executor`, in the order of its members. -/
inductive PipeName
  | toForkServer
  | fromForkServer
  | targetStdout
  | targetStderr
  deriving DecidableEq, Repr

/-- An open file of the child: an end of a pipe, or something that was open before. -/
inductive OpenFile
  | readEnd (pipe : PipeName)
  | writeEnd (pipe : PipeName)
  | other (n : Nat)
  deriving DecidableEq, Repr

abbrev Fds := Descriptors OpenFile

/-! ## The class `Pipe` -/

/-- `fds`, with `none` for -1. -/
structure Pipe where
  fds0 : Option Nat
  fds1 : Option Nat
  deriving DecidableEq, Repr

namespace Pipe

/-- `Readonly` closes the write end. -/
def readonly (p : Pipe) (t : Fds) : Pipe × Fds :=
  match p.fds1 with
  | some fd => ({ p with fds1 := none }, t.close fd)
  | none => (p, t)

/-- `Writeonly` closes the read end. -/
def writeonly (p : Pipe) (t : Fds) : Pipe × Fds :=
  match p.fds0 with
  | some fd => ({ p with fds0 := none }, t.close fd)
  | none => (p, t)

def pipeToFd (p : Pipe) (fd : Nat) (t : Fds) : Except SystemError (Pipe × Fds) :=
  match p.fds0 with
  | some old =>
      match t.dup2 old fd with
      | none => .error (errnoToSystemError EBADF "Pipe::PipeToFd : dup2 failed")
      | some t => .ok (p.readonly t)
  | none => .ok (p.readonly t)

def fdToPipe (p : Pipe) (fd : Nat) (t : Fds) : Except SystemError (Pipe × Fds) :=
  match p.fds1 with
  | some old =>
      match t.dup2 old fd with
      | none => .error (errnoToSystemError EBADF "Pipe::FdToPipe : dup2 failed")
      | some t => .ok (p.writeonly t)
  | none => .ok (p.writeonly t)

end Pipe

/-! ## The child of the constructor -/

/-- The numbers that `pipe` returned for each pipe: the read end and the write end. -/
structure Ends where
  read : Nat
  write : Nat
  deriving DecidableEq, Repr

/-- `pipe(fds)` returns two free numbers. -/
def openPipe (e : PipeName → Ends) (p : PipeName) (t : Fds) : Option Fds :=
  if t (e p).read = none ∧ t (e p).write = none ∧ (e p).read ≠ (e p).write then
    some (Function.update (Function.update t (e p).read (some (.readEnd p))) (e p).write
      (some (.writeEnd p)))
  else none

/-- The members are initialized in their order, in a process with the descriptors `opened`. -/
def createPipes (opened : Nat → Option Nat) (e : PipeName → Ends) : Option Fds := do
  let t ← openPipe e .toForkServer fun fd => (opened fd).map OpenFile.other
  let t ← openPipe e .fromForkServer t
  let t ← openPipe e .targetStdout t
  openPipe e .targetStderr t

def newPipe (ends : Ends) : Pipe where
  fds0 := some ends.read
  fds1 := some ends.write

/-- The child's side of the constructor, up to `execve`. -/
def childDescriptors (e : PipeName → Ends) (t : Fds) : Except SystemError Fds := do
  let toForkServer ← (newPipe (e .toForkServer)).pipeToFd FORKSRV_FD_READ t
  let fromForkServer ← (newPipe (e .fromForkServer)).fdToPipe FORKSRV_FD_WRITE toForkServer.2
  let targetStdout ← (newPipe (e .targetStdout)).fdToPipe 1 fromForkServer.2
  let targetStderr ← (newPipe (e .targetStderr)).fdToPipe 2 targetStdout.2
  return targetStderr.2

/-- Where the fork server looks for its pipes. -/
structure Attached (t : Fds) : Prop where
  toForkServer : t FORKSRV_FD_READ = some (.readEnd .toForkServer)
  fromForkServer : t FORKSRV_FD_WRITE = some (.writeEnd .fromForkServer)
  stdout : t 1 = some (.writeEnd .targetStdout)
  stderr : t 2 = some (.writeEnd .targetStderr)

/-- No end that is closed is one of the numbers set so far, and no end that is used is one of the
numbers set before. -/
structure Apart (e : PipeName → Ends) : Prop where
  toForkServer : (e .toForkServer).write ≠ 196
  fromForkServerWrite : (e .fromForkServer).write ≠ 196
  fromForkServerRead : (e .fromForkServer).read ∉ [196, 197]
  stdoutWrite : (e .targetStdout).write ∉ [196, 197]
  stdoutRead : (e .targetStdout).read ∉ [196, 197, 1]
  stderrWrite : (e .targetStderr).write ∉ [196, 197, 1]
  stderrRead : (e .targetStderr).read ∉ [196, 197, 1, 2]

/-! ## The child as a list of redirections -/

def redirects (e : PipeName → Ends) : List (Redirect OpenFile) :=
  [⟨(e .toForkServer).read, (e .toForkServer).write, FORKSRV_FD_READ, .readEnd .toForkServer⟩,
    ⟨(e .fromForkServer).write, (e .fromForkServer).read, FORKSRV_FD_WRITE,
      .writeEnd .fromForkServer⟩,
    ⟨(e .targetStdout).write, (e .targetStdout).read, 1, .writeEnd .targetStdout⟩,
    ⟨(e .targetStderr).write, (e .targetStderr).read, 2, .writeEnd .targetStderr⟩]

theorem pipeToFd_eq (ends : Ends) (fd : Nat) (file : OpenFile) (t : Fds) :
    Redirect.exec t ⟨ends.read, ends.write, fd, file⟩ =
      ((newPipe ends).pipeToFd fd t).toOption.map Prod.snd := by
  simp only [Pipe.pipeToFd, newPipe, Redirect.exec]
  cases t.dup2 ends.read fd with
  | none => rfl
  | some u => rfl

theorem fdToPipe_eq (ends : Ends) (fd : Nat) (file : OpenFile) (t : Fds) :
    Redirect.exec t ⟨ends.write, ends.read, fd, file⟩ =
      ((newPipe ends).fdToPipe fd t).toOption.map Prod.snd := by
  simp only [Pipe.fdToPipe, newPipe, Redirect.exec]
  cases t.dup2 ends.write fd with
  | none => rfl
  | some u => rfl

theorem toOption_bind {ε α β : Type} (x : Except ε α) (f : α → Except ε β) :
    (x >>= f).toOption = x.toOption.bind fun a => (f a).toOption := by
  cases x with
  | error e => rfl
  | ok a => rfl

theorem childDescriptors_eq (e : PipeName → Ends) (t : Fds) :
    (childDescriptors e t).toOption = Transition.run Redirect.exec t (redirects e) := by
  simp only [childDescriptors, toOption_bind, redirects, Transition.run, pipeToFd_eq, fdToPipe_eq,
    Option.bind_map]
  rfl

/-! ## The descriptors of the new pipes -/

/-- The pipes `ps` are open under their numbers, all of them different, and nowhere else. -/
structure Created (e : PipeName → Ends) (ps : List PipeName) (t : Fds) : Prop where
  numbers : (ps.flatMap fun p => [(e p).read, (e p).write]).Nodup
  read : ∀ p fd, t fd = some (.readEnd p) ↔ p ∈ ps ∧ fd = (e p).read
  write : ∀ p fd, t fd = some (.writeEnd p) ↔ p ∈ ps ∧ fd = (e p).write

variable {e : PipeName → Ends} {ps : List PipeName} {t t' : Fds}

theorem Created.isSome (h : Created e ps t) {fd : Nat}
    (hfd : fd ∈ ps.flatMap fun p => [(e p).read, (e p).write]) : t fd ≠ none := by
  rcases List.mem_flatMap.1 hfd with ⟨p, hp, hfd⟩
  rcases List.mem_cons.1 hfd with rfl | hfd
  · simp [(h.read p _).2 ⟨hp, rfl⟩]
  · obtain rfl := List.mem_singleton.1 hfd
    simp [(h.write p _).2 ⟨hp, rfl⟩]

theorem Created.openPipe (h : Created e ps t) {p : PipeName} (hp : p ∉ ps)
    (hopen : openPipe e p t = some t') : Created e (ps ++ [p]) t' := by
  simp only [Utils.openPipe] at hopen
  split at hopen
  case isFalse => cases hopen
  case isTrue hfree =>
    obtain ⟨hread, hwrite, hne⟩ := hfree
    obtain rfl := Option.some.inj hopen
    constructor
    · -- the new numbers were free, and those of the other pipes were not
      rw [List.flatMap_append, List.nodup_append]
      refine ⟨h.numbers, by simpa using hne, fun fd hfd fd' hfd' heq => ?_⟩
      subst heq
      have hnew : fd = (e p).read ∨ fd = (e p).write := by simpa using hfd'
      rcases hnew with rfl | rfl
      · exact h.isSome hfd hread
      · exact h.isSome hfd hwrite
    · intro q fd
      rw [Descriptors.update_update_eq_some_iff hread hwrite hne, h.read, List.mem_append,
        List.mem_singleton]
      constructor
      · rintro (⟨rfl, heq⟩ | ⟨-, heq⟩ | ⟨hq, heq⟩)
        · obtain rfl := OpenFile.readEnd.inj heq
          exact ⟨Or.inr rfl, rfl⟩
        · cases heq
        · exact ⟨Or.inl hq, heq⟩
      · rintro ⟨hq | rfl, heq⟩
        · exact Or.inr (Or.inr ⟨hq, heq⟩)
        · exact Or.inl ⟨heq, rfl⟩
    · intro q fd
      rw [Descriptors.update_update_eq_some_iff hread hwrite hne, h.write, List.mem_append,
        List.mem_singleton]
      constructor
      · rintro (⟨-, heq⟩ | ⟨rfl, heq⟩ | ⟨hq, heq⟩)
        · cases heq
        · obtain rfl := OpenFile.writeEnd.inj heq
          exact ⟨Or.inr rfl, rfl⟩
        · exact ⟨Or.inl hq, heq⟩
      · rintro ⟨hq | rfl, heq⟩
        · exact Or.inr (Or.inr ⟨hq, heq⟩)
        · exact Or.inr (Or.inl ⟨heq, rfl⟩)

theorem created_of_createPipes {opened : Nat → Option Nat}
    (h : createPipes opened e = some t) :
    Created e [.toForkServer, .fromForkServer, .targetStdout, .targetStderr] t := by
  obtain ⟨t₁, h₁, h⟩ := Option.bind_eq_some_iff.1 h
  obtain ⟨t₂, h₂, h⟩ := Option.bind_eq_some_iff.1 h
  obtain ⟨t₃, h₃, h₄⟩ := Option.bind_eq_some_iff.1 h
  have h₀ : Created e [] fun fd => (opened fd).map OpenFile.other := by
    refine ⟨List.nodup_nil, fun p fd => ?_, fun p fd => ?_⟩ <;> cases opened fd <;> simp
  exact (((h₀.openPipe (by simp) h₁).openPipe (by simp) h₂).openPipe (by simp) h₃).openPipe
    (by simp) h₄

theorem Created.fresh
    (h : Created e [.toForkServer, .fromForkServer, .targetStdout, .targetStderr] t) :
    Redirect.Fresh t (redirects e) := by
  refine ⟨by simp [redirects, FORKSRV_FD_READ, FORKSRV_FD_WRITE], ?_, ?_⟩
  · -- three of the four steps use the write end first
    have hperm : ((redirects e).flatMap fun r => [r.source, r.other]).Perm
        ([PipeName.toForkServer, .fromForkServer, .targetStdout, .targetStderr].flatMap
          fun p => [(e p).read, (e p).write]) :=
      (List.Perm.refl [_, _]).append ((List.Perm.swap _ _ []).append
        ((List.Perm.swap _ _ []).append ((List.Perm.swap _ _ []).append (.refl []))))
    exact hperm.nodup_iff.2 h.numbers
  · intro r hr fd
    simp only [redirects, List.mem_cons, List.not_mem_nil, or_false] at hr
    rcases hr with rfl | rfl | rfl | rfl
    · simpa using h.read .toForkServer fd
    · simpa using h.write .fromForkServer fd
    · simpa using h.write .targetStdout fd
    · simpa using h.write .targetStderr fd

/-! ## When the fork server finds its pipes -/

theorem installed_iff_attached : Redirect.Installed (redirects e) t ↔ Attached t := by
  simp only [Redirect.Installed, redirects, List.forall_mem_cons]
  constructor
  · rintro ⟨h₀, h₁, h₂, h₃, -⟩
    exact ⟨h₀, h₁, h₂, h₃⟩
  · rintro ⟨h₀, h₁, h₂, h₃⟩
    exact ⟨h₀, h₁, h₂, h₃, by simp⟩

theorem clear_iff_apart : Redirect.Clear (redirects e) ↔ Apart e := by
  have hnil : Redirect.Clear ([] : List (Redirect OpenFile)) := ⟨by simp, List.Pairwise.nil⟩
  simp only [redirects, Redirect.clear_cons, List.forall_mem_cons, FORKSRV_FD_READ,
    FORKSRV_FD_WRITE, hnil]
  constructor
  · rintro ⟨hto, ⟨⟨hfw, hfr⟩, ⟨how, hor⟩, ⟨hew, her⟩, -⟩, hfr₁, ⟨⟨how₁, hor₁⟩, ⟨hew₁, her₁⟩, -⟩,
      hor₂, ⟨⟨hew₂, her₂⟩, -⟩, her₃, -, -⟩
    exact ⟨hto, hfw, by simp [hfr, hfr₁], by simp [how, how₁], by simp [hor, hor₁, hor₂],
      by simp [hew, hew₁, hew₂], by simp [her, her₁, her₂, her₃]⟩
  · rintro ⟨h₀, h₁, h₂, h₃, h₄, h₅, h₆⟩
    simp only [List.mem_cons, List.not_mem_nil, or_false, not_or] at h₂ h₃ h₄ h₅ h₆
    simp [h₀, h₁, h₂, h₃, h₄, h₅, h₆]

/-- **The descriptors of the fork server.** Whatever was open before and whatever free numbers the
pipes get, the child leaves the four ends at their numbers exactly if the numbers stay apart. -/
theorem attached_iff_apart (opened : Nat → Option Nat) (e : PipeName → Ends) {t : Fds}
    (hcreate : createPipes opened e = some t) :
    (∃ t', childDescriptors e t = .ok t' ∧ Attached t') ↔ Apart e := by
  have hfresh := (created_of_createPipes hcreate).fresh
  rw [← clear_iff_apart, ← Redirect.installed_iff_clear hfresh, ← childDescriptors_eq]
  simp only [installed_iff_attached]
  cases childDescriptors e t with
  | error abort => simp [Except.toOption]
  | ok t' => simp [Except.toOption]

/-! ### A process with many open files -/

/-- The lowest free numbers, with those below `n` in use. -/
def lowestEnds (n : Nat) : PipeName → Ends
  | .toForkServer => ⟨n, n + 1⟩
  | .fromForkServer => ⟨n + 2, n + 3⟩
  | .targetStdout => ⟨n + 4, n + 5⟩
  | .targetStderr => ⟨n + 6, n + 7⟩

def firstOpen (n : Nat) (fd : Nat) : Option Nat :=
  if fd < n then some fd else none

/-- In a process with the three standard descriptors everything is in its place. -/
theorem threeOpen_attached :
    ∃ t, createPipes (firstOpen 3) (lowestEnds 3) = some t ∧
      ∃ t', childDescriptors (lowestEnds 3) t = .ok t' ∧ Attached t' := by
  obtain ⟨t, ht⟩ : ∃ t, createPipes (firstOpen 3) (lowestEnds 3) = some t := ⟨_, rfl⟩
  refine ⟨t, ht, (attached_iff_apart (firstOpen 3) (lowestEnds 3) ht).2 ?_⟩
  constructor <;> decide

/-- With 195 open files `to_fork_server` gets the numbers 195 and 196, and its read end is closed
right after it has been put there. -/
theorem manyOpen_closed :
    ∃ t t', createPipes (firstOpen 195) (lowestEnds 195) = some t ∧
      childDescriptors (lowestEnds 195) t = .ok t' ∧ t' FORKSRV_FD_READ = none ∧
      ¬∃ u, childDescriptors (lowestEnds 195) t = .ok u ∧ Attached u := by
  obtain ⟨t, t', ht, ht', hclosed⟩ : ∃ t t',
      createPipes (firstOpen 195) (lowestEnds 195) = some t ∧
      childDescriptors (lowestEnds 195) t = .ok t' ∧ t' FORKSRV_FD_READ = none :=
    ⟨_, _, rfl, rfl, rfl⟩
  refine ⟨t, t', ht, ht', hclosed, ?_⟩
  rintro ⟨u, hu, hattached⟩
  obtain rfl : t' = u := Except.ok.inj (ht'.symm.trans hu)
  rw [hattached.toForkServer] at hclosed
  cases hclosed

end Utils
end FuzzufCc
