import FuzzufCc.Utils.Pipes
import Mathlib.Data.Fintype.Card

/-!
# Lifetimes — the executors of one process

The constructor of `Executor` forks the fork server, and the destructor waits for its end, which
comes when no process holds the write end of its command pipe any more.  The pipes stay open behind
`execve`, so a server holds the write ends of all executors that existed at its fork.  All executors
have the id 1, so they share one file of test cases, and none of them closes its epoll instance.
-/

namespace FuzzufCc
namespace Utils
namespace Lifetimes

open ForkServer

/-- An open file of the client or of a fork server.  Executors are numbered in the order in which
they are constructed. -/
inductive File
  | readEnd (n : Nat) (pipe : PipeName)
  | writeEnd (n : Nat) (pipe : PipeName)
  | targetStdin (n : Nat)
  | epoll (n : Nat)
  | other (k : Nat)
  deriving DecidableEq, Repr

/-- The executor that has opened the file. -/
def File.owner : File → Option Nat
  | .readEnd n _ => some n
  | .writeEnd n _ => some n
  | .targetStdin n => some n
  | .epoll n => some n
  | .other _ => none

/-- `O_CLOEXEC`. -/
def File.closedByExecve : File → Bool
  | .targetStdin _ => true
  | _ => false

abbrev Table := Descriptors File

/-- The members of an executor that hold descriptors, between its constructor and its destructor. -/
structure Handle where
  number : Nat
  pipes : PipeName → Pipe
  targetStdinFd : Nat
  epollFd : Nat

/-- Where the client is: between two operations, in the `waitpid` of a destructor, or ended by
`std::terminate`. -/
inductive Status
  | running
  | waiting (n : Nat)
  | terminated
  deriving DecidableEq, Repr

/-- The client and its fork servers.  A server is idle: a call of `operator()` has returned, and its
PUT is gone. -/
structure Processes where
  client : Table
  -- the newest first
  executors : List Handle
  servers : Nat → Option Table
  stdinExists : Bool
  status : Status
  next : Nat

inductive Event
  | construct (e : PipeName → Ends) (targetStdinFd epollFd : Nat)
  | destruct (n : Nat)
  | serverExits (n : Nat)
  | waitpidReturns

/-! ## The constructor -/

/-- The numbers in use. -/
def opened (client : Table) : Nat → Option Nat := fun fd =>
  (client fd).map fun _ => fd

/-- The file behind an entry of a table that `createPipes` has made from the one of the client. -/
def resolve (n : Nat) (client : Table) : OpenFile → Option File
  | .readEnd p => some (.readEnd n p)
  | .writeEnd p => some (.writeEnd n p)
  | .other fd => client fd

def execve (t : Table) : Table := fun fd =>
  (t fd).filter fun file => !file.closedByExecve

/-- The parent's side of the constructor: the pipes and the table. -/
def parentDescriptors (e : PipeName → Ends) (t : Fds) : (PipeName → Pipe) × Fds :=
  let toForkServer := (newPipe (e .toForkServer)).writeonly t
  let fromForkServer := (newPipe (e .fromForkServer)).readonly toForkServer.2
  let targetStdout := (newPipe (e .targetStdout)).readonly fromForkServer.2
  let targetStderr := (newPipe (e .targetStderr)).readonly targetStdout.2
  let pipes := fun
    | .toForkServer => toForkServer.1
    | .fromForkServer => fromForkServer.1
    | .targetStdout => targetStdout.1
    | .targetStderr => targetStderr.1
  (pipes, targetStderr.2)

/-- The numbers that the constructor needs. -/
def numbers (e : PipeName → Ends) (targetStdinFd epollFd : Nat) : List Nat :=
  [(e .toForkServer).read, (e .toForkServer).write, (e .fromForkServer).read,
    (e .fromForkServer).write, (e .targetStdout).read, (e .targetStdout).write,
    (e .targetStderr).read, (e .targetStderr).write, FORKSRV_FD_READ, FORKSRV_FD_WRITE,
    targetStdinFd, epollFd]

/-- The table of the parent behind its side of the constructor. -/
def parentTable (n : Nat) (client : Table) (e : PipeName → Ends) (t : Fds) : Table := fun fd =>
  ((parentDescriptors e t).2 fd).bind (resolve n client)

/-- The table of the program that the child executes. -/
def serverTable (n : Nat) (client : Table) (child : Fds) : Table :=
  execve fun fd => (child fd).bind (resolve n client)

namespace Processes

variable (limit : Nat) (s : Processes)

/-- `Executor::Executor`, where the kernel chooses the numbers; `none` if a number is in use or not
below `limit`, or the handshake finds no server behind the pipes. -/
def construct (e : PipeName → Ends) (targetStdinFd epollFd : Nat) : Option Processes := do
  let t ← createPipes (opened s.client) e
  let child ← (childDescriptors e t).toOption
  let server := serverTable s.next s.client child
  let client := parentTable s.next s.client e t
  if server FORKSRV_FD_READ = some (.readEnd s.next .toForkServer) ∧
      server FORKSRV_FD_WRITE = some (.writeEnd s.next .fromForkServer) ∧
      client targetStdinFd = none ∧ client epollFd = none ∧ targetStdinFd ≠ epollFd ∧
      (∀ fd ∈ numbers e targetStdinFd epollFd, fd < limit) then
    some
      { client :=
          Function.update (Function.update client targetStdinFd (some (.targetStdin s.next)))
            epollFd (some (.epoll s.next))
        executors :=
          ⟨s.next, (parentDescriptors e t).1, targetStdinFd, epollFd⟩ :: s.executors
        servers := Function.update s.servers s.next (some server)
        stdinExists := true
        status := .running
        next := s.next + 1 }
  else none

end Processes

/-! ## The destructor -/

/-- `Pipe::CloseBoth`. -/
def closeBoth (p : Pipe) (t : Table) : Table :=
  let t := p.fds1.elim t t.close
  p.fds0.elim t t.close

namespace Processes

variable (limit : Nat) (s : Processes)

/-- `Executor::~Executor`, up to its `waitpid`.  `CloseStdin` throws if there is no file to remove,
and an exception does not leave a destructor. -/
def destruct (n : Nat) : Option Processes :=
  match s.executors.find? (·.number == n) with
  | none => none
  | some x =>
      if s.stdinExists then
        let t := s.client.close x.targetStdinFd
        let t := closeBoth (x.pipes .targetStdout) t
        let t := closeBoth (x.pipes .targetStderr) t
        let t := closeBoth (x.pipes .toForkServer) t
        let t := closeBoth (x.pipes .fromForkServer) t
        some { s with client := t, stdinExists := false, status := .waiting n }
      else
        some { s with client := fun _ => none, status := .terminated }

def holds (t : Table) (file : File) : Bool :=
  (List.range limit).any fun fd => t fd == some file

/-- Some process holds the file. -/
def held (file : File) : Bool :=
  holds limit s.client file ||
    (List.range s.next).any fun m => (s.servers m).any fun t => holds limit t file

/-- A server without commands exits at the end of its command pipe. -/
def serverExits (n : Nat) : Option Processes :=
  match s.servers n with
  | none => none
  | some t =>
      if t FORKSRV_FD_READ = some (.readEnd n .toForkServer) ∧
          s.held limit (.writeEnd n .toForkServer) = false then
        some { s with servers := Function.update s.servers n none }
      else none

def waitpidReturns (n : Nat) : Option Processes :=
  if (s.servers n).isNone then
    some { s with executors := s.executors.filter (·.number != n), status := .running }
  else none

def step (s : Processes) : Event → Option Processes
  | .construct e targetStdinFd epollFd =>
      if s.status = .running then s.construct limit e targetStdinFd epollFd else none
  | .destruct n => if s.status = .running then s.destruct n else none
  | .serverExits n => s.serverExits limit n
  | .waitpidReturns =>
      match s.status with
      | .waiting n => s.waitpidReturns n
      | _ => none

end Processes

/-! ## Tables behind a fork -/

/-- The numbers at which a server expects its pipes. -/
def fixedNumbers : List Nat :=
  [1, 2, FORKSRV_FD_READ, FORKSRV_FD_WRITE]

section Fork

variable {inUse : Nat → Option Nat} {e : PipeName → Ends} {t : Fds}

theorem openPipe_other {p : PipeName} {t' : Fds} (h : openPipe e p t = some t') (fd k : Nat) :
    t' fd = some (.other k) ↔ t fd = some (.other k) := by
  simp only [openPipe] at h
  split at h
  case isFalse => cases h
  case isTrue hfree =>
    obtain ⟨hread, hwrite, hne⟩ := hfree
    obtain rfl := Option.some.inj h
    rw [Descriptors.update_update_eq_some_iff hread hwrite hne]
    simp

/-- The pipes get free numbers. -/
theorem createPipes_other (h : createPipes inUse e = some t) (fd k : Nat) :
    t fd = some (.other k) ↔ inUse fd = some k := by
  obtain ⟨t₁, h₁, h⟩ := Option.bind_eq_some_iff.1 h
  obtain ⟨t₂, h₂, h⟩ := Option.bind_eq_some_iff.1 h
  obtain ⟨t₃, h₃, h₄⟩ := Option.bind_eq_some_iff.1 h
  rw [openPipe_other h₄, openPipe_other h₃, openPipe_other h₂, openPipe_other h₁]
  simp

theorem readonly_newPipe (ends : Ends) (t : Fds) :
    (newPipe ends).readonly t = (⟨some ends.read, none⟩, t.close ends.write) := rfl

theorem writeonly_newPipe (ends : Ends) (t : Fds) :
    (newPipe ends).writeonly t = (⟨none, some ends.write⟩, t.close ends.read) := rfl

/-- The ends that the parent closes. -/
def closedByParent (e : PipeName → Ends) : List Nat :=
  [(e .toForkServer).read, (e .fromForkServer).write, (e .targetStdout).write,
    (e .targetStderr).write]

theorem close_eq (t : Fds) (fd fd' : Nat) :
    t.close fd fd' = if fd' = fd then none else t fd' := by
  rw [Descriptors.close, Function.update_apply]

theorem parentDescriptors_apply (e : PipeName → Ends) (t : Fds) (fd : Nat) :
    (parentDescriptors e t).2 fd = if fd ∈ closedByParent e then none else t fd := by
  simp only [parentDescriptors, readonly_newPipe, writeonly_newPipe, close_eq, closedByParent,
    List.mem_cons, List.not_mem_nil, or_false]
  split_ifs <;> first | rfl | simp_all

/-- What the parent closes are ends of the new pipes. -/
theorem closedByParent_file (hcreate : createPipes inUse e = some t) {fd : Nat}
    (hfd : fd ∈ closedByParent e) :
    t fd = some (.readEnd .toForkServer) ∨
      ∃ p, p ≠ .toForkServer ∧ t fd = some (.writeEnd p) := by
  have hcreated := created_of_createPipes hcreate
  simp only [closedByParent, List.mem_cons, List.not_mem_nil, or_false] at hfd
  rcases hfd with rfl | rfl | rfl | rfl
  · exact Or.inl ((hcreated.read .toForkServer _).2 ⟨by simp, rfl⟩)
  · exact Or.inr ⟨.fromForkServer, by simp, (hcreated.write _ _).2 ⟨by simp, rfl⟩⟩
  · exact Or.inr ⟨.targetStdout, by simp, (hcreated.write _ _).2 ⟨by simp, rfl⟩⟩
  · exact Or.inr ⟨.targetStderr, by simp, (hcreated.write _ _).2 ⟨by simp, rfl⟩⟩

/-- The child closes the write end of its command pipe in the first of its steps. -/
theorem child_writeEnd (hcreate : createPipes inUse e = some t) {child : Fds}
    (hchild : (childDescriptors e t).toOption = some child) (fd : Nat) :
    child fd ≠ some (.writeEnd .toForkServer) := by
  have hcreated := created_of_createPipes hcreate
  rw [childDescriptors_eq] at hchild
  obtain ⟨u, hfirst, hrest⟩ := Transition.run_cons_eq_some.1 hchild
  obtain ⟨file, hfile, hu⟩ := Redirect.exec_cases hfirst
  have hread := (hcreated.read .toForkServer (e .toForkServer).read).2 ⟨by simp, rfl⟩
  obtain rfl := Option.some.inj (hread.symm.trans hfile)
  refine Redirect.absent_run (fun fd => ?_) hrest fd
  rw [hu fd]
  split_ifs with hclosed htarget
  · simp
  · simp
  · intro hwrite
    exact hclosed ((hcreated.write .toForkServer fd).1 hwrite).2

/-- What was open before stays where it was, unless it had one of the fixed numbers. -/
theorem child_other (hcreate : createPipes inUse e = some t) {child : Fds}
    (hchild : (childDescriptors e t).toOption = some child) {fd k : Nat}
    (hfd : fd ∉ fixedNumbers) (huse : inUse fd = some k) :
    child fd = some (.other k) := by
  have hcreated := created_of_createPipes hcreate
  have hother := (createPipes_other hcreate fd k).2 huse
  rw [childDescriptors_eq] at hchild
  have htarget : fd ∉ (redirects e).map Redirect.target := by
    simp only [fixedNumbers, redirects, List.map_cons, List.map_nil, List.mem_cons,
      List.not_mem_nil, or_false] at hfd ⊢
    tauto
  have hclosed : fd ∉ (redirects e).map Redirect.other := by
    simp only [redirects, List.map_cons, List.map_nil, List.mem_cons, List.not_mem_nil, or_false]
    rintro (rfl | rfl | rfl | rfl)
    · cases hother.symm.trans ((hcreated.write .toForkServer _).2 ⟨by simp, rfl⟩)
    · cases hother.symm.trans ((hcreated.read .fromForkServer _).2 ⟨by simp, rfl⟩)
    · cases hother.symm.trans ((hcreated.read .targetStdout _).2 ⟨by simp, rfl⟩)
    · cases hother.symm.trans ((hcreated.read .targetStderr _).2 ⟨by simp, rfl⟩)
  rw [Redirect.run_of_not_target hchild htarget, if_neg hclosed, hother]

end Fork

/-! ## What a constructor leaves -/

/-- The descriptors of an executor: one end of each pipe, and the file of test cases. -/
structure Owns (limit : Nat) (t : Table) (x : Handle) : Prop where
  commands : ∃ fd < limit, fd ∉ fixedNumbers ∧ x.pipes .toForkServer = ⟨none, some fd⟩ ∧
    t fd = some (.writeEnd x.number .toForkServer)
  readEnds : ∀ p, p ≠ .toForkServer → ∃ fd, x.pipes p = ⟨some fd, none⟩ ∧
    t fd = some (.readEnd x.number p)
  targetStdin : t x.targetStdinFd = some (.targetStdin x.number)

/-- What the destructor closes. -/
def Handle.Closes (x : Handle) (fd : Nat) : File → Prop
  | .readEnd n p => n = x.number ∧ p ≠ .toForkServer ∧ x.pipes p = ⟨some fd, none⟩
  | .writeEnd n p => n = x.number ∧ p = .toForkServer ∧ x.pipes p = ⟨none, some fd⟩
  | .targetStdin n => n = x.number ∧ x.targetStdinFd = fd
  | .epoll _ => False
  | .other _ => False

/-- The executor `x` and its server, which holds the write ends that the client held. -/
structure Constructed (limit : Nat) (s : Processes) (x : Handle) (server : Table)
    (s' : Processes) : Prop where
  number : x.number = s.next
  executors : s'.executors = x :: s.executors
  servers : s'.servers = Function.update s.servers s.next (some server)
  stdinExists : s'.stdinExists = true
  status : s'.status = .running
  next : s'.next = s.next + 1
  owns : Owns limit s'.client x
  epoll : x.epollFd < limit ∧ s'.client x.epollFd = some (.epoll s.next)
  kept : ∀ fd file, s.client fd = some file → s'.client fd = some file
  fresh : ∀ fd file, s'.client fd = some file → s.client fd = some file ∨
    file = .epoll s.next ∧ fd = x.epollFd ∨ x.Closes fd file
  reads : server FORKSRV_FD_READ = some (.readEnd s.next .toForkServer)
  inherited : ∀ fd n, server fd = some (.writeEnd n .toForkServer) →
    ∃ fd, s.client fd = some (.writeEnd n .toForkServer)
  inherits : ∀ fd n, fd ∉ fixedNumbers → s.client fd = some (.writeEnd n .toForkServer) →
    server fd = some (.writeEnd n .toForkServer)

section Construct

variable {n : Nat} {client : Table} {e : PipeName → Ends} {t child : Fds}

theorem createPipes_opened (hcreate : createPipes (opened client) e = some t) {fd : Nat}
    {file : File} (hfile : client fd = some file) : t fd = some (.other fd) := by
  rw [createPipes_other hcreate, opened, hfile, Option.map_some]

theorem parentTable_kept (hcreate : createPipes (opened client) e = some t) {fd : Nat} {file : File}
    (hfile : client fd = some file) : parentTable n client e t fd = some file := by
  have hother := createPipes_opened hcreate hfile
  have hspared : fd ∉ closedByParent e := by
    intro hclosed
    rcases closedByParent_file hcreate hclosed with h | ⟨p, -, h⟩ <;> cases hother.symm.trans h
  rw [parentTable, parentDescriptors_apply, if_neg hspared, hother]
  exact hfile

theorem parentTable_fresh (hcreate : createPipes (opened client) e = some t) {fd : Nat}
    {file : File} (hfile : parentTable n client e t fd = some file) :
    client fd = some file ∨ (file = .writeEnd n .toForkServer ∧ fd = (e .toForkServer).write) ∨
      ∃ p, p ≠ .toForkServer ∧ file = .readEnd n p ∧ fd = (e p).read := by
  have hcreated := created_of_createPipes hcreate
  rw [parentTable, parentDescriptors_apply] at hfile
  split at hfile
  case isTrue => cases hfile
  case isFalse hspared =>
    rcases Option.bind_eq_some_iff.1 hfile with ⟨f, hf, hresolve⟩
    cases f with
    | readEnd p =>
        obtain rfl := Option.some.inj hresolve
        obtain rfl := ((hcreated.read p fd).1 hf).2
        refine Or.inr (Or.inr ⟨p, ?_, rfl, rfl⟩)
        rintro rfl
        exact hspared (by simp [closedByParent])
    | writeEnd p =>
        obtain rfl := Option.some.inj hresolve
        obtain rfl := ((hcreated.write p fd).1 hf).2
        cases p with
        | toForkServer => exact Or.inr (Or.inl ⟨rfl, rfl⟩)
        | _ => exact absurd (by simp [closedByParent]) hspared
    | other k =>
        rw [createPipes_other hcreate] at hf
        rcases Option.map_eq_some_iff.1 hf with ⟨_, -, rfl⟩
        exact Or.inl hresolve

theorem parentTable_of_new (hcreate : createPipes (opened client) e = some t) {fd : Nat}
    {f : OpenFile} {file : File} (hf : t fd = some f)
    (hopen : f = .writeEnd .toForkServer ∨ ∃ p, p ≠ .toForkServer ∧ f = .readEnd p)
    (hresolve : resolve n client f = some file) : parentTable n client e t fd = some file := by
  have hspared : fd ∉ closedByParent e := by
    intro hclosed
    rcases closedByParent_file hcreate hclosed with h | ⟨p, hp, h⟩ <;>
      rcases hopen with rfl | ⟨q, hq, rfl⟩
    · cases hf.symm.trans h
    · cases hf.symm.trans h
      exact hq rfl
    · cases hf.symm.trans h
      exact hp rfl
    · cases hf.symm.trans h
  rw [parentTable, parentDescriptors_apply, if_neg hspared, hf]
  exact hresolve

theorem execve_eq_some {table : Table} {fd : Nat} {file : File} :
    execve table fd = some file ↔ table fd = some file ∧ file.closedByExecve = false := by
  simp [execve, Option.filter_eq_some_iff]

theorem serverTable_inherited (hcreate : createPipes (opened client) e = some t)
    (hchild : (childDescriptors e t).toOption = some child) {fd m : Nat}
    (hfile : serverTable n client child fd = some (.writeEnd m .toForkServer)) :
    ∃ fd, client fd = some (.writeEnd m .toForkServer) := by
  rw [serverTable, execve_eq_some] at hfile
  rcases Option.bind_eq_some_iff.1 hfile.1 with ⟨f, hf, hresolve⟩
  cases f with
  | readEnd p => cases hresolve
  | writeEnd p =>
      cases hresolve
      exact absurd hf (child_writeEnd hcreate hchild fd)
  | other k => exact ⟨k, hresolve⟩

theorem serverTable_inherits (hcreate : createPipes (opened client) e = some t)
    (hchild : (childDescriptors e t).toOption = some child) {fd m : Nat}
    (hfd : fd ∉ fixedNumbers) (hfile : client fd = some (.writeEnd m .toForkServer)) :
    serverTable n client child fd = some (.writeEnd m .toForkServer) := by
  have huse : opened client fd = some fd := by rw [opened, hfile, Option.map_some]
  rw [serverTable, execve_eq_some]
  refine ⟨?_, rfl⟩
  rw [child_other hcreate hchild hfd huse]
  exact hfile

theorem parentPipes (e : PipeName → Ends) (t : Fds) :
    (parentDescriptors e t).1 .toForkServer = ⟨none, some (e .toForkServer).write⟩ ∧
      ∀ p, p ≠ .toForkServer → (parentDescriptors e t).1 p = ⟨some (e p).read, none⟩ := by
  refine ⟨rfl, fun p hp => ?_⟩
  cases p with
  | toForkServer => exact absurd rfl hp
  | fromForkServer => rfl
  | targetStdout => rfl
  | targetStderr => rfl

variable {limit targetStdinFd epollFd : Nat} {s s' : Processes}

theorem constructed_of_construct (h : s.construct limit e targetStdinFd epollFd = some s')
    (havoid : (e .toForkServer).write ∉ fixedNumbers) :
    ∃ x server, Constructed limit s x server s' := by
  obtain ⟨t, hcreate, h⟩ := Option.bind_eq_some_iff.1 h
  obtain ⟨child, hchild, h⟩ := Option.bind_eq_some_iff.1 h
  simp only at h
  split at h
  case isFalse => cases h
  case isTrue hguard =>
    obtain ⟨hreads, -, hstdin, hepoll, hne, hlt⟩ := hguard
    have hwriteLt : (e .toForkServer).write < limit := hlt _ (by simp [numbers])
    have hepollLt : epollFd < limit := hlt _ (by simp [numbers])
    have hcreated := created_of_createPipes hcreate
    -- the two last descriptors
    have hclient : ∀ fd, s'.client fd =
        if fd = epollFd then some (.epoll s.next)
        else if fd = targetStdinFd then some (.targetStdin s.next)
        else parentTable s.next s.client e t fd := by
      intro fd
      rw [← Option.some.inj h]
      simp only [Function.update_apply]
    have hlater : ∀ {fd file}, parentTable s.next s.client e t fd = some file →
        s'.client fd = some file := by
      intro fd file hfile
      rw [hclient, if_neg (by rintro rfl; cases hepoll.symm.trans hfile),
        if_neg (by rintro rfl; cases hstdin.symm.trans hfile), hfile]
    have hwrite := (hcreated.write .toForkServer (e .toForkServer).write).2 ⟨by simp, rfl⟩
    refine ⟨⟨s.next, (parentDescriptors e t).1, targetStdinFd, epollFd⟩,
      serverTable s.next s.client child, ?_⟩
    constructor
    case owns =>
      refine ⟨⟨(e .toForkServer).write, hwriteLt, havoid, (parentPipes e t).1, ?_⟩,
        fun p hp => ⟨(e p).read, (parentPipes e t).2 p hp, ?_⟩, ?_⟩
      · exact hlater (parentTable_of_new hcreate hwrite (Or.inl rfl) rfl)
      · have hread := (hcreated.read p (e p).read).2 ⟨by cases p <;> simp, rfl⟩
        exact hlater (parentTable_of_new hcreate hread (Or.inr ⟨p, hp, rfl⟩) rfl)
      · rw [hclient, if_neg hne, if_pos rfl]
    case epoll => exact ⟨hepollLt, by rw [hclient, if_pos rfl]⟩
    case kept => exact fun fd file hfile => hlater (parentTable_kept hcreate hfile)
    case fresh =>
      intro fd file hfile
      rw [hclient] at hfile
      split_ifs at hfile with hepollFd hstdinFd
      · exact Or.inr (Or.inl ⟨(Option.some.inj hfile).symm, hepollFd⟩)
      · obtain rfl := Option.some.inj hfile
        exact Or.inr (Or.inr ⟨rfl, hstdinFd.symm⟩)
      · rcases parentTable_fresh hcreate hfile with hold | ⟨rfl, rfl⟩ | ⟨p, hp, rfl, rfl⟩
        · exact Or.inl hold
        · exact Or.inr (Or.inr ⟨rfl, rfl, (parentPipes e t).1⟩)
        · exact Or.inr (Or.inr ⟨rfl, hp, (parentPipes e t).2 p hp⟩)
    case reads => exact hreads
    case inherited => exact fun fd m hfile => serverTable_inherited hcreate hchild hfile
    case inherits => exact fun fd m hfd hfile => serverTable_inherits hcreate hchild hfd hfile
    case number => rfl
    all_goals rw [← Option.some.inj h]

end Construct

/-! ## What a destructor leaves -/

section Destruct

variable {limit n : Nat} {s s' : Processes}

/-- The descriptors that the destructor closes hold files of its executor. -/
theorem destruct_cases (h : s.destruct n = some s')
    (howns : ∀ x ∈ s.executors, x.number = n → Owns limit s.client x) :
    ∃ x ∈ s.executors, x.number = n ∧
      ((s.stdinExists = false ∧ s' = { s with client := fun _ => none, status := .terminated }) ∨
        s.stdinExists = true ∧ ∃ t,
          s' = { s with client := t, stdinExists := false, status := .waiting n } ∧
          (∀ fd file, t fd = some file → s.client fd = some file) ∧
          (∀ fd file, s.client fd = some file → (file.owner = some n → file = .epoll n) →
            t fd = some file) ∧
          ∀ fd file, x.Closes fd file → t fd = none) := by
  rw [Processes.destruct] at h
  cases hfind : s.executors.find? (·.number == n) with
  | none => simp [hfind] at h
  | some x =>
      have hx := List.mem_of_find?_eq_some hfind
      have hnumber : x.number = n := by simpa using List.find?_some hfind
      have hown := howns x hx hnumber
      subst hnumber
      obtain ⟨commands, -, -, hcommands, hcommandsFile⟩ := hown.commands
      obtain ⟨out, hout, houtFile⟩ := hown.readEnds .targetStdout (by simp)
      obtain ⟨err, herr, herrFile⟩ := hown.readEnds .targetStderr (by simp)
      obtain ⟨from', hfrom, hfromFile⟩ := hown.readEnds .fromForkServer (by simp)
      refine ⟨x, hx, rfl, ?_⟩
      simp only [hfind] at h
      split at h
      case isFalse hstdin =>
        exact Or.inl ⟨by simpa using hstdin, (Option.some.inj h).symm⟩
      case isTrue hstdin =>
        rw [hout, herr, hcommands, hfrom] at h
        refine Or.inr ⟨hstdin, _, (Option.some.inj h).symm, ?_, ?_, ?_⟩
        all_goals simp only [closeBoth, Option.elim_none, Option.elim_some, Descriptors.close,
          Function.update_apply]
        · intro fd file hfile
          split_ifs at hfile
          exact hfile
        · intro fd file hfile howner
          -- none of the five is this one
          have hne : ∀ {fd' file'}, s.client fd' = some file' →
              file'.owner = some x.number → file' ≠ .epoll x.number → fd ≠ fd' := by
            rintro fd' file' hfile' howner' hepoll rfl
            obtain rfl := Option.some.inj (hfile.symm.trans hfile')
            exact hepoll (howner howner')
          rw [if_neg (hne hfromFile rfl (by simp)), if_neg (hne hcommandsFile rfl (by simp)),
            if_neg (hne herrFile rfl (by simp)), if_neg (hne houtFile rfl (by simp)),
            if_neg (hne hown.targetStdin rfl (by simp)), hfile]
        · -- two pipes have the same number, or the file is that of test cases
          intro fd file hcloses
          cases file with
          | readEnd m p =>
              obtain ⟨-, hp, hpipe⟩ := hcloses
              cases p with
              | toForkServer => exact absurd rfl hp
              | fromForkServer => simp [show fd = from' by simpa using hpipe.symm.trans hfrom]
              | targetStdout => simp [show fd = out by simpa using hpipe.symm.trans hout]
              | targetStderr => simp [show fd = err by simpa using hpipe.symm.trans herr]
          | writeEnd m p =>
              obtain ⟨-, rfl, hpipe⟩ := hcloses
              simp [show fd = commands by simpa using hpipe.symm.trans hcommands]
          | targetStdin m =>
              obtain ⟨-, rfl⟩ := hcloses
              simp
          | epoll m => exact hcloses.elim
          | other k => exact hcloses.elim

end Destruct

/-! ## What holds in every run -/

/-- An executor that is not being destroyed has its descriptors and a server.  A server holds the
write ends of older executors only, and of those that still exist. -/
structure Inv (limit : Nat) (s : Processes) : Prop where
  numbers : (s.executors.map Handle.number).Nodup
  lt_next : ∀ x ∈ s.executors, x.number < s.next
  owns : s.status ≠ .terminated → ∀ x ∈ s.executors, s.status ≠ .waiting x.number →
    Owns limit s.client x
  accounted : ∀ fd file, s.client fd = some file → (∃ k, file = .other k) ∨
    (∃ n < s.next, file = .epoll n) ∨
      ∃ x ∈ s.executors, s.status ≠ .waiting x.number ∧ x.Closes fd file
  servers : ∀ n t, s.servers n = some t → n < s.next ∧
    t FORKSRV_FD_READ = some (.readEnd n .toForkServer) ∧
    ∀ fd m, t fd = some (.writeEnd m .toForkServer) → m < n
  inherits : s.status ≠ .terminated → ∀ x ∈ s.executors, ∀ y ∈ s.executors, x.number < y.number →
    s.status ≠ .waiting y.number → ∃ t, s.servers y.number = some t ∧
      ∃ fd < limit, t fd = some (.writeEnd x.number .toForkServer)
  -- also behind the destructor, as long as there is a younger one
  lives : s.status ≠ .terminated → ∀ x ∈ s.executors,
    (s.status ≠ .waiting x.number ∨ ∃ y ∈ s.executors, x.number < y.number) →
      s.servers x.number ≠ none
  waiting : ∀ n, s.status = .waiting n → s.stdinExists = false ∧ ∃ x ∈ s.executors, x.number = n

section Held

variable {limit : Nat} {s : Processes} {file : File}

theorem held_of_client {fd : Nat} (hfd : fd < limit) (hfile : s.client fd = some file) :
    s.held limit file = true := by
  simp only [Processes.held, Processes.holds, Bool.or_eq_true, List.any_eq_true, List.mem_range]
  exact Or.inl ⟨fd, hfd, by simp [hfile]⟩

theorem held_of_server {n fd : Nat} {t : Table} (hn : n < s.next) (ht : s.servers n = some t)
    (hfd : fd < limit) (hfile : t fd = some file) : s.held limit file = true := by
  simp only [Processes.held, Processes.holds, Bool.or_eq_true, List.any_eq_true, List.mem_range]
  exact Or.inr ⟨n, hn, by simpa [ht] using ⟨fd, hfd, hfile⟩⟩

theorem not_held (hclient : ∀ fd, s.client fd ≠ some file)
    (hserver : ∀ n t, s.servers n = some t → ∀ fd, t fd ≠ some file) :
    s.held limit file = false := by
  rw [Bool.eq_false_iff]
  intro hheld
  simp only [Processes.held, Processes.holds, Bool.or_eq_true, List.any_eq_true, List.mem_range]
    at hheld
  rcases hheld with ⟨fd, -, hfile⟩ | ⟨n, -, hany⟩
  · exact hclient fd (by simpa using hfile)
  · cases ht : s.servers n with
    | none => simp [ht] at hany
    | some t =>
        rw [ht, Option.any_some, List.any_eq_true] at hany
        rcases hany with ⟨fd, -, hfile⟩
        exact hserver n t ht fd (by simpa using hfile)

end Held

section Invariant

variable {limit : Nat} {s s' : Processes}

theorem Owns.congr {t t' : Table} {x : Handle} (h : Owns limit t x)
    (hkept : ∀ fd file, t fd = some file → file.owner = some x.number →
      file ≠ .epoll x.number → t' fd = some file) : Owns limit t' x := by
  obtain ⟨fd, hfd, hfree, hpipe, hfile⟩ := h.commands
  refine ⟨⟨fd, hfd, hfree, hpipe, hkept _ _ hfile rfl (by simp)⟩, fun p hp => ?_,
    hkept _ _ h.targetStdin rfl (by simp)⟩
  rcases h.readEnds p hp with ⟨fd, hpipe, hfile⟩
  exact ⟨fd, hpipe, hkept _ _ hfile rfl (by simp)⟩

theorem Inv.writeEnd (h : Inv limit s) {n fd : Nat}
    (hfile : s.client fd = some (.writeEnd n .toForkServer)) :
    s.status ≠ .waiting n ∧ ∃ x ∈ s.executors, x.number = n := by
  rcases h.accounted fd _ hfile with ⟨k, hk⟩ | ⟨m, -, hm⟩ | ⟨x, hx, hstatus, hcloses⟩
  · cases hk
  · cases hm
  · obtain ⟨rfl, -, -⟩ := hcloses
    exact ⟨hstatus, x, hx, rfl⟩

theorem Inv.construct (h : Inv limit s) (hstatus : s.status = .running) {x : Handle}
    {server : Table} (hnew : Constructed limit s x server s') : Inv limit s' := by
  have hrunning : s'.status ≠ .terminated := by simp [hnew.status]
  have hnot : ∀ n, s.status ≠ .waiting n := by simp [hstatus]
  have howns := h.owns (by simp [hstatus])
  have hne : ∀ y ∈ s.executors, y.number ≠ s.next := fun y hy => (h.lt_next y hy).ne
  constructor
  · rw [hnew.executors, List.map_cons, List.nodup_cons]
    refine ⟨?_, h.numbers⟩
    intro hmem
    rcases List.mem_map.1 hmem with ⟨y, hy, heq⟩
    exact hne y hy (heq.trans hnew.number)
  · rw [hnew.executors, hnew.next, List.forall_mem_cons, hnew.number]
    exact ⟨Nat.lt_succ_self _, fun y hy => (h.lt_next y hy).trans (Nat.lt_succ_self _)⟩
  · rw [hnew.executors]
    intro _ y hy _
    rcases List.mem_cons.1 hy with rfl | hy
    · exact hnew.owns
    · exact (howns y hy (hnot _)).congr fun fd file hfile _ _ => hnew.kept fd file hfile
  · intro fd file hfile
    rw [hnew.executors, hnew.next]
    rcases hnew.fresh fd file hfile with hold | ⟨rfl, -⟩ | hcloses
    · rcases h.accounted fd file hold with hother | ⟨n, hn, hepoll⟩ | ⟨y, hy, -, hcloses⟩
      · exact Or.inl hother
      · exact Or.inr (Or.inl ⟨n, hn.trans (Nat.lt_succ_self _), hepoll⟩)
      · exact Or.inr (Or.inr ⟨y, List.mem_cons_of_mem _ hy, by simp [hnew.status], hcloses⟩)
    · exact Or.inr (Or.inl ⟨s.next, Nat.lt_succ_self _, rfl⟩)
    · exact Or.inr (Or.inr ⟨x, List.mem_cons_self, by simp [hnew.status], hcloses⟩)
  · intro n t ht
    rw [hnew.servers] at ht
    rw [hnew.next]
    by_cases hn : n = s.next
    · subst hn
      rw [Function.update_self] at ht
      obtain rfl := Option.some.inj ht
      refine ⟨Nat.lt_succ_self _, hnew.reads, fun fd m hfile => ?_⟩
      rcases hnew.inherited fd m hfile with ⟨fd', hfile'⟩
      rcases (h.writeEnd hfile').2 with ⟨y, hy, rfl⟩
      exact h.lt_next y hy
    · rw [Function.update_of_ne hn] at ht
      have hold := h.servers n t ht
      exact ⟨hold.1.trans (Nat.lt_succ_self _), hold.2⟩
  · -- the new server inherits from all that are there
    rw [hnew.executors, hnew.servers]
    intro _ y hy z hz hlt _
    rcases List.mem_cons.1 hz with rfl | hz'
    · rw [hnew.number, Function.update_self]
      rcases List.mem_cons.1 hy with rfl | hy'
      · exact absurd hlt (lt_irrefl _)
      · obtain ⟨fd, hfd, hfree, -, hfile⟩ := (howns y hy' (hnot _)).commands
        exact ⟨server, rfl, fd, hfd, hnew.inherits fd _ hfree hfile⟩
    · rw [Function.update_of_ne (hne z hz')]
      rcases List.mem_cons.1 hy with rfl | hy'
      · exact absurd (hlt.trans (h.lt_next z hz')) (by simp [hnew.number])
      · exact h.inherits (by simp [hstatus]) y hy' z hz' hlt (hnot _)
  · rw [hnew.executors, hnew.servers]
    intro _ y hy _
    rcases List.mem_cons.1 hy with rfl | hy
    · simp [hnew.number]
    · rw [Function.update_of_ne (hne y hy)]
      exact h.lives (by simp [hstatus]) y hy (Or.inl (hnot _))
  · intro n hn
    simp [hnew.status] at hn

theorem Inv.eq_of_number (h : Inv limit s) {x y : Handle} (hx : x ∈ s.executors)
    (hy : y ∈ s.executors) (heq : x.number = y.number) : x = y :=
  List.inj_on_of_nodup_map h.numbers hx hy heq

theorem Inv.destruct (h : Inv limit s) (hstatus : s.status = .running) {n : Nat}
    (hstep : s.destruct n = some s') : Inv limit s' := by
  have hnot : ∀ n, s.status ≠ .waiting n := by simp [hstatus]
  have howns := h.owns (by simp [hstatus])
  rcases destruct_cases hstep fun x hx _ => howns x hx (hnot _) with
    ⟨x, hx, rfl, ⟨-, rfl⟩ | ⟨-, t, rfl, hold, hkept, hclosed⟩⟩
  · exact ⟨h.numbers, h.lt_next, fun hne => absurd rfl hne, fun _ _ hfile => (by cases hfile),
      h.servers, fun hne => absurd rfl hne, fun hne => absurd rfl hne, fun _ hn => (by cases hn)⟩
  · refine ⟨h.numbers, h.lt_next, fun _ y hy hne => ?_, fun fd file hfile => ?_, h.servers,
      fun _ y hy z hz hlt _ => h.inherits (by simp [hstatus]) y hy z hz hlt (hnot _),
      fun _ y hy _ => h.lives (by simp [hstatus]) y hy (Or.inl (hnot _)), ?_⟩
    · refine (howns y hy (hnot _)).congr fun fd file hfile howner _ => hkept fd file hfile ?_
      intro howner'
      rw [howner, Option.some.injEq] at howner'
      exact absurd (congrArg Status.waiting howner'.symm) hne
    · rcases h.accounted fd file (hold fd file hfile) with hother | hepoll | ⟨y, hy, -, hcloses⟩
      · exact Or.inl hother
      · exact Or.inr (Or.inl hepoll)
      · refine Or.inr (Or.inr ⟨y, hy, fun heq => ?_, hcloses⟩)
        obtain rfl := h.eq_of_number hx hy (Status.waiting.inj heq)
        cases (hclosed fd file hcloses).symm.trans hfile
    · intro n hn
      obtain rfl := Status.waiting.inj hn
      exact ⟨rfl, x, hx, rfl⟩

/-- A server that can exit belongs to an executor behind its `waitpid`, the youngest one. -/
theorem Inv.held (h : Inv limit s) (halive : s.status ≠ .terminated) {x : Handle}
    (hx : x ∈ s.executors)
    (hneeds : s.status ≠ .waiting x.number ∨ ∃ y ∈ s.executors, x.number < y.number) :
    s.held limit (.writeEnd x.number .toForkServer) = true := by
  by_cases hstatus : s.status = .waiting x.number
  · rcases hneeds with hne | ⟨y, hy, hlt⟩
    · exact absurd hstatus hne
    · have hy' : s.status ≠ .waiting y.number := by
        rw [hstatus]
        exact fun heq => hlt.ne (Status.waiting.inj heq)
      rcases h.inherits halive x hx y hy hlt hy' with ⟨t, ht, fd, hfd, hfile⟩
      exact held_of_server (h.servers _ t ht).1 ht hfd hfile
  · obtain ⟨fd, hfd, -, -, hfile⟩ := (h.owns halive x hx hstatus).commands
    exact held_of_client hfd hfile

theorem Inv.serverExits (h : Inv limit s) {n : Nat} (hstep : s.serverExits limit n = some s') :
    s' = { s with servers := Function.update s.servers n none } ∧ Inv limit s' := by
  rw [Processes.serverExits] at hstep
  cases ht : s.servers n with
  | none => simp [ht] at hstep
  | some t =>
      simp only [ht] at hstep
      split at hstep
      case isFalse => cases hstep
      case isTrue hguard =>
        obtain rfl := Option.some.inj hstep
        -- whose write end is held stays
        have hne : s.status ≠ .terminated → ∀ x ∈ s.executors,
            (s.status ≠ .waiting x.number ∨ ∃ y ∈ s.executors, x.number < y.number) →
              x.number ≠ n := by
          rintro halive x hx hneeds rfl
          rw [h.held halive hx hneeds] at hguard
          cases hguard.2
        refine ⟨rfl, h.numbers, h.lt_next, h.owns, h.accounted, fun m t hm => ?_,
          fun halive x hx y hy hlt hstatus => ?_, fun halive x hx hneeds => ?_, h.waiting⟩
        · by_cases hmn : m = n
          · subst hmn
            cases (Function.update_self m none s.servers).symm.trans hm
          · exact h.servers m t ((Function.update_of_ne hmn none s.servers).symm.trans hm)
        · rcases h.inherits halive x hx y hy hlt hstatus with ⟨t', ht', hholds⟩
          have hspared := Function.update_of_ne (hne halive y hy (Or.inl hstatus)) none s.servers
          exact ⟨t', hspared.trans ht', hholds⟩
        · have hspared := Function.update_of_ne (hne halive x hx hneeds) none s.servers
          exact fun hnone => h.lives halive x hx hneeds (hspared.symm.trans hnone)

theorem Inv.waitpidReturns (h : Inv limit s) {n : Nat} (hstatus : s.status = .waiting n)
    (hstep : s.waitpidReturns n = some s') :
    s.servers n = none ∧
      s' = { s with executors := s.executors.filter (·.number != n), status := .running } ∧
      Inv limit s' := by
  rw [Processes.waitpidReturns] at hstep
  split at hstep
  case isFalse => cases hstep
  case isTrue hnone =>
    obtain rfl := Option.some.inj hstep
    have hmem : ∀ {x : Handle}, x ∈ s.executors.filter (·.number != n) →
        x ∈ s.executors ∧ s.status ≠ .waiting x.number := by
      intro x hx
      rcases List.mem_filter.1 hx with ⟨hx, hne⟩
      refine ⟨hx, ?_⟩
      rw [hstatus]
      exact fun heq => bne_iff_ne.1 hne (Status.waiting.inj heq).symm
    have halive : s.status ≠ .terminated := by simp [hstatus]
    refine ⟨Option.isNone_iff_eq_none.1 hnone, rfl, ?_, fun x hx => h.lt_next x (hmem hx).1,
      fun _ x hx _ => h.owns halive x (hmem hx).1 (hmem hx).2, fun fd file hfile => ?_, h.servers,
      fun _ x hx y hy hlt _ => h.inherits halive x (hmem hx).1 y (hmem hy).1 hlt (hmem hy).2,
      fun _ x hx _ => h.lives halive x (hmem hx).1 (Or.inl (hmem hx).2), fun _ hn => (by cases hn)⟩
    · exact h.numbers.sublist (List.filter_sublist.map _)
    · rcases h.accounted fd file hfile with hother | hepoll | ⟨x, hx, hne, hcloses⟩
      · exact Or.inl hother
      · exact Or.inr (Or.inl hepoll)
      · refine Or.inr (Or.inr ⟨x, List.mem_filter.2 ⟨hx, ?_⟩, by simp, hcloses⟩)
        exact bne_iff_ne.2 fun heq => hne (heq ▸ hstatus)

end Invariant

/-! ## What a step can do -/

/-- The number of a new command pipe is none of the fixed ones, as where 1 and 2 are in use and less
than 190 other numbers. -/
def Event.Avoids : Event → Prop
  | .construct e _ _ => (e .toForkServer).write ∉ fixedNumbers
  | _ => True

inductive Stepped (limit : Nat) (s : Processes) : Processes → Prop
  | construct {x : Handle} {server : Table} {s' : Processes} (hstatus : s.status = .running)
      (hnew : Constructed limit s x server s') : Stepped limit s s'
  | terminate {x : Handle} (hstatus : s.status = .running) (hstdin : s.stdinExists = false)
      (hx : x ∈ s.executors) :
      Stepped limit s { s with client := fun _ => none, status := .terminated }
  | destruct {x : Handle} {t : Table} (hstatus : s.status = .running)
      (hstdin : s.stdinExists = true) (hx : x ∈ s.executors)
      (hold : ∀ fd file, t fd = some file → s.client fd = some file)
      (hkept : ∀ fd file, s.client fd = some file →
        (file.owner = some x.number → file = .epoll x.number) → t fd = some file) :
      Stepped limit s { s with client := t, stdinExists := false, status := .waiting x.number }
  | serverExits (n : Nat) :
      Stepped limit s { s with servers := Function.update s.servers n none }
  | waitpidReturns {n : Nat} (hstatus : s.status = .waiting n) (hserver : s.servers n = none) :
      Stepped limit s
        { s with executors := s.executors.filter (·.number != n), status := .running }

section Steps

variable {limit : Nat} {s s' : Processes}

theorem step_construct {e : PipeName → Ends} {targetStdinFd epollFd : Nat}
    (havoid : (Event.construct e targetStdinFd epollFd).Avoids)
    (hstep : s.step limit (.construct e targetStdinFd epollFd) = some s') :
    s.status = .running ∧ ∃ x server, Constructed limit s x server s' := by
  rw [Processes.step] at hstep
  split at hstep
  case isFalse => cases hstep
  case isTrue hstatus => exact ⟨hstatus, constructed_of_construct hstep havoid⟩

theorem step_destruct {n : Nat} (hstep : s.step limit (.destruct n) = some s') :
    s.status = .running ∧ s.destruct n = some s' := by
  rw [Processes.step] at hstep
  split at hstep
  case isFalse => cases hstep
  case isTrue hstatus => exact ⟨hstatus, hstep⟩

theorem step_waitpidReturns (hstep : s.step limit .waitpidReturns = some s') :
    ∃ n, s.status = .waiting n ∧ s.waitpidReturns n = some s' := by
  rw [Processes.step] at hstep
  split at hstep
  case h_1 n hstatus => exact ⟨n, hstatus, hstep⟩
  case h_2 => cases hstep

/-- What the destructor does where the executors own their descriptors. -/
theorem Inv.destruct_cases (h : Inv limit s) (hstatus : s.status = .running) {n : Nat}
    (hstep : s.destruct n = some s') :
    ∃ x ∈ s.executors, x.number = n ∧
      ((s.stdinExists = false ∧ s' = { s with client := fun _ => none, status := .terminated }) ∨
        s.stdinExists = true ∧ ∃ t,
          s' = { s with client := t, stdinExists := false, status := .waiting n } ∧
          (∀ fd file, t fd = some file → s.client fd = some file) ∧
          ∀ fd file, s.client fd = some file → (file.owner = some n → file = .epoll n) →
            t fd = some file) := by
  have howns : ∀ x ∈ s.executors, x.number = n → Owns limit s.client x := fun x hx _ =>
    h.owns (by simp [hstatus]) x hx (by simp [hstatus])
  rcases Lifetimes.destruct_cases hstep howns with
    ⟨x, hx, hnumber, hterminated | ⟨hstdin, t, ht, hold, hkept, -⟩⟩
  · exact ⟨x, hx, hnumber, Or.inl hterminated⟩
  · exact ⟨x, hx, hnumber, Or.inr ⟨hstdin, t, ht, hold, hkept⟩⟩

theorem Inv.step (h : Inv limit s) {ev : Event} (havoid : ev.Avoids)
    (hstep : s.step limit ev = some s') : Inv limit s' ∧ Stepped limit s s' := by
  cases ev with
  | construct e targetStdinFd epollFd =>
      obtain ⟨hstatus, x, server, hnew⟩ := step_construct havoid hstep
      exact ⟨h.construct hstatus hnew, .construct hstatus hnew⟩
  | destruct n =>
      obtain ⟨hstatus, hdestruct⟩ := step_destruct hstep
      refine ⟨h.destruct hstatus hdestruct, ?_⟩
      rcases h.destruct_cases hstatus hdestruct with
        ⟨x, hx, rfl, ⟨hstdin, rfl⟩ | ⟨hstdin, t, rfl, hold, hkept⟩⟩
      · exact .terminate hstatus hstdin hx
      · exact .destruct hstatus hstdin hx hold hkept
  | serverExits n =>
      obtain ⟨rfl, hinv⟩ := h.serverExits hstep
      exact ⟨hinv, .serverExits n⟩
  | waitpidReturns =>
      obtain ⟨n, hstatus, hreturns⟩ := step_waitpidReturns hstep
      obtain ⟨hserver, rfl, hinv⟩ := h.waitpidReturns hstatus hreturns
      exact ⟨hinv, .waitpidReturns hstatus hserver⟩

end Steps

/-! ## One executor at a time -/

/-- There is no process but those of at most one executor, and its file of test cases. -/
structure Alone (s : Processes) : Prop where
  atMostOne : s.executors.length ≤ 1
  servers : ∀ n, s.servers n ≠ none → ∃ x ∈ s.executors, x.number = n
  lives : s.status ≠ .terminated
  stdinExists : s.status = .running → s.executors ≠ [] → s.stdinExists = true

/-- The executor `n` is behind its destructor's removal of the file, or the file is there; in both
cases a younger server keeps its own one alive. -/
def Stranded (n : Nat) (s : Processes) : Prop :=
  s.status = .terminated ∨ (∃ x ∈ s.executors, x.number = n) ∧
    (s.status = .waiting n ∨ s.stdinExists = true → ∃ y ∈ s.executors, n < y.number)

/-- The executor `n` is lost after the events `es`.  Its destructor ends the process where that of a
younger one has removed the file of test cases.  Where the file is there it waits, for a server that
stays as long as a younger one, which holds the write end of its command pipe. -/
structure Lost (limit n : Nat) (es : List Event) (s : Processes) : Prop where
  remains : ∃ x ∈ s.executors, x.number = n
  ends : s.status = .running → s.stdinExists = false →
    (∃ m, n < m ∧ .destruct m ∈ es) ∧
      ∃ s', s.step limit (.destruct n) = some s' ∧ s'.status = .terminated
  waits : s.status = .waiting n ∨ s.status = .running ∧ s.stdinExists = true →
    s.servers n ≠ none ∧
      ∃ m t fd, n < m ∧ s.servers m = some t ∧ t fd = some (.writeEnd n .toForkServer)

section Overlap

variable {limit n : Nat} {s s' : Processes}

theorem eq_singleton {x : Handle} (hx : x ∈ s.executors) (hone : s.executors.length ≤ 1) :
    s.executors = [x] := by
  match s.executors, hx, hone with
  | [y], hx, _ => rw [List.mem_singleton.1 hx]

theorem Alone.step (halone : Alone s) (hinv : Inv limit s) (hstep : Stepped limit s s')
    (hone : s'.executors.length ≤ 1) : Alone s' := by
  cases hstep with
  | @construct x server _ hstatus hnew =>
      rw [hnew.executors, List.length_cons] at hone
      have hnil : s.executors = [] := List.length_eq_zero_iff.1 (by omega)
      refine ⟨by rw [hnew.executors, hnil]; exact le_rfl, fun n hn => ?_, by simp [hnew.status],
        fun _ _ => hnew.stdinExists⟩
      rw [hnew.executors]
      by_cases hnext : n = s.next
      · exact ⟨x, List.mem_cons_self, hnew.number.trans hnext.symm⟩
      · rw [hnew.servers, Function.update_of_ne hnext] at hn
        rcases halone.servers n hn with ⟨y, hy, hnumber⟩
        exact ⟨y, List.mem_cons_of_mem _ hy, hnumber⟩
  | terminate hstatus hstdin hx =>
      -- the file is there
      have hexists := halone.stdinExists hstatus (List.ne_nil_of_mem hx)
      rw [hstdin] at hexists
      cases hexists
  | destruct hstatus hstdin hx hold hkept =>
      exact ⟨halone.atMostOne, halone.servers, by simp, fun hrunning => by cases hrunning⟩
  | serverExits n =>
      refine ⟨halone.atMostOne, fun m hm => ?_, halone.lives, halone.stdinExists⟩
      refine halone.servers m fun hnone => hm ?_
      by_cases hmn : m = n
      · rw [hmn]
        exact Function.update_self n none s.servers
      · exact (Function.update_of_ne hmn none s.servers).trans hnone
  | @waitpidReturns n hstatus hserver =>
      rcases (hinv.waiting n hstatus).2 with ⟨x, hx, rfl⟩
      have hsingle := eq_singleton hx halone.atMostOne
      have hnil : s.executors.filter (·.number != x.number) = [] := by simp [hsingle]
      refine ⟨by simp [hnil], fun m hm => ?_, by simp, fun _ hne => absurd hnil hne⟩
      rcases halone.servers m hm with ⟨y, hy, rfl⟩
      obtain rfl : y = x := by simpa [hsingle] using hy
      exact absurd hserver hm

/-- Nothing takes a younger executor away before it. -/
theorem Stranded.step (hstranded : Stranded n s) (hinv : Inv limit s)
    (hstep : Stepped limit s s') : Stranded n s' := by
  cases hstep with
  | @construct x server _ hstatus hnew =>
      rcases hstranded with hterminated | ⟨⟨y, hy, rfl⟩, -⟩
      · cases hstatus.symm.trans hterminated
      · refine Or.inr ⟨⟨y, ?_, rfl⟩, fun _ => ⟨x, ?_, ?_⟩⟩
        · rw [hnew.executors]
          exact List.mem_cons_of_mem _ hy
        · rw [hnew.executors]
          exact List.mem_cons_self
        · rw [hnew.number]
          exact hinv.lt_next y hy
  | terminate hstatus hstdin hx => exact Or.inl rfl
  | destruct hstatus hstdin hx hold hkept =>
      rcases hstranded with hterminated | ⟨halive, hyounger⟩
      · cases hstatus.symm.trans hterminated
      · exact Or.inr ⟨halive, fun _ => hyounger (Or.inr hstdin)⟩
  | serverExits m => exact hstranded
  | @waitpidReturns m hstatus hserver =>
      rcases hstranded with hterminated | ⟨⟨x, hx, rfl⟩, hyounger⟩
      · cases hstatus.symm.trans hterminated
      · have hstdin := (hinv.waiting m hstatus).1
        -- with a younger one its own server would still be there
        have hne : x.number ≠ m := by
          rintro rfl
          exact hinv.lives (by simp [hstatus]) x hx (Or.inr (hyounger (Or.inl hstatus))) hserver
        refine Or.inr ⟨⟨x, List.mem_filter.2 ⟨hx, bne_iff_ne.2 hne⟩, rfl⟩, ?_⟩
        rintro (hwaiting | hexists)
        · cases hwaiting
        · cases hstdin.symm.trans hexists

/-- The older one of two executors is stranded. -/
theorem Inv.stranded (hinv : Inv limit s) (htwo : 1 < s.executors.length) :
    ∃ n, Stranded n s := by
  obtain ⟨x, y, rest, hlist⟩ : ∃ x y rest, s.executors = x :: y :: rest := by
    match s.executors, htwo with
    | x :: y :: rest, _ => exact ⟨x, y, rest, rfl⟩
  have hx : x ∈ s.executors := by simp [hlist]
  have hy : y ∈ s.executors := by simp [hlist]
  have hne : x.number ≠ y.number := by
    intro heq
    have hnumbers := hinv.numbers
    rw [hlist, List.map_cons, List.map_cons, heq, List.nodup_cons] at hnumbers
    exact hnumbers.1 List.mem_cons_self
  rcases Nat.lt_or_gt_of_ne hne with hlt | hlt
  · exact ⟨x.number, Or.inr ⟨⟨x, hx, rfl⟩, fun _ => ⟨y, hy, hlt⟩⟩⟩
  · exact ⟨y.number, Or.inr ⟨⟨y, hy, rfl⟩, fun _ => ⟨x, hx, hlt⟩⟩⟩

theorem run_waitpidReturns (hstatus : s.status = .waiting n) (hserver : s.servers n = none) :
    Transition.run (Processes.step limit) s [.waitpidReturns] =
      some { s with executors := s.executors.filter (·.number != n), status := .running } := by
  simp [Transition.run, Processes.step, hstatus, Processes.waitpidReturns, hserver]

/-- Nobody else holds the write end. -/
theorem Alone.returns_of_waiting (halone : Alone s) (hinv : Inv limit s)
    (hstatus : s.status = .waiting n) :
    ∃ es s', (∀ ev ∈ es, ev.Avoids) ∧ Transition.run (Processes.step limit) s es = some s' ∧
      s'.status = .running ∧ s'.executors = [] := by
  rcases (hinv.waiting n hstatus).2 with ⟨x, hx, rfl⟩
  have hsingle := eq_singleton hx halone.atMostOne
  have hnil : s.executors.filter (·.number != x.number) = [] := by simp [hsingle]
  cases hserver : s.servers x.number with
  | none =>
      exact ⟨[.waitpidReturns], _, by simp [Event.Avoids], run_waitpidReturns hstatus hserver, rfl,
        hnil⟩
  | some t =>
      obtain ⟨-, hreads, holder⟩ := hinv.servers _ t hserver
      have hheld : s.held limit (.writeEnd x.number .toForkServer) = false := by
        refine not_held (fun fd hfile => (hinv.writeEnd hfile).1 hstatus) ?_
        intro m t' ht' fd hfile
        rcases halone.servers m (by simp [ht']) with ⟨y, hy, rfl⟩
        obtain rfl : y = x := by simpa [hsingle] using hy
        obtain rfl := Option.some.inj (hserver.symm.trans ht')
        exact lt_irrefl _ (holder fd _ hfile)
      let s₁ : Processes := { s with servers := Function.update s.servers x.number none }
      have hexits : s.step limit (.serverExits x.number) = some s₁ := by
        simp only [Processes.step, Processes.serverExits, hserver]
        exact if_pos ⟨hreads, hheld⟩
      have hgone : s₁.servers x.number = none := Function.update_self _ _ _
      exact ⟨[.serverExits x.number, .waitpidReturns], _, by simp [Event.Avoids],
        Transition.run_cons_eq_some.2 ⟨s₁, hexits, run_waitpidReturns hstatus hgone⟩, rfl, hnil⟩

/-- The destructor of a single executor returns. -/
theorem Alone.returns (halone : Alone s) (hinv : Inv limit s) :
    ∃ es s', (∀ ev ∈ es, ev.Avoids) ∧ Transition.run (Processes.step limit) s es = some s' ∧
      s'.status = .running ∧ s'.executors = [] := by
  cases hstatus : s.status with
  | terminated => exact absurd hstatus halone.lives
  | waiting n => exact halone.returns_of_waiting hinv hstatus
  | running =>
      by_cases hnil : s.executors = []
      · exact ⟨[], s, by simp, rfl, hstatus, hnil⟩
      · obtain ⟨x, hx⟩ := List.exists_mem_of_ne_nil _ hnil
        have hsingle := eq_singleton hx halone.atMostOne
        have hstdin := halone.stdinExists hstatus hnil
        obtain ⟨s₁, hdestruct, hwaiting, hsame⟩ : ∃ s₁,
            s.step limit (.destruct x.number) = some s₁ ∧ s₁.status = .waiting x.number ∧
              s₁.executors = s.executors := by
          simp [Processes.step, Processes.destruct, hstatus, hsingle, hstdin]
        have havoid : (Event.destruct x.number).Avoids := trivial
        obtain ⟨hinv₁, hstepped⟩ := hinv.step havoid hdestruct
        have halone₁ := halone.step hinv hstepped (hsame ▸ halone.atMostOne)
        rcases halone₁.returns_of_waiting hinv₁ hwaiting with ⟨es, s', hes, hrun, hend⟩
        refine ⟨.destruct x.number :: es, s', ?_, ?_, hend⟩
        · exact List.forall_mem_cons.2 ⟨trivial, hes⟩
        · exact Transition.run_cons_eq_some.2 ⟨s₁, hdestruct, hrun⟩

end Overlap

/-! ## From the start -/

/-- A client without executors. -/
def Processes.start (inUse : Nat → Option Nat) (stdinExists : Bool) : Processes where
  client := fun fd => (inUse fd).map .other
  executors := []
  servers := fun _ => none
  stdinExists := stdinExists
  status := .running
  next := 0

section Runs

variable {limit : Nat} {s s' : Processes} {es : List Event}

theorem inv_start (limit : Nat) (inUse : Nat → Option Nat) (stdinExists : Bool) :
    Inv limit (.start inUse stdinExists) := by
  refine ⟨List.nodup_nil, by simp [Processes.start], by simp [Processes.start], ?_,
    by simp [Processes.start], by simp [Processes.start], by simp [Processes.start],
    by simp [Processes.start]⟩
  intro fd file hfile
  rcases Option.map_eq_some_iff.1 hfile with ⟨k, -, rfl⟩
  exact Or.inl ⟨k, rfl⟩

theorem Inv.run (h : Inv limit s) (havoid : ∀ ev ∈ es, ev.Avoids)
    (hrun : Transition.run (Processes.step limit) s es = some s') : Inv limit s' := by
  refine Transition.invariant_allSteps (P := fun _ ev => ev.Avoids) ?_ h
    (Transition.allSteps_of_forall (fun ev hev _ => havoid ev hev) s) hrun
  intro s ev s' hinv hev hstep
  exact (hinv.step hev hstep).1

theorem Stranded.run {n : Nat} (hstranded : Stranded n s) (h : Inv limit s)
    (havoid : ∀ ev ∈ es, ev.Avoids)
    (hrun : Transition.run (Processes.step limit) s es = some s') : Stranded n s' := by
  refine (Transition.invariant_allSteps (P := fun _ ev => ev.Avoids)
    (I := fun s => Inv limit s ∧ Stranded n s) ?_ ⟨h, hstranded⟩
    (Transition.allSteps_of_forall (fun ev hev _ => havoid ev hev) s) hrun).2
  rintro s ev s' ⟨hinv, hstranded⟩ hev hstep
  obtain ⟨hinv', hstepped⟩ := hinv.step hev hstep
  exact ⟨hinv', hstranded.step hinv hstepped⟩

/-- Who has removed the file of test cases is younger than the executors that are left, or its
destructor does not return. -/
theorem removed_run {inUse : Nat → Option Nat} {stdinExists : Bool} (havoid : ∀ ev ∈ es, ev.Avoids)
    (hrun : Transition.run (Processes.step limit) (.start inUse stdinExists) es = some s)
    (halive : s.status ≠ .terminated) (hstdin : s.stdinExists = false) {x : Handle}
    (hx : x ∈ s.executors) :
    (∃ m ≤ x.number, s.status = .waiting m) ∨ ∃ m, x.number < m ∧ .destruct m ∈ es := by
  refine Transition.history_run_of_forall (P := fun es s =>
    s.status ≠ .terminated → s.stdinExists = false → ∀ x ∈ s.executors,
      (∃ m ≤ x.number, s.status = .waiting m) ∨ ∃ m, x.number < m ∧ .destruct m ∈ es)
    ?_ ?_ havoid hrun halive hstdin x hx
  · intro _ _ x hx
    cases hx
  · intro es s ev s' hes hrun ih hev hstep halive hstdin x hx
    have hinv := (inv_start limit inUse stdinExists).run hes hrun
    cases ev with
    | construct e targetStdinFd epollFd =>
        obtain ⟨-, y, server, hnew⟩ := step_construct hev hstep
        cases hnew.stdinExists.symm.trans hstdin
    | destruct n =>
        obtain ⟨hstatus, hdestruct⟩ := step_destruct hstep
        rcases hinv.destruct_cases hstatus hdestruct with ⟨y, hy, rfl, ⟨-, rfl⟩ | ⟨-, t, rfl, -⟩⟩
        · exact absurd rfl halive
        · rcases le_or_gt y.number x.number with hle | hlt
          · exact Or.inl ⟨_, hle, rfl⟩
          · exact Or.inr ⟨_, hlt, by simp⟩
    | serverExits n =>
        obtain ⟨rfl, -⟩ := hinv.serverExits hstep
        rcases ih halive hstdin x hx with hwaiting | ⟨m, hlt, hm⟩
        · exact Or.inl hwaiting
        · exact Or.inr ⟨m, hlt, List.mem_append_left _ hm⟩
    | waitpidReturns =>
        obtain ⟨n, hstatus, hreturns⟩ := step_waitpidReturns hstep
        obtain ⟨hserver, rfl, -⟩ := hinv.waitpidReturns hstatus hreturns
        obtain ⟨hx', hne⟩ := List.mem_filter.1 hx
        rcases ih (by simp [hstatus]) hstdin x hx' with ⟨m, hle, hm⟩ | ⟨m, hlt, hm⟩
        · -- the server of an older one is still there
          obtain rfl := Status.waiting.inj (hstatus.symm.trans hm)
          rcases (hinv.waiting n hstatus).2 with ⟨y, hy, rfl⟩
          have hlt : y.number < x.number := lt_of_le_of_ne hle (bne_iff_ne.1 hne).symm
          exact absurd hserver (hinv.lives (by simp [hstatus]) y hy (Or.inr ⟨x, hx', hlt⟩))
        · exact Or.inr ⟨m, hlt, List.mem_append_left _ hm⟩

theorem Stranded.lost {n : Nat} {inUse : Nat → Option Nat} {stdinExists : Bool}
    (hstranded : Stranded n s) (havoid : ∀ ev ∈ es, ev.Avoids)
    (hrun : Transition.run (Processes.step limit) (.start inUse stdinExists) es = some s) :
    s.status = .terminated ∨ Lost limit n es s := by
  have hinv := (inv_start limit inUse stdinExists).run havoid hrun
  rcases hstranded with hterminated | ⟨⟨x, hx, rfl⟩, hyounger⟩
  · exact Or.inl hterminated
  · refine or_iff_not_imp_left.2 fun halive => ⟨⟨x, hx, rfl⟩, fun hstatus hstdin => ⟨?_, ?_⟩, ?_⟩
    · rcases removed_run havoid hrun halive hstdin hx with ⟨m, -, hm⟩ | hremoved
      · cases hstatus.symm.trans hm
      · exact hremoved
    · obtain ⟨y, hfind⟩ : ∃ y, s.executors.find? (·.number == x.number) = some y :=
        Option.isSome_iff_exists.1 (List.find?_isSome.2 ⟨x, hx, by simp⟩)
      have hend : s.step limit (.destruct x.number) =
          some { s with client := fun _ => none, status := .terminated } := by
        simp [Processes.step, Processes.destruct, hstatus, hfind, hstdin]
      exact ⟨_, hend, rfl⟩
    · intro hneeds
      obtain ⟨y, hy, hlt⟩ := hyounger (hneeds.imp_right And.right)
      have hnot : s.status ≠ .waiting y.number := by
        rcases hneeds with hwaiting | ⟨hstatus, -⟩
        · rw [hwaiting]
          exact fun heq => hlt.ne (Status.waiting.inj heq)
        · simp [hstatus]
      rcases hinv.inherits halive x hx y hy hlt hnot with ⟨t, ht, fd, -, hfile⟩
      exact ⟨hinv.lives halive x hx (Or.inr ⟨y, hy, hlt⟩), y.number, t, fd, hlt, ht, hfile⟩

/-- As long as there is one executor at a time, nothing else is there. -/
theorem alone_run {inUse : Nat → Option Nat} {stdinExists : Bool}
    (havoid : ∀ ev ∈ es, ev.Avoids)
    (hone : Transition.AllStates (Processes.step limit) (fun s => s.executors.length ≤ 1)
      (.start inUse stdinExists) es)
    (hrun : Transition.run (Processes.step limit) (.start inUse stdinExists) es = some s) :
    Alone s := by
  refine Transition.history_run_of_forall (P := fun es s =>
    Transition.AllStates (Processes.step limit) (fun s => s.executors.length ≤ 1)
      (.start inUse stdinExists) es → Alone s) ?_ ?_ havoid hrun hone
  · intro _
    exact ⟨by simp [Processes.start], by simp [Processes.start], by simp [Processes.start],
      by simp [Processes.start]⟩
  · intro es s ev s' hes hrun ih hev hstep hone
    rw [Transition.allStates_snoc] at hone
    have hinv := (inv_start limit inUse stdinExists).run hes hrun
    have hstepped := (hinv.step hev hstep).2
    exact (ih hone.1).step hinv hstepped
      (hone.2 s' (Transition.run_snoc_eq_some.2 ⟨s, hrun, hstep⟩))

/-- Two executors at once are never both destroyed. -/
theorem not_ends_of_two (h : Inv limit s) (htwo : 1 < s.executors.length)
    (havoid : ∀ ev ∈ es, ev.Avoids) (hrun : Transition.run (Processes.step limit) s es = some s')
    (hstatus : s'.status = .running) : s'.executors ≠ [] := by
  obtain ⟨n, hstranded⟩ := h.stranded htwo
  rcases hstranded.run h havoid hrun with hterminated | ⟨⟨x, hx, -⟩, -⟩
  · cases hstatus.symm.trans hterminated
  · exact List.ne_nil_of_mem hx

/-- **One executor at a time.** Whatever numbers the kernel hands out, a process can still destroy
all executors it has constructed exactly if it has never had two at once.  With two, one of them is
lost, whatever comes. -/
theorem ends_iff_one_at_a_time (limit : Nat) (inUse : Nat → Option Nat) (stdinExists : Bool)
    (hrun : Transition.run (Processes.step limit) (.start inUse stdinExists) es = some s)
    (havoid : ∀ ev ∈ es, ev.Avoids) :
    ((∃ es' s', (∀ ev ∈ es', ev.Avoids) ∧ Transition.run (Processes.step limit) s es' = some s' ∧
      s'.status = .running ∧ s'.executors = []) ↔
        Transition.AllStates (Processes.step limit) (fun s => s.executors.length ≤ 1)
          (.start inUse stdinExists) es) ∧
      (1 < s.executors.length → ∃ n, ∀ es' s', (∀ ev ∈ es', ev.Avoids) →
        Transition.run (Processes.step limit) s es' = some s' →
          s'.status = .terminated ∨ Lost limit n (es ++ es') s') := by
  have hinv := (inv_start limit inUse stdinExists).run havoid hrun
  refine ⟨⟨?_, fun hone => (alone_run havoid hone hrun).returns hinv⟩, fun htwo => ?_⟩
  · rintro ⟨es', s', havoid', hrun', hstatus, hnil⟩ es₁ s₁ ⟨es₂, rfl⟩ hrun₁
    by_contra htwo
    have havoid₁ : ∀ ev ∈ es₁, ev.Avoids := fun ev hev => havoid ev (List.mem_append_left _ hev)
    have havoid₂ : ∀ ev ∈ es₂ ++ es', ev.Avoids := List.forall_mem_append.2
      ⟨fun ev hev => havoid ev (List.mem_append_right _ hev), havoid'⟩
    have hrest : Transition.run (Processes.step limit) s₁ (es₂ ++ es') = some s' := by
      rw [Transition.run_append, hrun₁, Option.bind_some] at hrun
      exact Transition.run_append_eq_some.2 ⟨s, hrun, hrun'⟩
    exact not_ends_of_two ((inv_start limit inUse stdinExists).run havoid₁ hrun₁)
      (Nat.not_le.1 htwo) havoid₂ hrest hstatus hnil
  · obtain ⟨n, hstranded⟩ := hinv.stranded htwo
    refine ⟨n, fun es' s' havoid' hrun' => ?_⟩
    exact (hstranded.run hinv havoid' hrun').lost (List.forall_mem_append.2 ⟨havoid, havoid'⟩)
      (Transition.run_append_eq_some.2 ⟨s, hrun, hrun'⟩)

/-! ### Two executors in a process with three open files -/

/-- The lowest numbers that are free. -/
def secondEnds : PipeName → Ends
  | .toForkServer => ⟨8, 10⟩
  | .fromForkServer => ⟨11, 12⟩
  | .targetStdout => ⟨13, 14⟩
  | .targetStderr => ⟨15, 16⟩

def twoExecutors : List Event :=
  [.construct (lowestEnds 3) 3 6, .construct secondEnds 8 12]

/-- Neither order of the destructors works. -/
theorem twoExecutors_stranded :
    ∃ s, Transition.run (Processes.step 256) (.start (firstOpen 3) false) twoExecutors = some s ∧
      ¬∃ es' s', (∀ ev ∈ es', ev.Avoids) ∧
        Transition.run (Processes.step 256) s es' = some s' ∧ s'.status = .running ∧
          s'.executors = [] := by
  obtain ⟨s, hrun, htwo⟩ : ∃ s, Transition.run (Processes.step 256)
      (.start (firstOpen 3) false) twoExecutors = some s ∧ s.executors.length = 2 := ⟨_, rfl, rfl⟩
  have havoid : ∀ ev ∈ twoExecutors, ev.Avoids := by
    simp [twoExecutors, Event.Avoids, lowestEnds, secondEnds, fixedNumbers, FORKSRV_FD_READ,
      FORKSRV_FD_WRITE]
  refine ⟨s, hrun, fun hends => ?_⟩
  have hone := (ends_iff_one_at_a_time 256 (firstOpen 3) false hrun havoid).1.1 hends
  have hle := hone.last hrun
  omega

/-! ## What stays open -/

/-- The client keeps what it had, and one epoll instance of each executor. -/
structure Kept (limit : Nat) (inUse : Nat → Option Nat) (s : Processes) : Prop where
  other : s.status ≠ .terminated → ∀ fd k, s.client fd = some (.other k) ↔ inUse fd = some k
  epoll : s.status ≠ .terminated → ∀ n < s.next, ∃ fd < limit,
    ∀ fd', s.client fd' = some (.epoll n) ↔ fd' = fd

theorem Kept.step {inUse : Nat → Option Nat} (h : Kept limit inUse s) (hinv : Inv limit s)
    (hstep : Stepped limit s s') : Kept limit inUse s' := by
  cases hstep with
  | @construct x server _ hstatus hnew =>
      have halive : s.status ≠ .terminated := by simp [hstatus]
      constructor
      · intro _ fd k
        rw [← h.other halive]
        constructor
        · intro hfile
          rcases hnew.fresh fd _ hfile with hold | ⟨hepoll, -⟩ | hcloses
          · exact hold
          · cases hepoll
          · exact hcloses.elim
        · exact hnew.kept fd _
      · intro _ n hn
        rw [hnew.next] at hn
        have hfresh : ∀ fd, s'.client fd = some (.epoll n) →
            s.client fd = some (.epoll n) ∨ n = s.next ∧ fd = x.epollFd := by
          intro fd hfile
          rcases hnew.fresh fd _ hfile with hold | ⟨hepoll, hfd⟩ | hcloses
          · exact Or.inl hold
          · exact Or.inr ⟨File.epoll.inj hepoll, hfd⟩
          · exact hcloses.elim
        rcases Nat.lt_succ_iff_lt_or_eq.1 hn with hold | rfl
        · rcases h.epoll halive n hold with ⟨fd, hfd, honly⟩
          refine ⟨fd, hfd, fun fd' => ⟨fun hfile => ?_, ?_⟩⟩
          · rcases hfresh fd' hfile with hfile' | ⟨rfl, -⟩
            · exact (honly fd').1 hfile'
            · exact absurd hold (lt_irrefl _)
          · rintro rfl
            exact hnew.kept _ _ ((honly _).2 rfl)
        · refine ⟨x.epollFd, hnew.epoll.1, fun fd' => ⟨fun hfile => ?_, ?_⟩⟩
          · rcases hfresh fd' hfile with hfile' | ⟨-, hfd⟩
            · rcases hinv.accounted fd' _ hfile' with ⟨k, hk⟩ | ⟨m, hm, heq⟩ | ⟨y, -, -, hcloses⟩
              · cases hk
              · exact absurd (File.epoll.inj heq ▸ hm) (lt_irrefl _)
              · exact hcloses.elim
            · exact hfd
          · rintro rfl
            exact hnew.epoll.2
  | terminate hstatus hstdin hx => exact ⟨fun hne => absurd rfl hne, fun hne => absurd rfl hne⟩
  | @destruct x t hstatus hstdin hx hold hkept =>
      have halive : s.status ≠ .terminated := by simp [hstatus]
      refine ⟨fun _ fd k => ?_, fun _ n hn => ?_⟩
      · rw [← h.other halive]
        exact ⟨hold fd _, fun hfile => hkept fd _ hfile fun howner => by cases howner⟩
      · rcases h.epoll halive n hn with ⟨fd, hfd, honly⟩
        refine ⟨fd, hfd, fun fd' => ⟨fun hfile => (honly fd').1 (hold fd' _ hfile), fun heq => ?_⟩⟩
        refine hkept fd' _ ((honly fd').2 heq) fun howner => ?_
        rw [Option.some.inj howner]
  | serverExits n => exact ⟨h.other, h.epoll⟩
  | waitpidReturns hstatus hserver =>
      have halive : s.status ≠ .terminated := by simp [hstatus]
      exact ⟨fun _ => h.other halive, fun _ => h.epoll halive⟩

def Event.constructs : Event → Bool
  | .construct _ _ _ => true
  | _ => false

theorem step_next {ev : Event} (havoid : ev.Avoids) (hstep : s.step limit ev = some s') :
    s'.next = s.next + if ev.constructs then 1 else 0 := by
  cases ev with
  | construct e targetStdinFd epollFd =>
      obtain ⟨-, x, server, hnew⟩ := step_construct havoid hstep
      exact hnew.next
  | destruct n =>
      simp only [Processes.step, Processes.destruct] at hstep
      split at hstep
      · split at hstep
        · cases hstep
        · split at hstep <;> cases hstep <;> rfl
      · cases hstep
  | serverExits n =>
      simp only [Processes.step, Processes.serverExits] at hstep
      split at hstep
      · cases hstep
      · split at hstep <;> cases hstep
        rfl
  | waitpidReturns =>
      simp only [Processes.step, Processes.waitpidReturns] at hstep
      split at hstep
      · split at hstep <;> cases hstep
        rfl
      · cases hstep

theorem next_run {inUse : Nat → Option Nat} {stdinExists : Bool} (havoid : ∀ ev ∈ es, ev.Avoids)
    (hrun : Transition.run (Processes.step limit) (.start inUse stdinExists) es = some s) :
    s.next = es.countP Event.constructs := by
  refine Transition.history_run_of_forall
    (P := fun es s => s.next = es.countP Event.constructs) rfl ?_ havoid hrun
  intro es s ev s' _ _ ih hev hstep
  rw [step_next hev hstep, ih, List.countP_append, List.countP_singleton]

theorem kept_run {inUse : Nat → Option Nat} {stdinExists : Bool} (havoid : ∀ ev ∈ es, ev.Avoids)
    (hrun : Transition.run (Processes.step limit) (.start inUse stdinExists) es = some s) :
    Inv limit s ∧ Kept limit inUse s := by
  refine Transition.invariant_allSteps (P := fun _ ev => ev.Avoids)
    (I := fun s => Inv limit s ∧ Kept limit inUse s) ?_ ⟨inv_start limit inUse stdinExists, ?_⟩
    (Transition.allSteps_of_forall (fun ev hev _ => havoid ev hev) _) hrun
  · rintro s ev s' ⟨hinv, hkept⟩ hev hstep
    obtain ⟨hinv', hstepped⟩ := hinv.step hev hstep
    exact ⟨hinv', hkept.step hinv hstepped⟩
  · constructor
    · intro _ fd k
      simp [Processes.start]
    · intro _ n hn
      exact absurd hn (Nat.not_lt_zero n)

/-- Different instances have different numbers. -/
theorem Kept.next_le {inUse : Nat → Option Nat} (h : Kept limit inUse s)
    (halive : s.status ≠ .terminated) : s.next ≤ limit := by
  choose epollFd hlt honly using h.epoll halive
  have hinj : Function.Injective fun n : Fin s.next =>
      (⟨epollFd n n.isLt, hlt n n.isLt⟩ : Fin limit) := by
    intro m n heq
    have hfd : epollFd m m.isLt = epollFd n n.isLt := congrArg Fin.val heq
    have hm := (honly m m.isLt _).2 rfl
    rw [hfd, (honly n n.isLt _).2 rfl] at hm
    exact Fin.ext (File.epoll.inj (Option.some.inj hm)).symm
  simpa using Fintype.card_le_of_injective _ hinj

/-- An ended process constructs nothing any more. -/
theorem next_le_run {inUse : Nat → Option Nat} {stdinExists : Bool} (havoid : ∀ ev ∈ es, ev.Avoids)
    (hrun : Transition.run (Processes.step limit) (.start inUse stdinExists) es = some s) :
    s.next ≤ limit := by
  refine Transition.history_run_of_forall (P := fun _ s => s.next ≤ limit) (Nat.zero_le _) ?_
    havoid hrun
  intro es s ev s' hes hrun ih hev hstep
  by_cases halive : s'.status = .terminated
  · have hnext := step_next hev hstep
    cases ev with
    | construct e targetStdinFd epollFd =>
        obtain ⟨-, x, server, hnew⟩ := step_construct hev hstep
        cases hnew.status.symm.trans halive
    | destruct n => exact hnext.trans_le ih
    | serverExits n => exact hnext.trans_le ih
    | waitpidReturns => exact hnext.trans_le ih
  · obtain ⟨hinv, hkept⟩ := kept_run hes hrun
    obtain ⟨hinv', hstepped⟩ := hinv.step hev hstep
    exact (hkept.step hinv hstepped).next_le halive

/-- **What executors leave behind.** No process constructs more executors than there are numbers.
When all of them are destroyed, the client holds what it held before them and exactly one epoll
instance of each that it has ever constructed. -/
theorem destroyed_leave_epolls (limit : Nat) (inUse : Nat → Option Nat) (stdinExists : Bool)
    (hrun : Transition.run (Processes.step limit) (.start inUse stdinExists) es = some s)
    (havoid : ∀ ev ∈ es, ev.Avoids) :
    es.countP Event.constructs ≤ limit ∧ (s.status = .running → s.executors = [] →
      (∀ fd k, s.client fd = some (.other k) ↔ inUse fd = some k) ∧
        (∀ n, (∃! fd, s.client fd = some (.epoll n)) ↔ n < es.countP Event.constructs) ∧
        ∀ fd file, s.client fd = some file → (∃ k, file = .other k) ∨ ∃ n, file = .epoll n) := by
  rw [← next_run havoid hrun]
  refine ⟨next_le_run havoid hrun, fun hstatus hnil => ?_⟩
  obtain ⟨hinv, hkept⟩ := kept_run havoid hrun
  have halive : s.status ≠ .terminated := by simp [hstatus]
  have haccounted : ∀ fd file, s.client fd = some file →
      (∃ k, file = .other k) ∨ ∃ n < s.next, file = .epoll n := by
    intro fd file hfile
    rcases hinv.accounted fd file hfile with hother | hepoll | ⟨x, hx, -⟩
    · exact Or.inl hother
    · exact Or.inr hepoll
    · rw [hnil] at hx
      cases hx
  refine ⟨hkept.other halive, fun n => ⟨?_, fun hn => ?_⟩, fun fd file hfile => ?_⟩
  · rintro ⟨fd, hfile, -⟩
    rcases haccounted fd _ hfile with ⟨k, hk⟩ | ⟨m, hm, heq⟩
    · cases hk
    · exact File.epoll.inj heq ▸ hm
  · rcases hkept.epoll halive n hn with ⟨fd, -, honly⟩
    exact ⟨fd, (honly fd).2 rfl, fun fd' hfile => (honly fd').1 hfile⟩
  · rcases haccounted fd file hfile with hother | ⟨n, -, hepoll⟩
    · exact Or.inl hother
    · exact Or.inr ⟨n, hepoll⟩

/-! ### One executor after the other -/

/-- The lowest numbers where the first executor has left the number 6. -/
def laterEnds : PipeName → Ends
  | .toForkServer => ⟨3, 4⟩
  | .fromForkServer => ⟨5, 7⟩
  | .targetStdout => ⟨8, 9⟩
  | .targetStderr => ⟨10, 11⟩

def oneAfterTheOther : List Event :=
  [.construct (lowestEnds 3) 3 6, .destruct 0, .serverExits 0, .waitpidReturns,
    .construct laterEnds 3 7, .destruct 1, .serverExits 1, .waitpidReturns]

theorem oneAfterTheOther_leaves_two :
    ∃ s, Transition.run (Processes.step 256) (.start (firstOpen 3) false) oneAfterTheOther =
        some s ∧
      (∀ fd k, s.client fd = some (.other k) ↔ firstOpen 3 fd = some k) ∧
      (∃! fd, s.client fd = some (.epoll 0)) ∧ ∃! fd, s.client fd = some (.epoll 1) := by
  have hends : (Transition.run (Processes.step 256) (.start (firstOpen 3) false)
      oneAfterTheOther).map (fun s => (s.status, s.executors.length)) = some (.running, 0) := by
    decide +kernel
  rcases Option.map_eq_some_iff.1 hends with ⟨s, hrun, heq⟩
  have hstatus : s.status = .running := congrArg Prod.fst heq
  have hnil : s.executors = [] := List.length_eq_zero_iff.1 (congrArg Prod.snd heq)
  have havoid : ∀ ev ∈ oneAfterTheOther, ev.Avoids := by
    simp [oneAfterTheOther, Event.Avoids, lowestEnds, laterEnds, fixedNumbers, FORKSRV_FD_READ,
      FORKSRV_FD_WRITE]
  obtain ⟨hother, hepoll, -⟩ :=
    (destroyed_leave_epolls 256 (firstOpen 3) false hrun havoid).2 hstatus hnil
  exact ⟨s, hrun, hother, (hepoll 0).2 (by decide), (hepoll 1).2 (by decide)⟩

end Runs

end Lifetimes
end Utils
end FuzzufCc
