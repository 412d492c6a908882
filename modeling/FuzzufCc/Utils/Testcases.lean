import FuzzufCc.ForkServer.Reports
import FuzzufCc.Utils.Calls
import FuzzufCc.Utils.Stdin

/-!
# Testcases — which test case a PUT reads

The executor writes a test case into a file with three system calls before it asks for the
execution, and the PUT opens that file as its standard input and reads it in pieces.  A `Feed` is a
`World` with this file.  Everything takes turns in any order, and two more histories are kept that
no step reads: the test cases of the calls and what each PUT has read.
-/

namespace FuzzufCc
namespace Utils

open ForkServer Transition

/-! ## The file and its readers -/

/-- `target_stdin_path`, as the executor composes it. -/
def targetStdinPath (executorId : BitVec 64) : String :=
  "/dev/shm/fuzzuf-cc.forkserver.executor_id-" ++ toString executorId.toNat ++ ".stdin"

theorem append_dot_stdin (p : String) : p ++ ".stdin" = p ++ "." ++ "stdin" := by
  have hname : "." ++ "stdin" = ".stdin" := by decide
  have hassoc : p ++ "." ++ "stdin" = p ++ ("." ++ "stdin") := String.append_assoc
  exact (hassoc.trans (congrArg _ hname)).symm

/-- The executor and the fork server name the same file. -/
theorem targetStdinPath_eq (executorId : BitVec 64) :
    targetStdinPath executorId = stdxxxFilePath executorId "stdin" := by
  unfold targetStdinPath stdxxxFilePath
  exact append_dot_stdin _

/-- The next system call of `WriteTestcaseToStdin`. -/
inductive Writing
  | write (testcase : List Byte)
  | ftruncate (testcase : List Byte)
  deriving DecidableEq, Repr

/-- What a PUT has read of its standard input, and whether it has seen the end. -/
structure Input where
  bytes : List Byte
  atEnd : Bool

/-- `read` of `n` bytes from a file, behind what was read before. -/
def Input.read (content : List Byte) (n : Nat) (input : Input) : Input :=
  let data := (content.drop input.bytes.length).take n
  { bytes := input.bytes ++ data
    atEnd := input.atEnd || (n != 0 && data.isEmpty) }

structure Feed where
  world : World
  path : String
  file : RegularFile Byte
  writing : Option Writing
  testcases : List (List Byte)
  inputs : List Input

inductive FeedEvent
  -- `operator()` is called, and `lseek` succeeds
  | lseek (testcase : List Byte)
  -- `write` stores `n` bytes
  | write (n : Nat)
  | ftruncate
  | world (e : WorldEvent)
  | putReads (n : Nat)
  deriving DecidableEq, Repr

namespace Feed

/-- An executor whose file has any content from before. -/
def start (pid : Int) (fds : FdTable) (ignored : Bool) (executorId : BitVec 64)
    (file : RegularFile Byte) : Feed where
  world := World.start pid fds ignored executorId
  path := targetStdinPath executorId
  file := file
  writing := none
  testcases := []
  inputs := []

variable (s : Feed)

/-- The code of a PUT runs, with the file as its standard input. -/
def putReadsFile : Bool :=
  s.world.session.system.child.any fun c => c.ended.isNone &&
    c.put.start.fds.any fun t => t.get 0 == some (.opened s.path .readOnly)

/-- The inputs of the PUTs that a step forks. -/
def opens : WorldEvent → List Input
  | .server (.fork _ _) => [⟨[], false⟩]
  | _ => []

def step : FeedEvent → Option Feed
  | .lseek testcase =>
      if s.writing = none ∧ s.world.executor.control = .idle then
        some { s with file := s.file.seek 0, writing := some (.write testcase) }
      else none
  | .write n =>
      match s.writing with
      | some (.write testcase) =>
          if n ≤ testcase.length then
            some { s with
              file := s.file.write (testcase.take n)
              writing := some (.ftruncate testcase) }
          else none
      | _ => none
  | .ftruncate =>
      match s.writing with
      | some (.ftruncate testcase) =>
          (s.world.step (.call testcase)).map fun world =>
            { s with
              world := world
              file := s.file.truncate testcase.length
              writing := none
              testcases := s.testcases ++ [testcase] }
      | _ => none
  | .world (.call _) => none
  | .world e =>
      (s.world.step e).map fun world => { s with world := world, inputs := s.inputs ++ opens e }
  | .putReads n =>
      if s.putReadsFile then
        some { s with inputs := s.inputs.modify (s.inputs.length - 1) (Input.read s.file.content n) }
      else none

end Feed

/-- No system call of the executor, the server or a child fails. -/
def FeedEvent.callsSucceed : FeedEvent → Bool
  | .world e => e.callsSucceed
  | _ => true

def Writing.storedBy (n : Nat) : Writing → Bool
  | .write testcase => n == testcase.length
  | .ftruncate _ => true

/-- A `write` of a test case stores all of it. -/
def Feed.writesAll (s : Feed) : FeedEvent → Bool
  | .write n => s.writing.all (Writing.storedBy n)
  | _ => true

/-- The cases of `Feed.step`, each with what it requires. -/
inductive FeedStep (s : Feed) : FeedEvent → Feed → Prop
  | lseek {testcase : List Byte} : s.writing = none → s.world.executor.control = .idle →
      FeedStep s (.lseek testcase)
        { s with file := s.file.seek 0, writing := some (.write testcase) }
  | write {testcase : List Byte} {n : Nat} : s.writing = some (.write testcase) →
      FeedStep s (.write n) { s with
        file := s.file.write (testcase.take n)
        writing := some (.ftruncate testcase) }
  | ftruncate {testcase : List Byte} {world : World} : s.writing = some (.ftruncate testcase) →
      s.world.step (.call testcase) = some world →
      FeedStep s .ftruncate { s with
        world := world
        file := s.file.truncate testcase.length
        writing := none
        testcases := s.testcases ++ [testcase] }
  | world {e : WorldEvent} {world : World} : (∀ testcase, e ≠ .call testcase) →
      s.world.step e = some world →
      FeedStep s (.world e) { s with world := world, inputs := s.inputs ++ Feed.opens e }
  | putReads {n : Nat} : s.putReadsFile →
      FeedStep s (.putReads n) { s with
        inputs := s.inputs.modify (s.inputs.length - 1) (Input.read s.file.content n) }

namespace Feed

variable {s s' : Feed}

/-- **Inversion of a step.** -/
theorem step_cases {e : FeedEvent} : s.step e = some s' → FeedStep s e s' := by
  intro h
  cases e with
  | lseek testcase =>
      simp only [step] at h
      split_ifs at h with hidle
      cases h
      exact .lseek hidle.1 hidle.2
  | write n =>
      simp only [step] at h
      split at h
      case h_1 testcase hwriting =>
          split_ifs at h
          cases h
          exact .write hwriting
      case h_2 => cases h
  | ftruncate =>
      simp only [step] at h
      split at h
      case h_1 testcase hwriting =>
          rcases Option.map_eq_some_iff.1 h with ⟨world, hworld, rfl⟩
          exact .ftruncate hwriting hworld
      case h_2 => cases h
  | world e =>
      cases e with
      | call testcase => cases h
      | _ =>
          rcases Option.map_eq_some_iff.1 h with ⟨world, hworld, rfl⟩
          exact .world (by simp) hworld
  | putReads n =>
      simp only [step] at h
      split_ifs at h with hreads
      cases h
      exact .putReads hreads

/-! ## The PUT has the file -/

end Feed

/-- What the executor has asked for holds where an `ExecutePUT` is served. -/
theorem settings_of_executing {executorId : BitVec 64} {σ : Session} {done todo : List Call}
    {sts : List FinalStatus} {rest : List Call}
    (hat : Session.At { executorId := executorId } σ done todo sts)
    (hsent : σ.sent = .readStdin :: rest) (hexec : σ.system.control.Executing) :
    σ.system.settings.readStdin = true ∧ σ.system.settings.executorId = executorId := by
  -- `apply` changes neither of the two any more
  have hfold : ∀ (cs : List Call) (settings : RuntimeSettings), settings.readStdin = true →
      settings.executorId = executorId →
        (cs.foldl RuntimeSettings.apply settings).readStdin = true ∧
          (cs.foldl RuntimeSettings.apply settings).executorId = executorId := by
    intro cs
    induction cs with
    | nil => exact fun settings hread hid => ⟨hread, hid⟩
    | cons c cs ih =>
        intro settings hread hid
        refine ih _ ?_ ?_
        · cases c <;> simp [RuntimeSettings.apply, hread]
        · cases c <;> simp [RuntimeSettings.apply, hid]
  rcases Session.Awaits.executing hat.input hexec with ⟨cs, rfl⟩
  have hsplit := hat.sent.symm.trans hsent
  cases done with
  | nil => cases hsplit
  | cons c done =>
      obtain ⟨rfl, -⟩ := List.cons.inj hsplit
      rw [hat.settings, List.foldl_cons]
      exact hfold done _ rfl rfl

theorem FdTable.get_set_of_ne (t : FdTable) {fd fd' : Nat} (f : File) (h : fd' ≠ fd) :
    (t.set fd f).get fd' = t.get fd' := by
  have hcons : (t.set fd f).get fd' = (t.close fd).get fd' := by
    simp [FdTable.set, FdTable.get, List.lookup_cons, beq_eq_false_iff_ne.2 h]
  rw [hcons, FdTable.get_close_of_ne _ h]

theorem FdTable.lowestFree_ne_zero {t : FdTable} {f : File} (h : t.get 0 = some f) :
    t.lowestFree ≠ 0 := by
  intro hzero
  unfold FdTable.lowestFree at hzero
  cases hfind : (List.range (t.length + 1)).find? fun n => (t.get n).isNone with
  | none =>
      rw [hfind] at hzero
      obtain rfl : t = [] := List.length_eq_zero_iff.1 hzero
      cases h
  | some n =>
      rw [hfind] at hzero
      obtain rfl : n = 0 := hzero
      have hnone := List.find?_some hfind
      rw [h] at hnone
      cases hnone

/-- The streams that are attached later leave the standard input alone. -/
theorem attach_get_zero {settings : RuntimeSettings} {unopenable : List String} {name : String}
    {flags : OpenFlags} {fd : Nat} {t t' : FdTable} {f : File} (hfd : fd ≠ 0)
    (hzero : t.get 0 = some f) (h : attach settings unopenable name flags fd t = some t') :
    t'.get 0 = some f := by
  have hput := FdTable.lowestFree_ne_zero hzero
  simp only [attach] at h
  split at h
  · cases h
  · obtain rfl := Option.some.inj h
    rw [FdTable.dup2, FdTable.get_set_self]
    dsimp only
    rw [FdTable.get_set_of_ne _ _ hfd.symm, FdTable.get_set_of_ne _ _ hput.symm, hzero]

/-- A child that has attached its files reads the file as its standard input. -/
theorem putStart_stdin {settings : RuntimeSettings} {unopenable : List String}
    {sigalrm : Disposition} {lastTimeout : LastTimeout} {moves : Moves} {fds t : FdTable}
    (hread : settings.readStdin = true)
    (h : (putStart settings unopenable sigalrm lastTimeout moves fds).fds = some t) :
    t.get 0 = some (.opened (stdxxxFilePath settings.executorId "stdin") .readOnly) := by
  rcases Option.map_eq_some_iff.1 h with ⟨t₃, hattach, rfl⟩
  have hzero : t₃.get 0 =
      some (.opened (stdxxxFilePath settings.executorId "stdin") .readOnly) := by
    simp only [attachStdxxxFiles, hread, if_true, Option.bind_eq_bind] at hattach
    rcases Option.bind_eq_some_iff.1 hattach with ⟨t₁, hstdin, hattach⟩
    have hget := attach_get hstdin
    split at hattach
    · rcases Option.bind_eq_some_iff.1 hattach with ⟨t₂, hstdout, hstderr⟩
      exact attach_get_zero (by decide) (attach_get_zero (by decide) hget hstdout) hstderr
    · obtain rfl := Option.some.inj hattach
      exact hget
  rw [FdTable.get_close_of_ne _ (by decide), FdTable.get_close_of_ne _ (by decide), hzero]

namespace World

variable {w w' : World} {executorId : BitVec 64}

/-- The PUT has the file of the executor as its standard input. -/
def Attached (path : String) (w : World) : Prop :=
  ∀ c, w.session.system.child = some c → ∀ t, c.put.start.fds = some t →
    t.get 0 = some (.opened path .readOnly)

theorem fork_control {system system' : System} {pid : Int} {unopenable : List String}
    (h : system.step (.fork pid unopenable) = some system') : system.control = .fork := by
  simp only [System.step] at h
  split_ifs at h with hfork
  exact hfork.1

/-- The constructor has sent `ReadStdinCommand` before anything else. -/
theorem sent_step {e : WorldEvent} (hsent : ∃ rest, w.session.sent = .readStdin :: rest)
    (hstep : w.step e = some w') : ∃ rest, w'.session.sent = .readStdin :: rest := by
  rcases hsent with ⟨rest, hsent⟩
  cases step_cases hstep with
  | callForkServerAPI _ _ hsession =>
      obtain ⟨_, rfl⟩ := Session.send_eq_some.1 hsession
      exact ⟨rest ++ [.executePUT], by simp [hsent]⟩
  | server hsession =>
      rcases Session.server_eq_some.1 hsession with ⟨s, pipe, _, _, _, rfl⟩
      exact ⟨rest, hsent⟩
  | _ => exact ⟨rest, hsent⟩

theorem session_at {pid : Int} {fds : FdTable} {ignored : Bool} {es : List WorldEvent}
    (hok : ∀ e ∈ es, e.callsSucceed)
    (hrun : run step (start pid fds ignored executorId) es = some w) :
    w.session.system.control = .killed ∨
      ∃ done todo sts, Session.At { executorId := executorId } w.session done todo sts := by
  have hnofail : ∀ e ∈ SessionEvent.send .readStdin :: es.flatMap WorldEvent.toSession,
      e ≠ .server .fails := by
    intro e he
    rcases List.mem_cons.1 he with rfl | he
    · simp
    · rcases List.mem_flatMap.1 he with ⟨e', he', hmem⟩
      exact toSession_ne_fails (hok e' he') e hmem
  exact Session.inv_run hnofail (session_run hrun)

theorem Attached.step (hattached : Attached (stdxxxFilePath executorId "stdin") w)
    (hsent : ∃ rest, w.session.sent = .readStdin :: rest)
    (hat : ∃ done todo sts, Session.At { executorId := executorId } w.session done todo sts)
    {e : WorldEvent} (hstep : w.step e = some w') :
    Attached (stdxxxFilePath executorId "stdin") w' := by
  cases step_cases hstep with
  | callForkServerAPI _ _ hsession =>
      obtain ⟨_, rfl⟩ := Session.send_eq_some.1 hsession
      exact hattached
  | server hsession =>
      rcases Session.server_eq_some.1 hsession with ⟨s, pipe, hs, _, _, rfl⟩
      intro c hc t ht
      cases System.child_step hs hc with
      | forked he hnew =>
          subst he hnew
          -- the fork is part of an execution, so the settings are those asked for
          have hexec : w.session.system.control.Executing := fork_control hs ▸ trivial
          rcases hsent with ⟨rest, hsent⟩
          rcases hat with ⟨done, todo, sts, hat⟩
          rcases settings_of_executing hat hsent hexec with ⟨hread, hid⟩
          have hzero := putStart_stdin hread ht
          rwa [hid] at hzero
      | ended _ hchild _ hput _ => exact hattached _ hchild t (hput ▸ ht)
      | kept _ _ hchild hput _ => exact hattached _ hchild t (hput ▸ ht)
  | _ => exact hattached

variable {pid : Int} {fds : FdTable} {ignored : Bool} {es : List WorldEvent}

/-- **Standard input.** Every PUT of a run reads the file that the executor writes. -/
theorem attached_run (hok : ∀ e ∈ es, e.callsSucceed)
    (hrun : run step (start pid fds ignored executorId) es = some w) :
    w.session.system.control = .killed ∨ Attached (targetStdinPath executorId) w := by
  rw [targetStdinPath_eq]
  have hhistory : (∃ rest, w.session.sent = .readStdin :: rest) ∧
      (w.session.system.control = .killed ∨ Attached (stdxxxFilePath executorId "stdin") w) := by
    refine history_run_of_forall (P := fun _ w => (∃ rest, w.session.sent = .readStdin :: rest) ∧
      (w.session.system.control = .killed ∨ Attached (stdxxxFilePath executorId "stdin") w))
      ?_ ?_ hok hrun
    · refine ⟨⟨[], rfl⟩, Or.inr ?_⟩
      intro c hc
      cases hc
    · intro es w₁ e w₂ hok₁ hes ih _ he
      refine ⟨sent_step ih.1 he, ?_⟩
      rcases ih.2 with hkilled | hattached
      · exact Or.inl (killed_step hkilled he)
      · rcases session_at hok₁ hes with hkilled | hat
        · exact Or.inl (killed_step hkilled he)
        · exact Or.inr (hattached.step ih.1 hat he)
  exact hhistory.2

end World

/-! ## The invariant -/

/-- Every call has its test case, every PUT has read of its own one. -/
structure Fed (s : Feed) : Prop where
  inputs : s.inputs.length = s.world.puts.length
  testcases : s.testcases.length =
    s.world.results.length + (if s.world.executor.control = .idle then 0 else 1)
  -- the executor writes between two calls
  writing : s.writing ≠ none → s.world.executor.control = .idle
  seeked : ∀ testcase, s.writing = some (.write testcase) → s.file.offset = 0
  written : ∀ testcase, s.writing = some (.ftruncate testcase) →
    (s.file.truncate testcase.length).content = testcase
  holds : s.world.executor.control ≠ .idle →
    s.testcases[s.world.results.length]? = some s.file.content
  read : ∀ (k : Nat) input, s.inputs[k]? = some input → ∃ testcase : List Byte,
    s.testcases[k]? = some testcase ∧ input.bytes <+: testcase ∧
      (input.atEnd → input.bytes = testcase)

/-- What a `read` adds is the next part of the file, and nothing is added at its end only. -/
theorem Input.read_isPrefix {content : List Byte} {input : Input} (n : Nat)
    (hpre : input.bytes <+: content) (hend : input.atEnd → input.bytes = content) :
    (input.read content n).bytes <+: content ∧
      ((input.read content n).atEnd → (input.read content n).bytes = content) := by
  rcases hpre with ⟨rest, rfl⟩
  have hdrop : (input.bytes ++ rest).drop input.bytes.length = rest := List.drop_left
  simp only [Input.read, hdrop]
  constructor
  · exact (List.prefix_append_right_inj _).2 (List.take_prefix n rest)
  · intro hatEnd
    rcases Bool.or_eq_true_iff.1 hatEnd with hold | hnew
    · have hnil : rest = [] := by simpa using hend hold
      simp [hnil]
    · have hnil : rest = [] := by
        simp at hnew
        exact hnew.2.resolve_left hnew.1
      simp [hnil]

namespace Fed

variable {s : Feed} {disposition : Disposition}

theorem lseek (h : Fed s) (testcase : List Byte) (hidle : s.world.executor.control = .idle) :
    Fed { s with file := s.file.seek 0, writing := some (.write testcase) } where
  inputs := h.inputs
  testcases := h.testcases
  writing := fun _ => hidle
  seeked := fun _ _ => rfl
  written := by
    intro testcase' hwriting
    cases hwriting
  holds := fun hbusy => absurd hidle hbusy
  read := h.read

theorem write (h : Fed s) {testcase : List Byte} (hwriting : s.writing = some (.write testcase)) :
    Fed { s with
      file := s.file.write (testcase.take testcase.length)
      writing := some (.ftruncate testcase) } := by
  have hidle := h.writing (by simp [hwriting])
  have hseek : s.file.seek 0 = s.file := by
    rw [RegularFile.seek, ← h.seeked testcase hwriting]
  refine ⟨h.inputs, h.testcases, fun _ => hidle, ?_, ?_, fun hbusy => absurd hidle hbusy, h.read⟩
  · intro testcase' hwriting'
    cases hwriting'
  · intro testcase' hwriting'
    obtain rfl : testcase = testcase' := by simpa using hwriting'
    dsimp only
    rw [List.take_length, ← hseek, RegularFile.overwrite_content s.file le_rfl, Nat.sub_self]
    exact List.append_nil testcase

theorem ftruncate (h : Fed s) {testcase : List Byte} {world : World}
    (hwriting : s.writing = some (.ftruncate testcase))
    (hworld : s.world.step (.call testcase) = some world) :
    Fed { s with
      world := world
      file := s.file.truncate testcase.length
      writing := none
      testcases := s.testcases ++ [testcase] } := by
  have hidle := h.writing (by simp [hwriting])
  have hlen := h.testcases
  rw [hidle, if_pos rfl, Nat.add_zero] at hlen
  cases World.step_cases hworld with
  | call _ =>
      refine ⟨h.inputs, by simp [hlen], fun hne => absurd rfl hne, ?_, ?_, ?_, ?_⟩
      · intro testcase' hnone
        cases hnone
      · intro testcase' hnone
        cases hnone
      · intro _
        dsimp only
        rw [h.written testcase hwriting, ← hlen]
        exact List.getElem?_concat_length
      · intro k input hinput
        rcases h.read k input hinput with ⟨old, hold, hpre, hend⟩
        refine ⟨old, ?_, hpre, hend⟩
        rw [List.getElem?_append_left (List.getElem?_eq_some_iff.1 hold).1]
        exact hold

/-- A step that neither begins nor ends a call, nor forks. -/
theorem quiet (h : Fed s) {world : World}
    (hidle : world.executor.control = .idle ↔ s.world.executor.control = .idle)
    (hresults : world.results = s.world.results)
    (hputs : world.puts.length = s.world.puts.length) : Fed { s with world := world } where
  inputs := h.inputs.trans hputs.symm
  testcases := by
    rw [hresults]
    simpa only [hidle] using h.testcases
  writing := fun hwriting => hidle.2 (h.writing hwriting)
  seeked := h.seeked
  written := h.written
  holds := by
    intro hbusy
    rw [hresults]
    exact h.holds fun hold => hbusy (hidle.2 hold)
  read := h.read

end Fed

namespace World

variable {w : World} {disposition : Disposition}

/-- While there is a PUT, it is the last one, and its call is under way. -/
theorem Live.put_current (hlive : Live w) (hcounts : Session.Counts w.session)
    (hsystem : w.session.system.Inv disposition) (hchild : w.session.system.child ≠ none) :
    w.executor.control.looping ∧ w.puts.length = w.results.length + 1 := by
  have hput : w.session.system.control.HasPut := by
    by_contra hnot
    exact hchild (hsystem.noChild ⟨hcounts.serving hlive.opened, hnot⟩)
  rcases hlive.awaited_of_executing hcounts hput.executing with ⟨hloop, _, _, hlen⟩
  exact ⟨hloop, by rw [hlive.puts, hcounts.hasPut hput, hlen]⟩

/-- A fork is the first one of its call. -/
theorem Live.fork_current (hlive : Live w) (hcounts : Session.Counts w.session)
    (hfork : w.session.system.control = .fork) :
    w.executor.control.looping ∧ w.puts.length = w.results.length := by
  have hexec : w.session.system.control.Executing := hfork ▸ trivial
  rcases hlive.awaited_of_executing hcounts hexec with ⟨hloop, _, _, hlen⟩
  have hidle : w.session.system.control.Idle := by
    rw [hfork]
    exact ⟨trivial, fun h => h⟩
  have hcount := hcounts.idle hidle (by simp [hfork])
  exact ⟨hloop, by rw [hlive.puts, hcount, hlen]⟩

theorem ne_idle_of_looping (h : w.executor.control.looping) : w.executor.control ≠ .idle := by
  intro hidle
  rw [hidle] at h
  cases h

end World

namespace Fed

variable {s : Feed} {disposition : Disposition}

theorem putReads (h : Fed s) (hlive : World.Live s.world)
    (hcounts : Session.Counts s.world.session) (hsystem : s.world.session.system.Inv disposition)
    (hreads : s.putReadsFile) (n : Nat) :
    Fed { s with
      inputs := s.inputs.modify (s.inputs.length - 1) (Input.read s.file.content n) } := by
  have hchild : s.world.session.system.child ≠ none := by
    intro hnone
    simp [Feed.putReadsFile, hnone] at hreads
  rcases hlive.put_current hcounts hsystem hchild with ⟨hloop, hputs⟩
  have hholds := h.holds (World.ne_idle_of_looping hloop)
  have hinputs := h.inputs
  refine ⟨by simpa using hinputs, h.testcases, h.writing, h.seeked, h.written, h.holds, ?_⟩
  intro k input hinput
  by_cases hk : k = s.inputs.length - 1
  · -- the last PUT, which reads the file as it is
    subst hk
    rw [List.getElem?_modify_eq] at hinput
    rcases Option.map_eq_some_iff.1 hinput with ⟨old, hold, rfl⟩
    rcases h.read _ old hold with ⟨testcase, htestcase, hpre, hend⟩
    have hindex : s.inputs.length - 1 = s.world.results.length := by omega
    rw [hindex] at htestcase ⊢
    obtain rfl : testcase = s.file.content := Option.some.inj (htestcase.symm.trans hholds)
    exact ⟨_, htestcase, Input.read_isPrefix n hpre hend⟩
  · rw [List.getElem?_modify_ne _ _ (Ne.symm hk)] at hinput
    exact h.read k input hinput

/-- A new PUT has read nothing yet, and the file holds the test case of its call. -/
theorem fork (h : Fed s) (hlive : World.Live s.world)
    (hcounts : Session.Counts s.world.session) (hfork : s.world.session.system.control = .fork)
    {session : Session} {bytes : List Byte} {output : Output} :
    Fed { s with
      world := { s.world with
        session := session
        fromForkServer := bytes
        puts := s.world.puts ++ [output] }
      inputs := s.inputs ++ [⟨[], false⟩] } := by
  rcases hlive.fork_current hcounts hfork with ⟨hloop, hputs⟩
  have hholds := h.holds (World.ne_idle_of_looping hloop)
  refine ⟨by simp [h.inputs], h.testcases, h.writing, h.seeked, h.written, h.holds, ?_⟩
  intro k input hinput
  rcases Nat.lt_trichotomy k s.inputs.length with hlt | heq | hgt
  · rw [List.getElem?_append_left hlt] at hinput
    exact h.read k input hinput
  · subst heq
    rw [List.getElem?_concat_length] at hinput
    obtain rfl := Option.some.inj hinput
    refine ⟨s.file.content, ?_, List.nil_prefix, fun hatEnd => (by cases hatEnd)⟩
    rw [h.inputs, hputs]
    exact hholds
  · have hnone : (s.inputs ++ [⟨[], false⟩])[k]? = none := by
      apply List.getElem?_eq_none
      rw [List.length_append]
      exact hgt
    cases hnone.symm.trans hinput

theorem world (h : Fed s) (hlive : World.Live s.world)
    (hcounts : Session.Counts s.world.session) {e : WorldEvent} {world : World}
    (hcall : ∀ testcase, e ≠ .call testcase) (hstep : s.world.step e = some world) :
    Fed { s with world := world, inputs := s.inputs ++ Feed.opens e } := by
  -- only a `fork` opens the file
  have hnil : Feed.opens e = [] → Fed { s with world := world } →
      Fed { s with world := world, inputs := s.inputs ++ Feed.opens e } := by
    intro hopens hquiet
    rw [hopens, List.append_nil]
    exact hquiet
  cases World.step_cases hstep with
  | call _ => exact absurd rfl (hcall _)
  | callForkServerAPI hcontrol _ _ =>
      exact hnil rfl (h.quiet (by simp [hcontrol, World.beginLoop]) rfl rfl)
  | epollInterrupted _ => exact hnil rfl (h.quiet Iff.rfl rfl rfl)
  | epollTimeout hcontrol _ _ =>
      have hbusy : s.world.executor.control ≠ .idle := by simp [hcontrol]
      have hlen := h.testcases
      rw [if_neg hbusy] at hlen
      exact hnil rfl ⟨h.inputs, by simp [hlen, World.finishCall], fun _ => rfl, h.seeked,
        h.written, fun hne => absurd rfl hne, h.read⟩
  | epollin hcontrol _ _ => exact hnil rfl (h.quiet (by simp [hcontrol]) rfl rfl)
  | epollhup _ _ _ _ => exact hnil rfl (h.quiet Iff.rfl rfl rfl)
  | readTarget hcontrol _ _ =>
      exact hnil rfl (h.quiet (by simp [hcontrol, World.readTarget]) rfl rfl)
  | readResponse hcontrol _ _ =>
      exact hnil rfl (h.quiet (by simp [hcontrol, World.readResponse]) rfl rfl)
  | putWrites _ => exact hnil rfl (h.quiet Iff.rfl rfl (by simp))
  | @server e session hsession =>
      rcases Session.server_eq_some.1 hsession with ⟨system, _, hsystem, _, _, _⟩
      cases e with
      | fork pid unopenable => exact h.fork hlive hcounts (World.fork_control hsystem)
      | _ => exact hnil rfl (h.quiet Iff.rfl rfl (by simp [World.forks]))

end Fed

/-! ## Runs -/

namespace Feed

variable {pid : Int} {fds : FdTable} {ignored : Bool} {executorId : BitVec 64}
  {file : RegularFile Byte} {s s' : Feed} {es : List FeedEvent}

/-- The executor with its file is one of the environments of the fork server. -/
theorem world_run (hok : ∀ e ∈ es, e.callsSucceed)
    (hrun : run step (start pid fds ignored executorId file) es = some s) :
    ∃ wes : List WorldEvent, (∀ e ∈ wes, e.callsSucceed) ∧
      run World.step (World.start pid fds ignored executorId) wes = some s.world := by
  refine history_run_of_forall (P := fun _ s =>
    ∃ wes : List WorldEvent, (∀ e ∈ wes, e.callsSucceed) ∧
      run World.step (World.start pid fds ignored executorId) wes = some s.world) ?_ ?_ hok hrun
  · exact ⟨[], by simp, rfl⟩
  · intro es s₁ e s₂ _ _ ih hlast he
    rcases ih with ⟨wes, hwes, hworld⟩
    have hsnoc : ∀ {e : WorldEvent} {world : World}, e.callsSucceed →
        s₁.world.step e = some world → ∃ wes : List WorldEvent, (∀ e ∈ wes, e.callsSucceed) ∧
          run World.step (World.start pid fds ignored executorId) wes = some world := by
      intro e world he hstep
      refine ⟨wes ++ [e], ?_, run_snoc_eq_some.2 ⟨_, hworld, hstep⟩⟩
      intro e' he'
      rcases List.mem_append.1 he' with hold | hnew
      · exact hwes e' hold
      · exact List.mem_singleton.1 hnew ▸ he
    cases step_cases he with
    | lseek _ _ => exact ⟨wes, hwes, hworld⟩
    | write _ => exact ⟨wes, hwes, hworld⟩
    | ftruncate _ hstep => exact hsnoc rfl hstep
    | world _ hstep => exact hsnoc hlast hstep
    | putReads _ => exact ⟨wes, hwes, hworld⟩

theorem start_fed : Fed (start pid fds ignored executorId file) where
  inputs := rfl
  testcases := rfl
  writing := fun h => absurd rfl h
  seeked := fun _ h => (by cases h)
  written := fun _ h => (by cases h)
  holds := fun h => absurd rfl h
  read := fun _ _ h => (by cases h)

theorem path_run (hrun : run step (start pid fds ignored executorId file) es = some s) :
    s.path = targetStdinPath executorId := by
  refine invariant_run (I := fun s => s.path = targetStdinPath executorId) ?_ rfl hrun
  intro s e s' hpath hstep
  cases step_cases hstep <;> exact hpath

theorem fed_step {disposition : Disposition} (h : Fed s) (hlive : World.Live s.world)
    (hcounts : Session.Counts s.world.session)
    (hsystem : s.world.session.system.Inv disposition) {e : FeedEvent} (he : s.writesAll e) :
    s.step e = some s' → Fed s' := by
  intro hstep
  cases step_cases hstep with
  | lseek _ hidle => exact h.lseek _ hidle
  | @write testcase n hwriting =>
      have hall : n = testcase.length := by
        simpa [writesAll, hwriting, Writing.storedBy] using he
      subst hall
      exact h.write hwriting
  | ftruncate hwriting hworld => exact h.ftruncate hwriting hworld
  | world hcall hworld => exact h.world hlive hcounts hcall hworld
  | putReads hreads => exact h.putReads hlive hcounts hsystem hreads _

theorem killed_step (hkilled : s.world.session.system.control = .killed) {e : FeedEvent} :
    s.step e = some s' → s'.world.session.system.control = .killed := by
  intro hstep
  cases step_cases hstep with
  | ftruncate _ hworld => exact World.killed_step hkilled hworld
  | world _ hworld => exact World.killed_step hkilled hworld
  | _ => exact hkilled

theorem fed_run (hok : ∀ e ∈ es, e.callsSucceed)
    (hwrites : AllSteps step (fun s e => s.writesAll e) (start pid fds ignored executorId file) es)
    (hrun : run step (start pid fds ignored executorId file) es = some s) :
    s.world.session.system.control = .killed ∨ Fed s := by
  refine history_run_of_forall (P := fun es s =>
    AllSteps step (fun s e => s.writesAll e) (start pid fds ignored executorId file) es →
      s.world.session.system.control = .killed ∨ Fed s) ?_ ?_ hok hrun hwrites
  · exact fun _ => Or.inr start_fed
  · intro es s₁ e s₂ hok₁ hes ih _ he hwrites
    rcases allSteps_snoc.1 hwrites with ⟨hwrites₁, hlast⟩
    rcases world_run hok₁ hes with ⟨wes, hwes, hworld⟩
    rcases ih hwrites₁ with hkilled | hfed
    · exact Or.inl (killed_step hkilled he)
    · rcases World.live_run hwes hworld with hkilled | hlive
      · exact Or.inl (killed_step hkilled he)
      · rcases World.session_facts hwes hworld with hkilled | ⟨hcounts, hsystem, _⟩
        · exact Or.inl (killed_step hkilled he)
        · exact Or.inr (fed_step hfed hlive hcounts hsystem (hlast s₁ hes) he)

/-- What the calls and the PUTs of an executor have to do with each other. -/
structure Matched (s : Feed) : Prop where
  -- a PUT reads its test case from the beginning, and all of it before the end
  inputs : ∀ (k : Nat) input, s.inputs[k]? = some input → ∃ testcase : List Byte,
    s.testcases[k]? = some testcase ∧ input.bytes <+: testcase ∧
      (input.atEnd → input.bytes = testcase)
  -- a result is about the PUT that has read the test case of the call
  results : ∀ (k : Nat) r, s.world.results[k]? = some r →
    ∃ (st : FinalStatus) (testcase : List Byte) (input : Input),
      s.world.session.system.statuses[k]? = some st ∧ r.response = st.response ∧
        s.world.puts[k]? = some r.output ∧ s.testcases[k]? = some testcase ∧
          s.inputs[k]? = some input
  attached : World.Attached s.path s.world
  -- while there is a PUT, nobody writes to its file
  still : s.world.session.system.child ≠ none → s.writing = none ∧
    s.testcases.getLast? = some s.file.content

theorem fed_matched {disposition : Disposition} (h : Fed s) (hlive : World.Live s.world)
    (hexact : World.Exact s.world) (hcounts : Session.Counts s.world.session)
    (hsystem : s.world.session.system.Inv disposition) (hattached : World.Attached s.path s.world) :
    Matched s where
  inputs := h.read
  results := by
    intro k r hr
    rcases hexact.results k r hr with ⟨st, hst, hresponse, hput⟩
    have hlen : k < s.inputs.length := by
      rw [h.inputs]
      exact (List.getElem?_eq_some_iff.1 hput).1
    have hinput : s.inputs[k]? = some s.inputs[k] := List.getElem?_eq_getElem hlen
    rcases h.read k _ hinput with ⟨testcase, htestcase, -⟩
    exact ⟨st, testcase, _, hst, hresponse, hput, htestcase, hinput⟩
  attached := hattached
  still := by
    intro hchild
    have hbusy := World.ne_idle_of_looping (hlive.put_current hcounts hsystem hchild).1
    have hlen := h.testcases
    rw [if_neg hbusy] at hlen
    constructor
    · by_contra hne
      exact hbusy (h.writing hne)
    · rw [List.getLast?_eq_getElem?, hlen]
      exact h.holds hbusy

/-- **Every PUT gets its test case.** In whatever order the executor writes, the server forks and
the PUTs read, the `k`-th call returns the result of a PUT that reads the `k`-th test case and
nothing else, also where the file has held a longer one before. -/
theorem run_matched (hok : ∀ e ∈ es, e.callsSucceed)
    (hwrites : AllSteps step (fun s e => s.writesAll e) (start pid fds ignored executorId file) es)
    (hrun : run step (start pid fds ignored executorId file) es = some s)
    (hserver : s.world.session.system.control ≠ .killed) : Matched s := by
  have hfed := (fed_run hok hwrites hrun).resolve_left hserver
  rcases world_run hok hrun with ⟨wes, hwes, hworld⟩
  have hlive := (World.live_run hwes hworld).resolve_left hserver
  have hexact := (World.run_exact hworld hwes hserver).1
  rcases (World.session_facts hwes hworld).resolve_left hserver with ⟨hcounts, hsystem, _⟩
  have hattached := (World.attached_run hwes hworld).resolve_left hserver
  rw [← path_run hrun] at hattached
  exact fed_matched hfed hlive hexact hcounts hsystem hattached

/-! ### A shorter test case behind a longer one -/

/-- Two calls; the first PUT reads a part of its test case and the second one all of it. -/
def twoTestcases : List FeedEvent :=
  [.lseek [65, 66, 67], .write 3, .ftruncate, .world .callForkServerAPI,
    .world (.server (.read [2, 0, 0, 0])), .world (.server (.read [4, 0, 0, 0])),
    .world (.server (.fork 100 [])), .putReads 2, .world (.server .succeeds),
    .world (.server .succeeds), .world (.server (.putEnds (.exited 0) false)),
    .world (.server .reaped), .world (.server .succeeds), .world (.epoll .fromForkServer),
    .world (.read 12), .world .epollTimeout,
    .lseek [97], .write 1, .ftruncate, .world .callForkServerAPI,
    .world (.server (.read [4, 0, 0, 0])), .world (.server (.fork 101 [])),
    .world (.server .succeeds), .putReads 4, .putReads 4]

theorem twoTestcases_matched :
    ∃ s, run step (start 50 clientFds false 1 ⟨[1, 2, 3, 4, 5], 2⟩) twoTestcases = some s ∧
      Matched s ∧ s.inputs = [⟨[65, 66], false⟩, ⟨[97], true⟩] ∧ s.file.content = [97] := by
  obtain ⟨s, hrun, hcontrol, hinputs, hfile⟩ : ∃ s,
      run step (start 50 clientFds false 1 ⟨[1, 2, 3, 4, 5], 2⟩) twoTestcases = some s ∧
        s.world.session.system.control = .sigaction ∧
        s.inputs = [⟨[65, 66], false⟩, ⟨[97], true⟩] ∧ s.file.content = [97] :=
    ⟨_, rfl, rfl, rfl, rfl⟩
  have hok : ∀ e ∈ twoTestcases, e.callsSucceed := by decide
  have hwrites : AllSteps step (fun s e => s.writesAll e)
      (start 50 clientFds false 1 ⟨[1, 2, 3, 4, 5], 2⟩) twoTestcases :=
    allSteps_iff_trace.2 (by decide)
  have hserver : s.world.session.system.control ≠ .killed := by simp [hcontrol]
  exact ⟨s, hrun, run_matched hok hwrites hrun hserver, hinputs, hfile⟩

end Feed

end Utils
end FuzzufCc
