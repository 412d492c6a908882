import FuzzufCc.ForkServer.Protocol
import FuzzufCc.Lib.RegularFile
import FuzzufCc.Lib.Transition
import FuzzufCc.Utils.SystemError
import Mathlib.Data.BitVec

/-!
# Stdin — the file through which the PUT gets its test case

`Executor::WriteTestcaseToStdin` writes over the file of the test case before, and cuts the file to
the length of the new one.  It tells a failed `write` from a successful one, but not a short one
from a complete one.
-/

namespace FuzzufCc
namespace Utils

open ForkServer Transition

/-- A call of `WriteTestcaseToStdin` and what its system calls do: fail with a value of `errno`, or
succeed, `write` with any prefix of the test case. -/
structure StdinCall where
  testcase : List Byte
  lseek : Except Int Unit
  write : Except Int (Fin (testcase.length + 1))
  ftruncate : Except Int Unit

/-- The file, and the test case with which the last call returned, unless it threw. -/
structure StdinFile where
  file : RegularFile Byte
  returned : Option (List Byte)

/-- `Executor::WriteTestcaseToStdin`: whether it throws, and the file. -/
def writeTestcaseToStdin (file : RegularFile Byte) (c : StdinCall) :
    Except SystemError Unit × RegularFile Byte :=
  match c.lseek with
  | .error e =>
      (.error (errnoToSystemError e
        "Executor::WriteTestcaseToStdin : Unable to lseek stdin"), file)
  | .ok () =>
      let file := file.seek 0
      match c.write with
      | .error e =>
          (.error (errnoToSystemError e
            "Executor::WriteTestcaseToStdin : Unable to write stdin"), file)
      | .ok n =>
          let file := file.write (c.testcase.take n)
          match c.ftruncate with
          | .error e =>
              (.error (errnoToSystemError e
                "Executor::WriteTestcaseToStdin : Unable to ftruncate stdin"), file)
          | .ok () => (.ok (), file.truncate c.testcase.length)

/-- No system call of the call fails, and `write` stores `n` bytes. -/
structure StdinCall.Stores (c : StdinCall) (n : Fin (c.testcase.length + 1)) : Prop where
  lseek : c.lseek = .ok ()
  write : c.write = .ok n
  ftruncate : c.ftruncate = .ok ()

theorem StdinCall.Stores.eq {c : StdinCall} {n : Fin (c.testcase.length + 1)} (h : c.Stores n)
    (file : RegularFile Byte) :
    writeTestcaseToStdin file c =
      (.ok (), ((file.seek 0).write (c.testcase.take n)).truncate c.testcase.length) := by
  simp only [writeTestcaseToStdin, h.lseek, h.write, h.ftruncate]

/-- A call that returns has no failed system call. -/
theorem stores_of_ok {file : RegularFile Byte} {c : StdinCall}
    (h : (writeTestcaseToStdin file c).1 = .ok ()) : ∃ n, c.Stores n := by
  rcases hlseek : c.lseek with e | ⟨⟩
  · simp [writeTestcaseToStdin, hlseek] at h
  · rcases hwrite : c.write with e | n
    · simp [writeTestcaseToStdin, hlseek, hwrite] at h
    · rcases hftruncate : c.ftruncate with e | ⟨⟩
      · simp [writeTestcaseToStdin, hlseek, hwrite, hftruncate] at h
      · exact ⟨n, hlseek, hwrite, hftruncate⟩

namespace StdinFile

/-- The file of an executor, with any content from before. -/
def start (content : List Byte) (offset : Nat) : StdinFile where
  file := ⟨content, offset⟩
  returned := none

/-- The file behind a call. -/
def after (s : StdinFile) (c : StdinCall) : StdinFile where
  file := (writeTestcaseToStdin s.file c).2
  returned := (writeTestcaseToStdin s.file c).1.toOption.map fun _ => c.testcase

def step (s : StdinFile) (c : StdinCall) : Option StdinFile :=
  some (s.after c)

/-- If the last call has returned, the file holds its test case and nothing else. -/
def HoldsTestcase (s : StdinFile) : Prop :=
  ∀ testcase, s.returned = some testcase → s.file.content = testcase

/-- A call that returns stores all of the test case, or the file holds behind the stored prefix what
is missing of it, zeros included where the file ends earlier. -/
def RestInPlace (s : StdinFile) (c : StdinCall) : Prop :=
  ∀ n, c.Stores n →
    (s.file.content.drop n).takeD (c.testcase.length - n) 0 = c.testcase.drop n

variable {s s' : StdinFile}

theorem holdsTestcase_step {c : StdinCall} :
    s.step c = some s' → (s'.HoldsTestcase ↔ s.RestInPlace c) := by
  intro h
  obtain rfl : s.after c = s' := Option.some.inj h
  cases hresult : (writeTestcaseToStdin s.file c).1 with
  | error e =>
      -- the call throws, and promises nothing
      refine iff_of_true (fun testcase ht => ?_) fun n hn => ?_
      · simp [after, hresult, Except.toOption] at ht
      · rw [hn.eq] at hresult
        cases hresult
  | ok u =>
      obtain ⟨n, hn⟩ := stores_of_ok hresult
      have honly : s.RestInPlace c ↔
          (s.file.content.drop n).takeD (c.testcase.length - n) 0 = c.testcase.drop n := by
        constructor
        · intro h
          exact h n hn
        · intro h m hm
          obtain rfl : n = m := Except.ok.inj (hn.write.symm.trans hm.write)
          exact h
      rw [honly, ← s.file.overwrite_take_content_iff _ (Nat.lt_succ_iff.1 n.isLt)]
      simp [HoldsTestcase, after, hn.eq, Except.toOption]

theorem run_isSome (s : StdinFile) (cs : List StdinCall) : ∃ s', run step s cs = some s' := by
  induction cs generalizing s with
  | nil => exact ⟨s, rfl⟩
  | cons c cs ih => exact ih _

/-- **The stdin of the PUT.** Whatever the file held before, every call that returns leaves exactly
its test case in it, in all states of a run, exactly if no call returns behind a short `write` whose
missing rest was not in the file by chance. -/
theorem holdsTestcase_iff (content : List Byte) (offset : Nat) (cs : List StdinCall) :
    AllStates step HoldsTestcase (start content offset) cs ↔
      AllSteps step RestInPlace (start content offset) cs := by
  obtain ⟨s, hrun⟩ := run_isSome (start content offset) cs
  refine allStates_iff_allSteps (fun testcase ht => (by cases ht)) ?_ hrun
  intro _ t c t' _ hstep _
  exact holdsTestcase_step hstep

/-- A `write` that stores everything leaves no rest. -/
theorem restInPlace_of_complete {c : StdinCall} (h : ∀ n, c.Stores n → n.val = c.testcase.length) :
    s.RestInPlace c := by
  intro n hn
  rw [h n hn, Nat.sub_self, List.drop_length]
  rfl

end StdinFile

/-! ### A disk that is full -/

/-- Two test cases, of whose second one `write` stores a single byte. -/
def fullDisk : List StdinCall :=
  [⟨[65, 66, 67], .ok (), .ok ⟨3, by decide⟩, .ok ()⟩,
    ⟨[97, 98], .ok (), .ok ⟨1, by decide⟩, .ok ()⟩]

/-- The second byte is left over from the first test case. -/
theorem fullDisk_mixes :
    ∃ s, run StdinFile.step (.start [] 0) fullDisk = some s ∧ s.returned = some [97, 98] ∧
      s.file.content = [97, 66] ∧
      ¬AllStates StdinFile.step StdinFile.HoldsTestcase (.start [] 0) fullDisk := by
  obtain ⟨s, hrun, hreturned, hcontent⟩ :
      ∃ s, run StdinFile.step (.start [] 0) fullDisk = some s ∧ s.returned = some [97, 98] ∧
        s.file.content = [97, 66] := ⟨_, rfl, rfl, rfl⟩
  refine ⟨s, hrun, hreturned, hcontent, fun hall => ?_⟩
  have heq := hall.last hrun _ hreturned
  rw [hcontent] at heq
  exact absurd heq (by decide)

end Utils
end FuzzufCc
