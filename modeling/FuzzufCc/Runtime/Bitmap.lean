import FuzzufCc.Passes.Coverage

/-!
# Bitmap — the runtime behind the instrumented code

`features/bitmap/bitmap-llvm-rt.o.c` owns the two globals of the inserted code.  Before
initialisation the map is an array of the program; initialisation replaces it by the shared memory
segment named in the environment, whatever the size of that segment.
-/

namespace FuzzufCc

open Libc IR AFLCoverage

namespace Runtime

/-- The memory objects of an instrumented process: the arrays of the two runtimes and the attached
segments. -/
inductive Object
  | bitmapAreaInitial
  | ijonAreaInitial
  | ijonMaxInitial
  | segment (id : BitVec 32)
  deriving DecidableEq, Repr

/-- The ids for which `shmat` succeeds. -/
abbrev Segments := BitVec 32 → Bool

namespace Bitmap

def SHM_ENV_VAR := "__AFL_SHM_ID"
def DEFER_ENV_VAR := "__AFL_DEFER_FORKSRV"

def MAP_SIZE_POW2 : Nat := 16
def MAP_SIZE : Nat := 1 <<< MAP_SIZE_POW2

/-- A process, as far as the instrumentation sees it. -/
structure Process where
  state : State Object
  initDone : Bool

/-- The same process with another memory. -/
def Process.withMem (p : Process) (mem : Mem Object) : Process :=
  { p with state := { p.state with mem := mem } }

theorem Process.withMem_ready {p : Process} {area : Ptr Object} {prev : BitVec 32}
    (h : Ready p.state area prev) (mem : Mem Object) : Ready (p.withMem mem).state area prev :=
  ⟨h.area, h.prev⟩

/-- The image of the program: the map is `__bitmap_area_initial`. -/
def image (mem : Mem Object) : Process where
  state := startState mem ⟨.bitmapAreaInitial, 0⟩
  initDone := false

/-- `__bitmap_map_shm`; `none` is `_exit(1)`. -/
def mapShm (env : Env) (segments : Segments) (s : State Object) : Option (State Object) :=
  match env SHM_ENV_VAR with
  | none => some s
  | some idStr =>
      let shmId := atoi idStr.toList
      if segments shmId then
        let area : Ptr Object := ⟨.segment shmId, 0⟩
        some ((s.setGlobal areaPtrValname (.ptr area)).storeByte area 1)
      else
        none

/-- `__bitmap_manual_init`. -/
def manualInit (env : Env) (segments : Segments) (p : Process) : Option Process :=
  if p.initDone then some p
  else (mapShm env segments p.state).map fun s => { state := s, initDone := true }

theorem manualInit_of_done {env : Env} {segments : Segments} {p : Process} (h : p.initDone = true) :
    manualInit env segments p = some p := by
  simp [manualInit, h]

theorem manualInit_of_not_done {env : Env} {segments : Segments} {p : Process}
    (h : p.initDone = false) : manualInit env segments p =
      (mapShm env segments p.state).map fun s => { state := s, initDone := true } := by
  simp [manualInit, h]

/-- `__bitmap_auto_init`, the constructor. -/
def autoInit (env : Env) (segments : Segments) (p : Process) : Option Process :=
  if (env DEFER_ENV_VAR).isSome then some p else manualInit env segments p

end Bitmap
end Runtime
end FuzzufCc
