import FuzzufCc.Lib.RelyGuarantee
import FuzzufCc.Runtime.Bitmap

/-!
# Campaign — one execution after the other

The fork server attaches the segment once, and each PUT is a copy of it.  The map collects what all
executions hit, while each of them starts from the previous location of the server.
-/

namespace FuzzufCc

open LLVM Libc IR AFLCoverage

namespace Runtime
namespace Campaign

/-- Shared memory, which a forked process does not have a copy of. -/
def shared : Object → Bool
  | .segment _ => true
  | _ => false

/-- An `ExecutePUT` whose PUT enters the blocks `bbs`, up to its end or to the signal that ends it:
the server keeps its own globals and memory. -/
def execute (code : BlockRef → List Inst) (server : State Object) (bbs : List BlockRef) :
    Option (State Object) :=
  (runBlocks code server bbs).map fun put =>
    server.withMem fun o => if shared o then put.mem o else server.mem o

variable {im : InstrumentationMethod} {um : UpdateMethod} {ids : IdMap}

/-- Updates of one object leave the others alone. -/
theorem foldl_bump_of_ne {O : Type} [DecidableEq O] {ps : List (Ptr O)} (m : Mem O) {o : O}
    (ho : ∀ p ∈ ps, o ≠ p.obj) : ps.foldl um.bump m o = m o := by
  funext a
  have hnot : Ptr.mk o a ∉ ps := fun hmem => ho _ hmem rfl
  rw [foldl_bump_apply, List.count_eq_zero_of_not_mem hnot]
  rfl

/-- **One execution.** It starts from the previous location of the server, whatever the executions
before it did. -/
theorem execute_spec {s : State Object} {id : BitVec 32} {prev : BitVec 32}
    (hs : Ready s ⟨.segment id, 0⟩ prev) (bbs : List BlockRef) :
    execute (instrumented im um ids) s bbs =
      some (s.withMem
        (((im.locationsFrom prev (idsOf ids bbs)).map (cell ⟨.segment id, 0⟩)).foldl um.bump
          s.mem)) := by
  rcases runBlocks_spec im um ids bbs hs with ⟨put, hrun, -, hmem⟩
  rw [execute, hrun, Option.map_some]
  congr 2
  funext o
  cases hshared : shared o with
  | true => rw [if_pos rfl, hmem]
  | false =>
      have hne : o ≠ Object.segment id := by
        rintro rfl
        cases hshared
      refine (foldl_bump_of_ne s.mem fun p hp => ?_).symm
      rcases List.mem_map.1 hp with ⟨loc, -, rfl⟩
      exact hne

/-- **All executions.** -/
theorem run_execute {s : State Object} {id : BitVec 32} {prev : BitVec 32}
    (hs : Ready s ⟨.segment id, 0⟩ prev) (runs : List (List BlockRef)) :
    Transition.run (execute (instrumented im um ids)) s runs =
      some (s.withMem
        (((runs.flatMap fun bbs => im.locationsFrom prev (idsOf ids bbs)).map
          (cell ⟨.segment id, 0⟩)).foldl um.bump s.mem)) := by
  induction runs generalizing s with
  | nil => rfl
  | cons bbs runs ih =>
      rw [Transition.run, execute_spec hs, Option.bind_some]
      have hs' : Ready (s.withMem (((im.locationsFrom prev (idsOf ids bbs)).map
          (cell ⟨.segment id, 0⟩)).foldl um.bump s.mem)) ⟨.segment id, 0⟩ prev :=
        ⟨hs.area, hs.prev⟩
      rw [ih hs', List.flatMap_cons, List.map_append, List.foldl_append]
      rfl

/-- The server after its constructor, with the segment of the environment attached. -/
theorem autoInit_ready {env : Env} {segments : Segments} {mem : Mem Object} {p : Bitmap.Process}
    {idStr : String} (henv : env Bitmap.SHM_ENV_VAR = some idStr)
    (hdefer : env Bitmap.DEFER_ENV_VAR = none)
    (hinit : Bitmap.autoInit env segments (Bitmap.image mem) = some p) :
    Ready p.state ⟨.segment (atoi idStr.toList), 0⟩ 0 ∧
      p.state.mem = mem.set ⟨.segment (atoi idStr.toList), 0⟩ 1 := by
  have hne : prevLocValname ≠ areaPtrValname := by decide
  simp only [Bitmap.autoInit, hdefer, Option.isSome_none, Bool.false_eq_true, if_false,
    Bitmap.manualInit, Bitmap.image, Bitmap.mapShm, henv] at hinit
  split at hinit
  · obtain rfl := Option.some.inj hinit
    refine ⟨⟨?_, ?_⟩, rfl⟩
    · simp
    · rw [State.storeByte_globals, State.setGlobal_globals_of_ne _ _ _ hne]
      rfl
  · cases hinit

/-- **A campaign.** Behind the constructor of the runtime, the map after any sequence of executions
holds, in each byte, the hits of all of them: an execution does not see the previous location of
another one, and the order of the executions does not matter. -/
theorem campaign_documented (im : InstrumentationMethod) (um : UpdateMethod) (ids : IdMap)
    {env : Env} {segments : Segments} {mem : Mem Object}
    {p : Bitmap.Process} {idStr : String} (henv : env Bitmap.SHM_ENV_VAR = some idStr)
    (hdefer : env Bitmap.DEFER_ENV_VAR = none)
    (hinit : Bitmap.autoInit env segments (Bitmap.image mem) = some p)
    (runs : List (List BlockRef)) :
    ∃ s, Transition.run (execute (instrumented im um ids)) p.state runs = some s ∧
      (∀ o off, (s.mem o off).toNat =
        um.after (mem.set ⟨.segment (atoi idStr.toList), 0⟩ 1 o off).toNat
          (((runs.flatMap fun bbs => im.locations (idsOf ids bbs)).map
            (cell ⟨.segment (atoi idStr.toList), 0⟩)).count ⟨o, off⟩)) ∧
      ∀ runs', runs.Perm runs' →
        Transition.run (execute (instrumented im um ids)) p.state runs' = some s := by
  obtain ⟨hready, hmem⟩ := autoInit_ready henv hdefer hinit
  refine ⟨_, run_execute hready runs, fun o off => ?_, fun runs' hperm => ?_⟩
  · simp only [locationsFrom_zero, State.withMem_mem, hmem]
    rw [foldl_bump_apply, UpdateMethod.iterate_next_toNat]
  · rw [run_execute hready runs']
    congr 2
    funext o off
    have hhits := (hperm.flatMap_right fun bbs => im.locationsFrom 0 (idsOf ids bbs)).map
      (cell (⟨.segment (atoi idStr.toList), 0⟩ : Ptr Object))
    rw [foldl_bump_apply, foldl_bump_apply, hhits.count_eq]

/-- The segment has the id 7. -/
def segmentSeven : Env := fun key =>
  if key = Bitmap.SHM_ENV_VAR then some "7" else none

/-- Two executions of a program of two blocks: byte 0 was set by the attachment. -/
theorem twoExecutions_documented :
    ∃ p s, Bitmap.autoInit segmentSeven (fun id => id == 7) (Bitmap.image fun _ _ => 0) = some p ∧
      Transition.run (execute (instrumented .hashedEdge .naive [(⟨0, 0⟩, 6), (⟨0, 1⟩, 3)])) p.state
        [[⟨0, 0⟩, ⟨0, 1⟩], [⟨0, 0⟩]] = some s ∧
      (s.mem (.segment 7) 6).toNat = 2 ∧ (s.mem (.segment 7) 0).toNat = 2 := by
  have henv : segmentSeven Bitmap.SHM_ENV_VAR = some "7" := rfl
  have hid : atoi "7".toList = 7 := by decide
  have hinit : Bitmap.autoInit segmentSeven (fun id => id == 7) (Bitmap.image fun _ _ => 0) =
      some _ := rfl
  rcases campaign_documented .hashedEdge .naive [(⟨0, 0⟩, 6), (⟨0, 1⟩, 3)] henv rfl hinit
    [[⟨0, 0⟩, ⟨0, 1⟩], [⟨0, 0⟩]] with ⟨s, hrun, hcounts, -⟩
  refine ⟨_, s, hinit, hrun, ?_, ?_⟩
  · rw [hcounts, hid]
    decide
  · rw [hcounts, hid]
    decide

end Campaign
end Runtime
end FuzzufCc
