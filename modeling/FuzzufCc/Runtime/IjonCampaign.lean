import FuzzufCc.Runtime.Campaign
import FuzzufCc.Runtime.IjonRegions

/-!
# IjonCampaign — the regions after many executions

`__ijon_state` and `__ijon_state_log` are thread-local, so each PUT starts with those of the server,
while the counters and the max slots lie in the segment that all of them share.
-/

namespace FuzzufCc

open Libc IR Transition

namespace Runtime
namespace Ijon

open Campaign (shared)

/-- A PUT that makes the calls `cs`, up to its end or to the signal that ends it. -/
def execute (server : Thread) (cs : List Call) : Option Thread :=
  (run step server cs).map fun put =>
    { server with mem := fun o => if shared o then put.mem o else server.mem o }

/-- What `ijon_min` makes of a value. -/
theorem toNat_flip (val : BitVec 64) :
    (0xffffffffffffffff - val : BitVec 64).toNat = 2 ^ 64 - 1 - val.toNat := by
  have hlt := val.isLt
  rw [BitVec.toNat_sub, show (0xffffffffffffffff : BitVec 64).toNat = 2 ^ 64 - 1 from rfl]
  omega

/-! ## The states of a PUT -/

/-- What a call makes of the two words of its thread does not depend on the memory. -/
theorem Call.effect_state_congr {σ τ : Thread} (c : Call) (hlayout : σ.layout = τ.layout)
    (hstate : σ.state = τ.state) (hlog : σ.stateLog = τ.stateLog) :
    (c.effect σ).state = (c.effect τ).state ∧ (c.effect σ).stateLog = (c.effect τ).stateLog := by
  cases c with
  | xorState val => simp [effect, Thread.reduce, hlayout, hstate, hlog]
  | pushState x => simp [effect, Thread.reduce, Thread.nextLog, hlayout, hstate, hlog]
  | max addr val => simp [effect, hstate, hlog]
  | min addr val => simp [effect, hstate, hlog]
  | mapInc addr => simp [effect, hstate, hlog]
  | mapSet addr => simp [effect, hstate, hlog]

/-- The calls of a run, each with the `__ijon_state` in which it is made. -/
def stated (layout : Layout) (cs : List Call) : List (BitVec 32 × Call) :=
  (trace step (Thread.start layout fun _ _ => 0) cs).map fun tc => (tc.1.state, tc.2)

theorem trace_stated {σ τ : Thread} (cs : List Call) (hlayout : σ.layout = τ.layout)
    (hstate : σ.state = τ.state) (hlog : σ.stateLog = τ.stateLog) :
    (trace step σ cs).map (fun tc => (tc.1.state, tc.2)) =
      (trace step τ cs).map fun tc => (tc.1.state, tc.2) := by
  induction cs generalizing σ τ with
  | nil => rfl
  | cons c cs ih =>
      by_cases hpos : 0 < c.divisor σ.layout
      · have hσ : step σ c = some (c.effect σ) := Call.step_eq_some.2 ⟨hpos, rfl⟩
        have hτ : step τ c = some (c.effect τ) := Call.step_eq_some.2 ⟨hlayout ▸ hpos, rfl⟩
        obtain ⟨hstate', hlog'⟩ := c.effect_state_congr hlayout hstate hlog
        have hlayout' : (c.effect σ).layout = (c.effect τ).layout := by
          rw [Call.effect_layout, Call.effect_layout, hlayout]
        simp [trace, hσ, hτ, hstate, ih hlayout' hstate' hlog']
      · have hσ : step σ c = none := by
          rw [step, Call.exec_of_zero (Nat.eq_zero_of_not_pos hpos)]
          rfl
        have hτ : step τ c = none := by
          rw [step, Call.exec_of_zero (hlayout ▸ Nat.eq_zero_of_not_pos hpos)]
          rfl
        simp [trace, hσ, hτ, hstate]

/-! ## One execution after another -/

section Campaign

variable {layout : Layout} {mem : Mem Object} {past : List Call} {calls : List (Thread × Call)}
  {σ : Thread} {segment : Ptr Object} {A C M : Nat}

theorem Regions.continue {cs : List Call} {σ₀ : Thread} (h : Regions layout mem past calls σ₀)
    (hapart : Apart layout) (hmap : 0 < layout.mapSize) (hmax : 0 < layout.maxMapSize)
    (hrun : Transition.run step σ₀ cs = some σ) :
    Regions layout mem (past ++ cs) (calls ++ trace step σ₀ cs) σ := by
  refine history_run (P := fun cs σ => Regions layout mem (past ++ cs) (calls ++ trace step σ₀ cs) σ)
    (by simpa [trace] using h) ?_ hrun
  intro cs σ c σ' hcs hregions hstep
  obtain ⟨_, rfl⟩ := Call.step_eq_some.1 hstep
  rw [trace_snoc hcs, ← List.append_assoc, ← List.append_assoc]
  exact hregions.effect hapart hmap hmax

/-- The regions are a matter of the layout and the memory. -/
theorem Regions.of_mem {τ : Thread} (h : Regions layout mem past calls σ)
    (hlayout : τ.layout = layout) (hmem : τ.mem = σ.mem) : Regions layout mem past calls τ := by
  have hcounter : ∀ i, τ.counter i = σ.counter i := by
    intro i
    rw [Thread.counter, Thread.counter, hlayout, h.keep]
  have hslot : ∀ i, τ.maxSlot i = σ.maxSlot i := by
    intro i
    rw [Thread.maxSlot, Thread.maxSlot, hlayout, h.keep]
  refine ⟨hlayout, fun i hi => ?_, fun i hi => ?_, fun q hq hq' => ?_⟩
  · rw [hmem, hcounter]
    exact h.counter i hi
  · rw [hmem, hslot]
    exact h.slot i hi
  · rw [hmem]
    exact h.frame q hq hq'

/-- What holds between two executions. -/
structure Between (layout : Layout) (mem : Mem Object) (executions : List (List Call))
    (σ : Thread) : Prop where
  regions : ∃ calls, Regions layout mem executions.flatten calls σ ∧
    calls.map (fun tc => (tc.1.state, tc.2)) = executions.flatMap (stated layout)
  state : σ.state = 0
  stateLog : σ.stateLog = 0

/-- Neither region lies in an array of the process. -/
theorem Consecutive.not_within (h : Consecutive segment A C M layout)
    (hsegment : shared segment.obj) {q : Ptr Object} (hq : shared q.obj = false) :
    ¬ layout.counterPtr.Within layout.mapSize q ∧
      ¬ layout.maxPtr.Within (8 * layout.maxMapSize) q := by
  have hne : q.obj ≠ segment.obj := by
    intro heq
    rw [heq, hsegment] at hq
    cases hq
  rw [h.counterPtr, h.maxPtr]
  exact ⟨fun hw => hne hw.1, fun hw => hne hw.1⟩

/-- **One more execution.** -/
theorem Between.next {executions : List (List Call)} (h : Between layout mem executions σ)
    (hregions : Consecutive segment A C M layout) (hsegment : shared segment.obj)
    (hapart : Apart layout) (hmap : 0 < layout.mapSize) (hmax : 0 < layout.maxMapSize)
    (cs : List Call) :
    ∃ σ', execute σ cs = some σ' ∧ Between layout mem (executions ++ [cs]) σ' := by
  rcases h.regions with ⟨calls, hleft, hcalls⟩
  obtain rfl := hleft.keep
  have hpos : ∀ c ∈ cs, 0 < c.divisor σ.layout := by
    intro c _
    cases c <;> assumption
  have hrun := run_eq_foldl (σ := σ) hpos
  have hput := hleft.continue hapart hmap hmax hrun
  -- what is not shared has not changed
  have hmem : (fun o => if shared o then (cs.foldl Call.effect σ).mem o else σ.mem o) =
      (cs.foldl Call.effect σ).mem := by
    funext o
    cases hshared : shared o with
    | true => rfl
    | false =>
        funext a
        obtain ⟨hcounter, hslot⟩ := hregions.not_within hsegment (q := ⟨o, a⟩) hshared
        exact (hleft.frame ⟨o, a⟩ hcounter hslot).trans (hput.frame ⟨o, a⟩ hcounter hslot).symm
  have hflatten : (executions ++ [cs]).flatten = executions.flatten ++ cs := by
    rw [List.flatten_append, List.flatten_singleton]
  refine ⟨{ σ with mem := (cs.foldl Call.effect σ).mem }, ?_,
    ⟨calls ++ trace step σ cs, ?_, ?_⟩, h.state, h.stateLog⟩
  · rw [Ijon.execute, hrun, Option.map_some, hmem]
  · rw [hflatten]
    exact hput.of_mem rfl rfl
  · have hstated := trace_stated (σ := σ) (τ := Thread.start σ.layout fun _ _ => 0) cs rfl h.state
      h.stateLog
    rw [List.map_append, hcalls, List.flatMap_append, List.flatMap_singleton, hstated, stated]

theorem Between.all {executions : List (List Call)} (h : Between layout mem [] σ)
    (hregions : Consecutive segment A C M layout) (hsegment : shared segment.obj)
    (hapart : Apart layout) (hmap : 0 < layout.mapSize) (hmax : 0 < layout.maxMapSize) :
    ∃ σ', Transition.run execute σ executions = some σ' ∧ Between layout mem executions σ' := by
  induction executions using List.reverseRecOn with
  | nil => exact ⟨σ, rfl, h⟩
  | append_singleton executions cs ih =>
      rcases ih with ⟨σ₁, hrun, hbetween⟩
      obtain ⟨σ', hexec, h'⟩ := hbetween.next hregions hsegment hapart hmap hmax cs
      exact ⟨σ', run_snoc_eq_some.2 ⟨σ₁, hrun, hexec⟩, h'⟩

end Campaign

/-- **A campaign.** In an accepted environment with three regions, and with zeros in the segment, any
sequence of executions ends; each max slot then holds the greatest value that any execution has
offered to it, each counter what the calls of all executions made of zero, where each execution
counts from the state 0, byte 0 of the segment is 1, and every other byte is what it was. -/
theorem campaign_regions {env : Env} {segments : Segments} {mem mem' : Mem Object}
    {layout : Layout} {idStr : String} {segment : Ptr Object} {A C M : Nat}
    (hid : env AFL_SHM_ENV_VAR = some idStr)
    (hsegment : segment = ⟨.segment (atoi idStr.toList), 0⟩)
    (hA : reserved env AFL_SIZE_ENV_VAR = A) (hC : reserved env IJON_COUNTER_SIZE_ENV_VAR = C)
    (hM : reserved env IJON_MAX_SIZE_ENV_VAR = M) (hApos : 0 < A) (hCpos : 0 < C) (hMle : 8 ≤ M)
    (hzero : ∀ q, segment.Within (A + C + M) q → mem q.obj q.off = 0)
    (hmap : mapShm env segments initial mem = .ok (layout, mem'))
    (executions : List (List Call)) :
    ∃ σ, run execute (Thread.start layout mem') executions = some σ ∧
      (∀ i < M / 8, IsGreatest (offers (M / 8) i executions.flatten)
        (σ.mem.load64 (segment.add (A + C + 8 * i))).toNat) ∧
      (∀ i < C, σ.mem segment.obj (segment.add (A + i)).off =
        (executions.flatMap (stated layout)).foldl
          (fun b sc => sc.2.onCounter C i sc.1 b) 0) ∧
      σ.mem segment.obj segment.off = 1 ∧
      ∀ q, q ≠ segment → ¬ (segment.add A).Within C q →
        ¬ (segment.add (A + C)).Within (8 * (M / 8)) q → σ.mem q.obj q.off = mem q.obj q.off := by
  have hAlt : A < 2 ^ 32 := hA ▸ reserved_lt env AFL_SIZE_ENV_VAR
  have hClt : C < 2 ^ 32 := hC ▸ reserved_lt env IJON_COUNTER_SIZE_ENV_VAR
  have hMlt : M < 2 ^ 32 := hM ▸ reserved_lt env IJON_MAX_SIZE_ENV_VAR
  rcases mapShm_eq_ok hid hmap with ⟨_, hlayout, rfl⟩
  have hregions : Consecutive segment A C M layout := by
    have h := segmentLayout_consecutive (atoi idStr.toList) (hA ▸ hApos) (hC ▸ hCpos)
      (show 0 < reserved env IJON_MAX_SIZE_ENV_VAR by omega)
    rwa [hA, hC, hM, ← hsegment, ← hlayout] at h
  have hshared : shared segment.obj := by rw [hsegment]; rfl
  have hstart : Between layout (mem.set layout.areaPtr 1) []
      (Thread.start layout (mem.set layout.areaPtr 1)) :=
    ⟨⟨[], hregions.start hAlt hClt hMlt hApos hzero, rfl⟩, rfl, rfl⟩
  have hmapSize := hregions.mapSize
  have hmaxMapSize := hregions.maxMapSize
  obtain ⟨σ, hrun, ⟨calls, hleft, hcalls⟩, -, -⟩ :=
    hstart.all hregions hshared (hregions.apart hClt hMlt) (by omega)
      (by omega)
  refine ⟨σ, hrun, fun i hi => ?_, fun i hi => ?_, ?_, fun q hq hqcounter hqslot => ?_⟩
  · have hslot := hleft.slot i (by omega)
    rw [Thread.maxSlot, hleft.keep, hregions.maxPtr, hmaxMapSize, Ptr.add_add] at hslot
    exact hslot
  · have hcounter := hleft.counter i (by omega)
    rw [Thread.counter, hleft.keep, hregions.counterPtr, hmapSize, Ptr.add_add] at hcounter
    rw [← hcalls, List.foldl_map]
    exact hcounter
  · -- byte 0 belongs to neither region
    have hcounter : ¬ layout.counterPtr.Within layout.mapSize segment := by
      rw [hregions.counterPtr, hmapSize]
      exact start_not_within hApos (by omega)
    have hslot : ¬ layout.maxPtr.Within (8 * layout.maxMapSize) segment := by
      rw [hregions.maxPtr, hmaxMapSize]
      exact start_not_within (by omega) (by omega)
    rw [hleft.frame segment hcounter hslot, hregions.areaPtr]
    exact Mem.set_same _ _ _
  · rw [hleft.frame q (by rwa [hregions.counterPtr, hmapSize])
      (by rwa [hregions.maxPtr, hmaxMapSize]), hregions.areaPtr]
    exact Mem.set_of_ne _ _ _ hq

/-- Two executions raise slot 1 and hit counter 2, which the first finds in the state 3. -/
theorem twoExecutions_regions :
    ∃ layout mem' σ, mapShm threeRegions onlySeven initial (fun _ _ => 0) = .ok (layout, mem') ∧
      run execute (Thread.start layout mem')
        [[.pushState 3, .mapInc 5, .max 9 12], [.mapInc 2, .max 1 7]] = some σ ∧
      (σ.mem.load64 ⟨.segment 7, 28⟩).toNat = 12 ∧ σ.mem (.segment 7) 18 = 2 := by
  have hmap : mapShm threeRegions onlySeven initial (fun _ _ => 0) =
      .ok (segmentLayout threeRegions 7,
        Mem.set (fun _ _ => 0) (segmentLayout threeRegions 7).areaPtr 1) := rfl
  have hid : threeRegions AFL_SHM_ENV_VAR = some "7" := rfl
  have hA : reserved threeRegions AFL_SIZE_ENV_VAR = 16 := rfl
  have hC : reserved threeRegions IJON_COUNTER_SIZE_ENV_VAR = 4 := rfl
  have hM : reserved threeRegions IJON_MAX_SIZE_ENV_VAR = 16 := rfl
  obtain ⟨σ, hrun, hslots, hcounters, -, -⟩ :=
    campaign_regions hid rfl hA hC hM (by decide) (by decide) (by decide) (fun _ _ => rfl) hmap
      [[.pushState 3, .mapInc 5, .max 9 12], [.mapInc 2, .max 1 7]]
  have hgreatest : IsGreatest
      (offers 2 1 [.pushState 3, .mapInc 5, .max 9 12, .mapInc 2, .max 1 7]) 12 := by
    constructor
    · exact Or.inr ⟨.max 9 12, by simp, rfl⟩
    · rintro v (rfl | ⟨c, hc, hoffer⟩)
      · decide
      · revert c
        simp [Call.offer]
        omega
  refine ⟨_, _, σ, hmap, hrun, (hslots 1 (by decide)).unique hgreatest, ?_⟩
  exact (hcounters 2 (by decide)).trans (by decide)

end Ijon
end Runtime
end FuzzufCc
