import FuzzufCc.Lib.Memory
import FuzzufCc.Runtime.Bitmap

/-!
# Ijon — where the IJON runtime puts its regions

`__ijon_map_shm` of `features/ijon/ijon-llvm-rt.o.c` attaches the segment named in the environment
and lays out up to three regions in it, one behind the other: the coverage region, the counters and
the max slots.  A region whose size is missing or zero is left out of the segment.
-/

namespace FuzzufCc

open Libc IR

namespace Runtime
namespace Ijon

def AFL_SHM_ENV_VAR := "__AFL_SHM_ID"
def AFL_SIZE_ENV_VAR := "__AFL_SIZE"
def IJON_COUNTER_SIZE_ENV_VAR := "__IJON_COUNTER_SIZE"
def IJON_MAX_SIZE_ENV_VAR := "__IJON_MAX_SIZE"

def MAP_SIZE_POW2 : Nat := 16
def MAP_SIZE : Nat := 1 <<< MAP_SIZE_POW2
def MAXMAP_SIZE : Nat := 512

/-- The three pointers and the three sizes. -/
structure Layout where
  areaPtr : Ptr Object
  counterPtr : Ptr Object
  maxPtr : Ptr Object
  aflSize : Nat
  mapSize : Nat
  maxMapSize : Nat
  deriving DecidableEq, Repr

/-- The static initialisers: the counters share the array of the area. -/
def initial : Layout where
  areaPtr := ⟨.ijonAreaInitial, 0⟩
  counterPtr := ⟨.ijonAreaInitial, 0⟩
  maxPtr := ⟨.ijonMaxInitial, 0⟩
  aflSize := MAP_SIZE
  mapSize := MAP_SIZE
  maxMapSize := MAXMAP_SIZE

/-- `_exit(1)`: the text given to `printf`, which nothing flushes, and the layout at that point. -/
structure Exit where
  printed : String
  layout : Layout
  deriving DecidableEq, Repr

/-- `strtol` narrowed to `u32`; the text is refused unless it ends where its first ten characters
do. -/
def parse (s : List Char) : Option (BitVec 32) :=
  if (strtol s).stop = strnlen s 10 then some (BitVec.ofInt 32 (strtol s).value) else none

/-- One of the three blocks that lay out a region at `cur`. -/
def region (env : Env) (envVar : String) (assign : Ptr Object → BitVec 32 → Layout → Layout)
    (cur : Ptr Object) (layout : Layout) : Except Exit (Ptr Object × Layout) :=
  match env envVar with
  | none => .ok (cur, layout)
  | some sizeStr =>
      match parse sizeStr.toList with
      | none => .error ⟨"Invalid value on " ++ envVar, layout⟩
      | some size =>
          if size = 0 then .ok (cur, layout)
          else .ok ({ cur with off := cur.off + size.setWidth 64 }, assign cur size layout)

def areaRegion (env : Env) : Ptr Object → Layout → Except Exit (Ptr Object × Layout) :=
  region env AFL_SIZE_ENV_VAR fun cur size layout =>
    { layout with areaPtr := cur, aflSize := size.toNat }

def counterRegion (env : Env) : Ptr Object → Layout → Except Exit (Ptr Object × Layout) :=
  region env IJON_COUNTER_SIZE_ENV_VAR fun cur size layout =>
    { layout with counterPtr := cur, mapSize := size.toNat }

/-- The size counts bytes, the slots have eight each. -/
def maxRegion (env : Env) : Ptr Object → Layout → Except Exit (Ptr Object × Layout) :=
  region env IJON_MAX_SIZE_ENV_VAR fun cur size layout =>
    { layout with maxPtr := cur, maxMapSize := size.toNat / 8 }

/-- `__ijon_map_shm`. -/
def mapShm (env : Env) (segments : Segments) (layout : Layout) (mem : Mem Object) :
    Except Exit (Layout × Mem Object) :=
  match env AFL_SHM_ENV_VAR with
  | none => .ok (layout, mem)
  | some aflIdStr =>
      match parse aflIdStr.toList with
      | none => .error ⟨"Invalid value on " ++ AFL_SHM_ENV_VAR, layout⟩
      | some shmId =>
          if !segments shmId then
            .error ⟨"", layout⟩
          else do
            let (cur, layout) ← areaRegion env ⟨.segment shmId, 0⟩ layout
            let (cur, layout) ← counterRegion env cur layout
            let (_, layout) ← maxRegion env cur layout
            return (layout, mem.set layout.areaPtr 1)

/-! ## The regions -/

/-- The number of bytes a size variable reserves in the segment; none if it is not set. -/
def reserved (env : Env) (envVar : String) : Nat :=
  match env envVar with
  | none => 0
  | some sizeStr => (atoi sizeStr.toList).toNat

theorem reserved_lt (env : Env) (envVar : String) : reserved env envVar < 2 ^ 32 := by
  unfold reserved
  split
  · decide
  · exact BitVec.isLt _

theorem parse_eq_some {s : List Char} {n : BitVec 32} (h : parse s = some n) :
    n = atoi s := by
  unfold parse at h
  split at h
  · exact (Option.some.inj h).symm
  · cases h

/-- A region moves `cur` by the bytes it reserves, and is assigned if there are any. -/
theorem region_eq_ok {env : Env} {envVar : String}
    {assign : Ptr Object → BitVec 32 → Layout → Layout} {cur cur' : Ptr Object}
    {layout layout' : Layout} (h : region env envVar assign cur layout = .ok (cur', layout')) :
    cur' = { cur with off := cur.off + BitVec.ofNat 64 (reserved env envVar) } ∧
      ((reserved env envVar = 0 ∧ layout' = layout) ∨
        reserved env envVar ≠ 0 ∧ ∃ size : BitVec 32, size.toNat = reserved env envVar ∧
          layout' = assign cur size layout) := by
  unfold region at h
  unfold reserved
  cases hstr : env envVar with
  | none =>
      simp only [hstr, Except.ok.injEq, Prod.mk.injEq] at h
      rcases h with ⟨rfl, rfl⟩
      simp
  | some sizeStr =>
      simp only [hstr] at h
      cases hparse : parse sizeStr.toList with
      | none => simp [hparse] at h
      | some size =>
          obtain rfl := parse_eq_some hparse
          simp only [hparse] at h
          -- a size of zero leaves the region where it was
          by_cases hzero : atoi sizeStr.toList = 0
          · simp only [hzero, if_true, Except.ok.injEq, Prod.mk.injEq] at h
            rcases h with ⟨rfl, rfl⟩
            simp [hzero]
          · simp only [hzero, if_false, Except.ok.injEq, Prod.mk.injEq] at h
            rcases h with ⟨rfl, rfl⟩
            have hne : (atoi sizeStr.toList).toNat ≠ 0 := fun h => hzero (BitVec.eq_of_toNat_eq h)
            refine ⟨?_, Or.inr ⟨hne, _, rfl, rfl⟩⟩
            rw [BitVec.ofNat_toNat]

/-- The regions behind each other in the segment; one that reserves nothing keeps its array. -/
def segmentLayout (env : Env) (shmId : BitVec 32) : Layout :=
  let segment : Ptr Object := ⟨.segment shmId, 0⟩
  let aflSize := reserved env AFL_SIZE_ENV_VAR
  let counterSize := reserved env IJON_COUNTER_SIZE_ENV_VAR
  let maxSize := reserved env IJON_MAX_SIZE_ENV_VAR
  { areaPtr := if aflSize = 0 then initial.areaPtr else segment
    counterPtr := if counterSize = 0 then initial.counterPtr else segment.add aflSize
    maxPtr := if maxSize = 0 then initial.maxPtr else segment.add (aflSize + counterSize)
    aflSize := if aflSize = 0 then initial.aflSize else aflSize
    mapSize := if counterSize = 0 then initial.mapSize else counterSize
    maxMapSize := if maxSize = 0 then initial.maxMapSize else maxSize / 8 }

/-- **The layout.** In an accepted environment the counters lie behind the coverage region and the
max slots behind the counters. -/
theorem mapShm_eq_ok {env : Env} {segments : Segments} {mem mem' : Mem Object} {layout : Layout}
    {aflIdStr : String} (hid : env AFL_SHM_ENV_VAR = some aflIdStr)
    (h : mapShm env segments initial mem = .ok (layout, mem')) :
    segments (atoi aflIdStr.toList) ∧ layout = segmentLayout env (atoi aflIdStr.toList) ∧
      mem' = mem.set layout.areaPtr 1 := by
  simp only [mapShm, hid] at h
  cases hparse : parse aflIdStr.toList with
  | none => simp [hparse] at h
  | some shmId =>
      obtain rfl := parse_eq_some hparse
      simp only [hparse] at h
      cases hseg : segments (atoi aflIdStr.toList) with
      | false => simp [hseg] at h
      | true =>
          simp only [hseg, Bool.not_true, Bool.false_eq_true, if_false] at h
          rcases bind_eq_ok.1 h with ⟨⟨cur₁, l₁⟩, h₁, h⟩
          rcases bind_eq_ok.1 h with ⟨⟨cur₂, l₂⟩, h₂, h⟩
          rcases bind_eq_ok.1 h with ⟨⟨cur₃, l₃⟩, h₃, h⟩
          rcases Prod.mk.inj (Except.ok.inj h) with ⟨rfl, rfl⟩
          rcases region_eq_ok h₁ with ⟨rfl, hl₁⟩
          rcases region_eq_ok h₂ with ⟨rfl, hl₂⟩
          rcases region_eq_ok h₃ with ⟨-, hl₃⟩
          refine ⟨rfl, ?_, rfl⟩
          -- each block is skipped, or sets the pointer and the size of its own region
          rcases hl₁ with ⟨hA, rfl⟩ | ⟨hA, _, hsizeA, rfl⟩ <;>
            rcases hl₂ with ⟨hC, rfl⟩ | ⟨hC, _, hsizeC, rfl⟩ <;>
              rcases hl₃ with ⟨hM, rfl⟩ | ⟨hM, _, hsizeM, rfl⟩ <;>
                simp [segmentLayout, Ptr.add, BitVec.ofNat_add, *]

theorem mapShm_layout {env : Env} {segments : Segments} {mem mem' : Mem Object} {layout : Layout}
    {aflIdStr : String} (hid : env AFL_SHM_ENV_VAR = some aflIdStr)
    (h : mapShm env segments initial mem = .ok (layout, mem')) :
    segments (atoi aflIdStr.toList) ∧
      (layout.counterPtr = ⟨.ijonAreaInitial, 0⟩ ∨
        layout.counterPtr = ⟨.segment (atoi aflIdStr.toList),
            BitVec.ofNat 64 (reserved env AFL_SIZE_ENV_VAR)⟩ ∧
          layout.mapSize = reserved env IJON_COUNTER_SIZE_ENV_VAR) ∧
      (layout.maxPtr = ⟨.ijonMaxInitial, 0⟩ ∨
        layout.maxPtr = ⟨.segment (atoi aflIdStr.toList),
            BitVec.ofNat 64 (reserved env AFL_SIZE_ENV_VAR) +
              BitVec.ofNat 64 (reserved env IJON_COUNTER_SIZE_ENV_VAR)⟩ ∧
          layout.maxMapSize = reserved env IJON_MAX_SIZE_ENV_VAR / 8) := by
  rcases mapShm_eq_ok hid h with ⟨hseg, rfl, _⟩
  refine ⟨hseg, ?_, ?_⟩
  · by_cases hC : reserved env IJON_COUNTER_SIZE_ENV_VAR = 0
    · exact Or.inl (if_pos hC)
    · exact Or.inr ⟨by simp [segmentLayout, hC, Ptr.add], if_neg hC⟩
  · by_cases hM : reserved env IJON_MAX_SIZE_ENV_VAR = 0
    · exact Or.inl (if_pos hM)
    · exact Or.inr ⟨by simp [segmentLayout, hM, Ptr.add, BitVec.ofNat_add], if_neg hM⟩

/-- The size by which the counters are addressed: never zero, and a 32-bit number. -/
theorem mapSize_bounds {env : Env} {segments : Segments} {mem mem' : Mem Object} {layout : Layout}
    (h : mapShm env segments initial mem = .ok (layout, mem')) :
    0 < layout.mapSize ∧ layout.mapSize < 2 ^ 32 := by
  have hinitial : 0 < initial.mapSize ∧ initial.mapSize < 2 ^ 32 := by decide
  cases hid : env AFL_SHM_ENV_VAR with
  | none =>
      simp only [mapShm, hid, Except.ok.injEq, Prod.mk.injEq] at h
      rw [← h.1]
      exact hinitial
  | some idStr =>
      rcases mapShm_eq_ok hid h with ⟨_, rfl, _⟩
      by_cases hC : reserved env IJON_COUNTER_SIZE_ENV_VAR = 0
      · simpa [segmentLayout, hC] using hinitial
      · have hlt := reserved_lt env IJON_COUNTER_SIZE_ENV_VAR
        simp only [segmentLayout, hC, if_false]
        omega

/-! ## Environments with a segment 7 -/

/-- The segment 7 with these three sizes. -/
def sizesEnv (aflSize counterSize maxSize : Option String) : Env := fun key =>
  if key = AFL_SHM_ENV_VAR then some "7"
  else if key = AFL_SIZE_ENV_VAR then aflSize
  else if key = IJON_COUNTER_SIZE_ENV_VAR then counterSize
  else if key = IJON_MAX_SIZE_ENV_VAR then maxSize
  else none

def onlySeven : Segments := fun shmId => shmId == 7

end Ijon
end Runtime
end FuzzufCc
