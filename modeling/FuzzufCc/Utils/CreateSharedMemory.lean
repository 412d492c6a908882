import FuzzufCc.ForkServer.Protocol
import FuzzufCc.Lib.AddressSpace
import FuzzufCc.Utils.SystemError

/-!
# CreateSharedMemory — a new segment of zeros

`create_shared_memory` tests the results of `shmget` and `shmat` for 0, while both return −1 when
they fail, and it builds the exceptions without throwing them.
-/

namespace FuzzufCc
namespace Utils

open AddressSpace ForkServer

/-- Where `shmat` can attach a segment. -/
structure Address where
  val : BitVec 64
  ne_null : val ≠ 0
  ne_failed : val ≠ -1

/-- What `shmget` and `shmat` do: the id of a segment, an address, or a value of `errno`; and the
bytes that an attached segment holds. -/
structure ShmCalls where
  shmget : Except Int Nat
  shmat : Except Int Address
  content : BitVec 64 → Byte

namespace ShmCalls

variable (c : ShmCalls)

/-- The return value of `shmget`. -/
def descriptor : Int :=
  match c.shmget with
  | .ok id => id
  | .error _ => -1

/-- The return value of `shmat`. -/
def begin : BitVec 64 :=
  match c.shmat with
  | .ok address => address.val
  | .error _ => -1

/-- The segments that the call has created. -/
def created : List Int :=
  match c.shmget with
  | .ok id => [(id : Int)]
  | .error _ => []

/-- The memory once `shmat` has returned. -/
def attached (size : BitVec 64) (mem : AddressSpace Byte) : AddressSpace Byte :=
  match c.shmat with
  | .ok address => mem.map address.val size.toNat c.content
  | .error _ => mem

end ShmCalls

/-- The segment in environment variable style and the addresses it is attached at; the deleter
behind the iterators removes `descriptor`. -/
structure SharedRange where
  env : String
  first : BitVec 64
  last : BitVec 64
  descriptor : Int
  deriving DecidableEq, Repr

/-- How a call ends, with the memory and the segments of the call that exist then; a store that
faults ends the process, and no segment. -/
inductive ShmOutcome where
  | returned (range : SharedRange) (mem : AddressSpace Byte) (segments : List Int)
  | thrown (e : SystemError) (mem : AddressSpace Byte) (segments : List Int)
  | faulted (segments : List Int)

/-- `create_shared_memory`. -/
def createSharedMemory (c : ShmCalls) (name : String) (size : BitVec 64)
    (mem : AddressSpace Byte) : ShmOutcome :=
  -- `!descriptor`, for the id 0, only drops what `errno_to_system_error` returns
  let segments := if c.begin = 0 then c.created.erase c.descriptor else c.created
  match fill 0 size.toNat c.begin (c.attached size mem) with
  | none => .faulted segments
  | some mem =>
      .returned
        { env := name ++ "=" ++ toString c.descriptor
          first := c.begin
          last := c.begin + size
          descriptor := c.descriptor } mem segments

/-- A segment of `size` zeros if both calls succeed, else an exception, with the memory as it was
and no segment left. -/
def CreatesOrThrows (c : ShmCalls) (name : String) (size : BitVec 64) (mem : AddressSpace Byte)
    (outcome : ShmOutcome) : Prop :=
  match c.shmget, c.shmat with
  | .ok id, .ok address =>
      outcome =
        .returned
          { env := name ++ "=" ++ toString id
            first := address.val
            last := address.val + size
            descriptor := id } (mem.map address.val size.toNat fun _ => 0) [(id : Int)]
  | _, _ => ∃ e, outcome = .thrown e mem []

variable (c : ShmCalls) (name : String) (size : BitVec 64) (mem : AddressSpace Byte)

theorem createSharedMemory_ne_thrown (e : SystemError) (mem' : AddressSpace Byte)
    (segments : List Int) : createSharedMemory c name size mem ≠ .thrown e mem' segments := by
  intro h
  simp only [createSharedMemory] at h
  split at h <;> cases h

theorem createsOrThrows_of_ok {id : Nat} {address : Address} (hget : c.shmget = .ok id)
    (hat : c.shmat = .ok address) :
    CreatesOrThrows c name size mem (createSharedMemory c name size mem) := by
  have hdescriptor : c.descriptor = id := by simp only [ShmCalls.descriptor, hget]
  have hcreated : c.created = [(id : Int)] := by simp only [ShmCalls.created, hget]
  have hbegin : c.begin = address.val := by simp only [ShmCalls.begin, hat]
  have hattached : c.attached size mem = mem.map address.val size.toNat c.content := by
    simp only [ShmCalls.attached, hat]
  simp only [CreatesOrThrows, hget, hat, createSharedMemory, hdescriptor, hcreated, hbegin,
    hattached, fill_map c.content size.isLt, if_neg address.ne_null]
  rfl

/-- Behind a failed `shmat` the first zero goes to the address −1, and the segment stays. -/
theorem faulted_of_unattached {e : Int} (hat : c.shmat = .error e) (hsize : 0 < size.toNat)
    (hmem : mem (-1) = none) : createSharedMemory c name size mem = .faulted c.created := by
  have hbegin : c.begin = -1 := by simp only [ShmCalls.begin, hat]
  have hattached : c.attached size mem = mem := by simp only [ShmCalls.attached, hat]
  have hstore : mem.store (-1) (0 : Byte) = none :=
    if_neg (by rw [hmem]; exact Bool.false_ne_true)
  have hfill : fill (0 : Byte) size.toNat (-1) mem = none := by
    obtain ⟨n, hn⟩ := Nat.exists_eq_succ_of_ne_zero hsize.ne'
    rw [hn, fill, hstore]
    rfl
  simp only [createSharedMemory, hattached, hbegin, hfill]
  rfl

/-- **A new shared memory.** A call returns zeros exactly where it should, or throws and leaves
nothing behind, exactly if there is nothing to throw for: both system calls succeed. -/
theorem createsOrThrows_iff :
    CreatesOrThrows c name size mem (createSharedMemory c name size mem) ↔
      (∃ id, c.shmget = .ok id) ∧ ∃ address, c.shmat = .ok address := by
  constructor
  · intro h
    cases hget : c.shmget with
    | error e =>
        simp only [CreatesOrThrows, hget] at h
        rcases h with ⟨e, h⟩
        exact absurd h (createSharedMemory_ne_thrown c name size mem _ _ _)
    | ok id =>
        cases hat : c.shmat with
        | error e =>
            simp only [CreatesOrThrows, hget, hat] at h
            rcases h with ⟨e, h⟩
            exact absurd h (createSharedMemory_ne_thrown c name size mem _ _ _)
        | ok address => exact ⟨⟨id, rfl⟩, ⟨address, rfl⟩⟩
  · rintro ⟨⟨id, hget⟩, ⟨address, hat⟩⟩
    exact createsOrThrows_of_ok c name size mem hget hat

/-- No address for segment 5: the fill starts at the address −1, and the segment is left behind. -/
theorem unattached_faults :
    ¬ CreatesOrThrows ⟨.ok 5, .error ENOMEM, fun _ => 0⟩ "__AFL_SHM_ID" 65536 (fun _ => none)
      (createSharedMemory ⟨.ok 5, .error ENOMEM, fun _ => 0⟩ "__AFL_SHM_ID" 65536 fun _ => none) := by
  rw [faulted_of_unattached _ _ _ _ rfl (by decide) rfl]
  rintro ⟨e, h⟩
  cases h

end Utils
end FuzzufCc
