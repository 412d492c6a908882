import Mathlib.Data.BitVec
import Mathlib.Data.Set.Basic

/-!
# AddressSpace — the mapped bytes of a process

A store to an address at which nothing is mapped faults.  `span p n` are the `n` addresses from `p`
on, behind the last address the first.
-/

/-- What the addresses of a process hold, `none` where nothing is mapped. -/
abbrev AddressSpace (α : Type*) := BitVec 64 → Option α

namespace AddressSpace

variable {α : Type*} {m : AddressSpace α} {p q : BitVec 64} {n : Nat} {v : α}

def span (p : BitVec 64) (n : Nat) : Set (BitVec 64) :=
  {q | (q - p).toNat < n}

instance : Decidable (q ∈ span p n) :=
  inferInstanceAs (Decidable ((q - p).toNat < n))

theorem mem_span_succ (hn : n < 2 ^ 64) : q ∈ span p (n + 1) ↔ q = p ∨ q ∈ span (p + 1) n := by
  change (q - p).toNat < n + 1 ↔ q = p ∨ (q - (p + 1)).toNat < n
  constructor
  · intro h
    by_cases heq : q = p
    · exact .inl heq
    · right
      bv_omega
  · rintro (rfl | h)
    · simp
    · bv_omega

theorem self_mem_span : p ∈ span p (n + 1) := by
  change (p - p).toNat < n + 1
  rw [BitVec.sub_self]
  exact Nat.succ_pos n

def store (m : AddressSpace α) (p : BitVec 64) (v : α) : Option (AddressSpace α) :=
  if (m p).isSome then some (Function.update m p (some v)) else none

/-- A loop over the bytes from `p` on, with one store each. -/
def fill (v : α) : Nat → BitVec 64 → AddressSpace α → Option (AddressSpace α)
  | 0, _, m => some m
  | n + 1, p, m => (m.store p v).bind (fill v n (p + 1))

/-- New memory at `p`, over whatever was there. -/
def map (m : AddressSpace α) (p : BitVec 64) (n : Nat) (content : BitVec 64 → α) :
    AddressSpace α := fun q =>
  if q ∈ span p n then some (content q) else m q

/-- Where all of it is mapped, a fill reaches its end, and changes nothing else. -/
theorem fill_of_mapped (hn : n < 2 ^ 64) (h : ∀ q ∈ span p n, (m q).isSome) :
    fill v n p m = some (m.map p n fun _ => v) := by
  induction n generalizing p m with
  | zero =>
      have hnone : (m.map p 0 fun _ => v) = m := by
        funext q
        simp [map, span]
      rw [hnone]
      rfl
  | succ n ih =>
      have hstore : m.store p v = some (Function.update m p (some v)) :=
        if_pos (h p self_mem_span)
      have hrest : ∀ q ∈ span (p + 1) n, ((Function.update m p (some v)) q).isSome := by
        intro q hq
        by_cases heq : q = p
        · simp [heq]
        · rw [Function.update_of_ne heq]
          exact h q ((mem_span_succ (by omega)).2 (.inr hq))
      rw [fill, hstore, Option.bind_some, ih (by omega) hrest]
      congr 1
      funext q
      simp only [map, mem_span_succ (show n < 2 ^ 64 by omega)]
      by_cases heq : q = p
      · simp [heq]
      · simp [heq]

/-- A fill of new memory leaves no byte of the content it had. -/
theorem fill_map (content : BitVec 64 → α) (hn : n < 2 ^ 64) :
    fill v n p (m.map p n content) = some (m.map p n fun _ => v) := by
  have hmapped : ∀ q ∈ span p n, ((m.map p n content) q).isSome := by
    intro q hq
    simp [map, hq]
  rw [fill_of_mapped hn hmapped]
  congr 1
  funext q
  by_cases hq : q ∈ span p n
  · simp [map, hq]
  · simp [map, hq]

end AddressSpace
