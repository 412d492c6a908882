import FuzzufCc.Lib.IR

/-!
# Memory — byte arrays and 64-bit words in a byte memory

Addresses are relative: `p.add i` is the byte `i` behind `p`, and `p.Within n q` says that `q` is
one of the `n` bytes from `p` on.  `load64` and `store64` access a little-endian word, aligned or
not.
-/

namespace IR

variable {O : Type}

namespace Ptr

variable (p q : Ptr O) {a i n m : Nat}

def add (i : Nat) : Ptr O :=
  { p with off := p.off + BitVec.ofNat 64 i }

/-- How far `q` is behind `p`, if they are in one object. -/
def dist : Nat :=
  (q.off - p.off).toNat

/-- `q` is one of the `n` bytes from `p` on. -/
def Within (n : Nat) (q : Ptr O) : Prop :=
  q.obj = p.obj ∧ p.dist q < n

variable {p q}

@[simp] theorem add_obj (i : Nat) : (p.add i).obj = p.obj := rfl

theorem add_add (i j : Nat) : (p.add i).add j = p.add (i + j) := by
  simp [add, BitVec.add_assoc, BitVec.ofNat_add]

theorem dist_lt : p.dist q < 2 ^ 64 :=
  BitVec.isLt _

theorem dist_add_self (hi : i < 2 ^ 64) : p.dist (p.add i) = i := by
  simp only [dist, add, BitVec.toNat_sub, BitVec.toNat_add, BitVec.toNat_ofNat]
  omega

theorem dist_add_of_le (ha : a ≤ p.dist q) : (p.add a).dist q = p.dist q - a := by
  have hlt := dist_lt (p := p) (q := q)
  simp only [dist, add, BitVec.toNat_sub, BitVec.toNat_add, BitVec.toNat_ofNat] at *
  omega

theorem dist_add_of_lt (hlt : p.dist q < a) (ha : a < 2 ^ 64) :
    (p.add a).dist q = p.dist q + 2 ^ 64 - a := by
  simp only [dist, add, BitVec.toNat_sub, BitVec.toNat_add, BitVec.toNat_ofNat] at *
  omega

theorem within_add_self (hi : i < 2 ^ 64) : p.Within n (p.add i) ↔ i < n := by
  simp [Within, dist_add_self hi]

/-- A part of an array is in the array. -/
theorem Within.of_add (h : (p.add a).Within n q) (hle : a + n ≤ m) : p.Within m q := by
  rcases h with ⟨hobj, hlt⟩
  refine ⟨hobj, ?_⟩
  rcases Nat.lt_or_ge (p.dist q) a with hcase | hcase
  · omega
  · rw [dist_add_of_le hcase] at hlt
    omega

/-- Arrays one behind the other have no byte in common. -/
theorem Within.not_add (h : p.Within n q) (hle : n ≤ a) (hm : a + m ≤ 2 ^ 64) :
    ¬ (p.add a).Within m q := by
  rintro ⟨_, hlt⟩
  have hdist := h.2
  by_cases ha : a < 2 ^ 64
  · rw [dist_add_of_lt (by omega) ha] at hlt
    omega
  · omega

/-- Different words of an array have no byte in common. -/
theorem Within.word_unique {j : Nat} (hi : (p.add (8 * i)).Within 8 q)
    (hj : (p.add (8 * j)).Within 8 q) (hilt : 8 * i + 8 ≤ 2 ^ 64) (hjlt : 8 * j + 8 ≤ 2 ^ 64) :
    i = j := by
  -- otherwise one word lies behind the other
  have hbehind : ∀ {i j : Nat}, i < j → 8 * j + 8 ≤ 2 ^ 64 → (p.add (8 * i)).Within 8 q →
      ¬ (p.add (8 * j)).Within 8 q := by
    intro i j hlt hle h
    have hsum : 8 * i + (8 * j - 8 * i) = 8 * j := by omega
    rw [← hsum, ← add_add]
    exact h.not_add (by omega) (by omega)
  rcases Nat.lt_trichotomy i j with hlt | rfl | hlt
  · exact absurd hj (hbehind hlt hjlt hi)
  · rfl
  · exact absurd hi (hbehind hlt hilt hj)

end Ptr

/-! ## Words -/

namespace Mem

/-- The value of the first `n` bytes from `p` on, the lowest first. -/
def loadBytes (m : Mem O) (p : Ptr O) : Nat → Nat
  | 0 => 0
  | n + 1 => m.loadBytes p n + 256 ^ n * (m p.obj (p.add n).off).toNat

def load64 (m : Mem O) (p : Ptr O) : BitVec 64 :=
  BitVec.ofNat 64 (m.loadBytes p 8)

theorem loadBytes_congr {m m' : Mem O} {p : Ptr O} {n : Nat}
    (h : ∀ i < n, m p.obj (p.add i).off = m' p.obj (p.add i).off) :
    m.loadBytes p n = m'.loadBytes p n := by
  induction n with
  | zero => rfl
  | succ n ih => rw [loadBytes, loadBytes, ih fun i hi => h i (by omega), h n (by omega)]

theorem loadBytes_lt (m : Mem O) (p : Ptr O) (n : Nat) : m.loadBytes p n < 256 ^ n := by
  induction n with
  | zero => exact Nat.one_pos
  | succ n ih =>
      have hbyte : (m p.obj (p.add n).off).toNat < 256 := BitVec.isLt _
      calc m.loadBytes p n + 256 ^ n * (m p.obj (p.add n).off).toNat
          < 256 ^ n + 256 ^ n * (m p.obj (p.add n).off).toNat := Nat.add_lt_add_right ih _
        _ = 256 ^ n * ((m p.obj (p.add n).off).toNat + 1) := by
            rw [Nat.mul_add, Nat.mul_one, Nat.add_comm]
        _ ≤ 256 ^ n * 256 := Nat.mul_le_mul_left _ hbyte

theorem loadBytes_byte (m : Mem O) (p : Ptr O) {i n : Nat} (hi : i < n) :
    m.loadBytes p n / 256 ^ i % 256 = (m p.obj (p.add i).off).toNat := by
  induction n with
  | zero => exact absurd hi (Nat.not_lt_zero i)
  | succ n ih =>
      have hpos : 0 < 256 ^ i := Nat.pow_pos (by decide)
      rcases Nat.lt_succ_iff_lt_or_eq.1 hi with hlt | rfl
      · -- the last byte is a multiple of a higher power
        have hpow : 256 ^ n = 256 ^ i * (256 * 256 ^ (n - i - 1)) := by
          rw [← Nat.pow_succ', ← Nat.pow_add]
          congr 1
          omega
        rw [loadBytes, hpow, Nat.mul_assoc, Nat.add_mul_div_left _ _ hpos, Nat.mul_assoc,
          Nat.add_mul_mod_self_left, ih hlt]
      · have hbyte : (m p.obj (p.add i).off).toNat < 256 := BitVec.isLt _
        rw [loadBytes, Nat.add_mul_div_left _ _ hpos,
          Nat.div_eq_of_lt (loadBytes_lt m p i), Nat.zero_add, Nat.mod_eq_of_lt hbyte]

/-- The bytes of a word, the lowest first. -/
theorem load64_byte (m : Mem O) (p : Ptr O) {i : Nat} (hi : i < 8) :
    (m.load64 p).toNat / 256 ^ i % 256 = (m p.obj (p.add i).off).toNat := by
  have hlt : m.loadBytes p 8 < 2 ^ 64 := loadBytes_lt m p 8
  rw [load64, BitVec.toNat_ofNat, Nat.mod_eq_of_lt hlt, loadBytes_byte m p hi]

/-- A word depends on its eight bytes only. -/
theorem load64_congr {m m' : Mem O} {p : Ptr O}
    (h : ∀ i < 8, m p.obj (p.add i).off = m' p.obj (p.add i).off) : m.load64 p = m'.load64 p := by
  rw [load64, load64, loadBytes_congr h]

theorem loadBytes_zero {m : Mem O} {p : Ptr O} {n : Nat}
    (h : ∀ i < n, m p.obj (p.add i).off = 0) : m.loadBytes p n = 0 := by
  induction n with
  | zero => rfl
  | succ n ih =>
      rw [loadBytes, ih fun i hi => h i (by omega), h n (by omega)]
      simp

theorem load64_zero {m : Mem O} {p : Ptr O} (h : ∀ i < 8, m p.obj (p.add i).off = 0) :
    m.load64 p = 0 := by
  rw [load64, loadBytes_zero h]
  rfl

variable [DecidableEq O]

def store64 (m : Mem O) (p : Ptr O) (v : BitVec 64) : Mem O := fun o a =>
  if o = p.obj ∧ p.dist ⟨o, a⟩ < 8 then BitVec.ofNat 8 (v.toNat / 256 ^ p.dist ⟨o, a⟩) else m o a

variable {m : Mem O} {p : Ptr O}

theorem store64_of_not_within {q : Ptr O} (h : ¬ p.Within 8 q) (v : BitVec 64) :
    m.store64 p v q.obj q.off = m q.obj q.off :=
  if_neg h

theorem store64_add {i : Nat} (hi : i < 8) (v : BitVec 64) :
    m.store64 p v p.obj (p.add i).off = BitVec.ofNat 8 (v.toNat / 256 ^ i) := by
  have hdist : p.dist ⟨p.obj, (p.add i).off⟩ = i := Ptr.dist_add_self (by omega)
  rw [store64, hdist, if_pos ⟨rfl, hi⟩]

theorem loadBytes_store64 {n : Nat} (hn : n ≤ 8) (v : BitVec 64) :
    (m.store64 p v).loadBytes p n = v.toNat % 256 ^ n := by
  induction n with
  | zero => simp [loadBytes, Nat.mod_one]
  | succ n ih =>
      calc (m.store64 p v).loadBytes p (n + 1)
          = v.toNat % 256 ^ n + 256 ^ n * (v.toNat / 256 ^ n % 256) := by
            rw [loadBytes, ih (by omega), store64_add (by omega), BitVec.toNat_ofNat]
        _ = v.toNat % 256 ^ (n + 1) := by rw [Nat.pow_succ, Nat.mod_mul]

@[simp] theorem load64_store64 (v : BitVec 64) : (m.store64 p v).load64 p = v := by
  have hlt : v.toNat < 256 ^ 8 := v.isLt
  rw [load64, loadBytes_store64 le_rfl, Nat.mod_eq_of_lt hlt, BitVec.ofNat_toNat,
    BitVec.setWidth_eq]

/-- A store elsewhere leaves a word. -/
theorem load64_store64_of_disjoint {q : Ptr O} {v : BitVec 64}
    (h : ∀ i < 8, ¬ p.Within 8 (q.add i)) : (m.store64 p v).load64 q = m.load64 q := by
  refine load64_congr fun i hi => ?_
  exact store64_of_not_within (q := q.add i) (h i hi) v

theorem load64_set_of_not_within {q : Ptr O} {b : BitVec 8} (h : ¬ p.Within 8 q) :
    (m.set q b).load64 p = m.load64 p := by
  refine load64_congr fun i hi => ?_
  refine set_of_ne _ _ _ fun heq => h ?_
  obtain rfl : p.add i = q := heq
  exact (Ptr.within_add_self (by omega)).2 hi

end Mem

/-! ## Memories of two parts -/

instance Ptr.decidableWithin [DecidableEq O] (p q : Ptr O) (n : Nat) : Decidable (p.Within n q) :=
  inferInstanceAs (Decidable (q.obj = p.obj ∧ p.dist q < n))

namespace Mem

/-- `m` at the addresses in `R`, `m'` at all others. -/
def merge (R : Ptr O → Prop) [DecidablePred R] (m m' : Mem O) : Mem O := fun o a =>
  if R ⟨o, a⟩ then m o a else m' o a

section Merge

variable {R : Ptr O → Prop} [DecidablePred R] {m m' : Mem O} {p : Ptr O}

theorem merge_self (m : Mem O) : merge R m m = m := by
  funext o a
  exact ite_self _

theorem merge_of_mem (h : R p) : merge R m m' p.obj p.off = m p.obj p.off :=
  if_pos h

theorem merge_of_not_mem (h : ¬ R p) : merge R m m' p.obj p.off = m' p.obj p.off :=
  if_neg h

theorem load64_merge (h : ∀ i < 8, ¬ R (p.add i)) : (merge R m m').load64 p = m'.load64 p :=
  load64_congr fun i hi => merge_of_not_mem (p := p.add i) (h i hi)

variable [DecidableEq O]

/-- A store into one part leaves the other part alone. -/
theorem set_merge_of_mem (h : R p) (b : BitVec 8) :
    (merge R m m').set p b = merge R (m.set p b) m' := by
  funext o a
  by_cases hp : Ptr.mk o a = p
  · subst hp
    simp [merge, set, h]
  · simp only [merge]
    rw [set_of_ne _ _ _ hp, set_of_ne _ _ _ hp]
    rfl

theorem set_merge_of_not_mem (h : ¬ R p) (b : BitVec 8) :
    (merge R m m').set p b = merge R m (m'.set p b) := by
  funext o a
  by_cases hp : Ptr.mk o a = p
  · subst hp
    simp [merge, set, h]
  · simp only [merge]
    rw [set_of_ne _ _ _ hp, set_of_ne _ _ _ hp]
    rfl

theorem store64_merge (h : ∀ q, p.Within 8 q → ¬ R q) (v : BitVec 64) :
    (merge R m m').store64 p v = merge R m (m'.store64 p v) := by
  funext o a
  by_cases hwithin : p.Within 8 ⟨o, a⟩
  · have hnot := h _ hwithin
    have hword : ∀ m₀ : Mem O, m₀.store64 p v o a =
        BitVec.ofNat 8 (v.toNat / 256 ^ p.dist ⟨o, a⟩) := fun _ => if_pos hwithin
    rw [hword, merge, if_neg hnot, hword]
  · have hsame : ∀ m₀ : Mem O, m₀.store64 p v o a = m₀ o a := fun _ => if_neg hwithin
    rw [hsame, merge, merge, hsame]

end Merge
end Mem

end IR
