import Mathlib.Algebra.Order.Ring.Int
import Mathlib.Data.Nat.Bitwise
import Mathlib.Data.Nat.Log
import Mathlib.Order.Interval.Finset.Nat

/-!
# Xor — exclusive or below a bound and under a remainder

Exclusive or commutes with the remainder by a power of two and with no other one.  This file proves
three forms of that fact, for any modulus `m`:

* two numbers that differ in their low `k` bits only have different remainders if `2 ^ k ≤ m`;
* xor with `h`, remainder, xor with `h` again and remainder restore every number below `m` exactly
  if `m` is a power of two;
* the Gray code `u ↦ u / 2 xor u` stays below `m` exactly if `m` is a power of two.
-/

namespace Xor

/-! ## Numbers with the same high bits -/

/-- Numbers that differ below bit `k` only have the same high part. -/
theorem div_eq_of_xor_lt {a b k : ℕ} (h : a ^^^ b < 2 ^ k) : a / 2 ^ k = b / 2 ^ k := by
  have hzero : a / 2 ^ k ^^^ b / 2 ^ k = 0 := by
    rw [← Nat.xor_div_two_pow]
    exact Nat.div_eq_of_lt h
  exact Nat.xor_eq_zero_iff.1 hzero

/-- **Low bits survive the remainder.** -/
theorem eq_of_mod_eq_of_xor_lt {a b k m : ℕ} (h : a ^^^ b < 2 ^ k) (hm : 2 ^ k ≤ m)
    (hmod : a % m = b % m) : a = b := by
  have hdiv := div_eq_of_xor_lt h
  -- both numbers lie in one block of length `2 ^ k`
  have ha := Nat.div_add_mod a (2 ^ k)
  have hb := Nat.div_add_mod b (2 ^ k)
  have hlta := Nat.mod_lt a (Nat.two_pow_pos k)
  have hltb := Nat.mod_lt b (Nat.two_pow_pos k)
  rw [hdiv] at ha
  rcases le_total a b with hle | hle
  · have hdvd : m ∣ b - a := Nat.dvd_of_mod_eq_zero (Nat.sub_mod_eq_zero_of_mod_eq hmod.symm)
    have hzero := Nat.eq_zero_of_dvd_of_lt hdvd (by omega)
    omega
  · have hdvd : m ∣ a - b := Nat.dvd_of_mod_eq_zero (Nat.sub_mod_eq_zero_of_mod_eq hmod)
    have hzero := Nat.eq_zero_of_dvd_of_lt hdvd (by omega)
    omega

/-! ## Xor and remainder, twice -/

/-- A number that is no power of two lies strictly between two of them. -/
theorem between_two_pow {m : ℕ} (hpos : 0 < m) (hm : ∀ k, m ≠ 2 ^ k) :
    ∃ k, 2 ^ k < m ∧ m < 2 ^ (k + 1) := by
  refine ⟨Nat.log 2 m, lt_of_le_of_ne ?_ (hm _).symm, Nat.lt_pow_succ_log_self (by decide) m⟩
  exact Nat.pow_log_le_self 2 hpos.ne'

/-- Adding the top bit to a number below it. -/
theorem two_pow_xor {k r : ℕ} (hr : r < 2 ^ k) : 2 ^ k ^^^ r = 2 ^ k + r := by
  have h := Nat.two_pow_add_eq_or_of_lt hr 1
  rw [Nat.mul_one] at h
  rw [h]
  refine Nat.eq_of_testBit_eq fun i => ?_
  rw [Nat.testBit_xor, Nat.testBit_or, Nat.testBit_two_pow]
  by_cases hi : k = i
  · subst hi
    simp [Nat.testBit_lt_two_pow hr]
  · simp [hi]

/-- Modulo a power of two a second xor undoes the first. -/
theorem xor_mod_xor_mod {k s : ℕ} (hs : s < 2 ^ k) (h : ℕ) :
    ((s ^^^ h) % 2 ^ k ^^^ h) % 2 ^ k = s := by
  calc ((s ^^^ h) % 2 ^ k ^^^ h) % 2 ^ k
      = (s ^^^ h) % 2 ^ k % 2 ^ k ^^^ h % 2 ^ k := Nat.xor_mod_two_pow
    _ = (s ^^^ h ^^^ h) % 2 ^ k := by rw [Nat.mod_mod, ← Nat.xor_mod_two_pow]
    _ = s := by rw [Nat.xor_xor_cancel_right, Nat.mod_eq_of_lt hs]

/-- For any other modulus some number is not restored. -/
theorem exists_not_restored {m : ℕ} (hpos : 0 < m) (hm : ∀ k, m ≠ 2 ^ k) :
    ∃ s < m, ∃ h < m, ((s ^^^ h) % m ^^^ h) % m ≠ s := by
  rcases between_two_pow hpos hm with ⟨k, hlow, hhigh⟩
  rw [Nat.pow_succ] at hhigh
  -- `s` is the top bit of `m` and `h` the rest of it, so the first remainder is zero
  have hxor : 2 ^ k ^^^ (m - 2 ^ k) = m := by
    rw [two_pow_xor (by omega)]
    omega
  refine ⟨2 ^ k, hlow, m - 2 ^ k, by omega, ?_⟩
  rw [hxor, Nat.mod_self, Nat.zero_xor, Nat.mod_eq_of_lt (by omega)]
  omega

/-! ## The Gray code -/

def gray (u : ℕ) : ℕ :=
  u / 2 ^^^ u

theorem gray_injective : Function.Injective gray := by
  intro u v huv
  -- the difference of `u` and `v` is its own half
  have hhalf : (u ^^^ v) / 2 = u ^^^ v := by
    have hzero : (u ^^^ v) / 2 ^^^ (u ^^^ v) = 0 := by
      calc (u ^^^ v) / 2 ^^^ (u ^^^ v)
          = u / 2 ^^^ v / 2 ^^^ (u ^^^ v) := by rw [Nat.xor_div_two]
        _ = gray u ^^^ gray v := by
              simp only [gray]
              ac_rfl
        _ = 0 := by rw [huv, Nat.xor_self]
    exact Nat.xor_eq_zero_iff.1 hzero
  exact Nat.xor_eq_zero_iff.1 (by omega)

/-- The largest number of `k + 1` bits has the top bit as its code. -/
theorem gray_two_pow_sub_one (k : ℕ) : gray (2 ^ (k + 1) - 1) = 2 ^ k := by
  have hpos := Nat.two_pow_pos k
  have hhalf : (2 ^ (k + 1) - 1) / 2 = 2 ^ k - 1 := by
    rw [Nat.pow_succ]
    omega
  have hsum : 2 ^ (k + 1) - 1 = 2 ^ k ^^^ (2 ^ k - 1) := by
    rw [two_pow_xor (by omega), Nat.pow_succ]
    omega
  rw [gray, hhalf, hsum, Nat.xor_comm (2 ^ k), Nat.xor_xor_cancel_left]

/-- **Above a number that is no power of two.** Were all codes of the numbers below `m` below `m`,
the code would permute them, but the top bit of `m` is the code of a larger number. -/
theorem exists_le_gray {m : ℕ} (hpos : 0 < m) (hm : ∀ k, m ≠ 2 ^ k) :
    ∃ u < m, m ≤ gray u := by
  rcases between_two_pow hpos hm with ⟨k, hlow, hhigh⟩
  by_contra hnot
  have hmaps : ∀ u ∈ Finset.range m, gray u ∈ Finset.range m := by
    intro u hu
    rw [Finset.mem_range] at hu ⊢
    exact lt_of_not_ge fun hge => hnot ⟨u, hu, hge⟩
  have hsurj := Finset.surjOn_of_injOn_of_card_le gray hmaps (gray_injective.injOn) le_rfl
  obtain ⟨u, hu, hgray⟩ := hsurj (Finset.mem_coe.2 (Finset.mem_range.2 hlow))
  obtain rfl : u = 2 ^ (k + 1) - 1 := gray_injective (hgray.trans (gray_two_pow_sub_one k).symm)
  have := Finset.mem_range.1 (Finset.mem_coe.1 hu)
  omega

end Xor
