import Mathlib.Data.BitVec
import Mathlib.Data.Fintype.EquivFin
import Mathlib.SetTheory.Cardinal.Finite

/-!
# Mixing — bijections of machine words, and xor over lists

The steps from which hash functions of words are made: a word xor its own shift to the right, and
the product with an odd constant.  Both are bijections.  The low bits of a bijection take each value
equally often, and the xor of a list tells of each element only whether it occurs an odd number of
times.
-/

namespace Mixing

section Words

variable {w : Nat}

instance finite_bitVec : Finite (BitVec w) :=
  Finite.of_equiv (Fin (2 ^ w)) BitVec.equivFin.symm.toEquiv

/-- A word and its shift differ in the top bits only where they are zero. -/
theorem eq_zero_of_ushiftRight_eq {d : BitVec w} {k : Nat} (hk : 0 < k) (h : d >>> k = d) :
    d = 0 := by
  have hdiv : d.toNat / 2 ^ k = d.toNat := by
    rw [← Nat.shiftRight_eq_div_pow, ← BitVec.toNat_ushiftRight, h]
  have hone : 1 < 2 ^ k := Nat.one_lt_two_pow hk.ne'
  refine BitVec.eq_of_toNat_eq ?_
  by_contra hne
  have hlt := Nat.div_lt_self (Nat.pos_of_ne_zero hne) hone
  omega

theorem xorshift_injective {k : Nat} (hk : 0 < k) :
    Function.Injective fun x : BitVec w => x ^^^ (x >>> k) := by
  intro x y hxy
  have hdiff : (x ^^^ y) >>> k = x ^^^ y := by
    rw [BitVec.ushiftRight_xor_distrib]
    have hsame : x ^^^ x >>> k = y ^^^ y >>> k := hxy
    calc x >>> k ^^^ y >>> k
        = (x ^^^ x) ^^^ (y ^^^ y) ^^^ (x >>> k ^^^ y >>> k) := by simp
      _ = (x ^^^ x >>> k) ^^^ (y ^^^ y >>> k) ^^^ (x ^^^ y) := by ac_rfl
      _ = x ^^^ y := by rw [hsame, BitVec.xor_self, BitVec.zero_xor]
  exact BitVec.xor_eq_zero_iff.1 (eq_zero_of_ushiftRight_eq hk hdiff)

/-- A constant with an inverse. -/
theorem mul_injective {c d : BitVec w} (h : c * d = 1) :
    Function.Injective fun x : BitVec w => x * c := by
  intro x y hxy
  have hxy' : x * c = y * c := hxy
  calc x = x * (c * d) := by rw [h, mul_one]
    _ = y * (c * d) := by rw [← mul_assoc, hxy', mul_assoc]
    _ = y := by rw [h, mul_one]

theorem bijective {f : BitVec w → BitVec w} (h : Function.Injective f) : Function.Bijective f :=
  Finite.injective_iff_bijective.1 h

theorem toNat_append {v : Nat} (x : BitVec v) (y : BitVec w) :
    (x ++ y).toNat = x.toNat * 2 ^ w + y.toNat := by
  rw [BitVec.toNat_append, ← Nat.shiftLeft_add_eq_or_of_lt y.isLt, Nat.shiftLeft_eq]

/-- Two parts make a word in one way. -/
theorem append_bijective {v : Nat} :
    Function.Bijective fun p : BitVec v × BitVec w => p.1 ++ p.2 := by
  constructor
  · rintro ⟨x, y⟩ ⟨x', y'⟩ h
    have hnat : x.toNat * 2 ^ w + y.toNat = x'.toNat * 2 ^ w + y'.toNat := by
      rw [← toNat_append, ← toNat_append]
      exact congrArg BitVec.toNat h
    have hpos := Nat.two_pow_pos w
    have hlow : y.toNat = y'.toNat := by
      have hmod := congrArg (· % 2 ^ w) hnat
      simpa [Nat.mul_add_mod', Nat.mod_eq_of_lt y.isLt, Nat.mod_eq_of_lt y'.isLt] using hmod
    have hhigh : x.toNat = x'.toNat := by
      rw [hlow] at hnat
      exact Nat.eq_of_mul_eq_mul_right hpos (Nat.add_right_cancel hnat)
    rw [BitVec.eq_of_toNat_eq hhigh, BitVec.eq_of_toNat_eq hlow]
  · intro z
    have hz : z.toNat / 2 ^ w < 2 ^ v := by
      rw [Nat.div_lt_iff_lt_mul (Nat.two_pow_pos w), ← Nat.pow_add]
      exact z.isLt
    refine ⟨(BitVec.ofNat v (z.toNat / 2 ^ w), BitVec.ofNat w (z.toNat % 2 ^ w)), ?_⟩
    refine BitVec.eq_of_toNat_eq ?_
    rw [toNat_append, BitVec.toNat_ofNat, BitVec.toNat_ofNat, Nat.mod_eq_of_lt hz, Nat.mod_mod]
    exact Nat.div_add_mod' _ _

theorem setWidth_append {v : Nat} (x : BitVec v) (y : BitVec w) : (x ++ y).setWidth w = y := by
  refine BitVec.eq_of_toNat_eq ?_
  rw [BitVec.toNat_setWidth, toNat_append, Nat.mul_add_mod', Nat.mod_eq_of_lt y.isLt]

/-- **The low bits of a bijection are balanced.** -/
theorem card_low {α : Type*} {v : Nat} {f : α → BitVec (v + w)} (hf : Function.Bijective f)
    (y : BitVec w) : Nat.card {a // (f a).setWidth w = y} = 2 ^ v := by
  -- the fibre is the set of high parts
  have hfibre : Function.Bijective fun x : BitVec v =>
      (⟨x ++ y, setWidth_append x y⟩ : {z : BitVec (v + w) // z.setWidth w = y}) := by
    constructor
    · intro x x' h
      have happend : x ++ y = x' ++ y := congrArg Subtype.val h
      have hpair : (x, y) = (x', y) := append_bijective.1 happend
      exact congrArg Prod.fst hpair
    · rintro ⟨z, hz⟩
      rcases append_bijective.2 z with ⟨⟨x, y'⟩, rfl⟩
      have hy : y' = y := (setWidth_append x y').symm.trans hz
      subst hy
      exact ⟨x, rfl⟩
  have hcard : Nat.card {a // (f a).setWidth w = y} =
      Nat.card {z : BitVec (v + w) // z.setWidth w = y} :=
    Nat.card_congr ((Equiv.ofBijective f hf).subtypeEquiv fun _ => Iff.rfl)
  rw [hcard, ← Nat.card_congr (Equiv.ofBijective _ hfibre),
    Nat.card_congr BitVec.equivFin.toEquiv, Nat.card_fin]

end Words

/-! ## Xor over a list -/

section Lists

variable {α : Type*} {w : Nat} (f : α → BitVec w)

/-- The xor of the words of all elements. -/
def xorOf (l : List α) : BitVec w :=
  l.foldl (fun r a => r ^^^ f a) 0#w

theorem foldl_xor (r : BitVec w) (l : List α) :
    l.foldl (fun r a => r ^^^ f a) r = r ^^^ xorOf f l := by
  induction l generalizing r with
  | nil => simp [xorOf]
  | cons a l ih =>
      rw [xorOf, List.foldl_cons, List.foldl_cons, ih, ih, BitVec.zero_xor, BitVec.xor_assoc]

theorem xorOf_cons (a : α) (l : List α) : xorOf f (a :: l) = f a ^^^ xorOf f l := by
  rw [xorOf, List.foldl_cons, foldl_xor, BitVec.zero_xor]

theorem xorOf_append (l m : List α) : xorOf f (l ++ m) = xorOf f l ^^^ xorOf f m := by
  rw [xorOf, List.foldl_append, foldl_xor]
  rfl

theorem xorOf_perm {l m : List α} (h : l.Perm m) : xorOf f l = xorOf f m := by
  induction h with
  | nil => rfl
  | cons a _ ih => rw [xorOf_cons, xorOf_cons, ih]
  | swap a b l =>
      simp only [xorOf_cons]
      ac_rfl
  | trans _ _ ih ih' => exact ih.trans ih'

variable [DecidableEq α]

/-- Elements cancel in pairs. -/
theorem xorOf_eq_zero {l : List α} (h : ∀ a, l.count a % 2 = 0) : xorOf f l = 0 := by
  induction hn : l.length using Nat.strong_induction_on generalizing l with
  | _ n ih =>
      cases l with
      | nil => rfl
      | cons a l =>
          -- the element occurs again
          have hmem : a ∈ l := by
            have heven := h a
            rw [List.count_cons_self] at heven
            exact List.count_pos_iff.1 (by omega)
          have hperm := List.perm_cons_erase hmem
          have hrest : xorOf f (l.erase a) = 0 := by
            refine ih (l.erase a).length ?_ (fun b => ?_) rfl
            · have hlen := hperm.length_eq
              simp only [List.length_cons] at hlen hn
              omega
            · have heven := h b
              rw [List.count_cons, hperm.count_eq, List.count_cons] at heven
              split at heven <;> omega
          rw [xorOf_cons, xorOf_perm f hperm, xorOf_cons, hrest]
          simp

/-- **Parity.** The xor depends on the elements that occur an odd number of times only. -/
theorem xorOf_eq_of_parity {l m : List α} (h : ∀ a, l.count a % 2 = m.count a % 2) :
    xorOf f l = xorOf f m := by
  have hzero : xorOf f (l ++ m) = 0 := by
    refine xorOf_eq_zero f fun a => ?_
    have ha := h a
    rw [List.count_append]
    omega
  rw [xorOf_append] at hzero
  exact BitVec.xor_eq_zero_iff.1 hzero

end Lists

end Mixing
