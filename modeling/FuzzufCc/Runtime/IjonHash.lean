import FuzzufCc.Lib.Mixing
import FuzzufCc.Runtime.IjonCalls

/-!
# IjonHash — the hashes and the distances of the IJON runtime

The hashes of `features/ijon/ijon-llvm-rt.o.c` name the counters of a program, so what they lose is
what the feedback cannot tell apart.  `ijon_simple_hash` loses nothing, `ijon_hashint` keeps the low
half of it, and the hash of a stack keeps of each frame whether it occurs an odd number of times.
The two distances are lengths of common prefixes, and look at no byte behind the first difference.
-/

namespace FuzzufCc

open Libc IR

namespace Runtime
namespace Ijon

/-! ## Hashes -/

theorem simpleHash_bijective : Function.Bijective simpleHash := by
  have hfirst : (0xbf58476d1ce4e5b9 : BitVec 64) * 0x96de1b173f119089 = 1 := by decide
  have hsecond : (0x94d049bb133111eb : BitVec 64) * 0x319642b2d24d8ec3 = 1 := by decide
  have h30 := Mixing.xorshift_injective (w := 64) (k := 30) (by decide)
  have h27 := Mixing.xorshift_injective (w := 64) (k := 27) (by decide)
  have h31 := Mixing.xorshift_injective (w := 64) (k := 31) (by decide)
  have hall := h31.comp ((Mixing.mul_injective hsecond).comp
    (h27.comp ((Mixing.mul_injective hfirst).comp h30)))
  exact Mixing.bijective hall

theorem or_eq_append (old val : BitVec 32) :
    (old.setWidth 64 <<< 32) ||| val.setWidth 64 = old ++ val := by
  have hold := old.isLt
  have hval := val.isLt
  refine BitVec.eq_of_toNat_eq ?_
  rw [BitVec.toNat_or, BitVec.toNat_shiftLeft, BitVec.toNat_setWidth, BitVec.toNat_setWidth,
    BitVec.toNat_append, Nat.mod_eq_of_lt (by omega : old.toNat < 2 ^ 64),
    Nat.mod_eq_of_lt (by omega : val.toNat < 2 ^ 64), Nat.shiftLeft_eq,
    Nat.mod_eq_of_lt (by omega : old.toNat * 2 ^ 32 < 2 ^ 64)]

/-- **Balance.** Every hash has as many pairs of arguments as every other. -/
theorem hashint_balanced (h : BitVec 32) :
    Nat.card {p : BitVec 32 × BitVec 32 // hashint p.1 p.2 = h} = 2 ^ 32 := by
  have hbij : Function.Bijective fun p : BitVec 32 × BitVec 32 => simpleHash (p.1 ++ p.2) :=
    simpleHash_bijective.comp Mixing.append_bijective
  have hcard := Mixing.card_low (v := 32) (w := 32) hbij h
  simpa only [hashint, or_eq_append] using hcard

/-- **Stacks.** Two stacks in which the same frames occur an odd number of times, in whatever order,
have the same hash. -/
theorem hashstack_parity {stack stack' : List (BitVec 64)} (h : stack.length < 16)
    (h' : stack'.length < 16) (hparity : ∀ frame, stack.count frame % 2 = stack'.count frame % 2) :
    hashstack stack = hashstack stack' := by
  have hxor : Mixing.xorOf simpleHash stack = Mixing.xorOf simpleHash stack' :=
    Mixing.xorOf_eq_of_parity simpleHash hparity
  have htake : stack.take 16 = stack := List.take_of_length_le (by omega)
  have htake' : stack'.take 16 = stack' := List.take_of_length_le (by omega)
  simp only [hashstack, backtrace, htake, htake', h, h', if_true]
  rw [Except.ok.injEq]
  exact congrArg (BitVec.setWidth 32) hxor

/-- A function that calls itself once more leaves the hash of its caller. -/
theorem recursion_hashstack : hashstack [7, 7, 4] = hashstack [4] := by
  refine hashstack_parity (by decide) (by decide) fun frame => ?_
  simp only [List.count_cons, List.count_nil]
  split <;> split <;> omega

/-- The loop of `ijon_hashmem`; a `char` is signed, and `none` is a read behind the bytes. -/
def hashBytes : BitVec 32 → List (BitVec 8) → Nat → Option (BitVec 32)
  | old, _, 0 => some old
  | old, b :: bs, len + 1 => hashBytes (hashint old (b.signExtend 32)) bs len
  | _, [], _ + 1 => none

def hashmem (old : BitVec 32) (val : List (BitVec 8)) (len : Nat) : Option (BitVec 32) :=
  hashBytes (hashint old (BitVec.ofNat 32 len)) val len

def strlen : List (BitVec 8) → Option Nat
  | [] => none
  | b :: bs => if b = 0 then some 0 else (strlen bs).map (· + 1)

def hashstr (old : BitVec 32) (val : List (BitVec 8)) : Option (BitVec 32) :=
  (strlen val).bind (hashmem old val)

theorem hashBytes_append (old : BitVec 32) (x r : List (BitVec 8)) :
    hashBytes old (x ++ r) x.length =
      some (x.foldl (fun h b => hashint h (b.signExtend 32)) old) := by
  induction x generalizing old with
  | nil => simp [hashBytes]
  | cons b x ih => exact ih (hashint old (b.signExtend 32))

theorem strlen_terminated {x : List (BitVec 8)} (hx : 0 ∉ x) (r : List (BitVec 8)) :
    strlen (x ++ 0 :: r) = some x.length := by
  induction x with
  | nil => simp [strlen]
  | cons b x ih =>
      have hb : b ≠ 0#8 := (List.ne_of_not_mem_cons hx).symm
      have hrest := ih (List.not_mem_of_not_mem_cons hx)
      simpa [strlen, hb] using hrest

/-- On a string that ends, `ijon_hashstr` reads inside it, and hashes its length and then its
bytes. -/
theorem hashstr_terminated (old : BitVec 32) {x : List (BitVec 8)} (hx : 0 ∉ x)
    (r : List (BitVec 8)) :
    hashstr old (x ++ 0 :: r) = some (x.foldl (fun h b => hashint h (b.signExtend 32))
      (hashint old (BitVec.ofNat 32 x.length))) := by
  rw [hashstr, strlen_terminated hx, Option.bind_some, hashmem, hashBytes_append]

/-! ## Distances -/

section Distances

/-- The length of the common prefix. -/
def commonLength {α : Type} [DecidableEq α] : List α → List α → Nat
  | a :: as, b :: bs => if a = b then commonLength as bs + 1 else 0
  | _, _ => 0

/-- The loop of `ijon_strdist`, where the lists are what the pointers lead to and `i` is the `int`
that counts.  `none` is undefined: a read behind the lists, or an overflow of `i`. -/
def strdistLoop : List (BitVec 8) → List (BitVec 8) → BitVec 32 → Option (BitVec 32)
  | [], _, _ => none
  | a :: as, bs, i =>
      if a = 0 then some i
      else
        match bs with
        | [] => none
        | b :: bs =>
            if b = 0 then some i
            else if a = b then
              if i = 0x7fffffff then none else strdistLoop as bs (i + 1)
            else some i

/-- `ijon_strdist`. -/
def strdistBytes (as bs : List (BitVec 8)) : Option (BitVec 32) :=
  strdistLoop as bs 0

/-- The loop of `ijon_memdist`.  The result loses the upper half of the `size_t`. -/
def memdistLoop (len : BitVec 64) :
    List (BitVec 8) → List (BitVec 8) → BitVec 64 → Option (BitVec 32)
  | a :: as, b :: bs, i =>
      if i < len then
        if a = b then memdistLoop len as bs (i + 1) else some (i.setWidth 32)
      else some (i.setWidth 32)
  | _, _, i => if i < len then none else some (i.setWidth 32)

/-- `ijon_memdist`. -/
def memdistBytes (as bs : List (BitVec 8)) (len : BitVec 64) : Option (BitVec 32) :=
  memdistLoop len as bs 0

/-- The characters of strings are compared as bytes are. -/
theorem strdist_eq_commonLength (x y : List Char) :
    strdist x y = BitVec.ofNat 32 (commonLength x y) := by
  induction x generalizing y with
  | nil => rfl
  | cons a x ih =>
      cases y with
      | nil => rfl
      | cons b y =>
          by_cases hab : a = b
          · simp [strdist, commonLength, hab, ih, BitVec.ofNat_add]
          · simp [strdist, commonLength, hab]

variable {α : Type} [DecidableEq α]

/-- **The common prefix.** Two lists agree on exactly the prefixes of at most that length. -/
theorem le_commonLength_iff {as bs : List α} {n : Nat} :
    n ≤ commonLength as bs ↔ n ≤ as.length ∧ n ≤ bs.length ∧ as.take n = bs.take n := by
  induction as generalizing bs n with
  | nil => cases n <;> simp [commonLength]
  | cons a as ih =>
      cases bs with
      | nil => cases n <;> simp [commonLength]
      | cons b bs =>
          cases n with
          | zero => simp
          | succ n =>
              by_cases hab : a = b
              · simp [commonLength, hab, ih]
              · simp [commonLength, hab]

/-- On strings that end, `ijon_strdist` reads inside both of them. -/
theorem strdistLoop_terminated {x y : List (BitVec 8)} (hx : 0 ∉ x) (hy : 0 ∉ y)
    (r r' : List (BitVec 8)) {i : BitVec 32} (hi : i.toNat + commonLength x y < 2 ^ 31) :
    strdistLoop (x ++ 0 :: r) (y ++ 0 :: r') i = some (i + BitVec.ofNat 32 (commonLength x y)) := by
  induction x generalizing y i with
  | nil => simp [strdistLoop, commonLength]
  | cons a x ih =>
      have ha : a ≠ 0#8 := (List.ne_of_not_mem_cons hx).symm
      have hx' := List.not_mem_of_not_mem_cons hx
      cases y with
      | nil => simp [strdistLoop, commonLength]
      | cons b y =>
          have hb : b ≠ 0#8 := (List.ne_of_not_mem_cons hy).symm
          have hy' := List.not_mem_of_not_mem_cons hy
          by_cases hab : a = b
          · subst hab
            simp only [commonLength, if_true] at hi ⊢
            -- the count is below that of the whole prefix
            have hlast : i ≠ 0x7fffffff#32 := by
              rintro rfl
              simp at hi
              omega
            have hnext : (i + 1).toNat = i.toNat + 1 := by
              rw [BitVec.toNat_add]
              simp
              omega
            have hrest := ih hx' hy' (i := i + 1) (by omega)
            simp only [BitVec.ofNat_eq_ofNat] at hrest
            have hsum : i + BitVec.ofNat 32 (commonLength x y + 1) =
                i + 1 + BitVec.ofNat 32 (commonLength x y) := by
              rw [Nat.add_comm, BitVec.ofNat_add, ← BitVec.add_assoc]
              rfl
            rw [hsum]
            simp [strdistLoop, ha, hlast, hrest]
          · simp [strdistLoop, commonLength, ha, hb, hab]

/-- `ijon_memdist` reads up to the first difference, or up to the length it is given. -/
theorem memdistLoop_eq {as bs : List (BitVec 8)} {len i : BitVec 64} (hi : i.toNat ≤ len.toNat)
    (hreads : len.toNat - i.toNat ≤ commonLength as bs ∨
      commonLength as bs < as.length ∧ commonLength as bs < bs.length) :
    memdistLoop len as bs i = some ((i + BitVec.ofNat 64
      (min (len.toNat - i.toNat) (commonLength as bs))).setWidth 32) := by
  induction as generalizing bs i with
  | nil =>
      -- nothing is left to read, and nothing is read
      have hend : ¬i < len := by
        simp only [commonLength, List.length_nil] at hreads
        rw [BitVec.lt_def]
        omega
      simp [memdistLoop, hend, commonLength]
  | cons a as ih =>
      cases bs with
      | nil =>
          have hend : ¬i < len := by
            simp only [commonLength, List.length_nil] at hreads
            rw [BitVec.lt_def]
            omega
          simp [memdistLoop, hend, commonLength]
      | cons b bs =>
          by_cases hlt : i < len
          · have hltNat := BitVec.lt_def.1 hlt
            by_cases hab : a = b
            · subst hab
              have hnext : (i + 1).toNat = i.toNat + 1 := by
                rw [BitVec.toNat_add, Nat.mod_eq_of_lt]
                · rfl
                · have := len.isLt
                  simp
                  omega
              simp only [commonLength, if_true, List.length_cons] at hreads ⊢
              have hrest : memdistLoop len as bs (i + 1) = some ((i + 1 + BitVec.ofNat 64
                  (min (len.toNat - (i + 1).toNat) (commonLength as bs))).setWidth 32) :=
                ih (by omega) (by omega)
              have hmin : min (len.toNat - i.toNat) (commonLength as bs + 1) =
                  1 + min (len.toNat - (i + 1).toNat) (commonLength as bs) := by
                omega
              have hsum : i + BitVec.ofNat 64 (min (len.toNat - i.toNat) (commonLength as bs + 1)) =
                  i + 1 +
                    BitVec.ofNat 64 (min (len.toNat - (i + 1).toNat) (commonLength as bs)) := by
                rw [hmin, BitVec.ofNat_add, ← BitVec.add_assoc]
                rfl
              rw [hsum, ← hrest]
              simp [memdistLoop, hlt]
            · simp [memdistLoop, commonLength, hlt, hab]
          · have hend : len.toNat - i.toNat = 0 := by
              have := mt BitVec.lt_def.2 hlt
              omega
            simp [memdistLoop, hlt, hend]

/-- What stands behind two lists does not matter before the end of the shorter one. -/
theorem min_commonLength_append (x y r r' : List α) :
    min (min x.length y.length) (commonLength (x ++ r) (y ++ r')) = commonLength x y := by
  refine eq_of_forall_le_iff fun n => ?_
  rw [le_min_iff, le_min_iff, le_commonLength_iff, le_commonLength_iff]
  constructor
  · rintro ⟨⟨hx, hy⟩, -, -, htake⟩
    rw [List.take_append_of_le_length hx, List.take_append_of_le_length hy] at htake
    exact ⟨hx, hy, htake⟩
  · rintro ⟨hx, hy, htake⟩
    refine ⟨⟨hx, hy⟩, ?_, ?_, ?_⟩
    · rw [List.length_append]
      omega
    · rw [List.length_append]
      omega
    · rw [List.take_append_of_le_length hx, List.take_append_of_le_length hy]
      exact htake

/-- **Distances.** On strings that end, whatever lies behind them, both functions read inside the
strings and their ends, and return the length of the longest prefix that the strings share, as long
as an `int` can count it. -/
theorem distances_agree {x y : List (BitVec 8)} (hx : 0 ∉ x) (hy : 0 ∉ y)
    (hcommon : commonLength x y < 2 ^ 31) (hlen : min x.length y.length < 2 ^ 64)
    (r r' : List (BitVec 8)) :
    ∃ d, strdistBytes (x ++ 0 :: r) (y ++ 0 :: r') = some d ∧
      memdistBytes (x ++ 0 :: r) (y ++ 0 :: r') (BitVec.ofNat 64 (min x.length y.length)) = some d ∧
      ∀ n, n ≤ d.toNat ↔ n ≤ x.length ∧ n ≤ y.length ∧ x.take n = y.take n := by
  refine ⟨BitVec.ofNat 32 (commonLength x y), ?_, ?_, fun n => ?_⟩
  · rw [strdistBytes, strdistLoop_terminated hx hy r r' (by simpa using hcommon)]
    simp
  · have hlen' : (BitVec.ofNat 64 (min x.length y.length)).toNat = min x.length y.length := by
      rw [BitVec.toNat_ofNat, Nat.mod_eq_of_lt hlen]
    have hstart : (0 : BitVec 64).toNat = 0 := rfl
    have hmin : min ((BitVec.ofNat 64 (min x.length y.length)).toNat - (0 : BitVec 64).toNat)
        (commonLength (x ++ 0 :: r) (y ++ 0 :: r')) = commonLength x y := by
      rw [hlen', hstart, Nat.sub_zero]
      exact min_commonLength_append x y _ _
    have hcut : (0 + BitVec.ofNat 64 (commonLength x y)).setWidth 32 =
        BitVec.ofNat 32 (commonLength x y) := by
      apply BitVec.eq_of_toNat_eq
      simp
    rw [memdistBytes, memdistLoop_eq (Nat.zero_le _) ?_, hmin, hcut]
    · rw [hlen', hstart, Nat.sub_zero]
      rcases le_or_gt (min x.length y.length) (commonLength (x ++ 0 :: r) (y ++ 0 :: r'))
        with h | h
      · exact Or.inl h
      · -- the first difference is inside both strings
        simp only [List.length_append, List.length_cons]
        omega
  · rw [BitVec.toNat_ofNat, Nat.mod_eq_of_lt (by omega)]
    exact le_commonLength_iff

/-- The strings `ab` and `ac`, with other bytes behind them. -/
theorem twoStrings_distance :
    ∃ d, strdistBytes [97, 98, 0, 5] [97, 99, 0] = some d ∧
      memdistBytes [97, 98, 0, 5] [97, 99, 0] 2 = some d ∧ 1 ≤ d.toNat ∧ ¬ 2 ≤ d.toNat := by
  obtain ⟨d, hstr, hmem, hd⟩ :=
    distances_agree (x := [97, 98]) (y := [97, 99]) (by decide) (by decide) (by decide) (by decide)
      [5] []
  exact ⟨d, hstr, hmem, (hd 1).2 (by decide), fun h => absurd ((hd 2).1 h) (by decide)⟩

end Distances

end Ijon
end Runtime
end FuzzufCc
