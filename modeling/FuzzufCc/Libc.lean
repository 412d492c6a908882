import Mathlib.Algebra.Order.Ring.Int
import Mathlib.Data.List.TakeWhile

/-!
# Libc — environment strings and the parsing of decimal numbers

The parts of the C library that the passes and the runtimes use: `getenv`, `strtol` in base 10,
`atoi` and `strnlen`.  A C string is its list of characters, one for each byte.
-/

namespace FuzzufCc
namespace Libc

/-- A process environment, read by `getenv`. -/
abbrev Env := String → Option String

/-- `envvars.update(vars)`: later bindings win. -/
def Env.update (env : Env) (vars : List (String × String)) : Env :=
  vars.foldl (fun e kv => Function.update e kv.1 (some kv.2)) env

theorem Env.update_append (env : Env) (vars vars' : List (String × String)) :
    env.update (vars ++ vars') = (env.update vars).update vars' :=
  List.foldl_append

/-- After an update in which every key has one value `f key`. -/
theorem Env.update_apply (env : Env) {vars : List (String × String)} {f : String → String}
    (h : ∀ kv ∈ vars, kv.2 = f kv.1) (key : String) :
    env.update vars key = if key ∈ vars.map Prod.fst then some (f key) else env key := by
  induction vars generalizing env with
  | nil => rfl
  | cons kv vars ih =>
      rcases kv with ⟨k, v⟩
      have hv : v = f k := h (k, v) (by simp)
      rw [Env.update, List.foldl_cons, ← Env.update,
        ih (Function.update env k (some v)) fun kv hkv => h kv (List.mem_cons_of_mem _ hkv)]
      by_cases hmem : key ∈ vars.map Prod.fst
      · simp [hmem]
      · by_cases hkey : key = k
        · subst hkey
          simp [hmem, hv]
        · simp [hmem, hkey]

def LONG_MIN : Int := -2 ^ 63
def LONG_MAX : Int := 2 ^ 63 - 1

/-- `isspace` in the C locale. -/
def isspace (c : Char) : Bool :=
  c == ' ' || c == '\t' || c == '\n' || c == '\x0b' || c == '\x0c' || c == '\x0d'

/-- The optional sign: whether it is a minus, and the characters after it. -/
def takeSign : List Char → Bool × List Char
  | '-' :: s => (true, s)
  | '+' :: s => (false, s)
  | s => (false, s)

/-- A long, saturated at the limits of the type. -/
def saturate (n : Int) : Int :=
  max LONG_MIN (min LONG_MAX n)

/-- What `strtol(s, &end, 10)` returns, with `stop = end - s`. -/
structure StrtolResult where
  value : Int
  stop : Nat
  deriving DecidableEq, Repr

/-- `strtol` in base 10: blanks, an optional sign, digits.  Without digits nothing is consumed. -/
def strtol (s : List Char) : StrtolResult :=
  let afterBlanks := s.dropWhile isspace
  let (neg, afterSign) := takeSign afterBlanks
  let digits := afterSign.takeWhile Char.isDigit
  if digits.isEmpty then
    { value := 0, stop := 0 }
  else
    let n : Int := Nat.ofDigitChars 10 digits 0
    { value := saturate (if neg then -n else n)
      stop := s.length - afterSign.length + digits.length }

/-- `atoi`: `strtol` narrowed to a 32-bit `int`. -/
def atoi (s : List Char) : BitVec 32 :=
  BitVec.ofInt 32 (strtol s).value

def strnlen (s : List Char) (n : Nat) : Nat :=
  min s.length n

/-- `str(n)` of a Python integer. -/
def pyStr (n : Int) : String :=
  toString n

/-! ## Decimal texts -/

/-- A text of the form that `strtol` reads: blanks, an optional sign, digits. -/
structure IsNumber (blanks sign digits : List Char) : Prop where
  isspace : ∀ c ∈ blanks, isspace c = true
  isSign : sign = [] ∨ sign = ['-'] ∨ sign = ['+']
  isDigit : ∀ c ∈ digits, c.isDigit = true
  nonempty : digits ≠ []

/-- A digit is no blank and no sign. -/
theorem plain_of_isDigit {c : Char} (h : c.isDigit = true) :
    isspace c = false ∧ c ≠ '-' ∧ c ≠ '+' := by
  have hne : ∀ d : Char, d.isDigit = false → c ≠ d := by
    rintro d hd rfl
    simp [h] at hd
  refine ⟨?_, hne _ (by decide), hne _ (by decide)⟩
  simp only [isspace, Bool.or_eq_false_iff, beq_eq_false_iff_ne]
  exact ⟨⟨⟨⟨⟨hne _ (by decide), hne _ (by decide)⟩, hne _ (by decide)⟩, hne _ (by decide)⟩,
    hne _ (by decide)⟩, hne _ (by decide)⟩

/-- A prefix of characters in a class, up to one that is not. -/
theorem takeWhile_append {p : Char → Bool} {s rest : List Char} (hs : ∀ c ∈ s, p c = true)
    (hrest : ∀ c ∈ rest.head?, p c = false) : (s ++ rest).takeWhile p = s := by
  rw [List.takeWhile_append_of_pos hs]
  cases rest with
  | nil => simp
  | cons c rest => simp [hrest c (by simp)]

theorem takeSign_append {sign digits : List Char} (hsign : sign = [] ∨ sign = ['-'] ∨ sign = ['+'])
    (hdigits : ∀ c ∈ digits, c.isDigit = true) (hne : digits ≠ []) (rest : List Char) :
    takeSign (sign ++ (digits ++ rest)) = (decide (sign = ['-']), digits ++ rest) := by
  rcases hsign with rfl | rfl | rfl
  · obtain ⟨c, cs, rfl⟩ := List.exists_cons_of_ne_nil hne
    rcases plain_of_isDigit (hdigits c List.mem_cons_self) with ⟨-, hminus, hplus⟩
    simp only [List.nil_append, List.cons_append]
    unfold takeSign
    split
    · rename_i heq
      exact absurd (List.cons.inj heq).1 hminus
    · rename_i heq
      exact absurd (List.cons.inj heq).1 hplus
    · rfl
  · rfl
  · rfl

/-- `strtol` reads a number up to the first character that does not belong to it. -/
theorem strtol_number (rest : List Char) {blanks sign digits : List Char}
    (h : IsNumber blanks sign digits) (hrest : ∀ c ∈ rest.head?, c.isDigit = false) :
    strtol (blanks ++ (sign ++ (digits ++ rest))) = {
      value := saturate (if sign = ['-'] then -(Nat.ofDigitChars 10 digits 0 : Int)
        else Nat.ofDigitChars 10 digits 0)
      stop := (blanks ++ sign ++ digits).length } := by
  have hhead : ∀ c ∈ (sign ++ (digits ++ rest)).head?, isspace c = false := by
    obtain ⟨d, ds, hds⟩ := List.exists_cons_of_ne_nil h.nonempty
    have hd := plain_of_isDigit (h.isDigit d (by simp [hds]))
    rcases h.isSign with hsign | hsign | hsign <;> simp [hsign, hds, hd.1] <;> decide
  have hdrop : (blanks ++ (sign ++ (digits ++ rest))).dropWhile isspace =
      sign ++ (digits ++ rest) := by
    rw [List.dropWhile_append_of_pos h.isspace]
    cases hs : sign ++ (digits ++ rest) with
    | nil => rfl
    | cons c s => exact List.dropWhile_cons_of_neg (by simp [hhead c (by simp [hs])])
  have hne : digits.isEmpty = false := by simp [h.nonempty]
  simp only [strtol, hdrop, takeSign_append h.isSign h.isDigit h.nonempty,
    takeWhile_append h.isDigit hrest, hne, Bool.false_eq_true, if_false, decide_eq_true_eq,
    StrtolResult.mk.injEq, true_and, List.length_append]
  omega

/-- Every text begins with a number, or nothing of it is read. -/
theorem strtol_cases (s : List Char) :
    strtol s = { value := 0, stop := 0 } ∨
      ∃ blanks sign digits rest, IsNumber blanks sign digits ∧
        (∀ c ∈ rest.head?, c.isDigit = false) ∧ s = blanks ++ (sign ++ (digits ++ rest)) := by
  obtain ⟨sign, hsign, hsplit⟩ : ∃ sign, (sign = [] ∨ sign = ['-'] ∨ sign = ['+']) ∧
      s.dropWhile isspace = sign ++ (takeSign (s.dropWhile isspace)).2 := by
    unfold takeSign
    split
    · rename_i heq
      exact ⟨['-'], by simp, heq⟩
    · rename_i heq
      exact ⟨['+'], by simp, heq⟩
    · exact ⟨[], by simp, rfl⟩
  by_cases hdigits : (takeSign (s.dropWhile isspace)).2.takeWhile Char.isDigit = []
  · left
    simp [strtol, hdigits]
  · refine Or.inr ⟨s.takeWhile isspace, sign, _, (takeSign (s.dropWhile isspace)).2.dropWhile
      Char.isDigit, ⟨fun c hc => List.mem_takeWhile_imp hc, hsign,
        fun c hc => List.mem_takeWhile_imp hc, hdigits⟩, fun c hc => ?_, ?_⟩
    · have hnot := List.head?_dropWhile_not Char.isDigit (takeSign (s.dropWhile Libc.isspace)).2
      rw [Option.mem_def.1 hc] at hnot
      exact hnot
    · rw [List.takeWhile_append_dropWhile, ← hsplit, List.takeWhile_append_dropWhile]

/-- `strtol` on the digits of a number consumes them all. -/
theorem strtol_toDigits (n : Nat) :
    strtol (Nat.toDigits 10 n) = { value := saturate n, stop := (Nat.toDigits 10 n).length } := by
  have hnumber : IsNumber [] [] (Nat.toDigits 10 n) :=
    ⟨by simp, Or.inl rfl, fun d hd => Nat.isDigit_of_mem_toDigits (by decide) (by decide) hd,
      Nat.toDigits_ne_nil⟩
  simpa [Nat.ofDigitChars_ten_toDigits] using strtol_number [] hnumber (by simp)

theorem toList_pyStr_ofNat (n : Nat) : (pyStr n).toList = Nat.toDigits 10 n := by
  show (toString (n : Int)).toList = _
  rw [show toString (n : Int) = n.repr from rfl, Nat.toList_repr]

theorem toList_pyStr_negSucc (n : Nat) :
    (pyStr (Int.negSucc n)).toList = '-' :: Nat.toDigits 10 (n + 1) := by
  show (toString (Int.negSucc n)).toList = _
  rw [show toString (Int.negSucc n) = "-" ++ (n + 1).repr from rfl, String.toList_append,
    Nat.toList_repr]
  rfl

/-- `strtol` reads the decimal text of every integer, up to the limits of a long. -/
theorem strtol_pyStr (m : Int) : (strtol (pyStr m).toList).value = saturate m := by
  cases m with
  | ofNat n =>
      rw [Int.ofNat_eq_natCast, toList_pyStr_ofNat, strtol_toDigits]
  | negSucc n =>
      have hnumber : IsNumber [] ['-'] (Nat.toDigits 10 (n + 1)) :=
        ⟨by simp, Or.inr (Or.inl rfl),
          fun d hd => Nat.isDigit_of_mem_toDigits (by decide) (by decide) hd, Nat.toDigits_ne_nil⟩
      have hread := strtol_number [] hnumber (by simp)
      rw [List.append_nil, List.nil_append] at hread
      rw [toList_pyStr_negSucc, ← List.singleton_append, hread, if_pos rfl,
        Nat.ofDigitChars_ten_toDigits]
      rfl

/-- `atoi` of the decimal text of an integer: its low 32 bits, once it is saturated. -/
theorem atoi_pyStr_eq (m : Int) : atoi (pyStr m).toList = BitVec.ofInt 32 (saturate m) := by
  rw [atoi, strtol_pyStr]

/-- `atoi` reads back the decimal text of every natural number that fits an `int`. -/
theorem atoi_pyStr {n : Nat} (h : n < 2 ^ 31) : atoi (pyStr n).toList = BitVec.ofNat 32 n := by
  have hsat : saturate n = n := by
    simp only [saturate, LONG_MIN, LONG_MAX]
    omega
  rw [atoi_pyStr_eq, hsat, BitVec.ofInt_natCast]

end Libc
end FuzzufCc
