import Mathlib.Data.List.Basic

/-!
# Json — texts of JSON values, and what they read back as

The writer escapes every UTF-16 code unit that is no printable ASCII character, so that a text is
the same bytes in every encoding that extends ASCII.  The reader follows the grammar of the format,
with blanks between the tokens.
-/

namespace Json

inductive Value
  | null
  | int (n : Int)
  | str (s : String)
  | obj (members : List (String × Value))

/-- The member of an object, the first one if there are several of that key. -/
def Value.get? : Value → String → Option Value
  | .obj members, key => members.lookup key
  | _, _ => none

/-- The value at the end of a path of keys. -/
def Value.at? (v : Value) (path : List String) : Option Value :=
  path.foldlM Value.get? v

theorem Value.at?_append (v : Value) (path path' : List String) :
    v.at? (path ++ path') = (v.at? path).bind fun w => w.at? path' :=
  List.foldlM_append

theorem Value.at?_singleton (v : Value) (key : String) : v.at? [key] = v.get? key := by
  rw [at?, List.foldlM_cons]
  exact bind_pure (v.get? key)

theorem Value.at?_pair (v : Value) (key key' : String) :
    v.at? [key, key'] = (v.get? key).bind fun w => w.get? key' := by
  simp only [← at?_singleton]
  exact at?_append v [key] [key']

/-! ## UTF-16 -/

def utf16 (c : Char) : List Nat :=
  if c.toNat < 0x10000 then
    [c.toNat]
  else
    [0xd800 + (c.toNat - 0x10000) / 0x400, 0xdc00 + (c.toNat - 0x10000) % 0x400]

/-- A surrogate that belongs to no pair is no character. -/
def ofUtf16 : List Nat → Option (List Char)
  | [] => some []
  | u :: us =>
      if u < 0xd800 ∨ 0xe000 ≤ u then
        (ofUtf16 us).map (Char.ofNat u :: ·)
      else
        match us with
        | [] => none
        | v :: us =>
            if u < 0xdc00 ∧ 0xdc00 ≤ v ∧ v < 0xe000 then
              (ofUtf16 us).map (Char.ofNat (0x10000 + (u - 0xd800) * 0x400 + (v - 0xdc00)) :: ·)
            else none

theorem toNat_cases (c : Char) :
    c.toNat < 0xd800 ∨ 0xe000 ≤ c.toNat ∧ c.toNat < 0x110000 := by
  have hvalid : c.toNat < 0xd800 ∨ 0xdfff < c.toNat ∧ c.toNat < 0x110000 := c.valid
  omega

theorem toNat_ofNat {u : Nat} (h : u.isValidChar) : (Char.ofNat u).toNat = u := by
  rw [Char.ofNat, dif_pos h]
  rfl

theorem utf16_lt {c : Char} {u : Nat} (h : u ∈ utf16 c) : u < 0x10000 := by
  have hc := toNat_cases c
  unfold utf16 at h
  split at h
  · simp only [List.mem_singleton] at h
    omega
  · simp only [List.mem_cons, List.not_mem_nil, or_false] at h
    omega

theorem ofUtf16_plain {u : Nat} (h : u < 0xd800 ∨ 0xe000 ≤ u) (us : List Nat) :
    ofUtf16 (u :: us) = (ofUtf16 us).map (Char.ofNat u :: ·) := by
  rw [ofUtf16.eq_def]
  simp only [h, if_true]

theorem ofUtf16_pair {u v : Nat} (hu : ¬ (u < 0xd800 ∨ 0xe000 ≤ u))
    (h : u < 0xdc00 ∧ 0xdc00 ≤ v ∧ v < 0xe000) (us : List Nat) :
    ofUtf16 (u :: v :: us) =
      (ofUtf16 us).map (Char.ofNat (0x10000 + (u - 0xd800) * 0x400 + (v - 0xdc00)) :: ·) := by
  rw [ofUtf16.eq_def]
  simp only [hu, h, and_self, if_false, if_true]

theorem ofUtf16_utf16 (c : Char) (us : List Nat) :
    ofUtf16 (utf16 c ++ us) = (ofUtf16 us).map (c :: ·) := by
  have hc := toNat_cases c
  by_cases hsmall : c.toNat < 0x10000
  · rw [utf16, if_pos hsmall, List.singleton_append, ofUtf16_plain (by omega), Char.ofNat_toNat]
  · -- the two surrogates hold the twenty bits above the first plane
    have hback : 0x10000 + (0xd800 + (c.toNat - 0x10000) / 0x400 - 0xd800) * 0x400 +
        (0xdc00 + (c.toNat - 0x10000) % 0x400 - 0xdc00) = c.toNat := by omega
    rw [utf16, if_neg hsmall, List.cons_append, List.singleton_append,
      ofUtf16_pair (by omega) (by omega), hback, Char.ofNat_toNat]

/-! ## Strings -/

/-- The code units with an escape of their own. -/
def shortEscapes : List (Nat × Char) :=
  [(0x22, '"'), (0x5c, '\\'), (0x08, 'b'), (0x0c, 'f'), (0x0a, 'n'), (0x0d, 'r'), (0x09, 't')]

def hex4 (u : Nat) : List Char :=
  [(u / 0x1000 % 16).digitChar, (u / 0x100 % 16).digitChar, (u / 0x10 % 16).digitChar,
    (u % 16).digitChar]

def escapeUnit (u : Nat) : List Char :=
  match shortEscapes.lookup u with
  | some e => ['\\', e]
  | none => if 0x20 ≤ u ∧ u ≤ 0x7e then [Char.ofNat u] else '\\' :: 'u' :: hex4 u

def dumpString (s : String) : List Char :=
  '"' :: (s.toList.flatMap fun c => (utf16 c).flatMap escapeUnit) ++ ['"']

def hexValue (c : Char) : Option Nat :=
  if c.isDigit then some (c.toNat - '0'.toNat)
  else if 'a' ≤ c ∧ c ≤ 'f' then some (c.toNat - 'a'.toNat + 10)
  else if 'A' ≤ c ∧ c ≤ 'F' then some (c.toNat - 'A'.toNat + 10)
  else none

def readHex4 (a b c d : Char) : Option Nat := do
  let a ← hexValue a
  let b ← hexValue b
  let c ← hexValue c
  let d ← hexValue d
  return a * 0x1000 + b * 0x100 + c * 0x10 + d

/-- The unit that a backslash and this character stand for. -/
def readShort (e : Char) : Option Nat :=
  if e = '/' then some '/'.toNat
  else (shortEscapes.find? fun ue => ue.2 == e).map Prod.fst

/-- The units of a string, up to its closing quote, and the text behind it. -/
def readUnits : List Char → Option (List Nat × List Char)
  | [] => none
  | c :: s =>
      if c = '"' then some ([], s)
      else if c = '\\' then
        match s with
        | [] => none
        | e :: s =>
            if e = 'u' then
              match s with
              | h₁ :: h₂ :: h₃ :: h₄ :: s => do
                  let u ← readHex4 h₁ h₂ h₃ h₄
                  let (us, s) ← readUnits s
                  return (u :: us, s)
              | _ => none
            else do
              let u ← readShort e
              let (us, s) ← readUnits s
              return (u :: us, s)
      else if c.toNat < 0x20 then none
      else do
        let (us, s) ← readUnits s
        return (utf16 c ++ us, s)

def readString : List Char → Option (String × List Char)
  | '"' :: s => do
      let (us, s) ← readUnits s
      let cs ← ofUtf16 us
      return (String.ofList cs, s)
  | _ => none

theorem hexValue_digitChar {d : Nat} (h : d < 16) : hexValue d.digitChar = some d := by
  have hall : ∀ d < 16, hexValue d.digitChar = some d := by decide
  exact hall d h

theorem mem_shortEscapes {u : Nat} {e : Char} (h : shortEscapes.lookup u = some e) :
    (u, e) ∈ shortEscapes := by
  rcases List.lookup_eq_some_iff.1 h with ⟨l₁, l₂, hsplit, _⟩
  rw [hsplit]
  exact List.mem_append_right l₁ List.mem_cons_self

theorem readHex4_hex4 {u : Nat} (hu : u < 0x10000) :
    readHex4 (u / 0x1000 % 16).digitChar (u / 0x100 % 16).digitChar (u / 0x10 % 16).digitChar
      (u % 16).digitChar = some u := by
  have hdigit : ∀ n, hexValue (n % 16).digitChar = some (n % 16) := by
    intro n
    exact hexValue_digitChar (Nat.mod_lt n (by decide))
  simp only [readHex4, hdigit, Option.bind_eq_bind, Option.bind_some, Option.pure_def]
  rw [Option.some.injEq]
  omega

/-- A unit in front of what is read. -/
def consUnit (u : Nat) (p : List Nat × List Char) : List Nat × List Char :=
  (u :: p.1, p.2)

theorem readUnits_hex4 {u : Nat} (hu : u < 0x10000) (s : List Char) :
    readUnits ('\\' :: 'u' :: hex4 u ++ s) = (readUnits s).map (consUnit u) := by
  rw [hex4, List.cons_append, List.cons_append, readUnits.eq_def]
  simp only [List.cons_append, List.nil_append, readHex4_hex4 hu]
  cases readUnits s <;> rfl

theorem readUnits_short {u : Nat} {e : Char} (h : (u, e) ∈ shortEscapes) (s : List Char) :
    readUnits ('\\' :: e :: s) = (readUnits s).map (consUnit u) := by
  have hshort : e ≠ 'u' ∧ readShort e = some u := by
    have hall : ∀ ue ∈ shortEscapes, ue.2 ≠ 'u' ∧ readShort ue.2 = some ue.1 := by decide
    exact hall (u, e) h
  rw [readUnits.eq_def]
  simp only [hshort]
  cases readUnits s <;> rfl

/-- A character that stands for itself. -/
theorem readUnits_plain {u : Nat} (hprint : 0x20 ≤ u ∧ u ≤ 0x7e)
    (hlookup : shortEscapes.lookup u = none) (s : List Char) :
    readUnits (Char.ofNat u :: s) = (readUnits s).map (consUnit u) := by
  have hnat : (Char.ofNat u).toNat = u := toNat_ofNat (Or.inl (by omega))
  have hquote : Char.ofNat u ≠ '"' := by
    intro h
    rw [← hnat, h] at hlookup
    cases hlookup
  have hbackslash : Char.ofNat u ≠ '\\' := by
    intro h
    rw [← hnat, h] at hlookup
    cases hlookup
  have hunits : utf16 (Char.ofNat u) = [u] := by
    rw [utf16, hnat, if_pos (by omega)]
  have hctrl : ¬ u < 0x20 := by omega
  rw [readUnits.eq_def]
  simp only [hquote, hbackslash, hnat, hctrl, hunits, if_false]
  cases readUnits s <;> rfl

/-- Every unit is read back, whatever follows it. -/
theorem readUnits_escapeUnit {u : Nat} (hu : u < 0x10000) (s : List Char) :
    readUnits (escapeUnit u ++ s) = (readUnits s).map (consUnit u) := by
  unfold escapeUnit
  cases hlookup : shortEscapes.lookup u with
  | some e =>
      exact readUnits_short (mem_shortEscapes hlookup) s
  | none =>
      by_cases hprint : 0x20 ≤ u ∧ u ≤ 0x7e
      · simpa only [hprint, and_self, if_true, List.singleton_append] using
          readUnits_plain hprint hlookup s
      · simpa only [hprint, if_false] using readUnits_hex4 hu s

theorem readUnits_escape {us : List Nat} (hus : ∀ u ∈ us, u < 0x10000) (s : List Char) :
    readUnits (us.flatMap escapeUnit ++ '"' :: s) = some (us, s) := by
  induction us with
  | nil =>
      rw [List.flatMap_nil, List.nil_append, readUnits.eq_def]
      rfl
  | cons u us ih =>
      have hu : u < 0x10000 := hus u List.mem_cons_self
      have hrest := ih fun v hv => hus v (List.mem_cons_of_mem u hv)
      rw [List.flatMap_cons, List.append_assoc, readUnits_escapeUnit hu, hrest]
      rfl

theorem ofUtf16_flatMap (cs : List Char) : ofUtf16 (cs.flatMap utf16) = some cs := by
  induction cs with
  | nil => rfl
  | cons c cs ih =>
      rw [List.flatMap_cons, ofUtf16_utf16, ih]
      rfl

/-- **Strings.** Every string is read back, whatever follows its closing quote. -/
theorem readString_dumpString (s : String) (r : List Char) :
    readString (dumpString s ++ r) = some (s, r) := by
  have hunits : ∀ u ∈ s.toList.flatMap utf16, u < 0x10000 := by
    intro u hu
    rcases List.mem_flatMap.1 hu with ⟨c, _, hc⟩
    exact utf16_lt hc
  have hread := readUnits_escape hunits r
  have htext : dumpString s ++ r =
      '"' :: ((s.toList.flatMap utf16).flatMap escapeUnit ++ '"' :: r) := by
    simp [dumpString, List.flatMap_assoc]
  rw [htext, readString, hread]
  simp [ofUtf16_flatMap]

/-! ## Values -/

mutual

/-- `json.dump`. -/
def dump : Value → List Char
  | .null => ['n', 'u', 'l', 'l']
  | .int n => (toString n).toList
  | .str s => dumpString s
  | .obj members => '{' :: dumpMembers true members

/-- The members of an object, behind its opening brace. -/
def dumpMembers : Bool → List (String × Value) → List Char
  | _, [] => ['}']
  | first, (k, v) :: members =>
      (if first then [] else [',', ' ']) ++ dumpString k ++ [':', ' '] ++ dump v ++
        dumpMembers false members

end

def isBlank (c : Char) : Bool :=
  c == ' ' || c == '\t' || c == '\n' || c == '\r'

def skip (s : List Char) : List Char :=
  s.dropWhile isBlank

def readWord : List Char → List Char → Option (List Char)
  | [], s => some s
  | _ :: _, [] => none
  | c :: word, d :: s => if d = c then readWord word s else none

/-- Digits without a zero in front. -/
def readNat (s : List Char) : Option (Nat × List Char) :=
  let digits := s.takeWhile Char.isDigit
  if digits = [] ∨ digits.head? = some '0' ∧ digits ≠ ['0'] then none
  else some (Nat.ofDigitChars 10 digits 0, s.dropWhile Char.isDigit)

def readInt : List Char → Option (Int × List Char)
  | '-' :: s => (readNat s).map fun p => (-p.1, p.2)
  | s => (readNat s).map fun p => (p.1, p.2)

mutual

def readValue : Nat → List Char → Option (Value × List Char)
  | 0, _ => none
  | fuel + 1, s =>
      match skip s with
      | [] => none
      | c :: s =>
          if c = '{' then (readMembers fuel true s).map fun p => (.obj p.1, p.2)
          else if c = '"' then (readString (c :: s)).map fun p => (.str p.1, p.2)
          else if c = 'n' then (readWord ['u', 'l', 'l'] s).map fun s => (.null, s)
          else (readInt (c :: s)).map fun p => (.int p.1, p.2)

/-- The members of an object, up to its closing brace, and the text behind it. -/
def readMembers : Nat → Bool → List Char → Option (List (String × Value) × List Char)
  | 0, _, _ => none
  | fuel + 1, first, s =>
      match skip s with
      | [] => none
      | c :: s =>
          if c = '}' then some ([], s)
          else do
            let s ← if first then some (c :: s) else readWord [','] (c :: s)
            let (k, s) ← readString (skip s)
            let s ← readWord [':'] (skip s)
            let (v, s) ← readValue fuel s
            let (members, s) ← readMembers fuel false s
            return ((k, v) :: members, s)

end

/-- A text that holds one value. -/
def parse (text : List Char) : Option Value := do
  let (v, s) ← readValue text.length text
  if skip s = [] then some v else none

/-! ## Round trip -/

/-- A text that goes on with something other than a digit. -/
def EndsNumber (r : List Char) : Prop :=
  ∀ c ∈ r.head?, c.isDigit = false

theorem head?_toDigits {n : Nat} (hn : 0 < n) : (Nat.toDigits 10 n).head? ≠ some '0' := by
  induction n using Nat.strongRecOn with
  | ind n ih =>
      by_cases hsmall : n < 10
      · rw [Nat.toDigits_of_lt_base hsmall]
        intro h
        have hdigit : n.digitChar = '0' := by simpa using h
        have hall : ∀ d < 10, Nat.digitChar d = '0' → d = 0 := by decide
        have := hall n hsmall hdigit
        omega
      · rw [Nat.toDigits_of_base_le (by decide) (by omega), List.head?_append_of_ne_nil]
        · exact ih (n / 10) (by omega) (by omega)
        · exact Nat.toDigits_ne_nil

theorem readNat_toDigits (n : Nat) {r : List Char} (hr : EndsNumber r) :
    readNat (Nat.toDigits 10 n ++ r) = some (n, r) := by
  have hdigits : ∀ c ∈ Nat.toDigits 10 n, c.isDigit = true := by
    intro c hc
    exact Nat.isDigit_of_mem_toDigits (by decide) (by decide) hc
  have hrest : r.takeWhile Char.isDigit = [] ∧ r.dropWhile Char.isDigit = r := by
    cases r with
    | nil => exact ⟨rfl, rfl⟩
    | cons c r => simp [hr c rfl]
  have htake : (Nat.toDigits 10 n ++ r).takeWhile Char.isDigit = Nat.toDigits 10 n := by
    rw [List.takeWhile_append_of_pos hdigits, hrest.1, List.append_nil]
  have hdrop : (Nat.toDigits 10 n ++ r).dropWhile Char.isDigit = r := by
    rw [List.dropWhile_append_of_pos hdigits, hrest.2]
  have hgood : ¬ (Nat.toDigits 10 n = [] ∨
      (Nat.toDigits 10 n).head? = some '0' ∧ Nat.toDigits 10 n ≠ ['0']) := by
    rintro (hnil | ⟨hzero, hne⟩)
    · exact Nat.toDigits_ne_nil hnil
    · rcases Nat.eq_zero_or_pos n with rfl | hpos
      · exact hne (Nat.toDigits_zero 10)
      · exact head?_toDigits hpos hzero
  simp only [readNat, htake, hdrop, hgood, if_false, Nat.ofDigitChars_ten_toDigits]

/-- No digit begins another token. -/
theorem digit_ne {c d : Char} (hc : c.isDigit = true) (hd : d.isDigit = false) : c ≠ d := by
  rintro rfl
  rw [hc] at hd
  cases hd

theorem toList_toString (n : Int) :
    (toString n).toList = if n < 0 then '-' :: Nat.toDigits 10 n.natAbs
      else Nat.toDigits 10 n.natAbs := by
  cases n with
  | ofNat n =>
      have hneg : ¬ Int.ofNat n < 0 := by simp
      rw [if_neg hneg, show toString (Int.ofNat n) = n.repr from rfl, Nat.toList_repr]
      rfl
  | negSucc n =>
      have hneg : Int.negSucc n < 0 := Int.negSucc_lt_zero n
      rw [if_pos hneg, show toString (Int.negSucc n) = "-" ++ (n + 1).repr from rfl,
        String.toList_append, Nat.toList_repr]
      rfl

theorem toDigits_cons (n : Nat) :
    ∃ c cs, Nat.toDigits 10 n = c :: cs ∧ c.isDigit = true := by
  have hne : Nat.toDigits 10 n ≠ [] := Nat.toDigits_ne_nil
  obtain ⟨c, cs, hcons⟩ := List.exists_cons_of_ne_nil hne
  have hmem : c ∈ Nat.toDigits 10 n := by
    rw [hcons]
    exact List.mem_cons_self
  exact ⟨c, cs, hcons, Nat.isDigit_of_mem_toDigits (by decide) (by decide) hmem⟩

/-- The text of a number begins with a digit or a minus. -/
theorem toString_cons (n : Int) :
    ∃ c cs, (toString n).toList = c :: cs ∧ isBlank c = false ∧ c ≠ '{' ∧ c ≠ '"' ∧ c ≠ 'n' := by
  rw [toList_toString]
  split
  · exact ⟨'-', _, rfl, by decide⟩
  · rcases toDigits_cons n.natAbs with ⟨c, cs, hcons, hc⟩
    refine ⟨c, cs, hcons, ?_, digit_ne hc (by decide), digit_ne hc (by decide),
      digit_ne hc (by decide)⟩
    simp only [isBlank, Bool.or_eq_false_iff, beq_eq_false_iff_ne]
    exact ⟨⟨⟨digit_ne hc (by decide), digit_ne hc (by decide)⟩, digit_ne hc (by decide)⟩,
      digit_ne hc (by decide)⟩

theorem readInt_toString (n : Int) {r : List Char} (hr : EndsNumber r) :
    readInt ((toString n).toList ++ r) = some (n, r) := by
  have hread := readNat_toDigits n.natAbs hr
  rw [toList_toString]
  split
  · rename_i hneg
    rw [List.cons_append, readInt, hread, Option.map_some, show -(n.natAbs : Int) = n by omega]
  · rename_i hpos
    rcases toDigits_cons n.natAbs with ⟨c, cs, hcons, hc⟩
    have hminus : c ≠ '-' := digit_ne hc (by decide)
    rw [hcons, List.cons_append] at hread ⊢
    rw [readInt, hread, Option.map_some, show (n.natAbs : Int) = n by omega]
    intro s heq
    exact hminus (List.cons.inj heq).1

theorem skip_cons {c : Char} (hc : isBlank c = false) (s : List Char) :
    skip (c :: s) = c :: s := by
  rw [skip, List.dropWhile_cons_of_neg (by simp [hc])]

theorem readValue_int (fuel : Nat) (n : Int) {r : List Char} (hr : EndsNumber r) :
    readValue (fuel + 1) ((toString n).toList ++ r) = some (.int n, r) := by
  have hread := readInt_toString n hr
  rcases toString_cons n with ⟨c, cs, hcons, hblank, hbrace, hquote, hnull⟩
  rw [hcons, List.cons_append] at hread ⊢
  simp only [readValue, skip_cons hblank, hbrace, hquote, hnull, if_false, hread, Option.map_some]

theorem readValue_str (fuel : Nat) (s : String) (r : List Char) :
    readValue (fuel + 1) (dumpString s ++ r) = some (.str s, r) := by
  have hread := readString_dumpString s r
  rw [dumpString, List.append_assoc, List.cons_append] at hread ⊢
  have hbrace : '"' ≠ '{' := by decide
  simp only [readValue, skip_cons (c := '"') (by decide), hbrace, if_false, if_true, hread,
    Option.map_some]

theorem readValue_obj (fuel : Nat) (s : List Char) :
    readValue (fuel + 1) ('{' :: s) =
      (readMembers fuel true s).map fun p => (.obj p.1, p.2) := by
  simp only [readValue, skip_cons (c := '{') (by decide), if_true]

/-- A blank in front of a value is passed over. -/
theorem readValue_blank (fuel : Nat) (s : List Char) :
    readValue fuel (' ' :: s) = readValue fuel s := by
  have hskip : skip (' ' :: s) = skip s := List.dropWhile_cons_of_pos (by decide)
  cases fuel with
  | zero => rfl
  | succ fuel => rw [readValue, readValue, hskip]

theorem readMembers_nil (fuel : Nat) (first : Bool) (s : List Char) :
    readMembers (fuel + 1) first ('}' :: s) = some ([], s) := by
  simp only [readMembers, skip_cons (c := '}') (by decide), if_true]

/-- The first member is read like the others, which have a comma in front. -/
theorem readMembers_comma (fuel : Nat) (s : List Char) :
    readMembers (fuel + 1) false (',' :: ' ' :: '"' :: s) =
      readMembers (fuel + 1) true ('"' :: s) := by
  have hcomma : skip (',' :: ' ' :: '"' :: s) = ',' :: ' ' :: '"' :: s :=
    skip_cons (by decide) _
  have hquote : skip ('"' :: s) = '"' :: s := skip_cons (by decide) _
  have hblank : skip (' ' :: '"' :: s) = '"' :: s := hquote
  have hbrace : ',' ≠ '}' ∧ '"' ≠ '}' := by decide
  simp only [readMembers, hcomma, hquote, hblank, hbrace, readWord, if_false, if_true,
    Bool.false_eq_true, Option.bind_eq_bind, Option.bind_some]

/-- A member whose value and whose successors are read. -/
theorem readMembers_cons {fuel : Nat} {k : String} {v : Value} {members : List (String × Value)}
    {s s' r : List Char} (first : Bool) (hvalue : readValue fuel s = some (v, s'))
    (hmembers : readMembers fuel false s' = some (members, r)) :
    readMembers (fuel + 1) first
        ((if first then [] else [',', ' ']) ++ (dumpString k ++ (':' :: ' ' :: s))) =
      some ((k, v) :: members, r) := by
  have hkey := readString_dumpString k (':' :: ' ' :: s)
  obtain ⟨t, ht⟩ : ∃ t, dumpString k ++ (':' :: ' ' :: s) = '"' :: t := ⟨_, rfl⟩
  rw [ht] at hkey ⊢
  have hfirst : readMembers (fuel + 1) true ('"' :: t) = some ((k, v) :: members, r) := by
    have hskip : skip ('"' :: t) = '"' :: t := skip_cons (by decide) _
    have hcolon : skip (':' :: ' ' :: s) = ':' :: ' ' :: s := skip_cons (by decide) _
    have hbrace : '"' ≠ '}' := by decide
    simp only [readMembers, hskip, hbrace, hkey, hcolon, readWord, readValue_blank, hvalue,
      hmembers, if_false, if_true, Option.bind_eq_bind, Option.bind_some, Option.pure_def]
  cases first with
  | true => exact hfirst
  | false => exact (readMembers_comma fuel t).trans hfirst

theorem endsNumber_dumpMembers (members : List (String × Value)) (r : List Char) :
    EndsNumber (dumpMembers false members ++ r) := by
  cases members with
  | nil =>
      intro c hc
      obtain rfl : '}' = c := Option.some.inj hc
      rfl
  | cons kv members =>
      intro c hc
      obtain rfl : ',' = c := Option.some.inj hc
      rfl

theorem dump_length_pos (v : Value) : 0 < (dump v).length := by
  cases v with
  | null => simp [dump]
  | int n =>
      rcases toString_cons n with ⟨c, cs, hcons, -⟩
      rw [dump, hcons]
      exact Nat.succ_pos _
  | str s => simp [dump, dumpString]
  | obj members => simp [dump]

theorem dumpMembers_length_pos (first : Bool) (members : List (String × Value)) :
    0 < (dumpMembers first members).length := by
  cases members with
  | nil => simp [dumpMembers]
  | cons kv members =>
      have := dump_length_pos kv.2
      simp only [dumpMembers, List.length_append]
      omega

mutual

/-- What stands behind a value must not go on with its digits. -/
theorem readValue_dump (v : Value) {fuel : Nat} {r : List Char} (hr : EndsNumber r)
    (hfuel : (dump v).length ≤ fuel) : readValue fuel (dump v ++ r) = some (v, r) := by
  cases fuel with
  | zero =>
      have := dump_length_pos v
      omega
  | succ fuel =>
      match v with
      | .null => rfl
      | .int n => exact readValue_int fuel n hr
      | .str s => exact readValue_str fuel s r
      | .obj members =>
          have hlen : (dumpMembers true members).length ≤ fuel := by simpa [dump] using hfuel
          have hmembers := readMembers_dumpMembers members true (r := r) hlen
          rw [dump, List.cons_append, readValue_obj, hmembers]
          rfl

theorem readMembers_dumpMembers (members : List (String × Value)) (first : Bool) {fuel : Nat}
    {r : List Char} (hfuel : (dumpMembers first members).length ≤ fuel) :
    readMembers fuel first (dumpMembers first members ++ r) = some (members, r) := by
  cases fuel with
  | zero =>
      have := dumpMembers_length_pos first members
      omega
  | succ fuel =>
      match members with
      | [] => exact readMembers_nil fuel first r
      | (k, v) :: members =>
          simp only [dumpMembers, List.length_append, dumpString, List.length_cons] at hfuel
          have hv : (dump v).length ≤ fuel := by omega
          have hrest : (dumpMembers false members).length ≤ fuel := by omega
          have hvalue := readValue_dump v (endsNumber_dumpMembers members r) hv
          have hmembers := readMembers_dumpMembers members false (r := r) hrest
          have hcons := readMembers_cons (k := k) first hvalue hmembers
          simpa only [dumpMembers, List.append_assoc, List.cons_append, List.nil_append] using hcons

end

/-- **Round trip.** The text of every value parses, as that value. -/
theorem parse_dump (v : Value) : parse (dump v) = some v := by
  have hread := readValue_dump v (r := []) (by simp [EndsNumber]) (Nat.le_refl _)
  rw [List.append_nil] at hread
  rw [parse, hread]
  rfl

/-! ## Characters -/

/-- A printable character of ASCII. -/
def IsPrintable (c : Char) : Prop :=
  0x20 ≤ c.toNat ∧ c.toNat ≤ 0x7e

instance decidableIsPrintable (c : Char) : Decidable (IsPrintable c) :=
  inferInstanceAs (Decidable (_ ∧ _))

theorem isPrintable_digitChar (n : Nat) : IsPrintable (n % 16).digitChar := by
  have hall : ∀ d < 16, IsPrintable d.digitChar := by decide
  exact hall (n % 16) (Nat.mod_lt n (by decide))

theorem isPrintable_of_isDigit {c : Char} (h : c.isDigit = true) : IsPrintable c := by
  have hrange : 0x30 ≤ c.val ∧ c.val ≤ 0x39 := by simpa [Char.isDigit] using h
  have hnat : 0x30 ≤ c.toNat ∧ c.toNat ≤ 0x39 := hrange
  exact ⟨by omega, by omega⟩

theorem escapeUnit_printable {u : Nat} {c : Char} (h : c ∈ escapeUnit u) : IsPrintable c := by
  unfold escapeUnit at h
  cases hlookup : shortEscapes.lookup u with
  | some e =>
      rw [hlookup] at h
      have hall : ∀ ue ∈ shortEscapes, IsPrintable ue.2 := by decide
      have hmem := mem_shortEscapes hlookup
      rcases List.mem_pair.1 h with rfl | rfl
      · decide
      · exact hall (u, c) hmem
  | none =>
      rw [hlookup] at h
      by_cases hprint : 0x20 ≤ u ∧ u ≤ 0x7e
      · obtain rfl : c = Char.ofNat u := by simpa [hprint] using h
        rw [IsPrintable, toNat_ofNat (Or.inl (by omega))]
        exact hprint
      · simp only [hprint, if_false, hex4, List.mem_cons, List.not_mem_nil, or_false] at h
        rcases h with rfl | rfl | rfl | rfl | rfl | rfl
        · decide
        · decide
        all_goals exact isPrintable_digitChar _

theorem dumpString_printable {s : String} {c : Char} (h : c ∈ dumpString s) : IsPrintable c := by
  simp only [dumpString, List.cons_append, List.mem_cons, List.mem_append, List.mem_flatMap,
    List.not_mem_nil, or_false] at h
  rcases h with rfl | ⟨_, _, u, _, hu⟩ | rfl
  · decide
  · exact escapeUnit_printable hu
  · decide

theorem toString_printable {n : Int} {c : Char} (h : c ∈ (toString n).toList) :
    IsPrintable c := by
  have hdigit : c ∈ Nat.toDigits 10 n.natAbs → IsPrintable c := by
    intro hc
    exact isPrintable_of_isDigit (Nat.isDigit_of_mem_toDigits (by decide) (by decide) hc)
  rw [toList_toString] at h
  split at h
  · rcases List.mem_cons.1 h with rfl | h
    · decide
    · exact hdigit h
  · exact hdigit h

mutual

/-- A text is the same bytes in every encoding that extends ASCII. -/
theorem dump_printable (v : Value) : ∀ c ∈ dump v, IsPrintable c := by
  match v with
  | .null =>
      have hnull : dump .null = ['n', 'u', 'l', 'l'] := rfl
      rw [hnull]
      simp only [List.forall_mem_cons, List.not_mem_nil, false_implies, implies_true, and_true]
      decide
  | .int n => exact fun c hc => toString_printable hc
  | .str s => exact fun c hc => dumpString_printable hc
  | .obj members =>
      intro c hc
      rcases List.mem_cons.1 hc with rfl | hc
      · decide
      · exact dumpMembers_printable members true c hc

theorem dumpMembers_printable (members : List (String × Value)) (first : Bool) :
    ∀ c ∈ dumpMembers first members, IsPrintable c := by
  match members with
  | [] =>
      intro c hc
      obtain rfl := List.mem_singleton.1 hc
      decide
  | (k, v) :: members =>
      intro c hc
      simp only [dumpMembers, List.mem_append] at hc
      rcases hc with (((hc | hc) | hc) | hc) | hc
      · cases first with
        | true => cases hc
        | false =>
            rcases List.mem_pair.1 hc with rfl | rfl
            · decide
            · decide
      · exact dumpString_printable hc
      · rcases List.mem_pair.1 hc with rfl | rfl
        · decide
        · decide
      · exact dump_printable v c hc
      · exact dumpMembers_printable members false c hc

end

end Json
