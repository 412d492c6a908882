import FuzzufCc.Runtime.Ijon

/-!
# IjonParse — which texts the IJON runtime accepts

The four variables are meant to hold decimal numerals of 32 bits.  A text is accepted if `strtol`
stops behind its first ten characters or at its end, so blanks and signs, too large numerals and
whatever follows ten digits pass, and a numeral of eleven characters does not.
-/

namespace FuzzufCc

open Libc IR

namespace Runtime
namespace Ijon

/-! ## What is meant -/

def IsNumeral (s : List Char) : Prop :=
  s ≠ [] ∧ s.all Char.isDigit = true

instance (s : List Char) : Decidable (IsNumeral s) :=
  inferInstanceAs (Decidable (_ ∧ _))

/-- The value of a decimal numeral that fits in 32 bits. -/
def numeral32 (s : List Char) : Option (BitVec 32) :=
  if IsNumeral s ∧ Nat.ofDigitChars 10 s 0 < 2 ^ 32 then
    some (BitVec.ofNat 32 (Nat.ofDigitChars 10 s 0))
  else none

/-- The four variables of `__ijon_map_shm`. -/
inductive Variable
  | shmId
  | aflSize
  | counterSize
  | maxSize
  deriving DecidableEq, Repr

/-- What follows in `__ijon_map_shm` when the id has been read. -/
def attach (env : Env) (segments : Segments) (shmId : BitVec 32) (layout : Layout)
    (mem : Mem Object) : Except Exit (Layout × Mem Object) :=
  if !segments shmId then
    .error ⟨"", layout⟩
  else do
    let (cur, layout) ← areaRegion env ⟨.segment shmId, 0⟩ layout
    let (cur, layout) ← counterRegion env cur layout
    let (_, layout) ← maxRegion env cur layout
    return (layout, mem.set layout.areaPtr 1)

/-- A block reads the text `s` of its variable as a numeral: it uses the value, or ends the process
with the layout as it was. -/
def ReadsSize (envVar : String)
    (block : Env → Ptr Object → Layout → Except Exit (Ptr Object × Layout))
    (assign : Ptr Object → BitVec 32 → Layout → Layout) (s : String) : Prop :=
  ∀ env cur layout, env envVar = some s →
    block env cur layout =
      match numeral32 s.toList with
      | none => .error ⟨"Invalid value on " ++ envVar, layout⟩
      | some size =>
          .ok (if size = 0 then (cur, layout)
            else ({ cur with off := cur.off + size.setWidth 64 }, assign cur size layout))

/-- The text `s` of a variable is read as a numeral. -/
def Reads (s : String) : Variable → Prop
  | .shmId => ∀ env segments layout mem, env AFL_SHM_ENV_VAR = some s →
      mapShm env segments layout mem =
        match numeral32 s.toList with
        | none => .error ⟨"Invalid value on " ++ AFL_SHM_ENV_VAR, layout⟩
        | some shmId => attach env segments shmId layout mem
  | .aflSize => ReadsSize AFL_SIZE_ENV_VAR areaRegion
      (fun cur size layout => { layout with areaPtr := cur, aflSize := size.toNat }) s
  | .counterSize => ReadsSize IJON_COUNTER_SIZE_ENV_VAR counterRegion
      (fun cur size layout => { layout with counterPtr := cur, mapSize := size.toNat }) s
  | .maxSize => ReadsSize IJON_MAX_SIZE_ENV_VAR maxRegion
      (fun cur size layout => { layout with maxPtr := cur, maxMapSize := size.toNat / 8 }) s

/-! ## What is accepted -/

/-- The number at the beginning of `s` ends behind `n` characters. -/
def NumberEnds (s : List Char) (n : Nat) : Prop :=
  ∃ blanks sign digits rest, IsNumber blanks sign digits ∧
    (∀ c ∈ rest.head?, c.isDigit = false) ∧ s = blanks ++ (sign ++ (digits ++ rest)) ∧
    (blanks ++ sign ++ digits).length = n

theorem NumberEnds.stop {s : List Char} {n : Nat} (h : NumberEnds s n) : (strtol s).stop = n := by
  rcases h with ⟨blanks, sign, digits, rest, hnumber, hrest, rfl, hlen⟩
  rw [strtol_number rest hnumber hrest, hlen]

theorem stop_eq_iff {s : List Char} {n : Nat} (hn : 0 < n) :
    (strtol s).stop = n ↔ NumberEnds s n := by
  constructor
  · intro hstop
    rcases strtol_cases s with hnone | ⟨blanks, sign, digits, rest, hnumber, hrest, rfl⟩
    · rw [hnone] at hstop
      exact absurd hstop.symm hn.ne'
    · rw [strtol_number rest hnumber hrest] at hstop
      exact ⟨blanks, sign, digits, rest, hnumber, hrest, rfl, hstop⟩
  · exact NumberEnds.stop

/-- The empty text is accepted, and one whose number ends where `strnlen` does. -/
theorem parse_isSome_iff (s : List Char) :
    (parse s).isSome ↔ s = [] ∨ NumberEnds s (min s.length 10) := by
  have hsome : (parse s).isSome ↔ (strtol s).stop = min s.length 10 := by
    unfold parse
    split
    · rename_i hstop
      exact iff_of_true rfl hstop
    · rename_i hstop
      exact iff_of_false (by simp) hstop
  rw [hsome]
  by_cases hs : s = []
  · subst hs
    exact iff_of_true rfl (Or.inl rfl)
  · have hlen := List.length_pos_iff.2 hs
    rw [stop_eq_iff (by omega)]
    simp [hs]

theorem IsNumeral.strtol_eq {s : List Char} (h : IsNumeral s) :
    strtol s = { value := saturate (Nat.ofDigitChars 10 s 0), stop := s.length } := by
  have hnumber : IsNumber [] [] s := ⟨by simp, Or.inl rfl, List.all_eq_true.1 h.2, h.1⟩
  simpa using strtol_number [] hnumber (by simp)

/-- A numeral is accepted if it has at most ten characters. -/
theorem IsNumeral.parse_isSome_iff {s : List Char} (h : IsNumeral s) :
    (parse s).isSome ↔ s.length ≤ 10 := by
  simp only [parse, strnlen, h.strtol_eq, Option.isSome_ite]
  omega

theorem numeral32_isSome_iff {s : List Char} :
    (numeral32 s).isSome ↔ IsNumeral s ∧ Nat.ofDigitChars 10 s 0 < 2 ^ 32 := by
  simp [numeral32]

/-- Where a numeral is accepted, its value is used. -/
theorem atoi_of_numeral32 {s : List Char} {n : BitVec 32} (h : numeral32 s = some n) :
    atoi s = n := by
  unfold numeral32 at h
  split at h
  · rename_i hs
    obtain rfl := Option.some.inj h
    have hsat : saturate (Nat.ofDigitChars 10 s 0) = Nat.ofDigitChars 10 s 0 := by
      simp only [saturate, LONG_MIN, LONG_MAX]
      omega
    rw [atoi, hs.1.strtol_eq, hsat, BitVec.ofInt_natCast]
  · cases h

/-- So the parser is right if it accepts right. -/
theorem parse_eq_iff_isSome (s : List Char) :
    parse s = numeral32 s ↔ ((parse s).isSome ↔ (numeral32 s).isSome) := by
  constructor
  · intro h
    rw [h]
  · intro h
    cases hparse : parse s with
    | none =>
        cases hnumeral : numeral32 s with
        | none => rfl
        | some m =>
            rw [hparse, hnumeral] at h
            exact absurd (h.2 rfl) (by simp)
    | some n =>
        rw [hparse] at h
        obtain ⟨m, hm⟩ := Option.isSome_iff_exists.1 (h.1 rfl)
        rw [hm, parse_eq_some hparse, atoi_of_numeral32 hm]

/-! ## Where both agree -/

/-- A numeral has at most ten characters exactly if it fits, and any other text is not empty and its
number does not end at the tenth character or the end of the text. -/
structure ReadRight (s : List Char) : Prop where
  numeral : IsNumeral s → (s.length ≤ 10 ↔ Nat.ofDigitChars 10 s 0 < 2 ^ 32)
  other : ¬ IsNumeral s → s ≠ [] ∧ ¬ NumberEnds s (min s.length 10)

theorem parse_eq_iff (s : List Char) : parse s = numeral32 s ↔ ReadRight s := by
  rw [parse_eq_iff_isSome, numeral32_isSome_iff]
  by_cases hs : IsNumeral s
  · rw [hs.parse_isSome_iff]
    constructor
    · intro h
      exact ⟨fun _ => ⟨fun hlen => (h.1 hlen).2, fun hlt => h.2 ⟨hs, hlt⟩⟩, fun hnot => absurd hs hnot⟩
    · intro h
      exact ⟨fun hlen => ⟨hs, (h.numeral hs).1 hlen⟩, fun hlt => (h.numeral hs).2 hlt.2⟩
  · rw [parse_isSome_iff]
    constructor
    · intro h
      have hnone := mt h.1 fun hboth => hs hboth.1
      exact ⟨fun hyes => absurd hyes hs, fun _ => not_or.1 hnone⟩
    · intro h
      exact iff_of_false (not_or.2 (h.other hs)) fun hboth => hs hboth.1

/-- A block reads its text right if the parser does. -/
theorem readsSize_iff {envVar : String} (assign : Ptr Object → BitVec 32 → Layout → Layout)
    (s : String) :
    ReadsSize envVar (fun env => region env envVar assign) assign s ↔
      parse s.toList = numeral32 s.toList := by
  constructor
  · intro h
    have hregion := h (fun _ => some s) ⟨.segment 0, 0⟩ initial rfl
    rw [parse_eq_iff_isSome]
    cases hparse : parse s.toList <;> cases hnumeral : numeral32 s.toList <;>
      simp only [region, hparse, hnumeral] at hregion ⊢
    · cases hregion
    · split at hregion <;> cases hregion
    · exact iff_of_true rfl rfl
  · intro h env cur layout henv
    simp only [region, henv, h]
    cases numeral32 s.toList with
    | none => rfl
    | some size =>
        simp only
        split <;> rfl

theorem mapShm_of_id {env : Env} {segments : Segments} {layout : Layout} {mem : Mem Object}
    {s : String} (h : env AFL_SHM_ENV_VAR = some s) :
    mapShm env segments layout mem =
      match parse s.toList with
      | none => .error ⟨"Invalid value on " ++ AFL_SHM_ENV_VAR, layout⟩
      | some shmId => attach env segments shmId layout mem := by
  simp only [mapShm, h]
  rfl

theorem reads_iff_parse (v : Variable) (s : String) :
    Reads s v ↔ parse s.toList = numeral32 s.toList := by
  cases v with
  | shmId =>
      constructor
      · intro h
        -- without a segment the two errors have different texts
        have hmap := h (fun _ => some s) (fun _ => false) initial (fun _ _ => 0) rfl
        rw [mapShm_of_id (s := s) rfl] at hmap
        rw [parse_eq_iff_isSome]
        cases hparse : parse s.toList <;> cases hnumeral : numeral32 s.toList <;>
          simp only [hparse, hnumeral, attach] at hmap ⊢
        · simp at hmap
        · simp at hmap
        · exact iff_of_true rfl rfl
      · intro h env segments layout mem henv
        rw [mapShm_of_id henv, h]
  | aflSize => exact readsSize_iff _ s
  | counterSize => exact readsSize_iff _ s
  | maxSize => exact readsSize_iff _ s

/-- **The accepted texts.** A variable is read as a decimal numeral of 32 bits exactly for the texts
on which acceptance and meaning agree. -/
theorem reads_iff (v : Variable) (s : String) : Reads s v ↔ ReadRight s.toList := by
  rw [reads_iff_parse, parse_eq_iff]

/-- A text that is accepted though it is no numeral, or the other way round. -/
theorem not_reads {v : Variable} {s : String}
    (h : (parse s.toList).isSome ≠ (numeral32 s.toList).isSome) : ¬ Reads s v := by
  rw [reads_iff_parse]
  exact fun heq => h (congrArg Option.isSome heq)

/-- Garbage behind ten digits, a sign, a number that does not fit and no text at all are accepted, a
numeral with a zero too many is not. -/
theorem misread_texts :
    ¬ Reads "1234567890abc" .counterSize ∧ ¬ Reads "-1" .aflSize ∧
      ¬ Reads "4294967296" .maxSize ∧ ¬ Reads "" .shmId ∧ ¬ Reads "00000000064" .counterSize :=
  ⟨not_reads (by decide), not_reads (by decide), not_reads (by decide), not_reads (by decide),
    not_reads (by decide)⟩

end Ijon
end Runtime
end FuzzufCc
