import Mathlib.Data.List.DropRight

/-!
# FileName — paths and extensions as texts

A path is a text with `/` between its components.  `splitext` of Python and `rfind('.')` both cut a
name at its last dot, and differ where nothing but dots stands before it.
-/

namespace FileName

/-- The components of a path, without the empty ones and those that stay in the directory. -/
def components (p : List Char) : List (List Char) :=
  (p.splitOn '/').filter fun c => c ≠ [] ∧ c ≠ ['.']

/-- Two paths that name one file, as far as their texts tell. -/
def SameFile (p q : List Char) : Prop :=
  (p.head? = some '/' ↔ q.head? = some '/') ∧ components p = components q

instance (p q : List Char) : Decidable (SameFile p q) :=
  inferInstanceAs (Decidable (_ ∧ _))

/-- `posixpath.join`. -/
def join (p q : List Char) : List Char :=
  if q.head? = some '/' then q
  else if p = [] ∨ p.getLast? = some '/' then p ++ q
  else p ++ '/' :: q

/-- The text behind the last `/`. -/
def basename (p : List Char) : List Char :=
  p.rtakeWhile (· != '/')

/-- The text before the last `c`. -/
def beforeLast (c : Char) (name : List Char) : List Char :=
  (name.rdropWhile (· != c)).dropLast

/-- `posixpath.splitext` of a name without `/`: a dot with nothing but dots before it begins no
extension. -/
def splitext (name : List Char) : List Char :=
  if (beforeLast '.' name).any (· != '.') then beforeLast '.' name else name

/-- Everything before `rfind('.')`. -/
def stem (name : List Char) : List Char :=
  if '.' ∈ name then beforeLast '.' name else name

/-- What is joined to an absolute path is absolute. -/
theorem head?_join {p : List Char} (h : p.head? = some '/') (q : List Char) :
    (join p q).head? = some '/' := by
  unfold join
  split
  · assumption
  · split
    · rw [List.head?_append, h, Option.some_or]
    · rw [List.head?_append, h, Option.some_or]

/-! ## Components -/

/-- A name in the directory itself. -/
def Plain (name : List Char) : Prop :=
  '/' ∉ name ∧ name ≠ [] ∧ name ≠ ['.']

theorem components_plain {name : List Char} (h : Plain name) : components name = [name] := by
  rw [components, List.splitOn_eq_singleton h.1, List.filter_cons_of_pos, List.filter_nil]
  simpa using h.2

theorem not_absolute_of_plain {name : List Char} (h : Plain name) : name.head? ≠ some '/' := by
  intro hhead
  exact h.1 (List.mem_of_mem_head? hhead)

theorem sameFile_plain_iff {a b : List Char} (ha : Plain a) (hb : Plain b) :
    SameFile a b ↔ a = b := by
  constructor
  · intro h
    have hcomponents := h.2
    rw [components_plain ha, components_plain hb] at hcomponents
    exact List.singleton_inj.1 hcomponents
  · rintro rfl
    exact ⟨Iff.rfl, rfl⟩

/-- `./name` is `name`. -/
theorem sameFile_dotSlash_iff {name : List Char} (h : Plain name) (q : List Char) :
    SameFile (join ['.', '/'] name) q ↔ SameFile name q := by
  have hjoin : join ['.', '/'] name = '.' :: '/' :: name := by
    rw [join, if_neg (not_absolute_of_plain h), if_pos (Or.inr (by decide))]
    rfl
  have hcomponents : components ('.' :: '/' :: name) = components name := by
    have hdot : '/' ∉ ['.'] := by decide
    have hsplit : ('.' :: '/' :: name).splitOn '/' = ['.'] :: name.splitOn '/' :=
      List.splitOn_append_cons_self_of_not_mem hdot name
    rw [components, hsplit, List.filter_cons_of_neg (by simp)]
    rfl
  have hrelative : ('.' :: '/' :: name).head? = some '/' ↔ name.head? = some '/' :=
    iff_of_false (by simp) (not_absolute_of_plain h)
  rw [SameFile, SameFile, hjoin, hcomponents, hrelative]

theorem slash_not_mem_basename (p : List Char) : '/' ∉ basename p := by
  intro h
  simpa using List.mem_rtakeWhile_imp h

/-! ## Extensions -/

theorem beforeLast_append {c : Char} (a : List Char) {suffix : List Char} (h : c ∉ suffix) :
    beforeLast c (a ++ c :: suffix) = a := by
  have hdrop : (a ++ c :: suffix).rdropWhile (· != c) = a ++ [c] := by
    have hall : ∀ x ∈ suffix.reverse, (x != c) = true := by
      intro x hx
      have hne : x ≠ c := fun heq => h (heq ▸ List.mem_reverse.1 hx)
      simpa using hne
    rw [List.rdropWhile, List.reverse_append, List.reverse_cons, List.append_assoc,
      List.dropWhile_append_of_pos hall]
    simp
  rw [beforeLast, hdrop, List.dropLast_concat]

theorem append_suffix_inj {a b suffix suffix' : List Char} (h : '.' ∉ suffix) (h' : '.' ∉ suffix') :
    a ++ '.' :: suffix = b ++ '.' :: suffix' ↔ a = b ∧ suffix = suffix' := by
  constructor
  · intro heq
    obtain rfl : a = b := by
      rw [← beforeLast_append a h, heq, beforeLast_append b h']
    exact ⟨rfl, (List.cons.inj (List.append_cancel_left heq)).2⟩
  · rintro ⟨rfl, rfl⟩
    rfl

theorem beforeLast_subset (c : Char) (name : List Char) : beforeLast c name ⊆ name :=
  fun _ hx => (List.rdropWhile_prefix _ name).subset (List.dropLast_subset _ hx)

theorem plain_with_suffix {name suffix : List Char} (hname : '/' ∉ name) (hsuffix : '/' ∉ suffix)
    (hne : suffix ≠ []) : Plain (name ++ '.' :: suffix) := by
  refine ⟨by simp [hname, hsuffix], by simp, fun heq => hne ?_⟩
  have hlen := congrArg List.length heq
  simp only [List.length_append, List.length_cons, List.length_nil] at hlen
  exact List.eq_nil_of_length_eq_zero (by omega)

theorem slash_not_mem_splitext {name : List Char} (h : '/' ∉ name) : '/' ∉ splitext name := by
  unfold splitext
  split
  · exact fun hmem => h (beforeLast_subset _ _ hmem)
  · exact h

theorem slash_not_mem_stem {name : List Char} (h : '/' ∉ name) : '/' ∉ stem name := by
  unfold stem
  split
  · exact fun hmem => h (beforeLast_subset _ _ hmem)
  · exact h

/-- The two ways to cut off an extension agree exactly if something else than dots stands before the
last dot. -/
theorem splitext_eq_stem_iff {a suffix : List Char} (h : '.' ∉ suffix) :
    splitext (a ++ '.' :: suffix) = stem (a ++ '.' :: suffix) ↔ ∃ c ∈ a, c ≠ '.' := by
  have hmem : '.' ∈ a ++ '.' :: suffix := by simp
  rw [splitext, stem, if_pos hmem, beforeLast_append a h]
  constructor
  · intro heq
    by_contra hnone
    have hany : ¬ (a.any (· != '.')) = true := by simpa using hnone
    rw [if_neg hany] at heq
    have hlen := congrArg List.length heq
    simp at hlen
  · rintro ⟨c, hc, hne⟩
    have hany : a.any (· != '.') = true := List.any_eq_true.2 ⟨c, hc, by simpa using hne⟩
    rw [if_pos hany]

end FileName
