import Mathlib.Algebra.Notation.Defs
import Mathlib.Data.List.TakeDrop

/-!
# RegularFile — the content of a file behind an offset

`seek`, `write` and `truncate` are what `lseek`, a `write` of these bytes and `ftruncate` leave of a
regular file.  Where a file grows over its end, zeros fill the gap.
-/

/-- A file that is open for writing. -/
structure RegularFile (α : Type*) where
  content : List α
  offset : Nat
  deriving DecidableEq, Repr

namespace RegularFile

variable {α : Type*}

/-- What is kept of a known prefix, and what of the rest. -/
theorem takeD_append {l l' : List α} {n : Nat} (a : α) (h : l.length ≤ n) :
    (l ++ l').takeD n a = l ++ l'.takeD (n - l.length) a := by
  induction l generalizing n with
  | nil => rfl
  | cons b l ih =>
      cases n with
      | zero => cases h
      | succ n =>
          rw [List.length_cons] at h ⊢
          simpa using ih (by omega)

variable [Zero α] (f : RegularFile α)

def seek (offset : Nat) : RegularFile α :=
  { f with offset := offset }

/-- Nothing is changed by a write of nothing, not even behind the end. -/
def write : List α → RegularFile α
  | [] => f
  | a :: data =>
      { content := f.content.takeD f.offset 0 ++
          ((a :: data) ++ f.content.drop (f.offset + (a :: data).length))
        offset := f.offset + (a :: data).length }

def truncate (n : Nat) : RegularFile α :=
  { f with content := f.content.takeD n 0 }

theorem seek_write_content (data : List α) :
    ((f.seek 0).write data).content = data ++ f.content.drop data.length := by
  cases data with
  | nil => rfl
  | cons a data => simp [write, seek]

/-- Data over the beginning of a file, and the file cut to a length. -/
theorem overwrite_content {data : List α} {n : Nat} (h : data.length ≤ n) :
    (((f.seek 0).write data).truncate n).content =
      data ++ (f.content.drop data.length).takeD (n - data.length) 0 := by
  rw [truncate, seek_write_content, takeD_append 0 h]

/-- A prefix of the data makes the file equal to all of it exactly if the rest is there already. -/
theorem overwrite_take_content_iff (data : List α) {k : Nat} (hk : k ≤ data.length) :
    (((f.seek 0).write (data.take k)).truncate data.length).content = data ↔
      (f.content.drop k).takeD (data.length - k) 0 = data.drop k := by
  have hlen : (data.take k).length = k := by rw [List.length_take, Nat.min_eq_left hk]
  rw [overwrite_content f (by omega), hlen]
  conv_lhs =>
    rhs
    rw [← List.take_append_drop k data]
  exact List.append_right_inj _

end RegularFile
