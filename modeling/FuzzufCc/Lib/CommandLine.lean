import Mathlib.Data.List.Basic

/-!
# CommandLine — how a list of arguments is read

Some arguments take the next one as their value, whatever it looks like.  So an argument of the
list stands for itself, or is the value of the one before it, and only reading the list from its
beginning tells which.
-/

namespace CommandLine

variable {α : Type*}

/-- What is read. -/
inductive Item (α : Type*)
  | separate (name value : α)
  | alone (arg : α)
  deriving DecidableEq, Repr

/-- The arguments of an item. -/
def Item.args : Item α → List α
  | .separate name value => [name, value]
  | .alone arg => [arg]

section Read

variable (takesValue : α → Bool)

/-- Read from the left; `none` where a value is missing. -/
def read : List α → Option (List (Item α))
  | [] => some []
  | [a] => if takesValue a then none else some [.alone a]
  | a :: v :: as =>
      if takesValue a then (read as).map (.separate a v :: ·)
      else (read (v :: as)).map (.alone a :: ·)

/-- The item takes a value exactly if its name asks for one. -/
def Item.Fits : Item α → Prop
  | .separate name _ => takesValue name = true
  | .alone arg => takesValue arg = false

end Read

variable {takesValue : α → Bool}

theorem read_separate {a : α} (h : takesValue a = true) (v : α) (as : List α) :
    read takesValue (a :: v :: as) = (read takesValue as).map (.separate a v :: ·) := by
  simp [read, h]

theorem read_alone {a : α} (h : takesValue a = false) (as : List α) :
    read takesValue (a :: as) = (read takesValue as).map (.alone a :: ·) := by
  cases as with
  | nil => simp [read, h]
  | cons v as => simp [read, h]

/-! ## Reading and writing -/

/-- Items are read back from their arguments, in front of whatever follows. -/
theorem read_append {items : List (Item α)} (hfits : ∀ item ∈ items, item.Fits takesValue)
    (as : List α) :
    read takesValue (items.flatMap Item.args ++ as) = (read takesValue as).map (items ++ ·) := by
  induction items with
  | nil => simp
  | cons item items ih =>
      rcases List.forall_mem_cons.1 hfits with ⟨hitem, hitems⟩
      cases item with
      | separate name value =>
          have hread := read_separate hitem value (items.flatMap Item.args ++ as)
          rw [ih hitems, Option.map_map] at hread
          exact hread
      | alone arg =>
          have hread := read_alone hitem (items.flatMap Item.args ++ as)
          rw [ih hitems, Option.map_map] at hread
          exact hread

/-- **Unique reading.** A list is read as the only items that it consists of. -/
theorem read_eq_some_iff {as : List α} {items : List (Item α)} :
    read takesValue as = some items ↔
      items.flatMap Item.args = as ∧ ∀ item ∈ items, item.Fits takesValue := by
  constructor
  · intro h
    fun_induction read takesValue as generalizing items with
    | case1 =>
        obtain rfl := Option.some.inj h
        simp
    | case2 a ha => cases h
    | case3 a ha =>
        obtain rfl := Option.some.inj h
        simpa [Item.args, Item.Fits] using ha
    | case4 a v as ha ih =>
        obtain ⟨items', hitems', rfl⟩ := Option.map_eq_some_iff.1 h
        rcases ih hitems' with ⟨hargs, hfits⟩
        refine ⟨by simp [Item.args, hargs], List.forall_mem_cons.2 ⟨ha, hfits⟩⟩
    | case5 a v as ha ih =>
        obtain ⟨items', hitems', rfl⟩ := Option.map_eq_some_iff.1 h
        rcases ih hitems' with ⟨hargs, hfits⟩
        refine ⟨by simp [Item.args, hargs], List.forall_mem_cons.2 ⟨?_, hfits⟩⟩
        exact eq_false_of_ne_true ha
  · rintro ⟨rfl, hfits⟩
    have hread := read_append hfits []
    rwa [List.append_nil, read, Option.map_some, List.append_nil] at hread

/-- An argument that takes no value is an option of its own or the value of another. -/
theorem mem_iff_of_read {as : List α} {items : List (Item α)} (h : read takesValue as = some items)
    {a : α} (ha : takesValue a = false) :
    a ∈ as ↔ .alone a ∈ items ∨ ∃ name, .separate name a ∈ items := by
  obtain ⟨rfl, hfits⟩ := read_eq_some_iff.1 h
  rw [List.mem_flatMap]
  constructor
  · rintro ⟨item, hitem, hmem⟩
    cases item with
    | separate name value =>
        have hname : takesValue name = true := hfits _ hitem
        rcases List.mem_pair.1 hmem with rfl | rfl
        · rw [ha] at hname
          cases hname
        · exact Or.inr ⟨name, hitem⟩
    | alone arg =>
        obtain rfl := List.mem_singleton.1 hmem
        exact Or.inl hitem
  · rintro (hitem | ⟨name, hitem⟩)
    · exact ⟨_, hitem, List.mem_singleton_self a⟩
    · exact ⟨_, hitem, List.mem_pair.2 (Or.inr rfl)⟩

/-! ## The argument behind a name -/

/-- `v` comes right behind the first `name`. -/
def FirstValue (name : α) (as : List α) (v : α) : Prop :=
  ∃ pre post, as = pre ++ name :: v :: post ∧ name ∉ pre

theorem getElem?_idxOf_eq_some_iff [DecidableEq α] {name v : α} {as : List α} (h : name ∈ as) :
    as[as.idxOf name + 1]? = some v ↔ FirstValue name as v := by
  obtain ⟨pre, post, rfl, hpre⟩ := List.eq_append_cons_of_mem h
  have hidx : (pre ++ name :: post).idxOf name = pre.length := by
    rw [List.idxOf_append_of_notMem hpre, List.idxOf_cons_self, Nat.add_zero]
  have hget : (pre ++ name :: post)[pre.length + 1]? = post.head? := by
    have hsub : pre.length + 1 - pre.length = 1 := Nat.add_sub_cancel_left _ _
    rw [List.getElem?_append_right (Nat.le_add_right _ _), hsub, List.getElem?_cons_succ,
      List.head?_eq_getElem?]
  rw [hidx, hget]
  constructor
  · intro hv
    obtain ⟨rest, rfl⟩ := List.head?_eq_some_iff.1 hv
    exact ⟨pre, rest, rfl, hpre⟩
  · rintro ⟨pre', rest, heq, hpre'⟩
    -- there is only one place for the first `name`
    have hlen : pre.length = pre'.length := by
      rw [← hidx, heq, List.idxOf_append_of_notMem hpre', List.idxOf_cons_self, Nat.add_zero]
    obtain ⟨-, htail⟩ := List.append_inj heq hlen
    obtain rfl := (List.cons.inj htail).2
    rfl

/-- An option with a value is found by its name if no item before it has the name among its
arguments. -/
theorem firstValue_of_read {as : List α} {pre post : List (Item α)} {name v : α}
    (h : read takesValue as = some (pre ++ .separate name v :: post))
    (hpre : ∀ item ∈ pre, name ∉ item.args) : FirstValue name as v := by
  obtain ⟨rfl, -⟩ := read_eq_some_iff.1 h
  refine ⟨pre.flatMap Item.args, post.flatMap Item.args, by simp [Item.args], ?_⟩
  simpa [List.mem_flatMap] using hpre

end CommandLine
