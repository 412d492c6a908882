import Mathlib.Data.List.Induction
import Mathlib.Data.List.Nodup

/-!
# Dict — insertion-ordered dictionaries

A dictionary is the list of its items.  A key that is set again keeps its place and gets the new
value, so that of several pairs with one key the last one counts.
-/

namespace Dict

variable {α β : Type*} [DecidableEq α]

/-- `d[k] = v`. -/
def insert (k : α) (v : β) : List (α × β) → List (α × β)
  | [] => [(k, v)]
  | (k', v') :: d => if k' = k then (k, v) :: d else (k', v') :: insert k v d

/-- `{k: v for k, v in kvs}`. -/
def ofPairs (kvs : List (α × β)) : List (α × β) :=
  kvs.foldl (fun d kv => insert kv.1 kv.2 d) []

theorem lookup_cons (k k' : α) (v : β) (d : List (α × β)) :
    ((k, v) :: d).lookup k' = if k' = k then some v else d.lookup k' := by
  rw [List.lookup_cons]
  by_cases hk : k' = k
  · simp [hk]
  · simp [hk, beq_eq_false_iff_ne.2 hk]

theorem lookup_insert (k k' : α) (v : β) (d : List (α × β)) :
    (insert k v d).lookup k' = if k' = k then some v else d.lookup k' := by
  induction d with
  | nil => exact lookup_cons k k' v []
  | cons kv d ih =>
      rcases kv with ⟨k₀, v₀⟩
      by_cases hk₀ : k₀ = k
      · rw [insert, if_pos hk₀, lookup_cons, lookup_cons, hk₀]
        split <;> rfl
      · rw [insert, if_neg hk₀, lookup_cons, lookup_cons, ih]
        by_cases hk : k' = k
        · have hne : ¬ k' = k₀ := fun h => hk₀ (h.symm.trans hk)
          rw [if_neg hne, if_neg hne]
        · simp only [hk, if_false]

section Pairs

variable (kvs : List (α × β))

/-- The last pair with a key counts. -/
theorem lookup_ofPairs (k : α) : (ofPairs kvs).lookup k = kvs.reverse.lookup k := by
  induction kvs using List.reverseRecOn with
  | nil => rfl
  | append_singleton kvs kv ih =>
      rcases kv with ⟨k₀, v₀⟩
      rw [List.reverse_concat, ofPairs, List.foldl_append, List.foldl_cons, List.foldl_nil,
        lookup_insert, ← ofPairs, ih, lookup_cons]

end Pairs

/-- Where every key has one value, each pair can be looked up. -/
theorem lookup_ofPairs_eq_some_iff {kvs : List (α × β)}
    (h : ∀ k v v', (k, v) ∈ kvs → (k, v') ∈ kvs → v = v') {k : α} {v : β} :
    (ofPairs kvs).lookup k = some v ↔ (k, v) ∈ kvs := by
  have hmem : ∀ v', (ofPairs kvs).lookup k = some v' → (k, v') ∈ kvs := by
    intro v' hv'
    rw [lookup_ofPairs] at hv'
    rcases List.lookup_eq_some_iff.1 hv' with ⟨l₁, l₂, hsplit, _⟩
    rw [← List.mem_reverse, hsplit]
    exact List.mem_append_right l₁ List.mem_cons_self
  constructor
  · exact hmem v
  · intro hv
    have hsome : ((ofPairs kvs).lookup k).isSome := by
      rw [lookup_ofPairs, List.lookup_isSome_iff]
      exact ⟨(k, v), List.mem_reverse.2 hv, beq_self_eq_true k⟩
    rcases Option.isSome_iff_exists.1 hsome with ⟨v', hv'⟩
    rw [hv', h k v' v (hmem v' hv') hv]

end Dict
