import Mathlib.Algebra.BigOperators.Group.Finset.Basic
import Mathlib.Algebra.BigOperators.Group.Multiset.Basic
import Mathlib.Data.Fintype.Card
import Mathlib.GroupTheory.Congruence.BigOperators

/-!
# Multigraph — complete walks and what their vertex counts determine

A directed multigraph keeps parallel edges apart.  A *complete walk* starts at a fixed entry and
ends in a vertex without outgoing edges.  This file develops:

* the flow equations of a complete walk (`visits_eq_sum_in`, `visits_eq_sum_out`);
* `determined`: in a finite multigraph without critical edges, the visit counts of the vertices
  with at most one incoming edge determine all visit and traversal counts of a family of complete
  walks, up to any additive congruence of `ℕ` (equality, or "zero versus nonzero").
-/

/-- A directed multigraph: every edge has a source and a target. -/
structure Multigraph (V : Type*) (E : Type*) where
  src : E → V
  dst : E → V

namespace Multigraph

variable {V E : Type*} (G : Multigraph V E)

/-- The edges `es`, taken in order, lead from `u` to `w`. -/
def IsWalk : V → List E → V → Prop
  | u, [], w => u = w
  | u, e :: es, w => G.src e = u ∧ IsWalk (G.dst e) es w

/-- Walks can be checked edge by edge. -/
def decidableIsWalk [DecidableEq V] : (u : V) → (es : List E) → (w : V) →
    Decidable (G.IsWalk u es w)
  | u, [], w => inferInstanceAs (Decidable (u = w))
  | u, e :: es, w =>
      have := decidableIsWalk (G.dst e) es w
      inferInstanceAs (Decidable (G.src e = u ∧ G.IsWalk (G.dst e) es w))

instance [DecidableEq V] (u : V) (es : List E) (w : V) : Decidable (G.IsWalk u es w) :=
  G.decidableIsWalk u es w

/-- `v` has no outgoing edge. -/
def Terminal (v : V) : Prop :=
  ∀ e, G.src e ≠ v

/-- `v` has at most one incoming edge, parallel edges counted separately. -/
def AtMostOneIn (v : V) : Prop :=
  ∀ e e', G.dst e = v → G.dst e' = v → e = e'

/-- `e` is the only edge out of its source. -/
def SoleOut (e : E) : Prop :=
  ∀ e', G.src e' = G.src e → e' = e

/-- `e` is the only edge into its target. -/
def SoleIn (e : E) : Prop :=
  ∀ e', G.dst e' = G.dst e → e' = e

/-- No edge leads from a vertex with several outgoing edges to one with several incoming ones. -/
def NoCriticalEdge : Prop :=
  ∀ e, G.SoleOut e ∨ G.SoleIn e

/-- Without critical edges, every edge into a vertex with several incoming edges is alone at its
source. -/
theorem NoCriticalEdge.soleOut_of_dst {G : Multigraph V E} (hcrit : G.NoCriticalEdge) {e : E}
    (hmany : ¬ G.AtMostOneIn (G.dst e)) : G.SoleOut e := by
  rcases hcrit e with hout | hin
  · exact hout
  · exact absurd (fun d d' hd hd' => (hin d hd).trans (hin d' hd').symm) hmany

/-- A walk from `entry` to a vertex without outgoing edges. -/
structure Execution (entry : V) where
  edges : List E
  last : V
  walk : G.IsWalk entry edges last
  terminal : G.Terminal last

/-! ## Walks -/

/-- A walk visits a vertex only if the rest of the walk leads from there to its end. -/
theorem exists_walk_from {u v w : V} {es : List E} (h : G.IsWalk u es w)
    (hv : v ∈ u :: es.map G.dst) : ∃ es', G.IsWalk v es' w := by
  induction es generalizing u with
  | nil =>
      have hvu : v = u := by simpa using hv
      exact ⟨[], by rw [hvu]; exact h⟩
  | cons e es ih =>
      rcases List.mem_cons.1 hv with rfl | hrest
      · exact ⟨e :: es, h⟩
      · exact ih h.2 (by simpa using hrest)

/-- A set of vertices closed under outgoing edges keeps every walk that starts in it. -/
theorem walk_stays {B : Set V} (hclosed : ∀ e, G.src e ∈ B → G.dst e ∈ B) {u w : V}
    {es : List E} (h : G.IsWalk u es w) (hu : u ∈ B) : w ∈ B := by
  induction es generalizing u with
  | nil =>
      have huw : u = w := h
      exact huw ▸ hu
  | cons e es ih =>
      have hsrc : G.src e ∈ B := by rw [h.1]; exact hu
      exact ih h.2 (hclosed e hsrc)

/-- Listing the sources and then the end gives the same vertices as the start and the targets. -/
theorem walk_support {u w : V} {es : List E} (h : G.IsWalk u es w) :
    u :: es.map G.dst = es.map G.src ++ [w] := by
  induction es generalizing u with
  | nil =>
      have huw : u = w := h
      simp [huw]
  | cons e es ih =>
      have htail := ih h.2
      simp only [List.map_cons, List.cons_append, htail, h.1]

/-! ## Visit and traversal counts -/

namespace Execution

variable {G} {entry : V} [DecidableEq V] [DecidableEq E]

/-- How often the walk visits `v`. -/
def visits (x : G.Execution entry) (v : V) : ℕ :=
  (entry :: x.edges.map G.dst).count v

/-- How often the walk traverses `e`. -/
def traversals (x : G.Execution entry) (e : E) : ℕ :=
  x.edges.count e

end Execution

section Counts

variable [DecidableEq V] [DecidableEq E] [Fintype E]

/-- Counting the image of a list under `f` counts the edges over the value. -/
theorem count_map_eq_sum (f : E → V) (es : List E) (v : V) :
    (es.map f).count v = ∑ e with f e = v, es.count e := by
  induction es with
  | nil => simp
  | cons d es ih =>
      simp only [List.map_cons, List.count_cons, ih, beq_iff_eq, Finset.sum_add_distrib,
        Finset.sum_ite_eq, Finset.mem_filter, Finset.mem_univ, true_and]

variable {G} {entry : V}

/-- Every visit except a first one at the entry comes in over an edge. -/
theorem Execution.visits_eq_sum_in (x : G.Execution entry) {v : V} (hv : v ≠ entry) :
    x.visits v = ∑ e with G.dst e = v, x.traversals e := by
  have hne : (entry == v) = false := by simpa using fun h => hv h.symm
  simp [Execution.visits, Execution.traversals, List.count_cons, count_map_eq_sum, hne]

/-- Every visit of a vertex with successors leaves over an edge. -/
theorem Execution.visits_eq_sum_out (x : G.Execution entry) {v : V} (hv : ¬ G.Terminal v) :
    x.visits v = ∑ e with G.src e = v, x.traversals e := by
  have hlast : x.last ≠ v := fun h => hv (h ▸ x.terminal)
  have hne : (x.last == v) = false := by simpa using hlast
  simp [Execution.visits, Execution.traversals, G.walk_support x.walk, List.count_cons,
    count_map_eq_sum, hne]

/-- An edge that is alone at its source is taken at every visit of that source. -/
theorem Execution.traversals_of_soleOut (x : G.Execution entry) {e : E} (he : G.SoleOut e) :
    x.traversals e = x.visits (G.src e) := by
  have hfilter : (Finset.univ.filter fun e' => G.src e' = G.src e) = {e} := by
    ext e'
    simpa using ⟨fun h => he e' h, fun h => by rw [h]⟩
  have hterm : ¬ G.Terminal (G.src e) := fun h => h e rfl
  calc x.traversals e
      = ∑ e' with G.src e' = G.src e, x.traversals e' := by rw [hfilter, Finset.sum_singleton]
    _ = x.visits (G.src e) := (x.visits_eq_sum_out hterm).symm

/-- An edge that is alone at its target is taken before every visit of that target. -/
theorem Execution.traversals_of_soleIn (x : G.Execution entry) {e : E} (he : G.SoleIn e)
    (hentry : G.dst e ≠ entry) : x.traversals e = x.visits (G.dst e) := by
  have hfilter : (Finset.univ.filter fun e' => G.dst e' = G.dst e) = {e} := by
    ext e'
    simpa using ⟨fun h => he e' h, fun h => by rw [h]⟩
  calc x.traversals e
      = ∑ e' with G.dst e' = G.dst e, x.traversals e' := by rw [hfilter, Finset.sum_singleton]
    _ = x.visits (G.dst e) := (x.visits_eq_sum_in hentry).symm

end Counts

/-! ## Families of executions -/

section Families

variable {G} {entry : V} [DecidableEq V] [DecidableEq E]

/-- Visits of `v` by all executions of the family together. -/
def totalVisits (S : Multiset (G.Execution entry)) (v : V) : ℕ :=
  (S.map fun x => x.visits v).sum

/-- Traversals of `e` by all executions of the family together. -/
def totalTraversals (S : Multiset (G.Execution entry)) (e : E) : ℕ :=
  (S.map fun x => x.traversals e).sum

omit [DecidableEq E] in
/-- Some execution of the family visits `v`. -/
theorem totalVisits_pos_iff (S : Multiset (G.Execution entry)) (v : V) :
    0 < totalVisits S v ↔ ∃ x ∈ S, v ∈ entry :: x.edges.map G.dst := by
  rw [Nat.pos_iff_ne_zero, Ne, totalVisits, Multiset.sum_eq_zero_iff]
  simp [Execution.visits, List.count_eq_zero, or_iff_not_imp_left]

end Families

/-! ## Exceptional sets -/

section Exceptional

variable {G} [Finite V]

/-- In a finite multigraph, a set in which every vertex is entered from inside the set by an edge
that is alone at its source cannot be left: the choice of these edges is a bijection of the set. -/
theorem closed_of_fed {B : Set V}
    (hfed : ∀ v ∈ B, ∃ e, G.dst e = v ∧ G.src e ∈ B ∧ G.SoleOut e) :
    ∀ u ∈ B, (∀ e, G.src e = u → G.dst e ∈ B) ∧ ¬ G.Terminal u := by
  -- injective on a finite set, hence onto: every vertex of `B` feeds another one
  choose into hdst hsrc hsole using hfed
  let feeder : B → B := fun v => ⟨G.src (into v v.2), hsrc v v.2⟩
  have hinj : Function.Injective feeder := by
    intro v w hvw
    have heq : G.src (into v v.2) = G.src (into w w.2) := congrArg Subtype.val hvw
    have hsame : into v v.2 = into w w.2 := hsole w w.2 _ heq
    exact Subtype.ext (by rw [← hdst v v.2, ← hdst w w.2, hsame])
  intro u hu
  rcases Finite.surjective_of_injective hinj ⟨u, hu⟩ with ⟨v, hv⟩
  have hvu : G.src (into v v.2) = u := congrArg Subtype.val hv
  refine ⟨fun e he => ?_, fun hterm => hterm _ hvu⟩
  have hev : e = into v v.2 := hsole v v.2 e (he.trans hvu.symm)
  rw [hev, hdst v v.2]
  exact v.2

/-- Such a set is met by no complete walk. -/
theorem Execution.notMem_of_fed {B : Set V}
    (hfed : ∀ v ∈ B, ∃ e, G.dst e = v ∧ G.src e ∈ B ∧ G.SoleOut e) {entry : V}
    (x : G.Execution entry) {v : V} (hv : v ∈ entry :: x.edges.map G.dst) : v ∉ B := by
  intro hB
  rcases G.exists_walk_from x.walk hv with ⟨es, hwalk⟩
  have hclosed := closed_of_fed hfed
  have hlast : x.last ∈ B := G.walk_stays (fun e he => (hclosed _ he).1 e rfl) hwalk hB
  exact (hclosed _ hlast).2 x.terminal

end Exceptional

/-! ## Determined counts -/

section Totals

variable {G} {entry : V} [DecidableEq V] [DecidableEq E] [Fintype E]

/-- The total form of `Execution.visits_eq_sum_in`. -/
theorem totalVisits_eq_sum_in (S : Multiset (G.Execution entry)) {v : V} (hv : v ≠ entry) :
    totalVisits S v = ∑ e with G.dst e = v, totalTraversals S e := by
  induction S using Multiset.induction_on with
  | empty => simp [totalVisits, totalTraversals]
  | cons x S ih =>
      simp only [totalVisits, totalTraversals, Multiset.map_cons, Multiset.sum_cons,
        Finset.sum_add_distrib] at ih ⊢
      rw [ih, x.visits_eq_sum_in hv]

/-- The total form of `Execution.traversals_of_soleOut`. -/
theorem totalTraversals_of_soleOut (S : Multiset (G.Execution entry)) {e : E}
    (he : G.SoleOut e) : totalTraversals S e = totalVisits S (G.src e) := by
  simp only [totalTraversals, totalVisits, fun x : G.Execution entry => x.traversals_of_soleOut he]

/-- The total form of `Execution.traversals_of_soleIn`. -/
theorem totalTraversals_of_soleIn (S : Multiset (G.Execution entry)) {e : E}
    (he : G.SoleIn e) (hentry : G.dst e ≠ entry) :
    totalTraversals S e = totalVisits S (G.dst e) := by
  simp only [totalTraversals, totalVisits,
    fun x : G.Execution entry => x.traversals_of_soleIn he hentry]

/-- Without critical edges, the visits of a vertex with several incoming edges are the visits of
the sources of these edges. -/
theorem totalVisits_eq_sum_src (hcrit : G.NoCriticalEdge) (hentry : ∀ e, G.dst e ≠ entry)
    (S : Multiset (G.Execution entry)) {v : V} (hmany : ¬ G.AtMostOneIn v) :
    totalVisits S v = ∑ e with G.dst e = v, totalVisits S (G.src e) := by
  have hv : v ≠ entry := by
    rintro rfl
    exact hmany fun e _ he => absurd he (hentry e)
  calc totalVisits S v
      = ∑ e with G.dst e = v, totalTraversals S e := totalVisits_eq_sum_in S hv
    _ = ∑ e with G.dst e = v, totalVisits S (G.src e) := by
        refine Finset.sum_congr rfl fun e he => ?_
        obtain rfl : G.dst e = v := by simpa using he
        exact totalTraversals_of_soleOut S (hcrit.soleOut_of_dst hmany)

/-- **Determined counts.** In a finite multigraph without critical edges whose entry has no
incoming edge, two families of complete walks that agree on the vertices with at most one incoming
edge agree on every vertex and every edge.  Agreement is up to an additive congruence `c`. -/
theorem determined [Finite V] (hcrit : G.NoCriticalEdge) (hentry : ∀ e, G.dst e ≠ entry)
    (c : AddCon ℕ) (S T : Multiset (G.Execution entry))
    (hsel : ∀ v, G.AtMostOneIn v → c (totalVisits S v) (totalVisits T v)) :
    (∀ v, c (totalVisits S v) (totalVisits T v)) ∧
      ∀ e, c (totalTraversals S e) (totalTraversals T e) := by
  have hvisits : ∀ v, c (totalVisits S v) (totalVisits T v) := by
    -- the vertices where the families disagree feed each other over sole outgoing edges
    let B : Set V := {v | ¬ c (totalVisits S v) (totalVisits T v)}
    have hfed : ∀ v ∈ B, ∃ e, G.dst e = v ∧ G.src e ∈ B ∧ G.SoleOut e := by
      intro v hv
      have hmany : ¬ G.AtMostOneIn v := fun h => hv (hsel v h)
      by_contra hnone
      have hsrc : ∀ e ∈ Finset.univ.filter (fun e => G.dst e = v),
          c (totalVisits S (G.src e)) (totalVisits T (G.src e)) := by
        intro e he
        obtain rfl : G.dst e = v := by simpa using he
        by_contra hbad
        exact hnone ⟨e, rfl, hbad, hcrit.soleOut_of_dst hmany⟩
      refine hv ?_
      rw [totalVisits_eq_sum_src hcrit hentry S hmany, totalVisits_eq_sum_src hcrit hentry T hmany]
      exact c.finsetSum _ hsrc
    have hzero : ∀ (U : Multiset (G.Execution entry)) (v : V), v ∈ B → totalVisits U v = 0 := by
      intro U v hv
      by_contra hpos
      rcases (totalVisits_pos_iff U v).1 (Nat.pos_of_ne_zero hpos) with ⟨x, _, hx⟩
      exact x.notMem_of_fed hfed hx hv
    intro v
    by_contra hv
    exact hv (by rw [hzero S v hv, hzero T v hv]; exact c.refl 0)
  refine ⟨hvisits, fun e => ?_⟩
  -- an edge is taken as often as the end at which it is alone is visited
  rcases hcrit e with hout | hin
  · rw [totalTraversals_of_soleOut S hout, totalTraversals_of_soleOut T hout]
    exact hvisits _
  · rw [totalTraversals_of_soleIn S hin (hentry e), totalTraversals_of_soleIn T hin (hentry e)]
    exact hvisits _

/-- The congruence that only tells zero from nonzero. -/
def zeroCon : AddCon ℕ where
  r a b := 0 < a ↔ 0 < b
  iseqv := ⟨fun _ => Iff.rfl, Iff.symm, Iff.trans⟩
  add' := by
    intro a b a' b' hab hab'
    simp only [Nat.add_pos_iff_pos_or_pos]
    exact or_congr hab hab'

end Totals

end Multigraph
