import FuzzufCc.Lib.Transition
import Mathlib.Data.List.Nodup
import Mathlib.Logic.Function.Basic

/-!
# Descriptors — moving open files to fixed numbers

A process that is about to run another program puts its open files where that program looks for
them: one after the other it duplicates a descriptor to a target number and closes the other end
that belongs to it.  The numbers were given out by the kernel, so a target can be the number of a
descriptor that is still needed, and a descriptor to close can be a target.  All files arrive
exactly if neither happens.
-/

/-- Which open file each number stands for. -/
abbrev Descriptors (F : Type*) := Nat → Option F

namespace Descriptors

variable {F : Type*} (t : Descriptors F)

def close (fd : Nat) : Descriptors F :=
  Function.update t fd none

/-- `dup2` fails if `old` is not open, and changes nothing if the two numbers are the same. -/
def dup2 (old new : Nat) : Option (Descriptors F) :=
  (t old).map fun file => Function.update t new (some file)

/-- Two free numbers come into use. -/
theorem update_update_eq_some_iff {t : Descriptors F} {a b : Nat} (ha : t a = none)
    (hb : t b = none) (hne : a ≠ b) (x y : F) {fd : Nat} {z : F} :
    Function.update (Function.update t a (some x)) b (some y) fd = some z ↔
      (fd = a ∧ x = z) ∨ (fd = b ∧ y = z) ∨ t fd = some z := by
  rw [Function.update_apply, Function.update_apply]
  by_cases hfdb : fd = b
  · subst hfdb
    simp [hb, hne.symm]
  · by_cases hfda : fd = a
    · subst hfda
      simp [ha, hne]
    · simp [hfda, hfdb]

end Descriptors

/-- `dup2(source, target); close(other);`, meant to bring `file` to `target`. -/
structure Redirect (F : Type*) where
  source : Nat
  other : Nat
  target : Nat
  file : F

namespace Redirect

variable {F : Type*}

def exec (t : Descriptors F) (r : Redirect F) : Option (Descriptors F) :=
  (t.dup2 r.source r.target).map fun t => t.close r.other

/-- Every file is at its target. -/
def Installed (rs : List (Redirect F)) (t : Descriptors F) : Prop :=
  ∀ r ∈ rs, t r.target = some r.file

/-- No step takes away what it or an earlier one has installed, and none installs over the source of
a later one. -/
structure Clear (rs : List (Redirect F)) : Prop where
  own : ∀ r ∈ rs, r.other ≠ r.target
  later : rs.Pairwise fun r s => s.source ≠ r.target ∧ s.other ≠ r.target

/-- The numbers differ, and each file is open at its source only. -/
structure Fresh (t : Descriptors F) (rs : List (Redirect F)) : Prop where
  targets : (rs.map target).Nodup
  numbers : (rs.flatMap fun r => [r.source, r.other]).Nodup
  source : ∀ r ∈ rs, ∀ fd, t fd = some r.file ↔ fd = r.source

variable {t t' : Descriptors F} {r : Redirect F} {rs : List (Redirect F)}

/-! ## One step -/

theorem exec_cases (h : r.exec t = some t') :
    ∃ file, t r.source = some file ∧
      ∀ fd, t' fd = if fd = r.other then none else if fd = r.target then some file else t fd := by
  rcases Option.map_eq_some_iff.1 h with ⟨u, hu, rfl⟩
  rcases Option.map_eq_some_iff.1 hu with ⟨file, hfile, rfl⟩
  refine ⟨file, hfile, fun fd => ?_⟩
  simp only [Descriptors.close, Function.update_apply]

theorem exists_exec (h : t r.source = some r.file) : ∃ t', r.exec t = some t' := by
  simp [exec, Descriptors.dup2, h]

/-- A file that is open nowhere stays so. -/
theorem absent_run {file : F} (h : ∀ fd, t fd ≠ some file)
    (hrun : Transition.run exec t rs = some t') : ∀ fd, t' fd ≠ some file := by
  refine Transition.invariant_run (I := fun u => ∀ fd, u fd ≠ some file) ?_ h hrun
  intro u r u' hu hexec fd
  obtain ⟨source, hsource, hu'⟩ := exec_cases hexec
  rw [hu' fd]
  split_ifs
  · simp
  · rw [← hsource]
    exact hu r.source
  · exact hu fd

/-- A number that is no target can only be closed. -/
theorem run_of_not_target {fd : Nat} (hrun : Transition.run exec t rs = some t')
    (htarget : fd ∉ rs.map target) : t' fd = if fd ∈ rs.map other then none else t fd := by
  induction rs generalizing t with
  | nil =>
      obtain rfl : t = t' := Option.some.inj hrun
      simp
  | cons r rs ih =>
      rcases Transition.run_cons_eq_some.1 hrun with ⟨u, hu, hrest⟩
      rw [List.map_cons, List.mem_cons, not_or] at htarget
      obtain ⟨file, -, hfd⟩ := exec_cases hu
      rw [ih hrest htarget.2, hfd fd, if_neg htarget.1, List.map_cons]
      by_cases hother : fd = r.other
      · simp [hother]
      · simp [hother]

/-! ## All steps -/

theorem clear_cons :
    Clear (r :: rs) ↔
      r.other ≠ r.target ∧ (∀ s ∈ rs, s.source ≠ r.target ∧ s.other ≠ r.target) ∧ Clear rs := by
  constructor
  · intro h
    have hown := List.forall_mem_cons.1 h.own
    have hlater := List.pairwise_cons.1 h.later
    exact ⟨hown.1, hlater.1, hown.2, hlater.2⟩
  · rintro ⟨hown, hlater, hrest⟩
    exact ⟨List.forall_mem_cons.2 ⟨hown, hrest.own⟩, List.pairwise_cons.2 ⟨hlater, hrest.later⟩⟩

/-- The numbers of the first step are not those of the later ones. -/
theorem Fresh.ne (h : Fresh t (r :: rs)) {s : Redirect F} (hs : s ∈ rs) :
    s.source ≠ r.source ∧ s.source ≠ r.other := by
  have hnumbers := h.numbers
  rw [List.flatMap_cons, List.nodup_append] at hnumbers
  have hmem : s.source ∈ rs.flatMap fun r => [r.source, r.other] :=
    List.mem_flatMap.2 ⟨s, hs, by simp⟩
  exact ⟨(hnumbers.2.2 _ (by simp) _ hmem).symm, (hnumbers.2.2 _ (by simp) _ hmem).symm⟩

theorem Fresh.file_ne (h : Fresh t (r :: rs)) {s : Redirect F} (hs : s ∈ rs) :
    s.file ≠ r.file := by
  intro heq
  have hsource := (h.source r List.mem_cons_self r.source).2 rfl
  rw [← heq] at hsource
  exact (h.ne hs).1 ((h.source s (List.mem_cons_of_mem _ hs) _).1 hsource).symm

/-- Where the first step spares a later source, the file there is still open only there; where it
does not, the file is lost. -/
theorem Fresh.source_exec (h : Fresh t (r :: rs)) (hexec : r.exec t = some t') {s : Redirect F}
    (hs : s ∈ rs) (fd : Nat) :
    t' fd = some s.file ↔ fd = s.source ∧ s.source ≠ r.target := by
  obtain ⟨file, hfile, hfd⟩ := exec_cases hexec
  have hr := (h.source r List.mem_cons_self r.source).2 rfl
  obtain rfl : r.file = file := Option.some.inj (hr.symm.trans hfile)
  have hold := h.source s (List.mem_cons_of_mem _ hs) fd
  have hne := h.ne hs
  rw [hfd fd]
  by_cases hother : fd = r.other
  · subst hother
    simpa using fun heq => absurd heq.symm hne.2
  · by_cases htarget : fd = r.target
    · subst htarget
      simp only [hother, if_false, if_true, Option.some.injEq]
      constructor
      · intro heq
        exact absurd heq.symm (h.file_ne hs)
      · rintro ⟨heq, hnot⟩
        exact absurd heq.symm hnot
    · simp only [hother, htarget, if_false, hold]
      constructor
      · rintro rfl
        exact ⟨rfl, htarget⟩
      · intro heq
        exact heq.1

theorem Fresh.exec (h : Fresh t (r :: rs)) (hexec : r.exec t = some t')
    (hspared : ∀ s ∈ rs, s.source ≠ r.target) : Fresh t' rs := by
  refine ⟨(List.nodup_cons.1 h.targets).2, ?_, fun s hs fd => ?_⟩
  · have hnumbers := h.numbers
    rw [List.flatMap_cons, List.nodup_append] at hnumbers
    exact hnumbers.2.1
  · rw [h.source_exec hexec hs, and_iff_left (hspared s hs)]

/-- **When all files arrive.** -/
theorem installed_iff_clear (h : Fresh t rs) :
    (∃ t', Transition.run exec t rs = some t' ∧ Installed rs t') ↔ Clear rs := by
  induction rs generalizing t with
  | nil =>
      refine iff_of_true ⟨t, rfl, fun r hr => ?_⟩ ⟨fun r hr => ?_, List.Pairwise.nil⟩
      · cases hr
      · cases hr
  | cons r rs ih =>
      obtain ⟨u, hu⟩ := exists_exec ((h.source r List.mem_cons_self r.source).2 rfl)
      obtain ⟨file, hfile, hfd⟩ := exec_cases hu
      have hr := (h.source r List.mem_cons_self r.source).2 rfl
      obtain rfl : r.file = file := Option.some.inj (hr.symm.trans hfile)
      have htarget : r.target ∉ rs.map target := (List.nodup_cons.1 h.targets).1
      have hrun : ∀ t', Transition.run Redirect.exec t (r :: rs) = some t' ↔
          Transition.run Redirect.exec u rs = some t' := by
        intro t'
        simp [Transition.run, hu]
      -- the first file arrives if neither its own step nor a later one closes its target
      have hfirst : ∀ t', Transition.run Redirect.exec u rs = some t' →
          (t' r.target = some r.file ↔ r.other ≠ r.target ∧ ∀ s ∈ rs, s.other ≠ r.target) := by
        intro t' ht'
        rw [run_of_not_target ht' htarget, hfd]
        by_cases hlater : r.target ∈ rs.map other
        · rcases List.mem_map.1 hlater with ⟨s, hs, heq⟩
          simpa [hlater] using fun _ => ⟨s, hs, heq⟩
        · have hnone : ∀ s ∈ rs, s.other ≠ r.target := fun s hs heq =>
            hlater (List.mem_map.2 ⟨s, hs, heq⟩)
          by_cases hown : r.target = r.other
          · simp [hown]
          · simpa [hlater, hown, Ne.symm hown] using hnone
      rw [clear_cons]
      constructor
      · rintro ⟨t', ht', hinstalled⟩
        rw [hrun] at ht'
        have hown := (hfirst t' ht').1 (hinstalled r List.mem_cons_self)
        have hspared : ∀ s ∈ rs, s.source ≠ r.target := by
          intro s hs heq
          have hlost : ∀ fd, u fd ≠ some s.file := fun fd hfd =>
            ((h.source_exec hu hs fd).1 hfd).2 heq
          exact absent_run hlost ht' s.target (hinstalled s (List.mem_cons_of_mem _ hs))
        refine ⟨hown.1, fun s hs => ⟨hspared s hs, hown.2 s hs⟩, ?_⟩
        exact (ih (h.exec hu hspared)).1
          ⟨t', ht', fun s hs => hinstalled s (List.mem_cons_of_mem _ hs)⟩
      · rintro ⟨hown, hlater, hrest⟩
        obtain ⟨t', ht', hinstalled⟩ := (ih (h.exec hu fun s hs => (hlater s hs).1)).2 hrest
        refine ⟨t', (hrun t').2 ht', fun s hs => ?_⟩
        rcases List.mem_cons.1 hs with rfl | hs
        · exact (hfirst t' ht').2 ⟨hown, fun s hs => (hlater s hs).2⟩
        · exact hinstalled s hs

end Redirect
