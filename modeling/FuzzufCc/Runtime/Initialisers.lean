import FuzzufCc.Runtime.IjonParse

/-!
# Initialisers — two runtimes and one segment id

A program with both runtimes reads `__AFL_SHM_ID` twice.  The bitmap runtime takes what `atoi` makes
of any text; the IJON runtime also looks at where `strtol` stops.  So there are texts for which one
attaches a segment and the other one ends the process.
-/

namespace FuzzufCc

open Libc IR AFLCoverage

namespace Runtime

/-- What an initialiser does with the shared memory: nothing, `shmat`, or `_exit(1)` instead. -/
inductive Attachment
  | leftAlone
  | attached (shmId : BitVec 32)
  | refused
  deriving DecidableEq, Repr

namespace Bitmap

/-- The constructor of the bitmap runtime does so. -/
def Does (env : Env) (segments : Segments) : Attachment → Prop
  | .leftAlone => ∀ p : Process, p.initDone = false →
      autoInit env segments p = some { p with initDone := true }
  | .attached shmId => segments shmId ∧ ∀ p : Process, p.initDone = false →
      autoInit env segments p = some
        { state := (p.state.setGlobal areaPtrValname (.ptr ⟨.segment shmId, 0⟩)).storeByte
            ⟨.segment shmId, 0⟩ 1
          initDone := true }
  | .refused => ∀ p : Process, p.initDone = false → autoInit env segments p = none

section Does

variable {env : Env} {segments : Segments}

theorem autoInit_of_not_deferred (hdefer : env DEFER_ENV_VAR = none) {p : Process}
    (hp : p.initDone = false) : autoInit env segments p =
      (mapShm env segments p.state).map fun s => { state := s, initDone := true } := by
  rw [autoInit, hdefer, ← manualInit_of_not_done hp]
  rfl

theorem does_leftAlone (hdefer : env DEFER_ENV_VAR = none) (hid : env SHM_ENV_VAR = none) :
    Does env segments .leftAlone := by
  intro p hp
  simp only [autoInit_of_not_deferred hdefer hp, mapShm, hid, Option.map_some]

theorem does_attached (hdefer : env DEFER_ENV_VAR = none) {idStr : String}
    (hid : env SHM_ENV_VAR = some idStr) (hsegment : segments (atoi idStr.toList)) :
    Does env segments (.attached (atoi idStr.toList)) := by
  refine ⟨hsegment, fun p hp => ?_⟩
  simp only [autoInit_of_not_deferred hdefer hp, mapShm, hid, hsegment, if_true, Option.map_some]

theorem does_refused (hdefer : env DEFER_ENV_VAR = none) {idStr : String}
    (hid : env SHM_ENV_VAR = some idStr) (hsegment : ¬segments (atoi idStr.toList)) :
    Does env segments .refused := by
  intro p hp
  simp only [autoInit_of_not_deferred hdefer hp, mapShm, hid, hsegment]
  rfl

end Does
end Bitmap

namespace Ijon

/-- `__ijon_map_shm` does so.  Behind the `shmat`, whether it goes on depends on the sizes. -/
def Does (env : Env) (segments : Segments) : Attachment → Prop
  | .leftAlone => ∀ layout mem, mapShm env segments layout mem = .ok (layout, mem)
  | .attached shmId => segments shmId ∧ ∀ layout mem,
      mapShm env segments layout mem = attach env segments shmId layout mem
  | .refused => ∀ layout mem, ∃ printed,
      mapShm env segments layout mem = .error ⟨printed, layout⟩

section Does

variable {env : Env} {segments : Segments}

theorem region_eq_error {envVar : String} {assign : Ptr Object → BitVec 32 → Layout → Layout}
    {cur : Ptr Object} {layout : Layout} {e : Exit}
    (h : region env envVar assign cur layout = .error e) :
    e.printed = "Invalid value on " ++ envVar := by
  unfold region at h
  split at h
  · cases h
  · split at h
    · rw [← Except.error.inj h]
    · split at h <;> cases h

/-- Behind the `shmat` only the sizes are complained about. -/
theorem attach_ne_invalid_id {shmId : BitVec 32} (hsegment : segments shmId) (layout : Layout)
    (mem : Mem Object) :
    attach env segments shmId layout mem ≠
      .error ⟨"Invalid value on " ++ AFL_SHM_ENV_VAR, layout⟩ := by
  intro h
  simp only [attach, hsegment, Bool.not_true, Bool.false_eq_true, if_false] at h
  rcases bind_eq_error.1 h with h | ⟨_, -, h⟩
  · have hprinted : "Invalid value on " ++ AFL_SHM_ENV_VAR =
        "Invalid value on " ++ AFL_SIZE_ENV_VAR := region_eq_error h
    exact absurd hprinted (by decide)
  · rcases bind_eq_error.1 h with h | ⟨_, -, h⟩
    · have hprinted : "Invalid value on " ++ AFL_SHM_ENV_VAR =
          "Invalid value on " ++ IJON_COUNTER_SIZE_ENV_VAR := region_eq_error h
      exact absurd hprinted (by decide)
    · rcases bind_eq_error.1 h with h | ⟨_, -, h⟩
      · have hprinted : "Invalid value on " ++ AFL_SHM_ENV_VAR =
            "Invalid value on " ++ IJON_MAX_SIZE_ENV_VAR := region_eq_error h
        exact absurd hprinted (by decide)
      · cases h

theorem does_leftAlone (hid : env AFL_SHM_ENV_VAR = none) : Does env segments .leftAlone := by
  intro layout mem
  simp only [mapShm, hid]

theorem does_attached {idStr : String} (hid : env AFL_SHM_ENV_VAR = some idStr)
    (hparse : (parse idStr.toList).isSome) (hsegment : segments (atoi idStr.toList)) :
    Does env segments (.attached (atoi idStr.toList)) := by
  obtain ⟨shmId, hshmId⟩ := Option.isSome_iff_exists.1 hparse
  refine ⟨hsegment, fun layout mem => ?_⟩
  rw [mapShm_of_id hid, hshmId, parse_eq_some hshmId]

theorem does_refused {idStr : String} (hid : env AFL_SHM_ENV_VAR = some idStr)
    (hsegment : ¬segments (atoi idStr.toList)) : Does env segments .refused := by
  intro layout mem
  rw [mapShm_of_id hid]
  cases hparse : parse idStr.toList with
  | none => exact ⟨_, rfl⟩
  | some shmId =>
      obtain rfl := parse_eq_some hparse
      refine ⟨"", ?_⟩
      simp only [attach, hsegment, Bool.not_false, if_true]

/-- A text that is not accepted is refused, whatever segment it may name. -/
theorem eq_refused_of_parse_none {idStr : String} (hid : env AFL_SHM_ENV_VAR = some idStr)
    (hparse : parse idStr.toList = none) {a : Attachment} (h : Does env segments a) :
    a = .refused := by
  have hmap : ∀ layout mem, mapShm env segments layout mem =
      .error ⟨"Invalid value on " ++ AFL_SHM_ENV_VAR, layout⟩ := by
    intro layout mem
    rw [mapShm_of_id hid, hparse]
  cases a with
  | leftAlone =>
      have hdoes := h initial fun _ _ => 0
      rw [hmap] at hdoes
      cases hdoes
  | attached shmId =>
      have hattach := h.2 initial fun _ _ => 0
      rw [hmap] at hattach
      exact absurd hattach.symm (attach_ne_invalid_id h.1 _ _)
  | refused => rfl

end Does
end Ijon

/-! ## When they agree -/

/-- Both initialisers leave the shared memory alone, or both attach one segment, or both refuse. -/
def Agree (env : Env) (segments : Segments) : Prop :=
  ∃ a, Bitmap.Does env segments a ∧ Ijon.Does env segments a

variable {env : Env} {segments : Segments}

/-- The bitmap runtime attaches every segment that `atoi` finds. -/
theorem parse_isSome_of_agree (hdefer : env Bitmap.DEFER_ENV_VAR = none) (h : Agree env segments)
    {idStr : String} (hid : env Bitmap.SHM_ENV_VAR = some idStr)
    (hsegment : segments (atoi idStr.toList)) : (Ijon.parse idStr.toList).isSome := by
  rcases h with ⟨a, hbitmap, hijon⟩
  by_contra hnone
  obtain rfl := Ijon.eq_refused_of_parse_none hid (by simpa using hnone) hijon
  have hrefused := hbitmap (Bitmap.image fun _ _ => 0) rfl
  have hattached := (Bitmap.does_attached hdefer hid hsegment).2 (Bitmap.image fun _ _ => 0) rfl
  cases hrefused.symm.trans hattached

/-- **Two initialisers.** They agree exactly if a text whose number is the id of a segment is empty
or has that number end with the text or its tenth character. -/
theorem agree_iff (env : Env) (segments : Segments) (hdefer : env Bitmap.DEFER_ENV_VAR = none) :
    Agree env segments ↔
      ∀ idStr, env Bitmap.SHM_ENV_VAR = some idStr → segments (atoi idStr.toList) →
        idStr.toList = [] ∨ Ijon.NumberEnds idStr.toList (min idStr.toList.length 10) := by
  constructor
  · intro h idStr hid hsegment
    exact (Ijon.parse_isSome_iff _).1 (parse_isSome_of_agree hdefer h hid hsegment)
  · intro h
    cases hid : env Bitmap.SHM_ENV_VAR with
    | none => exact ⟨_, Bitmap.does_leftAlone hdefer hid, Ijon.does_leftAlone hid⟩
    | some idStr =>
        by_cases hsegment : segments (atoi idStr.toList)
        · have hparse := (Ijon.parse_isSome_iff _).2 (h idStr hid hsegment)
          exact ⟨_, Bitmap.does_attached hdefer hid hsegment,
            Ijon.does_attached hid hparse hsegment⟩
        · exact ⟨_, Bitmap.does_refused hdefer hid hsegment, Ijon.does_refused hid hsegment⟩

/-! ### Texts for segment 7 -/

def idEnv (idStr : String) : Env := fun key =>
  if key = Bitmap.SHM_ENV_VAR then some idStr else none

/-- Characters behind the number, or zeros before it: the bitmap runtime attaches segment 7, and the
IJON runtime ends the process. -/
theorem attached_and_refused :
    ¬Agree (idEnv "7\n") Ijon.onlySeven ∧ ¬Agree (idEnv "00000000007") Ijon.onlySeven := by
  constructor
  · intro h
    exact absurd (parse_isSome_of_agree rfl h rfl (by decide)) (by decide)
  · intro h
    exact absurd (parse_isSome_of_agree rfl h rfl (by decide)) (by decide)

theorem seven_agrees : Agree (idEnv " +7") Ijon.onlySeven := by
  refine (agree_iff (idEnv " +7") Ijon.onlySeven rfl).2 fun idStr hid _ => Or.inr ?_
  obtain rfl := Option.some.inj hid
  have hnumber : IsNumber [' '] ['+'] ['7'] :=
    { isspace := List.forall_mem_singleton.2 rfl
      isSign := Or.inr (Or.inr rfl)
      isDigit := List.forall_mem_singleton.2 rfl
      nonempty := List.cons_ne_nil _ _ }
  exact ⟨[' '], ['+'], ['7'], [], hnumber, by simp, rfl, rfl⟩

end Runtime
end FuzzufCc
