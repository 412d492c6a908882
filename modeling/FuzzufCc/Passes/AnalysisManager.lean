import FuzzufCc.Lib.IR
import FuzzufCc.Passes.BBIDAssigner

/-!
# AnalysisManager — the state that the passes of one load point share

A pass sees the module, the code that earlier passes inserted into it, and the analysis manager,
which keeps the ids of the blocks once they have been computed.
-/

namespace FuzzufCc

open LLVM Libc

/-- The module with what the passes add to it, and its analysis manager.  `code r` stands at the
first insertion point of block `r`, so it runs once at each entry of the block.  `cfgSections` are
the contents of the `.cfg-*` sections.  `registered` says whether the plugin that registers the
analysis is loaded. -/
structure PassState where
  module : Module
  code : BlockRef → List IR.Inst
  cfgSections : List (List Char)
  registered : Bool
  cached : Option IdMap

namespace PassState

/-- A module before any pass has run. -/
def initial (M : Module) (registered : Bool) : PassState where
  module := M
  code _ := []
  cfgSections := []
  registered := registered
  cached := none

/-- `MAM.getCachedResult<BBIDAssigner>(M)`: null when nothing was cached. -/
def getCachedResult (st : PassState) : Option IdMap :=
  st.cached

/-- `MAM.getResult<BBIDAssigner>(M)`: computes the ids at the first call, and caches them. -/
def getResult (tc : Toolchain) (env : Env) (st : PassState) :
    Except Abort (IdMap × PassState) :=
  if !st.registered then
    .error .unregisteredAnalysis
  else
    match st.cached with
    | some ids => .ok (ids, st)
    | none => do
        let res ← BBIDAssigner.run tc env st.module
        return (res.ids, { st with module := res.module, cached := some res.ids })

/-- The two ways in which the ids are obtained. -/
theorem getResult_eq_ok {tc : Toolchain} {env : Env} {st st' : PassState} {ids : IdMap}
    (h : st.getResult tc env = .ok (ids, st')) :
    st.registered ∧
      ((st.cached = some ids ∧ st' = st) ∨
        (st.cached = none ∧ ∃ res, BBIDAssigner.run tc env st.module = .ok res ∧ ids = res.ids ∧
          st' = { st with module := res.module, cached := some res.ids })) := by
  unfold getResult at h
  cases hreg : st.registered with
  | false => simp [hreg] at h
  | true =>
      refine ⟨rfl, ?_⟩
      cases hcached : st.cached with
      | some ids' =>
          have heq : ids' = ids ∧ st = st' := by simpa [hreg, hcached] using h
          exact Or.inl ⟨by rw [heq.1], heq.2.symm⟩
      | none =>
          simp only [hreg, hcached] at h
          rcases bind_eq_ok.1 h with ⟨res, hrun, heq⟩
          rcases Prod.mk.inj (Except.ok.inj heq) with ⟨rfl, rfl⟩
          exact Or.inr ⟨rfl, res, hrun, rfl, rfl⟩

end PassState
end FuzzufCc
