import FuzzufCc.Runtime.IjonRegions

/-!
# IjonCells — which counters and slots the calls touch

Two values at one site of a program reach two counters as long as they differ in low bits only.
And every index is reduced by the size of its region, so it stays inside; what can go wrong is the
reduction itself, and the assertion in `ijon_hashstack_libgcc`.
-/

namespace FuzzufCc

open Libc IR Transition

namespace Runtime
namespace Ijon

/-! ## Sites -/

/-- The counter that `IJON_INC(x)` and `IJON_SET(x)` touch at a site with this hash. -/
def Thread.siteCounter (σ : Thread) (hash x : BitVec 32) : Ptr Object :=
  σ.counter (σ.counterIndex (hash ^^^ x))

section Sites

variable {σ : Thread} {k : Nat}

theorem counterIndex_lt (hpos : 0 < σ.layout.mapSize) (addr : BitVec 32) :
    σ.counterIndex addr < σ.layout.mapSize :=
  Nat.mod_lt _ hpos

/-- An index is a remainder of a 32-bit number. -/
theorem counterIndex_lt_two_pow (addr : BitVec 32) : σ.counterIndex addr < 2 ^ 32 :=
  lt_of_le_of_lt (Nat.mod_le _ _) (BitVec.isLt _)

theorem counter_injective {i j : Nat} (hi : i < 2 ^ 64) (hj : j < 2 ^ 64)
    (h : σ.counter i = σ.counter j) : i = j := by
  have hdist := congrArg σ.layout.counterPtr.dist h
  rwa [Thread.counter, Thread.counter, Ptr.dist_add_self hi, Ptr.dist_add_self hj] at hdist

/-- Values of `k` bits have different counters, if there are that many counters. -/
theorem siteCounter_injective (hk : 2 ^ k ≤ σ.layout.mapSize) (hash : BitVec 32) {x y : BitVec 32}
    (hx : x.toNat < 2 ^ k) (hy : y.toNat < 2 ^ k)
    (h : σ.siteCounter hash x = σ.siteCounter hash y) : x = y := by
  have hindex : σ.counterIndex (hash ^^^ x) = σ.counterIndex (hash ^^^ y) := by
    refine counter_injective ?_ ?_ h
    · exact lt_trans (counterIndex_lt_two_pow _) (by decide)
    · exact lt_trans (counterIndex_lt_two_pow _) (by decide)
  -- the two reduced numbers differ in the bits of `x` and `y` only
  have hcancel : (σ.state ^^^ (hash ^^^ x)) ^^^ (σ.state ^^^ (hash ^^^ y)) = x ^^^ y := by
    calc (σ.state ^^^ (hash ^^^ x)) ^^^ (σ.state ^^^ (hash ^^^ y))
        = (σ.state ^^^ σ.state) ^^^ (hash ^^^ hash) ^^^ (x ^^^ y) := by ac_rfl
      _ = x ^^^ y := by simp
  have hxor : (σ.state ^^^ (hash ^^^ x)).toNat ^^^ (σ.state ^^^ (hash ^^^ y)).toNat < 2 ^ k := by
    rw [← BitVec.toNat_xor, hcancel, BitVec.toNat_xor]
    exact Nat.xor_lt_two_pow hx hy
  have heq := BitVec.eq_of_toNat_eq (Xor.eq_of_mod_eq_of_xor_lt hxor hk hindex)
  rw [heq, BitVec.xor_self] at hcancel
  exact BitVec.xor_eq_zero_iff.1 hcancel.symm

/-- The call changes the counter `p` by `f` and nothing else. -/
def Call.Updates (c : Call) (σ : Thread) (f : BitVec 8 → BitVec 8) (p : Ptr Object) : Prop :=
  (∃ i < σ.layout.mapSize, p = σ.counter i) ∧
    c.exec σ = .ok { σ with mem := σ.mem.set p (f (σ.mem p.obj p.off)) }

theorem inc_updates (hpos : 0 < σ.layout.mapSize) (hash x : BitVec 32) :
    (IJON_INC hash x).Updates σ (· + 1) (σ.siteCounter hash x) :=
  ⟨⟨_, counterIndex_lt hpos _, rfl⟩, Thread.mapInc_of_pos hpos _⟩

theorem set_updates (hpos : 0 < σ.layout.mapSize) (hash x : BitVec 32) :
    (IJON_SET hash x).Updates σ (· ||| 1) (σ.siteCounter hash x) :=
  ⟨⟨_, counterIndex_lt hpos _, rfl⟩, Thread.mapSet_of_pos hpos _⟩

/-- Hamming distances of 32-bit numbers have six bits. -/
theorem distance_lt (x y : BitVec 32) : (x ^^^ y).cpop.toNat < 2 ^ 6 := by
  have hle := BitVec.toNat_cpop_le (x ^^^ y)
  omega

/-- **Separate counters.** At one site and in one state, different values of `k` bits count in
different counters if there are `2 ^ k` of them; so `IJON_CMP` separates all distances if there
are 64. -/
theorem sites_separate (σ : Thread) (hash : BitVec 32) :
    (∀ k x y, 2 ^ k ≤ σ.layout.mapSize → x.toNat < 2 ^ k → y.toNat < 2 ^ k → x ≠ y →
      ∃ p q, p ≠ q ∧
        (IJON_INC hash x).Updates σ (· + 1) p ∧ (IJON_INC hash y).Updates σ (· + 1) q ∧
        (IJON_SET hash x).Updates σ (· ||| 1) p ∧ (IJON_SET hash y).Updates σ (· ||| 1) q) ∧
      (64 ≤ σ.layout.mapSize → ∀ x y x' y' : BitVec 32, (x ^^^ y).cpop ≠ (x' ^^^ y').cpop →
        ∃ p q, p ≠ q ∧
          (IJON_CMP hash x y).Updates σ (· + 1) p ∧ (IJON_CMP hash x' y').Updates σ (· + 1) q) := by
  constructor
  · intro k x y hk hx hy hne
    have hpos : 0 < σ.layout.mapSize := lt_of_lt_of_le (Nat.two_pow_pos k) hk
    exact ⟨σ.siteCounter hash x, σ.siteCounter hash y,
      fun h => hne (siteCounter_injective hk hash hx hy h),
      inc_updates hpos hash x, inc_updates hpos hash y,
      set_updates hpos hash x, set_updates hpos hash y⟩
  · intro hsize x y x' y' hne
    have hpos : 0 < σ.layout.mapSize := by omega
    refine ⟨σ.siteCounter hash (x ^^^ y).cpop, σ.siteCounter hash (x' ^^^ y').cpop, fun h => ?_,
      inc_updates hpos hash _, inc_updates hpos hash _⟩
    exact hne (siteCounter_injective (k := 6) hsize hash (distance_lt x y) (distance_lt x' y') h)

/-- A hundred counters, no power of two, and the values 0 and 63 at a site with the hash 77. -/
theorem hundred_counters_separate :
    ∃ p q, p ≠ q ∧
      (IJON_INC 77 0).Updates (Thread.start { initial with mapSize := 100 } fun _ _ => 0) (· + 1) p ∧
      (IJON_INC 77 63).Updates (Thread.start { initial with mapSize := 100 } fun _ _ => 0) (· + 1) q := by
  obtain ⟨p, q, hne, hp, hq, -⟩ :=
    (sites_separate (Thread.start { initial with mapSize := 100 } fun _ _ => 0) 77).1 6 0 63
      (by decide) (by decide) (by decide) (by decide)
  exact ⟨p, q, hne, hp, hq⟩

end Sites

/-! ## Safety -/

/-- The bytes of the region that `map_size` describes. -/
def counterBytes (env : Env) : Nat :=
  if env AFL_SHM_ENV_VAR = none ∨ reserved env IJON_COUNTER_SIZE_ENV_VAR = 0 then MAP_SIZE
  else reserved env IJON_COUNTER_SIZE_ENV_VAR

/-- The bytes of the max slots: those of `__ijon_max_initial`, or the accepted size. -/
def maxBytes (env : Env) : Nat :=
  if env AFL_SHM_ENV_VAR = none ∨ reserved env IJON_MAX_SIZE_ENV_VAR = 0 then 8 * MAXMAP_SIZE
  else reserved env IJON_MAX_SIZE_ENV_VAR

theorem mapShm_sizes {env : Env} {segments : Segments} {mem mem' : Mem Object} {layout : Layout}
    (h : mapShm env segments initial mem = .ok (layout, mem')) :
    layout.mapSize = counterBytes env ∧ layout.maxMapSize = maxBytes env / 8 := by
  cases hid : env AFL_SHM_ENV_VAR with
  | none =>
      simp only [mapShm, hid, Except.ok.injEq, Prod.mk.injEq] at h
      rw [← h.1]
      simp [counterBytes, maxBytes, hid, initial]
  | some idStr =>
      rcases mapShm_eq_ok hid h with ⟨_, rfl, _⟩
      constructor
      · simp [segmentLayout, counterBytes, hid, initial]
      · by_cases hM : reserved env IJON_MAX_SIZE_ENV_VAR = 0
        · simp [segmentLayout, maxBytes, hid, hM, initial]
        · simp [segmentLayout, maxBytes, hid, hM]

/-- The index that a call forms lies in its region. -/
def Call.IndexInRegion (env : Env) (σ : Thread) : Call → Prop
  | .max addr _ | .min addr _ => 8 * σ.maxIndex addr + 8 ≤ maxBytes env
  | .mapInc addr | .mapSet addr => σ.counterIndex addr < counterBytes env
  | _ => True

/-- The call reads and writes bytes of its region only: wherever others differ, it does the same and
leaves them. -/
structure Call.InRegion (env : Env) (σ : Thread) (c : Call) : Prop where
  index : c.IndexInRegion env σ
  bytes : ∀ (R : Ptr Object → Prop) [DecidablePred R] (m : Mem Object),
    (∀ q, c.Region σ.layout (counterBytes env) (maxBytes env) q → ¬ R q) →
      c.exec (σ.inside R m) = (c.exec σ).map (Thread.inside R m)

/-- The use returns, and stays in its region. -/
def Use.Safe (env : Env) (σ : Thread) (u : Use) : Prop :=
  ∃ c σ', u.toCall = .ok c ∧ c.exec σ = .ok σ' ∧ c.InRegion env σ

/-- Max slots are there if they are used, and the stack is not too deep for the buffer. -/
def Use.Fits (env : Env) : Use → Prop
  | .call (.max _ _) | .call (.min _ _) => 8 ≤ maxBytes env
  | .call _ => True
  | .strdist _ stack _ _ => stack.length < 16

section Safety

variable {env : Env} {σ σ' : Thread}

/-- The sizes of the thread are those of the environment. -/
def SizesOf (env : Env) (σ : Thread) : Prop :=
  0 < σ.layout.mapSize ∧ σ.layout.mapSize < 2 ^ 63 ∧ σ.layout.mapSize = counterBytes env ∧
    σ.layout.maxMapSize = maxBytes env / 8

theorem SizesOf.start {segments : Segments} {mem mem' : Mem Object} {layout : Layout}
    (h : mapShm env segments initial mem = .ok (layout, mem')) :
    SizesOf env (Thread.start layout mem') :=
  ⟨(mapSize_bounds h).1, (mapShm_apart h).counters, (mapShm_sizes h).1, (mapShm_sizes h).2⟩

theorem hashstack_eq_ok_iff {stack : List (BitVec 64)} :
    (∃ h, hashstack stack = .ok h) ↔ stack.length < 16 := by
  have hlen : (backtrace stack 16).length < 16 ↔ stack.length < 16 := by
    simp only [backtrace, List.length_take]
    omega
  by_cases hdepth : stack.length < 16
  · simp [hashstack, hlen, hdepth]
  · simp [hashstack, hlen, hdepth]

theorem Use.exec_eq_ok {u : Use} :
    u.exec σ = .ok σ' ↔ ∃ c, u.toCall = .ok c ∧ c.exec σ = .ok σ' :=
  bind_eq_ok

theorem useStep_eq_some {u : Use} :
    useStep σ u = some σ' ↔ ∃ c, u.toCall = .ok c ∧ c.exec σ = .ok σ' := by
  rw [← Use.exec_eq_ok, useStep]
  cases u.exec σ <;> simp [Except.toOption]

theorem SizesOf.step {u : Use} (h : SizesOf env σ) (hstep : useStep σ u = some σ') :
    SizesOf env σ' := by
  rcases useStep_eq_some.1 hstep with ⟨c, _, hexec⟩
  have hstep' : Ijon.step σ c = some σ' := by simp [Ijon.step, hexec, Except.toOption]
  obtain ⟨_, rfl⟩ := Call.step_eq_some.1 hstep'
  simpa [SizesOf] using h

theorem Call.indexInRegion (h : SizesOf env σ) {c : Call} (hpos : 0 < c.divisor σ.layout) :
    c.IndexInRegion env σ := by
  have hslot : ∀ addr, 0 < σ.layout.maxMapSize → 8 * σ.maxIndex addr + 8 ≤ maxBytes env := by
    intro addr hslots
    have hlt : σ.maxIndex addr < σ.layout.maxMapSize := Nat.mod_lt _ hslots
    rw [h.2.2.2] at hlt
    omega
  have hcounter : ∀ addr, σ.counterIndex addr < counterBytes env := by
    intro addr
    have hlt := counterIndex_lt h.1 addr
    rwa [h.2.2.1] at hlt
  cases c with
  | xorState val => trivial
  | pushState x => trivial
  | max addr val => exact hslot addr hpos
  | min addr val => exact hslot addr hpos
  | mapInc addr => exact hcounter addr
  | mapSet addr => exact hcounter addr

/-- The slots end in the region. -/
theorem Call.region_subset (h : SizesOf env σ) {c : Call} {q : Ptr Object}
    (hq : c.Region σ.layout σ.layout.mapSize (8 * σ.layout.maxMapSize) q) :
    c.Region σ.layout (counterBytes env) (maxBytes env) q := by
  have hslots : 8 * σ.layout.maxMapSize ≤ maxBytes env := by
    rw [h.2.2.2]
    omega
  cases c with
  | xorState val => exact hq
  | pushState x => exact hq
  | max addr val => exact ⟨hq.1, hq.2.trans_le hslots⟩
  | min addr val => exact ⟨hq.1, hq.2.trans_le hslots⟩
  | mapInc addr => exact ⟨hq.1, hq.2.trans_le h.2.2.1.le⟩
  | mapSet addr => exact ⟨hq.1, hq.2.trans_le h.2.2.1.le⟩

/-- A call is safe if it does not divide by zero. -/
theorem Call.safe_iff (h : SizesOf env σ) (c : Call) :
    (∃ σ', c.exec σ = .ok σ' ∧ c.InRegion env σ) ↔ 0 < c.divisor σ.layout := by
  constructor
  · rintro ⟨σ', hexec, _⟩
    refine Nat.pos_of_ne_zero fun hzero => ?_
    rw [exec_of_zero hzero] at hexec
    cases hexec
  · intro hpos
    refine ⟨_, exec_of_pos hpos, indexInRegion h hpos, fun R _ m havoid => ?_⟩
    have heffect : c.effect (σ.inside R m) = (c.effect σ).inside R m :=
      effect_inside h.2.1 hpos fun q hq => havoid q (region_subset h hq)
    have hpos' : 0 < c.divisor (σ.inside R m).layout := hpos
    rw [exec_of_pos hpos, exec_of_pos hpos', heffect]
    rfl

theorem Use.safe_iff (h : SizesOf env σ) (u : Use) : u.Safe env σ ↔ u.Fits env := by
  have hslots : 0 < σ.layout.maxMapSize ↔ 8 ≤ maxBytes env := by
    rw [h.2.2.2]
    omega
  have hsafe : ∀ c, (Use.call c).Safe env σ ↔ 0 < c.divisor σ.layout := by
    intro c
    rw [← Call.safe_iff h c]
    constructor
    · rintro ⟨c', σ', hc, hexec⟩
      obtain rfl : c = c' := Except.ok.inj hc
      exact ⟨σ', hexec⟩
    · rintro ⟨σ', hexec⟩
      exact ⟨c, σ', rfl, hexec⟩
  cases u with
  | call c =>
      rw [hsafe c]
      cases c with
      | max addr val => exact hslots
      | min addr val => exact hslots
      | xorState val => exact iff_of_true h.1 trivial
      | pushState x => exact iff_of_true h.1 trivial
      | mapInc addr => exact iff_of_true h.1 trivial
      | mapSet addr => exact iff_of_true h.1 trivial
  | strdist hash stack x y =>
      rw [Fits, ← hashstack_eq_ok_iff]
      constructor
      · rintro ⟨c, σ', hc, _⟩
        rcases bind_eq_ok.1 hc with ⟨d, hd, _⟩
        exact ⟨d, hd⟩
      · rintro ⟨d, hd⟩
        rcases (Call.safe_iff h (IJON_SET hash (hashint d (Ijon.strdist x y)))).2
          h.1 with ⟨σ', hexec, hin⟩
        exact ⟨_, σ', bind_eq_ok.2 ⟨d, hd, rfl⟩, hexec, hin⟩

/-- **What the runtime survives.** In an accepted environment every use of a program returns and
stays in its region exactly if there are max slots wherever one is used, and fewer than 16 frames
wherever the stack is hashed. -/
theorem usesSafe_iff {segments : Segments} {mem mem' : Mem Object} {layout : Layout}
    (hmap : mapShm env segments initial mem = .ok (layout, mem')) (us : List Use) :
    AllSteps useStep (Use.Safe env) (Thread.start layout mem') us ↔ ∀ u ∈ us, u.Fits env := by
  refine allSteps_iff_forall (I := SizesOf env) (fun σ u σ' hσ hstep => hσ.step hstep)
    (fun σ u hσ => Use.safe_iff hσ u) (fun σ u _ hsafe => ?_) (SizesOf.start hmap)
  rcases hsafe with ⟨c, σ', hc, hexec, _⟩
  exact ⟨σ', useStep_eq_some.2 ⟨c, hc, hexec⟩⟩

/-- Eight slots, and a stack of three frames. -/
theorem eightSlots_safe :
    ∃ layout mem', mapShm (sizesEnv none none (some "64")) onlySeven initial (fun _ _ => 0) =
        .ok (layout, mem') ∧
      AllSteps useStep (Use.Safe (sizesEnv none none (some "64"))) (Thread.start layout mem')
        [.call (.pushState 5), .call (.max 100 9), .strdist 1 [10, 20, 30] ['a', 'b'] ['a']] := by
  obtain ⟨layout, mem', hmap⟩ : ∃ layout mem',
      mapShm (sizesEnv none none (some "64")) onlySeven initial (fun _ _ => 0) =
        .ok (layout, mem') := ⟨_, _, rfl⟩
  refine ⟨layout, mem', hmap, (usesSafe_iff hmap _).2 fun u hu => ?_⟩
  have hslots : 8 ≤ maxBytes (sizesEnv none none (some "64")) := by decide
  simp only [List.mem_cons, List.not_mem_nil, or_false] at hu
  rcases hu with rfl | rfl | rfl
  · trivial
  · exact hslots
  · show 3 < 16
    decide

/-- A max size of 7 is accepted, but there is no slot in it; and 16 frames fill the buffer. -/
theorem noSlot_deepStack_unsafe :
    (∃ layout mem', mapShm (sizesEnv none none (some "7")) onlySeven initial (fun _ _ => 0) =
        .ok (layout, mem') ∧
      (Call.max 0 1).exec (Thread.start layout mem') = .error .divisionByZero ∧
      ¬ AllSteps useStep (Use.Safe (sizesEnv none none (some "7"))) (Thread.start layout mem')
        [.call (.max 0 1)]) ∧
      ∃ layout mem', mapShm (sizesEnv none none none) onlySeven initial (fun _ _ => 0) =
          .ok (layout, mem') ∧
        (Use.strdist 1 (List.replicate 16 0) [] []).exec (Thread.start layout mem') =
          .error (.assertionFailed "num < 16") ∧
        ¬ AllSteps useStep (Use.Safe (sizesEnv none none none)) (Thread.start layout mem')
          [.strdist 1 (List.replicate 16 0) [] []] := by
  have hfault : ∀ {env : Env} {σ : Thread} {u : Use} {fault : Fault},
      u.exec σ = .error fault → ¬ AllSteps useStep (Use.Safe env) σ [u] := by
    intro env σ u fault herror hall
    obtain ⟨c, σ', hc, hexec, -⟩ := hall.1
    rw [Use.exec_eq_ok.2 ⟨c, hc, hexec⟩] at herror
    cases herror
  constructor
  · obtain ⟨layout, mem', hmap, hsize⟩ : ∃ layout mem',
        mapShm (sizesEnv none none (some "7")) onlySeven initial (fun _ _ => 0) =
          .ok (layout, mem') ∧ layout.maxMapSize = 0 := ⟨_, _, rfl, rfl⟩
    have hzero : (Call.max 0 1).exec (Thread.start layout mem') = .error .divisionByZero :=
      Call.exec_of_zero hsize
    exact ⟨layout, mem', hmap, hzero, hfault (u := .call (.max 0 1)) hzero⟩
  · obtain ⟨layout, mem', hmap⟩ : ∃ layout mem',
        mapShm (sizesEnv none none none) onlySeven initial (fun _ _ => 0) =
          .ok (layout, mem') := ⟨_, _, rfl⟩
    have hdeep : (Use.strdist 1 (List.replicate 16 0) [] []).exec (Thread.start layout mem') =
        .error (.assertionFailed "num < 16") := rfl
    exact ⟨layout, mem', hmap, hdeep, hfault hdeep⟩

end Safety

end Ijon
end Runtime
end FuzzufCc
