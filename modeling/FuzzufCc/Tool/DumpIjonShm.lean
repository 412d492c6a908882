import FuzzufCc.Runtime.Feedback
import FuzzufCc.Runtime.IjonParse
import FuzzufCc.Runtime.Linked
import FuzzufCc.Utils.CreateSharedMemory

/-!
# DumpIjonShm — the tool that prints what a program records

`tool/dump_ijon_shm.cpp` creates a segment, names it and the sizes of its regions in the environment
of a program, executes the program once and prints every byte of the segment that is not zero.  The
numbers go through decimal texts in both directions.
-/

namespace FuzzufCc

open LLVM Libc IR AFLCoverage AddressSpace ForkServer FuzzufCc.Runtime Utils
open Transition (run_cons_eq_some)

namespace Tool

/-! ## The environment of the program -/

/-- `name=value`. -/
def entry (kv : String × String) : String :=
  kv.1 ++ "=" ++ kv.2

def named (name e : String) : Bool :=
  (name ++ "=").toList.isPrefixOf e.toList

/-- `getenv` in a process that was started with `entries` as its environment. -/
def getenv (entries : List String) : Env := fun name =>
  (entries.find? (named name)).map fun e =>
    String.ofList (e.toList.drop (name ++ "=").toList.length)

theorem toList_entry (kv : String × String) :
    (entry kv).toList = kv.1.toList ++ '=' :: kv.2.toList := by
  simp [entry, String.toList_append]

theorem named_entry {name : String} {kv : String × String} (hname : '=' ∉ name.toList)
    (hkey : '=' ∉ kv.1.toList) : named name (entry kv) ↔ name = kv.1 := by
  have hplain : ∀ {s : List Char}, '=' ∉ s → ∀ c ∈ s, (c != '=') = true := by
    intro s hs c hc
    exact bne_iff_ne.2 fun heq => hs (heq ▸ hc)
  have hnameEq : (name ++ "=").toList = name.toList ++ ['='] := by
    simp [String.toList_append]
  rw [named, hnameEq, toList_entry, List.isPrefixOf_iff_prefix]
  constructor
  · rintro ⟨rest, hrest⟩
    -- both sides up to the first `=`
    have htake := congrArg (List.takeWhile (· != '=')) hrest
    rw [List.append_assoc, takeWhile_append (hplain hname) (by simp),
      takeWhile_append (hplain hkey) (by simp)] at htake
    exact String.toList_inj.1 htake
  · rintro rfl
    exact ⟨kv.2.toList, by simp⟩

/-- The value of the first entry with this name. -/
theorem getenv_entries {vars : List (String × String)} {name : String}
    (hname : '=' ∉ name.toList) (hkeys : ∀ kv ∈ vars, '=' ∉ kv.1.toList) :
    getenv (vars.map entry) name = vars.lookup name := by
  induction vars with
  | nil => rfl
  | cons kv vars ih =>
      have hfirst := named_entry hname (hkeys kv List.mem_cons_self)
      have hrest := ih fun kv hkv => hkeys kv (List.mem_cons_of_mem _ hkv)
      rcases kv with ⟨key, value⟩
      by_cases hkey : name = key
      · subst hkey
        have hsplit : (entry (name, value)).toList = (name ++ "=").toList ++ value.toList := by
          simp [entry, String.toList_append]
        rw [getenv, List.map_cons, List.find?_cons_of_pos (hfirst.2 rfl), Option.map_some, hsplit,
          List.drop_left, String.ofList_toList, List.lookup_cons_self]
      · rw [getenv, List.map_cons, List.find?_cons_of_neg (hkey ∘ hfirst.1), List.lookup_cons,
          beq_eq_false_iff_ne.2 hkey]
        exact hrest

/-! ## What the tool sets -/

def aflCoverageSize : Nat := 65536
def ijonCounterSize : Nat := 65536
def ijonMaxSize : Nat := 65536

def shmSize : Nat := aflCoverageSize + ijonCounterSize + ijonMaxSize

/-- The environment for `Executor`, where `shmEnv` is what `create_shared_memory` returns. -/
def environment (shmEnv : String) : List String :=
  [shmEnv, entry (Ijon.AFL_SIZE_ENV_VAR, toString aflCoverageSize),
    entry (Ijon.IJON_COUNTER_SIZE_ENV_VAR, toString ijonCounterSize),
    entry (Ijon.IJON_MAX_SIZE_ENV_VAR, toString ijonMaxSize)]

/-- The decimal text of a number that fits is read as this number. -/
theorem parse_toString {n : Nat} (h : n < 2 ^ 32) :
    Ijon.parse (toString n).toList = some (BitVec.ofNat 32 n) := by
  have hdigits : (toString n).toList = Nat.toDigits 10 n := Nat.toList_repr
  have hlen : (Nat.toDigits 10 n).length ≤ 10 :=
    (Nat.length_toDigits_le_iff (by decide) (by decide)).2 (by omega)
  have hsat : saturate n = n := by
    simp only [saturate, LONG_MIN, LONG_MAX]
    omega
  rw [hdigits, Ijon.parse, strtol_toDigits, strnlen, Nat.min_eq_left hlen, if_pos rfl, hsat,
    BitVec.ofInt_natCast]

/-- The environment of the program, if the segment is `shmId`. -/
def env (shmId : Nat) : Env :=
  getenv (environment (entry (Ijon.AFL_SHM_ENV_VAR, toString shmId)))

section Environment

variable (shmId : Nat)

def vars : List (String × String) :=
  [(Ijon.AFL_SHM_ENV_VAR, toString shmId), (Ijon.AFL_SIZE_ENV_VAR, toString aflCoverageSize),
    (Ijon.IJON_COUNTER_SIZE_ENV_VAR, toString ijonCounterSize),
    (Ijon.IJON_MAX_SIZE_ENV_VAR, toString ijonMaxSize)]

theorem env_eq_lookup {name : String} (hname : '=' ∉ name.toList) :
    env shmId name = (vars shmId).lookup name := by
  have hkeys : ∀ kv ∈ vars shmId, '=' ∉ kv.1.toList := by
    simp only [vars, List.forall_mem_cons, List.not_mem_nil, false_implies, implies_true, and_true]
    decide
  exact getenv_entries hname hkeys

theorem env_shmId : env shmId Ijon.AFL_SHM_ENV_VAR = some (toString shmId) :=
  (env_eq_lookup shmId (by decide)).trans rfl

theorem env_aflSize : env shmId Ijon.AFL_SIZE_ENV_VAR = some (toString aflCoverageSize) :=
  (env_eq_lookup shmId (by decide)).trans rfl

theorem env_counterSize :
    env shmId Ijon.IJON_COUNTER_SIZE_ENV_VAR = some (toString ijonCounterSize) :=
  (env_eq_lookup shmId (by decide)).trans rfl

theorem env_maxSize : env shmId Ijon.IJON_MAX_SIZE_ENV_VAR = some (toString ijonMaxSize) :=
  (env_eq_lookup shmId (by decide)).trans rfl

theorem env_defer : env shmId Bitmap.DEFER_ENV_VAR = none :=
  (env_eq_lookup shmId (by decide)).trans rfl

end Environment

theorem reserved_toString {env : Env} {envVar : String} {n : Nat}
    (henv : env envVar = some (toString n)) (h : n < 2 ^ 32) : Ijon.reserved env envVar = n := by
  have hatoi := Ijon.parse_eq_some (parse_toString h)
  simp only [Ijon.reserved, henv]
  rw [← hatoi, BitVec.toNat_ofNat, Nat.mod_eq_of_lt h]

theorem region_toString {env : Env} {envVar : String} {n : Nat}
    (henv : env envVar = some (toString n)) (h : n < 2 ^ 32)
    (assign : Ptr Object → BitVec 32 → Ijon.Layout → Ijon.Layout) (cur : Ptr Object)
    (layout : Ijon.Layout) : ∃ res, Ijon.region env envVar assign cur layout = .ok res := by
  simp only [Ijon.region, henv, parse_toString h]
  split
  · exact ⟨_, rfl⟩
  · exact ⟨_, rfl⟩

/-- Both constructors accept the environment of the tool. -/
theorem start_isSome {shmId : Nat} (hshmId : shmId < 2 ^ 32) {segments : Segments}
    (hsegment : segments (BitVec.ofNat 32 shmId)) (mem : Mem Object) :
    ∃ p, Linked.start (env shmId) segments mem = some p := by
  have hid := env_shmId shmId
  have hparse := parse_toString hshmId
  have hbitmap : ∃ p, Bitmap.autoInit (env shmId) segments (Bitmap.image mem) = some p := by
    have hid' : env shmId Bitmap.SHM_ENV_VAR = some (toString shmId) := hid
    simp only [Bitmap.autoInit, env_defer, Option.isSome_none, Bool.false_eq_true, if_false,
      Bitmap.manualInit, Bitmap.image, Bitmap.mapShm, hid', ← Ijon.parse_eq_some hparse, hsegment,
      if_true]
    exact ⟨_, rfl⟩
  have hijon : ∀ layout mem', ∃ res,
      Ijon.mapShm (env shmId) segments layout mem' = .ok res := by
    intro layout mem'
    rcases region_toString (env_aflSize shmId) (by decide) (fun cur size layout =>
      { layout with areaPtr := cur, aflSize := size.toNat }) ⟨.segment (BitVec.ofNat 32 shmId), 0⟩
        layout with ⟨⟨cur₁, layout₁⟩, h₁⟩
    rcases region_toString (env_counterSize shmId) (by decide) (fun cur size layout =>
      { layout with counterPtr := cur, mapSize := size.toNat }) cur₁ layout₁
        with ⟨⟨cur₂, layout₂⟩, h₂⟩
    rcases region_toString (env_maxSize shmId) (by decide) (fun cur size layout =>
      { layout with maxPtr := cur, maxMapSize := size.toNat / 8 }) cur₂ layout₂
        with ⟨⟨cur₃, layout₃⟩, h₃⟩
    refine ⟨(layout₃, mem'.set layout₃.areaPtr 1), ?_⟩
    simp only [Ijon.mapShm, hid, hparse, hsegment, Bool.not_true, Bool.false_eq_true, if_false,
      Ijon.areaRegion, h₁, Ijon.counterRegion, h₂, Ijon.maxRegion, h₃, bind, Except.bind, pure,
      Except.pure]
  rcases hbitmap with ⟨p, hp⟩
  rcases hijon Ijon.initial p.state.mem with ⟨⟨layout, mem'⟩, hmap⟩
  refine ⟨⟨p.withMem mem', layout, 0, 0⟩, ?_⟩
  rw [Linked.start, start_eq_some.2 ⟨p, mem', hp, hmap, rfl⟩]
  rfl

/-! ## What the tool prints -/

/-- The line for byte `i`. -/
def line (i : Nat) (v : Byte) : List Char :=
  's' :: 'h' :: 'm' :: '[' ::
    (Nat.toDigits 10 i ++ ']' :: ' ' :: '=' :: ' ' :: Nat.toDigits 10 v.toNat)

/-- The loop over `shm`, for `count` bytes from `p` on, of which the first one is byte `i`.  It faults
where nothing is mapped. -/
def dump (view : AddressSpace Byte) : Nat → BitVec 64 → Nat → Option (List Char)
  | 0, _, _ => some []
  | count + 1, p, i =>
      (view p).bind fun v =>
        (dump view count (p + 1) (i + 1)).map fun rest =>
          if v = 0 then rest else line i v ++ '\n' :: rest

def dumpShm (range : SharedRange) (view : AddressSpace Byte) : Option (List Char) :=
  dump view (range.last - range.first).toNat range.first 0

theorem line_injective {i j : Nat} {v w : Byte} (h : line i v = line j w) : i = j ∧ v = w := by
  have hdigit : ∀ n, ∀ c ∈ Nat.toDigits 10 n, c.isDigit = true := fun n c hc =>
    Nat.isDigit_of_mem_toDigits (by decide) (by decide) hc
  have hnumber : ∀ {m n : Nat}, Nat.toDigits 10 m = Nat.toDigits 10 n → m = n := by
    intro m n hdigits
    have hread := congrArg (Nat.ofDigitChars 10 · 0) hdigits
    simpa [Nat.ofDigitChars_ten_toDigits] using hread
  simp only [line, List.cons.injEq, true_and] at h
  have htake := congrArg (List.takeWhile Char.isDigit) h
  rw [takeWhile_append (hdigit i) (by simp), takeWhile_append (hdigit j) (by simp)] at htake
  rw [htake] at h
  have hvalue := List.append_cancel_left h
  simp only [List.cons.injEq, true_and] at hvalue
  exact ⟨hnumber htake, BitVec.eq_of_toNat_eq (hnumber hvalue)⟩

theorem newline_not_mem_line (i : Nat) (v : Byte) : '\n' ∉ line i v := by
  have hdigit : ∀ n, '\n' ∉ Nat.toDigits 10 n := fun n hmem =>
    absurd (Nat.isDigit_of_mem_toDigits (by decide) (by decide) hmem) (by decide)
  simp [line, hdigit]

theorem ofNat_succ_add (p : BitVec 64) (k : Nat) :
    p + BitVec.ofNat 64 (k + 1) = p + 1 + BitVec.ofNat 64 k := by
  rw [Nat.add_comm k 1, BitVec.ofNat_add, ← BitVec.add_assoc]
  rfl

theorem dump_isSome {view : AddressSpace Byte} {count : Nat} {p : BitVec 64} {i : Nat}
    (h : ∀ k < count, (view (p + BitVec.ofNat 64 k)).isSome) :
    ∃ text, dump view count p i = some text := by
  induction count generalizing p i with
  | zero => exact ⟨[], rfl⟩
  | succ count ih =>
      have hself : p + BitVec.ofNat 64 0 = p := BitVec.add_zero p
      have hfirst := h 0 (Nat.succ_pos count)
      rw [hself] at hfirst
      rcases Option.isSome_iff_exists.1 hfirst with ⟨v, hv⟩
      rcases ih (p := p + 1) (i := i + 1) fun k hk => (by
        have hnext := h (k + 1) (Nat.succ_lt_succ hk)
        rwa [ofNat_succ_add] at hnext) with ⟨rest, hrest⟩
      exact ⟨_, by rw [dump, hv, Option.bind_some, hrest, Option.map_some]⟩

/-- The lines are those of the bytes that are not zero. -/
theorem line_mem_dump {view : AddressSpace Byte} {count : Nat} {p : BitVec 64} {i : Nat}
    {text : List Char} (h : dump view count p i = some text) (j : Nat) (w : Byte) :
    line j w ∈ text.splitOn '\n' ↔
      ∃ k < count, j = i + k ∧ view (p + BitVec.ofNat 64 k) = some w ∧ w ≠ 0 := by
  induction count generalizing p i text with
  | zero =>
      obtain rfl := Option.some.inj h
      simp [line]
  | succ count ih =>
      rw [dump, Option.bind_eq_some_iff] at h
      rcases h with ⟨v, hv, h⟩
      rcases Option.map_eq_some_iff.1 h with ⟨rest, hrest, rfl⟩
      have hself : p + BitVec.ofNat 64 0 = p := BitVec.add_zero p
      have hrestLines : line j w ∈ rest.splitOn '\n' ↔
          ∃ k < count, j = i + (k + 1) ∧ view (p + BitVec.ofNat 64 (k + 1)) = some w ∧ w ≠ 0 := by
        rw [ih hrest]
        simp only [ofNat_succ_add, Nat.add_assoc, Nat.add_comm 1]
      rw [Nat.exists_lt_succ_left, ← hrestLines, hself, hv, Nat.add_zero, Option.some.injEq]
      by_cases hzero : v = 0
      · rw [if_pos hzero]
        constructor
        · exact Or.inr
        · rintro (⟨-, rfl, hne⟩ | hmem)
          · exact absurd hzero hne
          · exact hmem
      · rw [if_neg hzero, List.splitOn_append_cons_self_of_not_mem (newline_not_mem_line i v),
          List.mem_cons]
        constructor
        · rintro (heq | hmem)
          · rcases line_injective heq with ⟨rfl, rfl⟩
            exact Or.inl ⟨rfl, rfl, hzero⟩
          · exact Or.inr hmem
        · rintro (⟨rfl, rfl, -⟩ | hmem)
          · exact Or.inl rfl
          · exact Or.inr hmem

/-! ## The tool -/

/-- Where `shmat` succeeds in the program. -/
def attachable (segments : List Int) : Segments := fun shmId =>
  segments.any fun descriptor => BitVec.ofInt 32 descriptor == shmId

/-- The segment behind `range`, in the program. -/
def segment (range : SharedRange) : Ptr Object :=
  ⟨.segment (BitVec.ofInt 32 range.descriptor), 0⟩

/-- The memory of the program, where the segment holds what the tool has stored. -/
def attach (range : SharedRange) (view : AddressSpace Byte) (mem : Mem Object) : Mem Object :=
  Mem.merge ((segment range).Within shmSize) (fun _ a => (view (range.first + a)).getD 0) mem

/-- The memory of the tool, where `range` holds what the program has stored. -/
def seen (range : SharedRange) (mem : Mem Object) (view : AddressSpace Byte) :
    AddressSpace Byte :=
  view.map range.first shmSize fun q => mem (segment range).obj (q - range.first)

/-- `main`, up to the end of the dump, for a program that goes through `es`.  There is no dump if the
tool faults or throws, or the program ends before it is a server. -/
def main (c : ShmCalls) (code : BlockRef → List Inst) (mem : Mem Object) (es : List LinkedEvent)
    (view : AddressSpace Byte) : Option (List Char) :=
  match createSharedMemory c Ijon.AFL_SHM_ENV_VAR (BitVec.ofNat 64 shmSize) view with
  | .thrown _ _ _ => none
  | .faulted _ => none
  | .returned range view segments => do
      -- zeros again
      let view ← fill 0 (range.last - range.first).toNat range.first view
      let server ← Linked.start (getenv (environment range.env)) (attachable segments)
        (attach range view mem)
      let server ← Linked.execute code server es
      dumpShm range (seen range server.mem view)

theorem attachable_self {shmId : Nat} :
    attachable [(shmId : Int)] (BitVec.ofNat 32 shmId) := by
  simp [attachable]

theorem attach_zero {range : SharedRange} {view : AddressSpace Byte} {mem : Mem Object}
    {q : Ptr Object} (hq : (segment range).Within shmSize q) :
    attach range (view.map range.first shmSize fun _ => 0) mem q.obj q.off = 0 := by
  have hspan : range.first + q.off ∈ span range.first shmSize := by
    have hdist : (q.off - 0).toNat < shmSize := hq.2
    change (range.first + q.off - range.first).toNat < shmSize
    rwa [add_sub_cancel_left, ← BitVec.sub_zero q.off]
  rw [attach, Mem.merge_of_mem hq, AddressSpace.map, if_pos hspan]
  rfl

theorem seen_add {range : SharedRange} {view : AddressSpace Byte} {mem : Mem Object} {i : Nat}
    (hi : i < shmSize) : seen range mem view (range.first + BitVec.ofNat 64 i) =
      some (mem (segment range).obj ((segment range).add i).off) := by
  have hoff : range.first + BitVec.ofNat 64 i - range.first = BitVec.ofNat 64 i :=
    add_sub_cancel_left _ _
  have hspan : range.first + BitVec.ofNat 64 i ∈ span range.first shmSize := by
    change (range.first + BitVec.ofNat 64 i - range.first).toNat < shmSize
    rw [hoff, BitVec.toNat_ofNat, Nat.mod_eq_of_lt (hi.trans (by decide))]
    exact hi
  rw [seen, AddressSpace.map, if_pos hspan, hoff, Ptr.add, segment]
  simp

/-- The dump shows the bytes of the segment. -/
theorem dumpShm_seen {range : SharedRange} (hlast : range.last = range.first + BitVec.ofNat 64 shmSize)
    (mem : Mem Object) (view : AddressSpace Byte) :
    ∃ text, dumpShm range (seen range mem view) = some text ∧
      ∀ i v, line i v ∈ text.splitOn '\n' ↔
        i < shmSize ∧ v ≠ 0 ∧ mem (segment range).obj ((segment range).add i).off = v := by
  have hsize : (range.last - range.first).toNat = shmSize := by
    rw [hlast, add_sub_cancel_left]
    rfl
  have hmapped : ∀ k < shmSize,
      (seen range mem view (range.first + BitVec.ofNat 64 k)).isSome := by
    intro k hk
    rw [seen_add hk]
    rfl
  rcases dump_isSome (i := 0) hmapped with ⟨text, htext⟩
  refine ⟨text, by rw [dumpShm, hsize, htext], fun i v => ?_⟩
  rw [line_mem_dump htext]
  constructor
  · rintro ⟨k, hk, rfl, hview, hne⟩
    rw [seen_add hk, Option.some.injEq] at hview
    rw [Nat.zero_add]
    exact ⟨hk, hne, hview⟩
  · rintro ⟨hi, hne, hbyte⟩
    refine ⟨i, hi, (Nat.zero_add i).symm, ?_, hne⟩
    rw [seen_add hi, hbyte]

/-- The lines of `text` are what the events `es` record in zeros. -/
structure Dumped (im : InstrumentationMethod) (um : UpdateMethod) (ids : IdMap)
    (layout : Ijon.Layout) (es : List LinkedEvent) (text : List Char) : Prop where
  -- byte 0 was set by the constructors
  coverage : ∀ i < aflCoverageSize, ∀ v, line i v ∈ text.splitOn '\n' ↔
    v ≠ 0 ∧ v.toNat = um.after (if i = 0 then 1 else 0)
      ((im.locations (idsOf ids (Linked.blocks es))).count (BitVec.ofNat 32 i))
  counters : ∀ i < ijonCounterSize, ∀ v, line (aflCoverageSize + i) v ∈ text.splitOn '\n' ↔
    v ≠ 0 ∧ v = (Ijon.stated layout (Linked.calls es)).foldl
      (fun b sc => sc.2.onCounter ijonCounterSize i sc.1 b) 0
  -- the lowest byte of a slot is the first one
  slots : ∀ i < ijonMaxSize / 8, ∀ max,
    IsGreatest (Ijon.offers (ijonMaxSize / 8) i (Linked.calls es)) max → ∀ k < 8, ∀ v,
      line (aflCoverageSize + ijonCounterSize + 8 * i + k) v ∈ text.splitOn '\n' ↔
        v ≠ 0 ∧ v.toNat = max / 256 ^ k % 256
  others : ∀ i v, line i v ∈ text.splitOn '\n' → i < shmSize

section Dump

variable {im : InstrumentationMethod} {um : UpdateMethod} {ids : IdMap} {layout : Ijon.Layout}
  {es : List LinkedEvent}

theorem count_cell (area : Ptr Object) (locs : List (BitVec 32)) {i : Nat} (hi : i < 2 ^ 31) :
    (locs.map (cell area)).count (area.add i) = locs.count (BitVec.ofNat 32 i) := by
  have hloc : (BitVec.ofNat 32 i).toNat = i := by
    rw [BitVec.toNat_ofNat]
    exact Nat.mod_eq_of_lt (by omega)
  have hcell : area.add i = cell area (BitVec.ofNat 32 i) := by
    rw [cell_eq_mapCell area (by rwa [hloc]), mapCell, Ptr.add,
      BitVec.setWidth_ofNat_of_le_of_lt (by decide) (by omega)]
  rw [hcell]
  exact List.count_map_of_injective _ _
    (fun loc loc' h => Feedback.cell_off_injective area (congrArg Ptr.off h)) _

theorem dumped_of_records {segment : Ptr Object} {mem mem' : Mem Object} {text : List Char}
    (h : Linked.Records im um ids layout segment aflCoverageSize ijonCounterSize ijonMaxSize mem
      [es] mem')
    (hlines : ∀ i v, line i v ∈ text.splitOn '\n' ↔
      i < shmSize ∧ v ≠ 0 ∧ mem' segment.obj (segment.add i).off = v) :
    Dumped im um ids layout es text := by
  have hsizes : aflCoverageSize = 65536 ∧ ijonCounterSize = 65536 ∧ ijonMaxSize = 65536 ∧
      shmSize = 196608 := by decide
  rcases hsizes with ⟨hA, hC, hM, hsize⟩
  refine ⟨fun i hi v => ?_, fun i hi v => ?_, fun i hi max hmax k hk v => ?_,
    fun i v hline => ((hlines i v).1 hline).1⟩
  · have hbyte := h.coverage i hi
    rw [List.flatMap_singleton, count_cell segment _ (by omega)] at hbyte
    rw [hlines, ← hbyte, BitVec.toNat_inj, eq_comm (a := v)]
    exact and_iff_right (by omega)
  · have hbyte := h.counters i hi
    rw [List.flatMap_singleton] at hbyte
    rw [hlines, hbyte, eq_comm (a := v)]
    exact and_iff_right (by omega)
  · have hslot := h.slots i hi
    rw [List.flatMap_singleton] at hslot
    have hbyte := Mem.load64_byte mem' (segment.add (aflCoverageSize + ijonCounterSize + 8 * i)) hk
    rw [Ptr.add_add, hslot.unique hmax] at hbyte
    rw [hlines, hbyte, BitVec.toNat_inj, eq_comm (a := v)]
    exact and_iff_right (by omega)

theorem idsFitRegion (shmId : Nat)
    (hids : ∀ bb id, ids.find bb = some id → id.toNat < aflCoverageSize) :
    IdsFitRegion (env shmId) im ids := by
  have hreserved := reserved_toString (env_aflSize shmId) (by decide)
  have hpow : aflCoverageSize = 2 ^ 16 := by decide
  intro bb id hfind
  have hid := hids bb id hfind
  rw [hreserved, toNat_signExtend_lt_iff (by decide)]
  refine ⟨hid, fun _ bb' id' hfind' => ?_⟩
  rw [toNat_signExtend_lt_iff (by decide), hpow]
  exact edgeHash_lt (hpow ▸ hids bb' id' hfind') (hpow ▸ hid)

/-- What `create_shared_memory` returns for the segment `shmId` at `address`. -/
def newRange (shmId : Nat) (address : Address) : SharedRange where
  env := entry (Ijon.AFL_SHM_ENV_VAR, toString shmId)
  first := address.val
  last := address.val + BitVec.ofNat 64 shmSize
  descriptor := shmId

variable {c : ShmCalls} {shmId : Nat} {address : Address}

theorem main_of_attached (hget : c.shmget = .ok shmId) (hat : c.shmat = .ok address)
    (code : BlockRef → List Inst) (mem : Mem Object) (es : List LinkedEvent)
    (view : AddressSpace Byte) :
    let range := newRange shmId address
    let zeros := view.map range.first shmSize fun _ => 0
    main c code mem es view =
      (Linked.start (env shmId) (attachable [(shmId : Int)]) (attach range zeros mem)).bind
        fun server => (Linked.execute code server es).bind
          fun server => dumpShm range (seen range server.mem zeros) := by
  intro range zeros
  have hcreate : createSharedMemory c Ijon.AFL_SHM_ENV_VAR (BitVec.ofNat 64 shmSize) view =
      .returned range zeros [(shmId : Int)] := by
    have h := createsOrThrows_of_ok c Ijon.AFL_SHM_ENV_VAR (BitVec.ofNat 64 shmSize) view hget hat
    simp only [CreatesOrThrows, hget, hat] at h
    exact h
  have hsize : (range.last - range.first).toNat = shmSize := by
    change (address.val + BitVec.ofNat 64 shmSize - address.val).toNat = shmSize
    rw [add_sub_cancel_left]
    rfl
  have hfill : fill 0 (range.last - range.first).toNat range.first zeros = some zeros := by
    rw [hsize]
    exact fill_map _ (by decide)
  simp only [main, hcreate, hfill]
  rfl

/-- **The dump.** If both system calls succeed and the ids fit the coverage region, a program with
both runtimes, whatever its blocks and calls of IJON do in whatever order, is executed in the
segment that the tool has created, and the tool prints exactly what the program has recorded. -/
theorem main_dumps (hget : c.shmget = .ok shmId) (hat : c.shmat = .ok address)
    (hshmId : shmId < 2 ^ 31) (im : InstrumentationMethod) (um : UpdateMethod)
    (hids : ∀ bb id, ids.find bb = some id → id.toNat < aflCoverageSize) (mem : Mem Object)
    (es : List LinkedEvent) (view : AddressSpace Byte) :
    ∃ layout text,
      Ijon.Consecutive ⟨.segment (BitVec.ofNat 32 shmId), 0⟩ aflCoverageSize ijonCounterSize
        ijonMaxSize layout ∧
      main c (instrumented im um ids) mem es view = some text ∧
      Dumped im um ids layout es text := by
  let range := newRange shmId address
  let zeros := view.map range.first shmSize fun _ => 0
  have hlt : shmId < 2 ^ 32 := by omega
  have hsegment : segment range = ⟨.segment (BitVec.ofNat 32 shmId), 0⟩ := by
    simp [segment, range, newRange]
  have hid : segment range = ⟨.segment (atoi (toString shmId).toList), 0⟩ := by
    rw [hsegment, ← Ijon.parse_eq_some (parse_toString hlt)]
  have hzero : ∀ q, (segment range).Within shmSize q →
      attach range zeros mem q.obj q.off = 0 := fun q hq => attach_zero hq
  have hattach : attachable [(shmId : Int)] (BitVec.ofNat 32 shmId) := attachable_self
  rcases start_isSome hlt hattach (attach range zeros mem) with ⟨p, hstart⟩
  rcases Linked.start_campaign im um ids (env_shmId shmId) (env_defer shmId) hid
    (reserved_toString (env_aflSize shmId) (by decide))
    (reserved_toString (env_counterSize shmId) (by decide))
    (reserved_toString (env_maxSize shmId) (by decide)) (by decide) (by decide) (by decide)
    (idsFitRegion shmId hids) hzero hstart [es] with ⟨hregions, p', σ, hrun, hbetween, hjoined⟩
  have hrecords := Linked.records_of_joined hregions (by decide) (by decide) (by decide)
    (by decide) hzero hbetween hjoined
  have hexecute : Linked.execute (instrumented im um ids) p es = some p' := by
    rcases run_cons_eq_some.1 hrun with ⟨p₁, hexecute, hnil⟩
    exact hexecute.trans hnil
  have hlast : range.last = range.first + BitVec.ofNat 64 shmSize := rfl
  rcases dumpShm_seen hlast p'.mem zeros with ⟨text, htext, hlines⟩
  refine ⟨p.layout, text, hsegment ▸ hregions, ?_, dumped_of_records hrecords hlines⟩
  rw [main_of_attached hget hat, hstart, Option.bind_some, hexecute, Option.bind_some]
  exact htext

end Dump

/-! ### One program -/

/-- The segment 7. -/
def segmentSeven : ShmCalls where
  shmget := .ok 7
  shmat := .ok ⟨0x7f0000000000, by decide, by decide⟩
  content := fun _ => 0

/-- The block with the id 6 twice, and an offer of 12 to the slot 9. -/
def oneMixed : List LinkedEvent :=
  [.enter ⟨0, 0⟩, .call (.pushState 3), .enter ⟨0, 0⟩, .call (.max 9 12)]

theorem oneMixed_dumped :
    ∃ text, main segmentSeven (instrumented .hashedEdge .naive Linked.sixId) (fun _ _ => 0) oneMixed
        (fun _ => none) = some text ∧
      line 0 1 ∈ text.splitOn '\n' ∧ line 5 1 ∈ text.splitOn '\n' ∧
      line 6 1 ∈ text.splitOn '\n' ∧ line (65536 + 65536 + 8 * 9 + 0) 12 ∈ text.splitOn '\n' := by
  have hids : ∀ bb id, Linked.sixId.find bb = some id → id.toNat < aflCoverageSize := by
    intro bb id hfind
    have hsix : id = 6 := by
      simpa [Linked.sixId] using congrArg Prod.snd (List.mem_singleton.1 (IdMap.mem_of_find hfind))
    subst hsix
    decide
  obtain ⟨layout, text, hregions, hmain, hdumped⟩ :=
    main_dumps (c := segmentSeven) rfl rfl (by decide) .hashedEdge .naive hids (fun _ _ => 0) oneMixed
      fun _ => none
  have hgreatest : IsGreatest (Ijon.offers (ijonMaxSize / 8) 9 (Linked.calls oneMixed)) 12 := by
    constructor
    · exact Or.inr ⟨.max 9 12, by decide, rfl⟩
    · rintro v (rfl | ⟨call, hmem, hoffer⟩)
      · decide
      · have hall : ∀ call ∈ Linked.calls oneMixed,
            call.offer (ijonMaxSize / 8) 9 = none ∨ call.offer (ijonMaxSize / 8) 9 = some 12 := by
          decide
        rcases hall call hmem with hnone | hsome
        · cases hnone.symm.trans hoffer
        · exact (Option.some.inj (hsome.symm.trans hoffer)).ge
  refine ⟨text, hmain, ?_, ?_, ?_, ?_⟩
  · exact (hdumped.coverage 0 (by decide) 1).2 (by decide)
  · exact (hdumped.coverage 5 (by decide) 1).2 (by decide)
  · exact (hdumped.coverage 6 (by decide) 1).2 (by decide)
  · exact (hdumped.slots 9 (by decide) 12 hgreatest 0 (by decide) 12).2 (by decide)

end Tool
end FuzzufCc
