import FuzzufCc.Passes.AnalysisManager

/-!
# CFGExporter — the pass that writes the control flow graph into a section

`CFGExporter.run` follows `features/cfg-exporter/cfg-exporter-pass.so.cc`: it takes the cached ids,
collects the branch and call edges between blocks with ids, and prints them, one line each, into a
section of the module.  This file also reads the lines back from the section.
-/

namespace FuzzufCc

open LLVM Libc

namespace CFGExporter

def EDGE_JMP : BitVec 32 := 0
def EDGE_INDIRECT : BitVec 32 := 1

/-- `std::tuple<unsigned int, unsigned int, unsigned int>`. -/
structure Edge where
  u : BitVec 32
  v : BitVec 32
  t : BitVec 32
  deriving DecidableEq, Repr

/-- The first inner loop: edges to the successors with an id. -/
def jmpEdges (ids : IdMap) (r : BlockRef) (bb : BasicBlock) (v : BitVec 32) : List Edge :=
  bb.succs.filterMap fun c => (ids.find ⟨r.func, c⟩).map fun u => ⟨v, u, EDGE_JMP⟩

/-- The second inner loop: edges to the entry blocks of the functions called directly. -/
def callEdges (ids : IdMap) (M : Module) (bb : BasicBlock) (v : BitVec 32) : List Edge :=
  bb.insts.filterMap fun inst => do
    let func ← inst.getCalledFunction
    let F ← M.functions[func]?
    if F.blocks.isEmpty then none
    else (ids.find ⟨func, 0⟩).map fun u => ⟨v, u, EDGE_INDIRECT⟩

/-- The outer loop: a block without an id has no edges. -/
def edges (ids : IdMap) (M : Module) : List Edge :=
  M.forBlocks.flatMap fun (r, bb) =>
    match ids.find r with
    | none => []
    | some v => jmpEdges ids r bb v ++ callEdges ids M bb v

/-- The text of an unsigned number. -/
def decimal (n : BitVec 32) : List Char :=
  Nat.toDigits 10 n.toNat

def line (e : Edge) : List Char :=
  decimal e.u ++ ' ' :: decimal e.v ++ ' ' :: decimal e.t

/-- `content_ss`. -/
def content (es : List Edge) : List Char :=
  es.flatMap fun e => line e ++ ['\n']

/-- `ConstantDataArray::getString` appends a NUL. -/
def getString (s : List Char) : List Char :=
  s ++ ['\x00']

/-- The pass needs the ids of an earlier pass and preserves everything. -/
def run (st : PassState) : Except Abort PassState :=
  match st.getCachedResult with
  | none =>
      .error (.reportFatalError
        ("[!] Cached result not found. This pass was likely executed before the result was " ++
          "generated, or after the cache was invalidated due to the code changes.\n")
        "Cached result not found")
  | some bbIds =>
      .ok { st with
        cfgSections := st.cfgSections ++ [getString (content (edges bbIds st.module))] }

theorem run_eq_ok {st st' : PassState} (h : run st = .ok st') :
    ∃ ids, st.cached = some ids ∧
      st' = { st with
        cfgSections := st.cfgSections ++ [getString (content (edges ids st.module))] } := by
  unfold run at h
  cases hids : st.getCachedResult with
  | none => simp [hids] at h
  | some ids =>
      refine ⟨ids, hids, ?_⟩
      simpa [hids] using h.symm

/-! ## Which edges are exported -/

theorem mem_edges {ids : IdMap} {M : Module} {e : Edge} :
    e ∈ edges ids M ↔
      ∃ r bb v, M.block? r = some bb ∧ ids.find r = some v ∧
        (e ∈ jmpEdges ids r bb v ∨ e ∈ callEdges ids M bb v) := by
  simp only [edges, List.mem_flatMap, Prod.exists, Module.mem_forBlocks]
  constructor
  · rintro ⟨r, bb, hbb, he⟩
    cases hv : ids.find r with
    | none => simp [hv] at he
    | some v => exact ⟨r, bb, v, hbb, hv, by simpa [hv] using he⟩
  · rintro ⟨r, bb, v, hbb, hv, he⟩
    exact ⟨r, bb, hbb, by simpa [hv] using he⟩

theorem mem_jmpEdges {ids : IdMap} {r : BlockRef} {bb : BasicBlock} {v : BitVec 32} {e : Edge} :
    e ∈ jmpEdges ids r bb v ↔
      ∃ c ∈ bb.succs, ∃ u, ids.find ⟨r.func, c⟩ = some u ∧ e = ⟨v, u, EDGE_JMP⟩ := by
  simp only [jmpEdges, List.mem_filterMap, Option.map_eq_some_iff]
  constructor
  · rintro ⟨c, hc, u, hu, rfl⟩
    exact ⟨c, hc, u, hu, rfl⟩
  · rintro ⟨c, hc, u, hu, rfl⟩
    exact ⟨c, hc, u, hu, rfl⟩

theorem mem_callEdges {ids : IdMap} {M : Module} {bb : BasicBlock} {v : BitVec 32} {e : Edge} :
    e ∈ callEdges ids M bb v ↔
      ∃ inst ∈ bb.insts, ∃ func F, inst.getCalledFunction = some func ∧
        M.functions[func]? = some F ∧ F.blocks ≠ [] ∧
        ∃ u, ids.find ⟨func, 0⟩ = some u ∧ e = ⟨v, u, EDGE_INDIRECT⟩ := by
  simp only [callEdges, List.mem_filterMap, bind, Option.bind_eq_some_iff]
  constructor
  · rintro ⟨inst, hinst, func, hfunc, F, hF, he⟩
    by_cases hempty : F.blocks.isEmpty
    · simp [hempty] at he
    · simp only [hempty, Bool.false_eq_true, if_false, Option.map_eq_some_iff] at he
      rcases he with ⟨u, hu, rfl⟩
      exact ⟨inst, hinst, func, F, hfunc, hF, by simpa using hempty, u, hu, rfl⟩
  · rintro ⟨inst, hinst, func, F, hfunc, hF, hne, u, hu, rfl⟩
    refine ⟨inst, hinst, func, hfunc, F, hF, ?_⟩
    simp [hne, hu]

/-! ## Reading the section -/

/-- The lines of a section, up to its NUL; the last one follows the last newline. -/
def sectionLines (s : List Char) : List (List Char) :=
  (s.takeWhile (· != '\x00')).splitOn '\n'

theorem isDigit_of_mem_decimal {n : BitVec 32} {c : Char} (hc : c ∈ decimal n) :
    c.isDigit = true :=
  Nat.isDigit_of_mem_toDigits (by decide) (by decide) hc

/-- A line has digits and blanks only. -/
theorem line_chars {e : Edge} {c : Char} (hc : c ∈ line e) : c.isDigit = true ∨ c = ' ' := by
  simp only [line, List.mem_append, List.mem_cons] at hc
  rcases hc with (hc | rfl | hc) | rfl | hc
  · exact Or.inl (isDigit_of_mem_decimal hc)
  · exact Or.inr rfl
  · exact Or.inl (isDigit_of_mem_decimal hc)
  · exact Or.inr rfl
  · exact Or.inl (isDigit_of_mem_decimal hc)

theorem ne_of_mem_line {e : Edge} {c d : Char} (hc : c ∈ line e) (hd : d.isDigit = false)
    (hspace : d ≠ ' ') : c ≠ d := by
  rintro rfl
  rcases line_chars hc with h | h
  · exact absurd (h.symm.trans hd) (by decide)
  · exact hspace h

theorem splitOn_content (es : List Edge) :
    (content es).splitOn '\n' = es.map line ++ [[]] := by
  induction es with
  | nil => rfl
  | cons e es ih =>
      have hline : ∀ c ∈ line e, (c == '\n') = false := by
        intro c hc
        simpa using ne_of_mem_line hc (by decide) (by decide)
      have hcons : content (e :: es) = line e ++ '\n' :: content es := by
        simp [content]
      rw [hcons, List.splitOn_eq_splitOnP,
        List.splitOnP_append_cons_of_forall_mem hline '\n' (by simp), ← List.splitOn_eq_splitOnP,
        ih]
      rfl

theorem takeWhile_getString (es : List Edge) :
    (getString (content es)).takeWhile (· != '\x00') = content es := by
  have hcontent : ∀ c ∈ content es, (c != '\x00') = true := by
    intro c hc
    simp only [content, List.mem_flatMap, List.mem_append, List.mem_singleton] at hc
    rcases hc with ⟨e, _, hc | rfl⟩
    · simpa using ne_of_mem_line hc (by decide) (by decide)
    · decide
  rw [getString, List.takeWhile_append_of_pos hcontent]
  simp

/-- **The section, line by line.** -/
theorem sectionLines_getString (es : List Edge) :
    sectionLines (getString (content es)) = es.map line ++ [[]] := by
  rw [sectionLines, takeWhile_getString, splitOn_content]

theorem line_mem_sectionLines {es : List Edge} {e : Edge} (he : e ∈ es) :
    line e ∈ sectionLines (getString (content es)) := by
  rw [sectionLines_getString]
  exact List.mem_append_left _ (List.mem_map_of_mem he)

end CFGExporter
end FuzzufCc
