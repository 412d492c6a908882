import FuzzufCc.Driver.Build
import FuzzufCc.Lib.CommandLine
import FuzzufCc.Lib.FileName

/-!
# Clang — what the compiler makes of its command line

What is assumed of the options of clang: which arguments are values, how far a compilation goes, and
where its output goes.  Everything else about the options is a parameter.
-/

namespace FuzzufCc

open CommandLine FileName

namespace Driver

/-- The options that say how far a compilation goes. -/
def stageFlags : List String :=
  ["-E", "-emit-ast", "-S", "-c", "-emit-llvm"]

/-- The options with which something is printed and nothing compiled. -/
def printFlags : List String :=
  ["--version", "-dumpversion", "-print-search-dirs", "-print-prog-name=ld"]

/-- Options that hold their value. -/
def joinedOptions : List String :=
  ["-fpass-plugin=", "-flto=", "--ld-path=", "-Wl,"]

structure Clang where
  takesValue : String → Bool
  /-- Other options that begin with `-o`. -/
  ownOption : String → Bool
  /-- A file, or an option that is handed to the linker like one. -/
  isInput : Item String → Bool
  /-- The inputs that are compiled, by their suffixes or by `-x`. -/
  sources : List (Item String) → List String
  /-- Other options that end a compilation early, such as `-fsyntax-only`. -/
  stops : List (Item String) → Bool
  /-- Options with which more files are written, such as `-MD`. -/
  writesMore : List (Item String) → Bool
  takesValue_o : takesValue "-o" = true
  takesValue_include : takesValue "-include" = true
  takesValue_flag : ∀ flag ∈ "-v" :: (stageFlags ++ printFlags), takesValue flag = false
  takesValue_joined : ∀ option ∈ joinedOptions, ∀ value, takesValue (option ++ value) = false
  takesValue_dash : ∀ arg, takesValue arg = true → arg.toList.head? = some '-'

/-- The last step of a compilation, with the suffix of what it leaves. -/
inductive Mode
  | preprocess
  | upTo (suffix : String)
  | link
  | invalid
  deriving DecidableEq, Repr

/-- `getFinalPhase`; LLVM IR is not linked. -/
def mode (items : List (Item String)) : Mode :=
  if .alone "-E" ∈ items then .preprocess
  else if .alone "-emit-ast" ∈ items then .upTo "ast"
  else if .alone "-S" ∈ items then
    if .alone "-emit-llvm" ∈ items then .upTo "ll" else .upTo "s"
  else if .alone "-c" ∈ items then
    if .alone "-emit-llvm" ∈ items then .upTo "bc" else .upTo "o"
  else if .alone "-emit-llvm" ∈ items then .invalid
  else .link

/-- The value of `-ofile`. -/
def joinedOutput (ownOption : String → Bool) (arg : String) : Option String :=
  match arg.toList with
  | '-' :: 'o' :: c :: cs => if ownOption arg then none else some (String.ofList (c :: cs))
  | _ => none

theorem joinedOutput_of_take_ne {ownOption : String → Bool} {arg : String}
    (h : arg.toList.take 2 ≠ ['-', 'o']) : joinedOutput ownOption arg = none := by
  unfold joinedOutput
  split
  · next c cs harg => exact absurd (by rw [harg]; rfl) h
  · rfl

namespace Clang

variable (cc : Clang)

def read (args : List String) : Option (List (Item String)) :=
  CommandLine.read cc.takesValue args

def outputOf : Item String → Option String
  | .separate name value => if name = "-o" then some value else none
  | .alone arg => joinedOutput cc.ownOption arg

/-- The last `-o`. -/
def output (items : List (Item String)) : Option String :=
  (items.filterMap cc.outputOf).getLast?

/-- The name of the output without `-o`. -/
def defaultOutput (items : List (Item String)) : Option String :=
  match mode items, cc.sources items with
  | .link, _ => some "a.out"
  | .upTo suffix, [source] =>
      some (String.ofList (stem (basename source.toList)) ++ "." ++ suffix)
  | _, _ => none

/-- Whether anything is compiled or linked at all. -/
def works (items : List (Item String)) : Bool :=
  items.any cc.isInput && !cc.stops items &&
    !printFlags.any fun flag => items.contains (.alone flag)

/-- Whether one file is written. -/
def writesOne (items : List (Item String)) : Bool :=
  cc.works items && !cc.writesMore items &&
    match mode items with
    | .link => true
    | .upTo _ | .preprocess => (cc.sources items).length == 1
    | .invalid => false

/-- The one file that is written. -/
def writes (items : List (Item String)) : Option String :=
  if cc.writesOne items then (cc.output items).or (cc.defaultOutput items) else none

/-- The one file that is written for a list of arguments. -/
def compile (args : List String) : Option String :=
  (cc.read args).bind cc.writes

/-- A compilation to objects, or one that links. -/
def CompilesOrLinks (items : List (Item String)) : Prop :=
  cc.works items ∧ (mode items = .upTo "o" ∨ mode items = .link)

theorem writes_eq_some {items : List (Item String)} {out : String}
    (h : cc.writes items = some out) :
    cc.writesOne items ∧ (cc.output items).or (cc.defaultOutput items) = some out := by
  unfold writes at h
  split at h
  · next hone => exact ⟨hone, h⟩
  · cases h

end Clang

/-! ## Stages -/

variable {items : List (Item String)}

theorem suffix_of_mode {suffix : String} (h : mode items = .upTo suffix) :
    suffix ∈ ["ast", "ll", "s", "bc", "o"] := by
  unfold mode at h
  split_ifs at h <;> cases h <;> decide

/-- Only the options that say so matter. -/
theorem mode_congr {items' : List (Item String)}
    (h : ∀ flag ∈ stageFlags, .alone flag ∈ items ↔ .alone flag ∈ items') :
    mode items = mode items' := by
  simp only [stageFlags, List.forall_mem_cons, List.not_mem_nil, false_implies, implies_true,
    and_true] at h
  simp only [mode, h]

theorem mode_eq_link_iff : mode items = .link ↔ ∀ flag ∈ stageFlags, .alone flag ∉ items := by
  simp only [stageFlags, List.forall_mem_cons, List.not_mem_nil, false_implies, implies_true,
    and_true]
  unfold mode
  split_ifs <;> simp [*]

theorem mode_eq_object_iff :
    mode items = .upTo "o" ↔
      .alone "-c" ∈ items ∧
        ∀ flag ∈ ["-E", "-emit-ast", "-S", "-emit-llvm"], .alone flag ∉ items := by
  simp only [List.forall_mem_cons, List.not_mem_nil, false_implies, implies_true, and_true]
  unfold mode
  split_ifs <;> simp [*]

/-! ### A compiler with few options -/

def Clang.fewOptions : Clang where
  takesValue arg := decide (arg ∈ ["-o", "-include", "-Xlinker", "-I"])
  ownOption _ := false
  isInput item :=
    match item with
    | .separate _ _ => false
    | .alone arg => arg.toList.head? != some '-'
  sources items := items.filterMap fun item =>
    match item with
    | .separate _ _ => none
    | .alone arg =>
        if [".c", ".s"].any fun suffix => decide (suffix.toList <:+ arg.toList) then some arg
        else none
  stops items := items.contains (.alone "-fsyntax-only")
  writesMore items := items.contains (.alone "-MD")
  takesValue_o := by decide
  takesValue_include := by decide
  takesValue_flag := by decide
  takesValue_joined := by
    intro option hoption value
    have hprefix : ∀ option ∈ joinedOptions, ∀ name ∈ ["-o", "-include", "-Xlinker", "-I"],
        ¬option.toList <+: name.toList := by decide
    refine decide_eq_false fun hmem => hprefix option hoption _ hmem ?_
    rw [String.toList_append]
    exact List.prefix_append _ _
  takesValue_dash := by
    intro arg harg
    have hdash : ∀ name ∈ ["-o", "-include", "-Xlinker", "-I"], name.toList.head? = some '-' := by
      decide
    exact hdash arg (of_decide_eq_true harg)

end Driver
end FuzzufCc
