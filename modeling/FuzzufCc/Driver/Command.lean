import FuzzufCc.Driver.Clang

/-!
# Command — the command that the driver runs

`instrument` follows `Instrumentor.instrument` up to the call of the compiler: which arguments it
adds to those it passes on, and which file it is going to look at afterwards.
-/

namespace FuzzufCc

open CommandLine FileName

namespace Driver

/-- Where the driver finds its files, and the compiler. -/
structure Installation where
  rootDir : String
  llvmDir : String
  baseCC : String
  absolute : rootDir.toList.head? = some '/'

def anInstallation : Installation where
  rootDir := "/opt/fuzzuf-cc"
  llvmDir := "/usr/lib/llvm"
  baseCC := "clang"
  absolute := by decide

/-- `path.join`. -/
def pathJoin (p q : String) : String :=
  String.ofList (join p.toList q.toList)

/-- `path.join(ROOT_DIR, feature.feature_dir, file)`. -/
def Installation.path (inst : Installation) (feature : Feature) (file : String) : String :=
  pathJoin (pathJoin inst.rootDir feature.featureDir) file

/-- `cc_args`, in its parts. -/
structure Command where
  baseCC : String
  headers : List String := []
  passPlugins : List String := []
  lto : List String := []
  remain : List String
  objects : List String := []
  deriving DecidableEq, Repr

/-- The arguments of the compiler. -/
def Command.arguments (c : Command) : List String :=
  (c.headers.flatMap fun header => ["-include", header]) ++
    c.passPlugins.map ("-fpass-plugin=" ++ ·) ++ c.lto ++ c.remain ++ c.objects

section Parts

variable (inst : Installation) (args : Arguments) (features : List Feature)

def headerPaths : List String :=
  features.flatMap fun feature => feature.headers.map (inst.path feature)

def passPluginPaths : List String :=
  features.flatMap fun feature => feature.llvmPassObjPaths.map (inst.path feature)

def objectPaths : List String :=
  features.flatMap fun feature => feature.objectPaths.map (inst.path feature)

def ltoArguments : List String :=
  if enableLto args then
    "-flto=full" ::
      if linking args then
        ("--ld-path=" ++ pathJoin inst.llvmDir "bin/ld.lld") ::
          features.flatMap fun feature =>
            feature.llvmLtoPassObjPaths.map ("-Wl,--load-pass-plugin=" ++ inst.path feature ·)
      else []
  else []

def command : Command where
  baseCC := inst.baseCC
  headers := headerPaths inst features
  passPlugins := passPluginPaths inst features
  lto := ltoArguments inst args features
  remain := args.remain
  objects := if linking args then objectPaths inst features else []

end Parts

/-! ## The file that is looked at -/

/-- `arg.endswith(".c") or arg.endswith(".cc") or …`. -/
def isCFile (arg : String) : Bool :=
  [".c", ".cc", ".cxx", ".cpp"].any fun suffix => decide (suffix.toList <:+ arg.toList)

/-- `path.splitext(path.basename(filepath))[0] + ".o"`. -/
def objectName (filepath : String) : String :=
  String.ofList (splitext (basename filepath.toList)) ++ ".o"

/-- `put`, or what is printed before `exit(1)`. -/
def outputFile (remain : List String) : Except String String :=
  if "-o" ∈ remain then
    match remain[remain.idxOf "-o" + 1]? with
    | none => .error "[!] argument to `-o` is missing (expected 1 value)"
    | some put => .ok put
  else if "-c" ∈ remain then
    match remain.filter isCFile with
    | [filepath] => .ok (pathJoin "./" (objectName filepath))
    | _ => .error "[!] Input filepath is missing (expected 1 value)"
  else .ok "a.out"

inductive Outcome
  | passesThrough (c : Command)
  | exits (printed : String)
  | instruments (c : Command) (put : String)
  deriving DecidableEq, Repr

/-- `Instrumentor.instrument`, up to the call of the compiler. -/
def instrument (inst : Installation) (args : Arguments) (features : List Feature) : Outcome :=
  if passesThrough args then
    .passesThrough { baseCC := inst.baseCC, remain := args.remain }
  else
    match outputFile args.remain with
    | .error printed => .exits printed
    | .ok put => .instruments (command inst args features) put

/-- The command that is run. -/
def Outcome.command : Outcome → Option Command
  | .passesThrough c => some c
  | .exits _ => none
  | .instruments c _ => some c

/-! ## How the command is read -/

section Reading

variable (cc : Clang) (inst : Installation) (args : Arguments) (features : List Feature)

/-- What is added in front, as clang reads it. -/
def Command.options (c : Command) : List (Item String) :=
  c.headers.map (.separate "-include" ·) ++
    c.passPlugins.map (fun path => .alone ("-fpass-plugin=" ++ path)) ++ c.lto.map .alone

/-- What is added behind. -/
def Command.inputs (c : Command) : List (Item String) :=
  c.objects.map .alone

/-- An argument that the driver adds besides the headers: an option with its value, or a path. -/
def Added (arg : String) : Prop :=
  (∃ option ∈ joinedOptions, ∃ value, arg = option ++ value) ∨ arg.toList.head? = some '/'

theorem head?_path (feature : Feature) (file : String) :
    (inst.path feature file).toList.head? = some '/' := by
  simp only [Installation.path, pathJoin, String.toList_ofList]
  exact head?_join (head?_join inst.absolute _) _

theorem Added.takesValue {arg : String} (h : Added arg) : cc.takesValue arg = false := by
  rcases h with ⟨option, hoption, value, rfl⟩ | hslash
  · exact cc.takesValue_joined option hoption value
  · by_contra htakes
    have hdash := cc.takesValue_dash arg (by simpa using htakes)
    rw [hslash] at hdash
    exact absurd hdash (by decide)

/-- Its first two characters are those of no option that matters. -/
theorem Added.take_two {arg : String} (h : Added arg) :
    arg.toList.take 2 ≠ ['-', 'o'] ∧
      ∀ flag ∈ stageFlags, arg.toList.take 2 ≠ flag.toList.take 2 := by
  rcases h with ⟨option, hoption, value, rfl⟩ | hslash
  · have hoptions : ∀ option ∈ joinedOptions, 2 ≤ option.toList.length ∧
        option.toList.take 2 ≠ ['-', 'o'] ∧
          ∀ flag ∈ stageFlags, option.toList.take 2 ≠ flag.toList.take 2 := by decide
    obtain ⟨hlen, hne⟩ := hoptions option hoption
    rwa [String.toList_append, List.take_append_of_le_length hlen]
  · have hflags : ∀ start ∈ ['-', 'o'] :: stageFlags.map (·.toList.take 2),
        start.head? = some '-' := by decide
    have hne : ∀ start ∈ ['-', 'o'] :: stageFlags.map (·.toList.take 2),
        arg.toList.take 2 ≠ start := by
      intro start hstart heq
      have hhead := hflags start hstart
      rw [← heq, List.head?_take, if_neg (by decide), hslash] at hhead
      exact absurd hhead (by decide)
    exact ⟨hne _ List.mem_cons_self, fun flag hflag =>
      hne _ (List.mem_cons_of_mem _ (List.mem_map_of_mem hflag))⟩

theorem added_passPlugin {path : String} : Added ("-fpass-plugin=" ++ path) :=
  Or.inl ⟨_, by decide, path, rfl⟩

theorem added_of_mem_lto {arg : String} (h : arg ∈ ltoArguments inst args features) :
    Added arg := by
  unfold ltoArguments at h
  split at h
  · rcases List.mem_cons.1 h with rfl | h
    · exact Or.inl ⟨"-flto=", by decide, "full", by decide⟩
    · split at h
      · rcases List.mem_cons.1 h with rfl | h
        · exact Or.inl ⟨"--ld-path=", by decide, _, rfl⟩
        · obtain ⟨feature, -, h⟩ := List.mem_flatMap.1 h
          obtain ⟨path, -, rfl⟩ := List.mem_map.1 h
          refine Or.inl ⟨"-Wl,", by decide, "--load-pass-plugin=" ++ inst.path feature path, ?_⟩
          rw [← String.append_assoc]
          rfl
      · cases h
  · cases h

theorem added_of_mem_objects {arg : String} (h : arg ∈ (command inst args features).objects) :
    Added arg := by
  simp only [command] at h
  split at h
  · obtain ⟨feature, -, h⟩ := List.mem_flatMap.1 h
    obtain ⟨file, -, rfl⟩ := List.mem_map.1 h
    exact Or.inr (head?_path inst feature file)
  · cases h

/-- **How clang reads the command.** The forced headers, the options in front, the list as it is
read alone, and the objects. -/
theorem read_command {items : List (Item String)} (h : cc.read args.remain = some items) :
    cc.read (command inst args features).arguments =
      some ((command inst args features).options ++ items ++
        (command inst args features).inputs) := by
  set c := command inst args features with hc
  have hremain : c.remain = args.remain := rfl
  obtain ⟨hargs, hfits⟩ := read_eq_some_iff.1 h
  refine read_eq_some_iff.2 ⟨?_, ?_⟩
  · rw [Command.arguments, hremain, ← hargs]
    simp [Command.options, Command.inputs, Item.args, List.flatMap_map, List.flatMap_singleton',
      ← List.map_eq_flatMap]
  · intro item hitem
    simp only [Command.options, Command.inputs, List.mem_append, List.mem_map] at hitem
    rcases hitem with (((⟨path, -, rfl⟩ | ⟨path, -, rfl⟩) | ⟨arg, harg, rfl⟩) | hitem) |
      ⟨arg, harg, rfl⟩
    · exact cc.takesValue_include
    · exact added_passPlugin.takesValue cc
    · exact (added_of_mem_lto inst args features harg).takesValue cc
    · exact hfits item hitem
    · exact (added_of_mem_objects inst args features harg).takesValue cc

/-- An item that the driver adds: a forced header, or an argument of its own. -/
theorem added_of_mem_options {item : Item String}
    (h : item ∈ (command inst args features).options ++ (command inst args features).inputs) :
    (∃ header, item = .separate "-include" header) ∨ ∃ arg, item = .alone arg ∧ Added arg := by
  simp only [Command.options, Command.inputs, List.mem_append, List.mem_map] at h
  rcases h with ((⟨header, -, rfl⟩ | ⟨path, -, rfl⟩) | ⟨arg, harg, rfl⟩) | ⟨arg, harg, rfl⟩
  · exact Or.inl ⟨header, rfl⟩
  · exact Or.inr ⟨_, rfl, added_passPlugin⟩
  · exact Or.inr ⟨arg, rfl, added_of_mem_lto inst args features harg⟩
  · exact Or.inr ⟨arg, rfl, added_of_mem_objects inst args features harg⟩

/-- The command goes as far as the list alone. -/
theorem mode_command (items : List (Item String)) :
    mode ((command inst args features).options ++ items ++ (command inst args features).inputs) =
      mode items := by
  refine mode_congr fun flag hflag => ?_
  rw [List.mem_append, List.mem_append]
  constructor
  · intro h
    by_contra hitems
    have hadded : .alone flag ∈
        (command inst args features).options ++ (command inst args features).inputs := by
      rw [List.mem_append]
      tauto
    rcases added_of_mem_options inst args features hadded with ⟨_, heq⟩ | ⟨arg, heq, harg⟩
    · cases heq
    · obtain rfl := Item.alone.inj heq
      exact harg.take_two.2 flag hflag rfl
  · exact fun h => Or.inl (Or.inr h)

/-- And its output is named by the same `-o`. -/
theorem output_command (items : List (Item String)) :
    cc.output ((command inst args features).options ++ items ++
      (command inst args features).inputs) = cc.output items := by
  have hnone : ∀ item ∈ (command inst args features).options ++ (command inst args features).inputs,
      cc.outputOf item = none := by
    intro item hitem
    rcases added_of_mem_options inst args features hitem with ⟨_, rfl⟩ | ⟨arg, rfl, harg⟩
    · rfl
    · exact joinedOutput_of_take_ne harg.take_two.1
  rw [List.forall_mem_append] at hnone
  rw [Clang.output, Clang.output, List.filterMap_append, List.filterMap_append,
    List.filterMap_eq_nil_iff.2 hnone.1, List.filterMap_eq_nil_iff.2 hnone.2, List.nil_append,
    List.append_nil]

end Reading

/-! ## When there is a file to look at -/

theorem outputFile_of_named {remain : List String} (h : "-o" ∈ remain) (put : String) :
    outputFile remain = .ok put ↔ FirstValue "-o" remain put := by
  rw [← getElem?_idxOf_eq_some_iff h, outputFile, if_pos h]
  cases hget : remain[remain.idxOf "-o" + 1]? with
  | none => simp
  | some v => simp

theorem outputFile_of_compiled {remain : List String} (h : "-o" ∉ remain) (hc : "-c" ∈ remain)
    (put : String) : outputFile remain = .ok put ↔
      ∃ filepath, remain.filter isCFile = [filepath] ∧
        pathJoin "./" (objectName filepath) = put := by
  rw [outputFile, if_neg h, if_pos hc]
  split
  · next filepath hfilter => simp [hfilter]
  · next hnone =>
      refine iff_of_false (by simp) ?_
      rintro ⟨filepath, hfilter, -⟩
      exact hnone filepath hfilter

theorem outputFile_of_linked {remain : List String} (h : "-o" ∉ remain) (hc : "-c" ∉ remain)
    (put : String) : outputFile remain = .ok put ↔ "a.out" = put := by
  rw [outputFile, if_neg h, if_neg hc, Except.ok.injEq]

/-- What the driver has for a name, by what it looks for. -/
theorem exists_put_iff (remain : List String) (P : String → Prop) :
    (∃ put, outputFile remain = .ok put ∧ P put) ↔
      (∃ v, FirstValue "-o" remain v ∧ P v) ∨
        "-o" ∉ remain ∧
          if "-c" ∈ remain then
            ∃ filepath, remain.filter isCFile = [filepath] ∧ P (pathJoin "./" (objectName filepath))
          else P "a.out" := by
  by_cases ho : "-o" ∈ remain
  · have hfirst : (∃ put, outputFile remain = .ok put ∧ P put) ↔
        ∃ v, FirstValue "-o" remain v ∧ P v := by
      simp only [outputFile_of_named ho]
    rw [hfirst]
    exact ⟨Or.inl, fun h => h.resolve_right fun hno => hno.1 ho⟩
  · have hno : ¬∃ v, FirstValue "-o" remain v ∧ P v := by
      rintro ⟨v, ⟨pre, post, rfl, -⟩, -⟩
      exact ho (List.mem_append_right pre List.mem_cons_self)
    rw [or_iff_right hno, and_iff_right ho]
    by_cases hc : "-c" ∈ remain
    · rw [if_pos hc]
      constructor
      · rintro ⟨put, hput, hp⟩
        obtain ⟨filepath, hfilter, rfl⟩ := (outputFile_of_compiled ho hc put).1 hput
        exact ⟨filepath, hfilter, hp⟩
      · rintro ⟨filepath, hfilter, hp⟩
        exact ⟨_, (outputFile_of_compiled ho hc _).2 ⟨filepath, hfilter, rfl⟩, hp⟩
    · rw [if_neg hc]
      constructor
      · rintro ⟨put, hput, hp⟩
        obtain rfl := (outputFile_of_linked ho hc put).1 hput
        exact hp
      · intro hp
        exact ⟨_, (outputFile_of_linked ho hc _).2 rfl, hp⟩

end Driver
end FuzzufCc
