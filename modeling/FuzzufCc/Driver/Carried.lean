import FuzzufCc.Driver.Command

/-!
# Carried — what the command carries of the features

The driver decides by the texts in the list whether it only calls the compiler through, and whether
the compiler is going to link.  A text that is the value of an option is counted like an option, and
`-v` is taken for a question about the version in every list.
-/

namespace FuzzufCc

open CommandLine

namespace Driver

/-- The flags by which the driver knows that nothing is linked. -/
def noLinkFlags : List String :=
  ["-c", "-S", "-emit-ast", "-emit-llvm"]

/-- Whether the objects belong to a command, for a list that clang reads as `items`. -/
def wantsObjects (args : Arguments) (items : List (Item String)) : Bool :=
  args.linking.getD (decide (mode items = .link))

/-- A command is run, with all headers and pass plugins, and with the objects exactly if they belong
to it. -/
def Carries (inst : Installation) (args : Arguments) (features : List Feature)
    (items : List (Item String)) : Prop :=
  ∃ c, (instrument inst args features).command = some c ∧
    c.headers = headerPaths inst features ∧
    c.passPlugins = passPluginPaths inst features ∧
    c.objects = if wantsObjects args items then objectPaths inst features else []

/-- The value of an option. -/
def IsValue (items : List (Item String)) (arg : String) : Prop :=
  ∃ name, .separate name arg ∈ items

/-- No `-v`, and no text for which the compiler is only called through as the value of an option. -/
def NotPassedThrough (items : List (Item String)) : Prop :=
  .alone "-v" ∉ items ∧ ∀ flag ∈ passThroughFlags, ¬IsValue items flag

/-- There is an argument behind the first `-o`; or there is no `-o`, and with `-c` one C file. -/
def HasFile (remain : List String) : Prop :=
  (∃ v, FirstValue "-o" remain v) ∨
    "-o" ∉ remain ∧ ("-c" ∈ remain → ∃ filepath, remain.filter isCFile = [filepath])

/-- The command line says whether to link, or there are no objects, or no value looks like an option
by which nothing is linked. -/
def DetectsLinking (inst : Installation) (args : Arguments) (features : List Feature)
    (items : List (Item String)) : Prop :=
  args.linking.isSome ∨ objectPaths inst features = [] ∨
    (mode items = .link → ∀ flag ∈ noLinkFlags, ¬IsValue items flag)

/-- There is nothing to carry. -/
def CarriesNothing (inst : Installation) (args : Arguments) (features : List Feature)
    (items : List (Item String)) : Prop :=
  headerPaths inst features = [] ∧ passPluginPaths inst features = [] ∧
    (wantsObjects args items → objectPaths inst features = [])

/-! ## What the driver sees -/

section Seen

variable {cc : Clang} {args : Arguments} {items : List (Item String)}

theorem mem_remain_iff (hread : cc.read args.remain = some items) {flag : String}
    (hflag : flag ∈ "-v" :: (stageFlags ++ printFlags)) :
    flag ∈ args.remain ↔ .alone flag ∈ items ∨ IsValue items flag :=
  mem_iff_of_read hread (cc.takesValue_flag flag hflag)

/-- Where something is compiled to objects or linked, nothing is printed instead. -/
theorem alone_not_mem (hworks : cc.CompilesOrLinks items) :
    ∀ flag ∈ "-E" :: printFlags, .alone flag ∉ items := by
  rintro flag hflag hmem
  rcases List.mem_cons.1 hflag with rfl | hflag
  · rcases hworks.2 with hmode | hmode
    · exact (mode_eq_object_iff.1 hmode).2 "-E" (by decide) hmem
    · exact mode_eq_link_iff.1 hmode "-E" (by decide) hmem
  · have hnone : printFlags.any (fun flag => items.contains (.alone flag)) = false := by
      have hworks' := hworks.1
      simp only [Clang.works, Bool.and_eq_true, Bool.not_eq_true'] at hworks'
      exact hworks'.2
    have hany : printFlags.any (fun flag => items.contains (.alone flag)) = true :=
      List.any_eq_true.2 ⟨flag, hflag, List.contains_iff_mem.2 hmem⟩
    rw [hnone] at hany
    cases hany

theorem remain_ne_nil (hread : cc.read args.remain = some items)
    (hworks : cc.CompilesOrLinks items) : args.remain ≠ [] := by
  intro hnil
  rw [hnil] at hread
  obtain rfl : [] = items := Option.some.inj hread
  exact absurd hworks.1 (by simp [Clang.works])

theorem passesThrough_eq_false_iff (hread : cc.read args.remain = some items)
    (hworks : cc.CompilesOrLinks items) : passesThrough args = false ↔ NotPassedThrough items := by
  have hsub : ∀ flag ∈ passThroughFlags, flag ∈ "-v" :: (stageFlags ++ printFlags) := by decide
  have hempty : args.remain.isEmpty = false := by simpa using remain_ne_nil hread hworks
  have hseen : passesThrough args = false ↔ ∀ flag ∈ passThroughFlags, flag ∉ args.remain := by
    simp [passesThrough, hempty]
  rw [hseen]
  constructor
  · intro h
    refine ⟨fun hv => ?_, fun flag hflag hvalue => ?_⟩
    · exact h "-v" (by decide) ((mem_remain_iff hread (by decide)).2 (Or.inl hv))
    · exact h flag hflag ((mem_remain_iff hread (hsub flag hflag)).2 (Or.inr hvalue))
  · rintro ⟨hv, hvalues⟩ flag hflag hmem
    rcases (mem_remain_iff hread (hsub flag hflag)).1 hmem with halone | hvalue
    · -- all of these options but `-v` make clang do something else
      have hcases : flag = "-v" ∨ flag ∈ "-E" :: printFlags :=
        (by decide : ∀ flag ∈ passThroughFlags, flag = "-v" ∨ flag ∈ "-E" :: printFlags) flag hflag
      rcases hcases with rfl | hflag
      · exact hv halone
      · exact alone_not_mem hworks flag hflag halone
    · exact hvalues flag hflag hvalue

/-- The heuristics is right about a list that is compiled to objects, and about one that is linked
if no value looks like an option. -/
theorem linking_eq_wantsObjects_iff (hread : cc.read args.remain = some items)
    (hworks : cc.CompilesOrLinks items) (hpath : passesThrough args = false) :
    linking args = wantsObjects args items ↔
      args.linking.isSome ∨ (mode items = .link → ∀ flag ∈ noLinkFlags, ¬IsValue items flag) := by
  cases hlinking : args.linking with
  | some given => simp [linking, wantsObjects, hlinking]
  | none =>
      have hv : "-v" ∉ args.remain := by
        rintro hmem
        have hthrough : passesThrough args = true := by
          simp only [passesThrough, Bool.or_eq_true, List.any_eq_true]
          exact Or.inr ⟨"-v", by decide, List.contains_iff_mem.2 hmem⟩
        rw [hpath] at hthrough
        cases hthrough
      have hhead : (args.remain.head? == some "-v") = false := by
        simp only [beq_eq_false_iff_ne]
        exact fun hhead => hv (List.mem_of_mem_head? hhead)
      have hseen : linking args = true ↔ ∀ flag ∈ noLinkFlags, flag ∉ args.remain := by
        simp [linking, hlinking, hhead, noLinkFlags]
      have hsub : ∀ flag ∈ noLinkFlags, flag ∈ "-v" :: (stageFlags ++ printFlags) := by decide
      have hwants : wantsObjects args items = decide (mode items = .link) := by
        rw [wantsObjects, hlinking, Option.getD_none]
      rw [hwants]
      rcases hworks.2 with hmode | hmode
      · have hc : "-c" ∈ args.remain :=
          (mem_remain_iff hread (by decide)).2 (Or.inl (mode_eq_object_iff.1 hmode).1)
        have hno : linking args = false := by
          by_contra hyes
          exact hseen.1 (by simpa using hyes) "-c" (by decide) hc
        simp [hno, hmode]
      · have halone : ∀ flag ∈ noLinkFlags, .alone flag ∉ items := fun flag hflag =>
          mode_eq_link_iff.1 hmode flag
            ((by decide : ∀ flag ∈ noLinkFlags, flag ∈ stageFlags) flag hflag)
        rw [hmode, decide_eq_true rfl, hseen]
        simp only [Option.isSome_none, Bool.false_eq_true, false_or, true_implies]
        refine forall₂_congr fun flag hflag => not_congr ?_
        rw [mem_remain_iff hread (hsub flag hflag), or_iff_right (halone flag hflag)]

end Seen

/-! ## What is carried -/

section Claim

variable {cc : Clang} {inst : Installation} {args : Arguments} {features : List Feature}
  {items : List (Item String)}

theorem exists_outputFile_iff (remain : List String) :
    (∃ put, outputFile remain = .ok put) ↔ HasFile remain := by
  have h := exists_put_iff remain fun _ => True
  simp only [and_true] at h
  rw [h, HasFile]
  refine or_congr_right (and_congr_right fun _ => ?_)
  split
  · next hc => exact ⟨fun hfile _ => hfile, fun hfile => hfile hc⟩
  · next hc => exact iff_of_true trivial fun hmem => absurd hmem hc

theorem choice_eq_iff {α : Type} (a b : Bool) (l : List α) :
    (if a then l else []) = (if b then l else []) ↔ l = [] ∨ a = b := by
  cases a <;> cases b <;> simp

theorem carries_of_passed (hpath : passesThrough args = true) :
    Carries inst args features items ↔ CarriesNothing inst args features items := by
  have hcommand : (instrument inst args features).command =
      some { baseCC := inst.baseCC, remain := args.remain } := by
    simp [instrument, hpath, Outcome.command]
  unfold Carries CarriesNothing
  rw [hcommand]
  simp only [Option.some.injEq, exists_eq_left']
  refine and_congr eq_comm (and_congr eq_comm ?_)
  cases wantsObjects args items with
  | false => exact iff_of_true rfl (by simp)
  | true => exact ⟨fun h _ => h.symm, fun h => (h rfl).symm⟩

theorem carries_of_instrumented (hpath : passesThrough args = false) :
    Carries inst args features items ↔
      HasFile args.remain ∧
        (objectPaths inst features = [] ∨ linking args = wantsObjects args items) := by
  rw [← exists_outputFile_iff, ← choice_eq_iff]
  unfold Carries instrument
  rw [hpath]
  constructor
  · rintro ⟨c, hc, -, -, hobjects⟩
    cases hput : outputFile args.remain with
    | error printed => simp [hput, Outcome.command] at hc
    | ok put =>
        obtain rfl : command inst args features = c := by simpa [hput, Outcome.command] using hc
        exact ⟨⟨put, rfl⟩, hobjects⟩
  · rintro ⟨⟨put, hput⟩, hobjects⟩
    exact ⟨command inst args features, by simp [hput, Outcome.command], rfl, rfl, hobjects⟩

/-- **What is carried.** For a list that clang compiles to objects or links, the command carries the
features exactly if the list is not taken for a question to the compiler, names a file to look at
and has no value that looks like an option against linking; or if there is nothing to carry. -/
theorem carries_iff (cc : Clang) (inst : Installation) (args : Arguments) (features : List Feature)
    {items : List (Item String)} (hread : cc.read args.remain = some items)
    (hworks : cc.CompilesOrLinks items) :
    Carries inst args features items ↔
      NotPassedThrough items ∧ HasFile args.remain ∧ DetectsLinking inst args features items ∨
        ¬NotPassedThrough items ∧ CarriesNothing inst args features items := by
  have hseen := passesThrough_eq_false_iff hread hworks
  cases hpath : passesThrough args with
  | false =>
      have hnot : NotPassedThrough items := hseen.1 hpath
      rw [carries_of_instrumented hpath, linking_eq_wantsObjects_iff hread hworks hpath,
        DetectsLinking]
      tauto
  | true =>
      have hnot : ¬NotPassedThrough items := by
        rw [← hseen, hpath]
        simp
      rw [carries_of_passed hpath]
      tauto

/-! ### A header and a runtime -/

theorem cFile_carried :
    Carries anInstallation { remain := ["-c", "main.c"] } [createIjonFeedback.toFeature]
      [.alone "-c", .alone "main.c"] := by
  refine (carries_iff .fewOptions anInstallation { remain := ["-c", "main.c"] }
    [createIjonFeedback.toFeature] (by decide) ⟨by decide, Or.inl (by decide)⟩).2
    (Or.inl ⟨⟨by decide, ?_⟩, ?_, ?_⟩)
  · rintro flag - ⟨name, hvalue⟩
    simp at hvalue
  · exact Or.inr ⟨by decide, fun _ => ⟨"main.c", by decide⟩⟩
  · exact Or.inr (Or.inr fun hlink => absurd hlink (by decide))

/-- A verbose compilation gets no header, and a program whose linker is told to strip it gets no
runtime. -/
theorem verbose_not_carried :
    (∃ items, Clang.fewOptions.read ["-v", "-c", "main.c"] = some items ∧
      Clang.fewOptions.CompilesOrLinks items ∧
      ¬Carries anInstallation { remain := ["-v", "-c", "main.c"] }
        [createIjonFeedback.toFeature] items) ∧
    ∃ items, Clang.fewOptions.read ["main.c", "-Xlinker", "-S"] = some items ∧
      Clang.fewOptions.CompilesOrLinks items ∧
      ¬Carries anInstallation { remain := ["main.c", "-Xlinker", "-S"] }
        [createIjonFeedback.toFeature] items := by
  constructor
  · refine ⟨[.alone "-v", .alone "-c", .alone "main.c"], by decide,
      ⟨by decide, Or.inl (by decide)⟩, fun h => ?_⟩
    have hheaders := ((carries_of_passed (by decide)).1 h).1
    simp [headerPaths, createIjonFeedback] at hheaders
  · refine ⟨[.alone "main.c", .separate "-Xlinker" "-S"], by decide,
      ⟨by decide, Or.inr (by decide)⟩, fun h => ?_⟩
    rcases ((carries_of_instrumented (by decide)).1 h).2 with hobjects | hlinking
    · simp [objectPaths, createIjonFeedback] at hobjects
    · exact absurd hlinking (by decide)

end Claim

end Driver
end FuzzufCc
