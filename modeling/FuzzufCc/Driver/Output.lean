import FuzzufCc.Driver.Command

/-!
# Output — the file that the driver looks at

When the compiler is done, the driver looks for the output under a name that it has made up from
`-o`, `-c` and the suffixes in the list.  The compiler reads values where the driver only looks for
texts, and takes the last `-o`.
-/

namespace FuzzufCc

open CommandLine FileName

namespace Driver

/-- The driver gets to the file `out` after the compilation. -/
def InspectsOutput (inst : Installation) (args : Arguments) (features : List Feature)
    (out : String) : Prop :=
  ∃ c put, instrument inst args features = .instruments c put ∧ SameFile put.toList out.toList

/-- The output is named in the list, and the name that the driver has is one for the same file: what
stands behind the first `-o`; without an argument `-o`, the name of the only C file; or else
`a.out`. -/
def FindsNamed (remain : List String) (name : String) : Prop :=
  (∃ v, FirstValue "-o" remain v ∧ SameFile v.toList name.toList) ∨
    "-o" ∉ remain ∧
      if "-c" ∈ remain then
        ∃ filepath, remain.filter isCFile = [filepath] ∧
          SameFile (objectName filepath).toList name.toList
      else SameFile "a.out".toList name.toList

/-- The output has its default name.  Then an argument `-o` is a value, and a name of its own only
by chance; an argument `-c` has to be the option, with the only C file for the only source; and
without both the compiler has to link. -/
def FindsDefault (cc : Clang) (remain : List String) (items : List (Item String)) : Prop :=
  (∃ v name, FirstValue "-o" remain v ∧ cc.defaultOutput items = some name ∧
      SameFile v.toList name.toList) ∨
    "-o" ∉ remain ∧
      if "-c" ∈ remain then
        mode items = .upTo "o" ∧ ∃ filepath source, remain.filter isCFile = [filepath] ∧
          cc.sources items = [source] ∧
          splitext (basename filepath.toList) = stem (basename source.toList)
      else mode items = .link

theorem plain_objectName (filepath : String) : Plain (objectName filepath).toList := by
  have hslash := slash_not_mem_splitext (slash_not_mem_basename filepath.toList)
  have ho : '/' ∉ ['o'] := by decide
  simpa [objectName] using plain_with_suffix hslash ho (by decide)

theorem sameFile_put_iff (filepath : String) (q : List Char) :
    SameFile (pathJoin "./" (objectName filepath)).toList q ↔
      SameFile (objectName filepath).toList q := by
  rw [pathJoin, String.toList_ofList]
  exact sameFile_dotSlash_iff (plain_objectName filepath) q

theorem plain_aOut : Plain "a.out".toList := by
  refine ⟨?_, ?_, ?_⟩ <;> decide

section Default

variable {cc : Clang} {items : List (Item String)} {name : String}

/-- A source has its own name with the suffix of what is left of it. -/
theorem defaultOutput_cases (h : cc.defaultOutput items = some name) :
    mode items = .link ∧ name = "a.out" ∨
      ∃ suffix source, mode items = .upTo suffix ∧ cc.sources items = [source] ∧
        name.toList = stem (basename source.toList) ++ '.' :: suffix.toList := by
  unfold Clang.defaultOutput at h
  split at h
  · next hmode => exact Or.inl ⟨hmode, (Option.some.inj h).symm⟩
  · next suffix source hmode hsources =>
      refine Or.inr ⟨suffix, source, hmode, hsources, ?_⟩
      rw [← Option.some.inj h]
      simp
  · cases h

/-- No suffix has a dot or a slash in it, and none is `out`. -/
theorem suffix_plain {suffix : String} (h : mode items = .upTo suffix) :
    '.' ∉ suffix.toList ∧ '/' ∉ suffix.toList ∧ suffix.toList ≠ [] ∧ suffix.toList ≠ "out".toList :=
  (by decide : ∀ suffix ∈ ["ast", "ll", "s", "bc", "o"],
    '.' ∉ suffix.toList ∧ '/' ∉ suffix.toList ∧ suffix.toList ≠ [] ∧
      suffix.toList ≠ "out".toList) suffix (suffix_of_mode h)

/-- The output of a source is not `a.out`. -/
theorem sameFile_aOut_iff (h : cc.defaultOutput items = some name) :
    SameFile "a.out".toList name.toList ↔ mode items = .link := by
  rcases defaultOutput_cases h with ⟨hmode, rfl⟩ | ⟨suffix, source, hmode, -, hname⟩
  · exact iff_of_true ⟨Iff.rfl, rfl⟩ hmode
  · obtain ⟨hdot, hslash, hne, hout⟩ := suffix_plain hmode
    have hplain := plain_with_suffix
      (slash_not_mem_stem (slash_not_mem_basename source.toList)) hslash hne
    have haOut : "a.out".toList = ['a'] ++ '.' :: "out".toList := by decide
    rw [hname, sameFile_plain_iff plain_aOut hplain, haOut,
      append_suffix_inj (by decide) hdot, hmode]
    exact iff_of_false (fun heq => hout heq.2.symm) (by simp)

/-- An object file with the name of a C file is the output of a source exactly if clang stops at
objects and cuts off the suffix alike. -/
theorem sameFile_objectName_iff (h : cc.defaultOutput items = some name) (filepath : String) :
    SameFile (objectName filepath).toList name.toList ↔
      mode items = .upTo "o" ∧ ∃ source, cc.sources items = [source] ∧
        splitext (basename filepath.toList) = stem (basename source.toList) := by
  have hobject : (objectName filepath).toList =
      splitext (basename filepath.toList) ++ '.' :: "o".toList := by
    simp [objectName]
  have ho : '.' ∉ "o".toList := by decide
  rcases defaultOutput_cases h with ⟨hmode, rfl⟩ | ⟨suffix, source, hmode, hsources, hname⟩
  · have haOut : "a.out".toList = ['a'] ++ '.' :: "out".toList := by decide
    rw [sameFile_plain_iff (plain_objectName filepath) plain_aOut, hobject, haOut,
      append_suffix_inj ho (by decide), hmode]
    exact iff_of_false (fun heq => absurd heq.2 (by decide)) (by simp)
  · obtain ⟨hdot, hslash, hne, -⟩ := suffix_plain hmode
    have hplain := plain_with_suffix
      (slash_not_mem_stem (slash_not_mem_basename source.toList)) hslash hne
    rw [sameFile_plain_iff (plain_objectName filepath) (hname ▸ hplain), hobject, hname,
      append_suffix_inj ho hdot, hmode, hsources]
    constructor
    · rintro ⟨hstem, hsuffix⟩
      obtain rfl : "o" = suffix := String.toList_inj.1 hsuffix
      exact ⟨rfl, source, rfl, hstem⟩
    · rintro ⟨hsuffix, source', hsource, hstem⟩
      obtain rfl : suffix = "o" := Mode.upTo.inj hsuffix
      obtain rfl : source = source' := List.singleton_inj.1 hsource
      exact ⟨hstem, rfl⟩

end Default

/-! ## When the driver gets to the output -/

section Finds

variable {cc : Clang} {remain : List String} {items : List (Item String)} {name : String}

theorem findsNamed_iff :
    (∃ put, outputFile remain = .ok put ∧ SameFile put.toList name.toList) ↔
      FindsNamed remain name := by
  rw [exists_put_iff remain fun put => SameFile put.toList name.toList, FindsNamed]
  simp only [sameFile_put_iff]

theorem findsDefault_iff (h : cc.defaultOutput items = some name) :
    (∃ put, outputFile remain = .ok put ∧ SameFile put.toList name.toList) ↔
      FindsDefault cc remain items := by
  rw [exists_put_iff remain fun put => SameFile put.toList name.toList, FindsDefault]
  simp only [sameFile_put_iff, sameFile_objectName_iff h, sameFile_aOut_iff h, h]
  refine or_congr ?_ (and_congr_right fun _ => ?_)
  · simp
  · split
    · constructor
      · rintro ⟨filepath, hfilter, hmode, source, hsources, hstem⟩
        exact ⟨hmode, filepath, source, hfilter, hsources, hstem⟩
      · rintro ⟨hmode, filepath, source, hfilter, hsources, hstem⟩
        exact ⟨filepath, hfilter, hmode, source, hsources, hstem⟩
    · rfl

end Finds

section Claim

variable {inst : Installation} {args : Arguments} {features : List Feature}

theorem inspectsOutput_iff (hpath : passesThrough args = false) (out : String) :
    InspectsOutput inst args features out ↔
      ∃ put, outputFile args.remain = .ok put ∧ SameFile put.toList out.toList := by
  unfold InspectsOutput instrument
  rw [hpath]
  constructor
  · rintro ⟨c, put, hinst, hsame⟩
    cases hput : outputFile args.remain with
    | error printed => simp [hput] at hinst
    | ok put' =>
        have hput' : put' = put := by
          simp only [hput, Bool.false_eq_true, if_false, Outcome.instruments.injEq] at hinst
          exact hinst.2
        exact ⟨put', rfl, hput' ▸ hsame⟩
  · rintro ⟨put, hput, hsame⟩
    exact ⟨command inst args features, put, by simp [hput], hsame⟩

theorem output_of_single (cc : Clang) {pre post : List (Item String)} {name : String}
    (hpost : ∀ item ∈ post, cc.outputOf item = none) :
    cc.output (pre ++ .separate "-o" name :: post) = some name := by
  have hlast : cc.outputOf (.separate "-o" name) = some name := rfl
  rw [Clang.output, List.filterMap_append, List.filterMap_cons, hlast,
    List.filterMap_eq_nil_iff.2 hpost]
  exact List.getLast?_concat

/-- An output that is named by one `-o` before its value is inspected, where nothing before it has
the text `-o` and no name comes behind it. -/
theorem inspectsOutput_of_single (cc : Clang) {pre post : List (Item String)} {name out : String}
    (hpath : passesThrough args = false)
    (hread : cc.read args.remain = some (pre ++ .separate "-o" name :: post))
    (hpre : ∀ item ∈ pre, "-o" ∉ item.args) (hpost : ∀ item ∈ post, cc.outputOf item = none)
    (hout : cc.compile (command inst args features).arguments = some out) :
    InspectsOutput inst args features out := by
  obtain ⟨items, hitems, hwrites⟩ := Option.bind_eq_some_iff.1 hout
  obtain rfl := Option.some.inj ((read_command cc inst args features hread).symm.trans hitems)
  obtain ⟨-, hname⟩ := cc.writes_eq_some hwrites
  rw [output_command, output_of_single cc hpost] at hname
  obtain rfl : name = out := by simpa using hname
  refine (inspectsOutput_iff hpath name).2 (findsNamed_iff.2 ?_)
  exact Or.inl ⟨name, firstValue_of_read hread hpre, Iff.rfl, rfl⟩

/-- So is the object file of the only C file, if that is the only source and has something else than
dots before its suffix. -/
theorem inspectsOutput_of_compiled (cc : Clang) {items : List (Item String)}
    {filepath out : String} {name suffix : List Char} (hpath : passesThrough args = false)
    (ho : "-o" ∉ args.remain) (hc : "-c" ∈ args.remain)
    (hfilter : args.remain.filter isCFile = [filepath])
    (hread : cc.read (command inst args features).arguments = some items)
    (hcompile : cc.compile (command inst args features).arguments = some out)
    (hmode : mode items = .upTo "o") (hnone : cc.output items = none)
    (hsources : cc.sources items = [filepath])
    (hname : basename filepath.toList = name ++ '.' :: suffix) (hsuffix : '.' ∉ suffix)
    (hdots : ∃ c ∈ name, c ≠ '.') : InspectsOutput inst args features out := by
  have hwrites : cc.writes items = some out := by
    rwa [Clang.compile, hread, Option.bind_some] at hcompile
  have hout : cc.defaultOutput items = some out := by
    simpa [hnone] using (cc.writes_eq_some hwrites).2
  have hcut : splitext (basename filepath.toList) = stem (basename filepath.toList) := by
    rw [hname]
    exact (splitext_eq_stem_iff hsuffix).2 hdots
  refine (inspectsOutput_iff hpath out).2 ((findsDefault_iff hout).2 (Or.inr ⟨ho, ?_⟩))
  rw [if_pos hc]
  exact ⟨hmode, filepath, filepath, hfilter, hsources, hcut⟩

/-! ### A C file and its object file -/

end Claim

end Driver
end FuzzufCc
