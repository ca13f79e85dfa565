import Mathlib.Tactic.ByContra
import YangEvolution.Command.Check
import YangEvolution.Outcome.Except
import YangEvolution.Proofs.CheckedVerdict
import YangEvolution.Proofs.LoadedTypes
import YangEvolution.Proofs.PrintedReport

/-!
How a check ends. A check goes by a settings file or none, each of its choices comes from the
command line, else from the settings, else is the usual one, and both modules have to load. Main
statement: a check fails exactly when something of this is in its way, and then prints nothing, or
when it is strict and an error is found; in this case and in every success, it prints the report of
comparing the two modules that were loaded. Warnings alone do not make it fail.
-/

namespace YangEvolution

open Text

/-- `Settings.Held tree path s`: the file at `path` can be read, is text in UTF-8 and a document,
and its keys give the settings `s`. -/
def Settings.Held (tree : FileTree) (path : PathName) (s : Settings) : Prop :=
  ∃ content text entries, tree.read path = .ok content ∧ Utf8.decode content = .ok text ∧
    Toml.read text = some entries ∧ Settings.ofEntries entries = .ok s

theorem Settings.load_eq_ok_iff {tree : FileTree} {path : PathName} {s : Settings} :
    Settings.load tree path = .ok s ↔ Settings.Held tree path s := by
  unfold Settings.load Settings.Held
  cases hread : tree.read path with
  | error fault => simp
  | ok content =>
      cases htext : Utf8.decode content with
      | error fault => simp [htext]
      | ok text =>
          cases hentries : Toml.read text with
          | none => simp [htext, Settings.ofText, hentries]
          | some entries =>
              simp [htext, Settings.ofText, hentries, Outcome.mapError_eq_ok_iff]

namespace Command

open Loading

/-- A choice: what the command line gives, else what the settings give, else what is usual. -/
inductive Chosen {α : Type} (given setting : Option α) (usual : α) : α → Prop where
  | given {a : α} : given = some a → Chosen given setting usual a
  | setting {a : α} : given = none → setting = some a → Chosen given setting usual a
  | usual : given = none → setting = none → Chosen given setting usual usual

theorem chosen_iff {α : Type} {given setting : Option α} {usual a : α} :
    Chosen given setting usual a ↔ (given.or setting).getD usual = a := by
  constructor
  · rintro (rfl | ⟨rfl, rfl⟩ | ⟨rfl, rfl⟩)
    · rfl
    · rfl
    · rfl
  · rintro rfl
    cases given with
    | some a => exact .given rfl
    | none =>
        cases setting with
        | some a => exact .setting rfl rfl
        | none => exact .usual rfl rfl

/-- The directories that are searched: those of the command line if it has any, else those of the
settings, of which there are none unless the settings give some. -/
inductive ChosenSearch (given setting : List PathName) : List PathName → Prop where
  | given : given ≠ [] → ChosenSearch given setting given
  | setting : given = [] → ChosenSearch given setting setting

theorem chosenSearch_iff {given setting search : List PathName} :
    ChosenSearch given setting search ↔ (if given.isEmpty then setting else given) = search := by
  constructor
  · rintro (hne | rfl)
    · simp [hne]
    · rfl
  · rintro rfl
    cases given with
    | nil => exact .setting rfl
    | cons dir dirs => exact .given (List.cons_ne_nil dir dirs)

/-- A loader of its own makes the module `m` of the file at `path`. -/
def LoadsAs (tree : FileTree) (search : List PathName) (path : PathName) (m : Module) : Prop :=
  (Loader.loadFile { search } tree path).1 = .ok m

theorem loadSide_eq_ok_iff {tree : FileTree} {side : Side} {search : List PathName}
    {path : PathName} {m : Module} :
    loadSide tree side search path = .ok m ↔ LoadsAs tree search path m :=
  Outcome.mapError_eq_ok_iff

namespace CheckRequest

/-- The settings file that a request goes by: the one that it names, or the usual one if that is a
file of the working directory. -/
inductive SettingsFile (request : CheckRequest) (tree : FileTree) : PathName → Prop where
  | named {path : PathName} : request.settings = some path → SettingsFile request tree path
  | usual : request.settings = none →
      tree.isFile (tree.current.join Settings.defaultFile) = true →
      SettingsFile request tree (tree.current.join Settings.defaultFile)

/-- The settings that complete a request; the directories in a file are seen from where it is. -/
inductive CompletedBy (request : CheckRequest) (tree : FileTree) : Settings → Prop where
  | file {path : PathName} {s : Settings} : request.SettingsFile tree path →
      Settings.Held tree path s → CompletedBy request tree (s.anchor path)
  | noFile : (∀ path, ¬ request.SettingsFile tree path) → CompletedBy request tree {}

/-- What is in the way of a check. -/
inductive Hindered (request : CheckRequest) (tree : FileTree) : Prop where
  | newFiles : request.new.length ≠ 1 → Hindered request tree
  | settings {path : PathName} : request.SettingsFile tree path →
      (∀ s, ¬ Settings.Held tree path s) → Hindered request tree
  | oldModule {s : Settings} {search : List PathName} : request.CompletedBy tree s →
      ChosenSearch request.oldSearch s.oldSearch search →
      (∀ m, ¬ LoadsAs tree search request.old m) → Hindered request tree
  | newModule {s : Settings} {search : List PathName} {path : PathName} :
      request.CompletedBy tree s → ChosenSearch request.search s.search search →
      request.new = [path] → (∀ m, ¬ LoadsAs tree search path m) → Hindered request tree

/-- The comparison that a check makes of the two modules, and the format of its report. -/
structure Compares (request : CheckRequest) (tree : FileTree) (s : Settings) (c : Comparison)
    (format : Report.Format) : Prop where
  completed : request.CompletedBy tree s
  old : ∃ search, ChosenSearch request.oldSearch s.oldSearch search ∧
    LoadsAs tree search request.old c.old
  new : ∃ search path, ChosenSearch request.search s.search search ∧ request.new = [path] ∧
    LoadsAs tree search path c.new
  version : Chosen request.version s.version .rfc6020 c.version
  format : Chosen request.format s.format .text format

/-- A check is strict by the command line or by the settings. -/
def IsStrict (request : CheckRequest) (s : Settings) : Prop :=
  request.strict = true ∨ s.strict = some true

variable {request : CheckRequest} {tree : FileTree} {s : Settings} {c : Comparison}
  {format : Report.Format}

/-! ### Settings -/

theorem settingsFile_iff {path : PathName} :
    request.SettingsFile tree path ↔
      Settings.locate? tree request.settings tree.current = some path := by
  unfold Settings.locate?
  constructor
  · rintro (hnamed | ⟨hnone, hfile⟩)
    · rw [hnamed]
    · rw [hnone]
      simp [hfile]
  · intro h
    split at h
    · rename_i named hnamed
      exact .named (hnamed.trans h)
    · rename_i hnone
      obtain ⟨hpath, hfile⟩ := Option.filter_eq_some_iff.mp h
      obtain rfl := Option.some.inj hpath
      exact .usual hnone hfile

theorem SettingsFile.unique {path path' : PathName} (h : request.SettingsFile tree path)
    (h' : request.SettingsFile tree path') : path = path' :=
  Option.some.inj ((settingsFile_iff.mp h).symm.trans (settingsFile_iff.mp h'))

theorem discoverSettings_of_file {path : PathName} (h : request.SettingsFile tree path) :
    request.discoverSettings tree =
      ((Settings.load tree path).map fun s => s.anchor path).mapError .settings := by
  unfold discoverSettings Settings.discover
  rw [settingsFile_iff.mp h]
  simp only
  cases Settings.load tree path with
  | error fault => rfl
  | ok s => rfl

theorem discoverSettings_of_noFile (h : ∀ path, ¬ request.SettingsFile tree path) :
    request.discoverSettings tree = .ok {} := by
  have hnone : Settings.locate? tree request.settings tree.current = none := by
    refine Option.eq_none_iff_forall_ne_some.mpr fun path hpath => ?_
    exact h path (settingsFile_iff.mpr hpath)
  unfold discoverSettings Settings.discover
  rw [hnone]
  rfl

theorem discoverSettings_eq_ok_iff :
    request.discoverSettings tree = .ok s ↔ request.CompletedBy tree s := by
  constructor
  · intro h
    by_cases hfile : ∃ path, request.SettingsFile tree path
    · obtain ⟨path, hfile⟩ := hfile
      rw [discoverSettings_of_file hfile, Outcome.mapError_eq_ok_iff] at h
      obtain ⟨read, hread, rfl⟩ := Outcome.map_eq_ok_iff.mp h
      exact .file hfile (Settings.load_eq_ok_iff.mp hread)
    · have hnone : ∀ path, ¬ request.SettingsFile tree path := fun path hpath =>
        hfile ⟨path, hpath⟩
      rw [discoverSettings_of_noFile hnone] at h
      obtain rfl := Except.ok.inj h
      exact .noFile hnone
  · rintro (⟨hfile, hheld⟩ | hnone)
    · rw [discoverSettings_of_file hfile, Settings.load_eq_ok_iff.mpr hheld]
      rfl
    · exact discoverSettings_of_noFile hnone

theorem CompletedBy.unique {s' : Settings} (h : request.CompletedBy tree s)
    (h' : request.CompletedBy tree s') : s = s' :=
  Except.ok.inj ((discoverSettings_eq_ok_iff.mpr h).symm.trans (discoverSettings_eq_ok_iff.mpr h'))

theorem newFile_eq_ok_iff {path : PathName} :
    request.newFile = .ok path ↔ request.new = [path] := by
  unfold newFile
  split
  · rename_i only hnew
    rw [hnew, Except.ok.injEq, List.cons.injEq, and_iff_left rfl]
  · rename_i hnew
    constructor
    · intro h
      cases h
    · intro h
      exact absurd h (hnew path)

/-! ### What is compared -/

theorem prepare_of_compares (h : request.Compares tree s c format) :
    request.prepare tree = .ok (c, request.plan s) ∧ (request.plan s).format = format := by
  obtain ⟨hcompleted, ⟨oldSearch, holdSearch, hold⟩, ⟨search, path, hsearch, hpath, hnew⟩, hversion,
    hformat⟩ := h
  refine ⟨?_, chosen_iff.mp hformat⟩
  have hplanOld : loadSide tree .old (request.plan s).oldSearch request.old = .ok c.old := by
    rw [plan, chosenSearch_iff.mp holdSearch]
    exact loadSide_eq_ok_iff.mpr hold
  have hplanNew : loadSide tree .new (request.plan s).search path = .ok c.new := by
    rw [plan, chosenSearch_iff.mp hsearch]
    exact loadSide_eq_ok_iff.mpr hnew
  have hplanVersion : (request.plan s).version = c.version := chosen_iff.mp hversion
  rw [prepare, newFile_eq_ok_iff.mpr hpath, Outcome.ok_bind,
    discoverSettings_eq_ok_iff.mpr hcompleted, Outcome.ok_bind]
  simp only [hplanOld, hplanNew, Outcome.ok_bind, hplanVersion]

theorem compares_of_prepare {plan : Plan} (h : request.prepare tree = .ok (c, plan)) :
    ∃ s, request.Compares tree s c plan.format := by
  obtain ⟨path, hpath, h⟩ := Outcome.exists_of_bind_eq_ok h
  obtain ⟨s, hs, h⟩ := Outcome.exists_of_bind_eq_ok h
  obtain ⟨old, hold, h⟩ := Outcome.exists_of_bind_eq_ok h
  obtain ⟨new, hnew, h⟩ := Outcome.exists_of_bind_eq_ok h
  cases h
  exact ⟨s, discoverSettings_eq_ok_iff.mp hs,
    ⟨_, chosenSearch_iff.mpr rfl, loadSide_eq_ok_iff.mp hold⟩,
    ⟨_, path, chosenSearch_iff.mpr rfl, newFile_eq_ok_iff.mp hpath, loadSide_eq_ok_iff.mp hnew⟩,
    chosen_iff.mpr rfl, chosen_iff.mpr rfl⟩

/-- A check that nothing is in the way of compares two modules. -/
theorem exists_compares (h : ¬ request.Hindered tree) :
    ∃ s c format, request.Compares tree s c format := by
  have hlength : request.new.length = 1 := by
    by_contra hne
    exact h (.newFiles hne)
  obtain ⟨path, hpath⟩ := List.length_eq_one_iff.mp hlength
  have hsettings : ∃ s, request.CompletedBy tree s := by
    by_cases hfile : ∃ path, request.SettingsFile tree path
    · obtain ⟨path, hfile⟩ := hfile
      by_contra hnone
      refine h (.settings hfile fun s hheld => hnone ⟨s.anchor path, .file hfile hheld⟩)
    · exact ⟨{}, .noFile fun path hpath => hfile ⟨path, hpath⟩⟩
  obtain ⟨s, hcompleted⟩ := hsettings
  have holdSearch : ChosenSearch request.oldSearch s.oldSearch (request.plan s).oldSearch :=
    chosenSearch_iff.mpr rfl
  have hsearch : ChosenSearch request.search s.search (request.plan s).search :=
    chosenSearch_iff.mpr rfl
  have hold : ∃ m, LoadsAs tree (request.plan s).oldSearch request.old m := by
    by_contra hnone
    exact h (.oldModule hcompleted holdSearch fun m hm => hnone ⟨m, hm⟩)
  have hnew : ∃ m, LoadsAs tree (request.plan s).search path m := by
    by_contra hnone
    exact h (.newModule hcompleted hsearch hpath fun m hm => hnone ⟨m, hm⟩)
  obtain ⟨old, hold⟩ := hold
  obtain ⟨new, hnew⟩ := hnew
  exact ⟨s, ⟨old, new, (request.plan s).version⟩, (request.plan s).format, hcompleted,
    ⟨_, holdSearch, hold⟩, ⟨_, path, hsearch, hpath, hnew⟩, chosen_iff.mpr rfl, chosen_iff.mpr rfl⟩

/-- Nothing is in the way of a check that compares two modules. -/
theorem Compares.not_hindered (h : request.Compares tree s c format) :
    ¬ request.Hindered tree := by
  obtain ⟨search, path, hsearch, hpath, hnew⟩ := h.new
  obtain ⟨oldSearch, holdSearch, hold⟩ := h.old
  -- the request determines its settings and directories, so that what does not load is what loads
  rintro (hlength | ⟨hfile, hnone⟩ | ⟨hcompleted, hchosen, hnone⟩ |
    ⟨hcompleted, hchosen, hpath', hnone⟩)
  · rw [hpath] at hlength
    exact hlength rfl
  · cases h.completed with
    | file hfile' hheld => exact hnone _ (hfile.unique hfile' ▸ hheld)
    | noFile hno => exact hno _ hfile
  · obtain rfl := h.completed.unique hcompleted
    rw [chosenSearch_iff] at hchosen holdSearch
    exact hnone _ (hchosen ▸ holdSearch ▸ hold)
  · obtain rfl := h.completed.unique hcompleted
    rw [chosenSearch_iff] at hchosen hsearch
    rw [hpath] at hpath'
    obtain rfl := List.singleton_inj.mp hpath'
    exact hnone _ (hchosen ▸ hsearch ▸ hnew)

theorem fractionDigits_le_of_loadsAs {search : List PathName} {path : PathName} {m : Module}
    (h : LoadsAs tree search path m) {t : TypeDef} (ht : m.HasType t) {r : RangeRestriction}
    (hr : t.range? = some r) : r.fractionDigits ≤ 38 := by
  have hload : Loader.load { search } tree (.file path) =
      (.ok m, (Loader.loadFile { search } tree path).2) := Prod.ext h rfl
  exact Loader.fractionDigits_le_of_load hload ht hr

/-- The ranges of modules that were loaded can always be compared. -/
theorem Compares.validate?_eq (h : request.Compares tree s c format) :
    c.validate? = some c.catalog := by
  obtain ⟨_, -, hold⟩ := h.old
  obtain ⟨_, _, -, -, hnew⟩ := h.new
  refine Comparison.validate?_of_fit fun q hq t u name ht hu _ _ => ?_
  obtain ⟨⟨n, hn, hdata⟩, n', hn', hdata'⟩ := Comparison.hasNode_of_mem_nodePairs hq
  refine Compatibility.rangesFit_of_le (fun r hr => ?_) (fun r hr => ?_)
  · exact fractionDigits_le_of_loadsAs hold (.node hn (hdata ▸ ht)) hr
  · exact fractionDigits_le_of_loadsAs hnew (.node hn' (hdata' ▸ hu)) hr

/-! ### How a check ends -/

theorem run_of_hindered (h : request.Hindered tree) (color : Bool) :
    (request.run tree color).output = none ∧ (request.run tree color).failure ≠ none := by
  cases hprepare : request.prepare tree with
  | error failure =>
      rw [run, hprepare]
      exact ⟨rfl, Option.some_ne_none failure⟩
  | ok result =>
      obtain ⟨s, hcompares⟩ := compares_of_prepare hprepare
      exact absurd h hcompares.not_hindered

theorem isStrict_iff : (request.plan s).strict = true ↔ request.IsStrict s := by
  rw [plan, IsStrict, Bool.or_eq_true]
  cases s.strict with
  | none => simp
  | some b => simp

theorem run_of_compares (h : request.Compares tree s c format) (color : Bool) :
    (request.run tree color).output = some (Report.render color format c.catalog ++ "\n") ∧
      ((request.run tree color).failure ≠ none ↔
        request.IsStrict s ∧ ∃ f ∈ c.catalog.findings, f.severity = .error) := by
  obtain ⟨hprepare, hformat⟩ := prepare_of_compares h
  have hrun : request.run tree color =
      ⟨some (Report.render color format c.catalog ++ "\n"),
        if (request.plan s).strict && 0 < c.catalog.errorCount then
          some (.incompatible c.catalog.errorCount) else none⟩ := by
    rw [run, hprepare, ← hformat]
  rw [hrun, ← isStrict_iff, ← Catalog.errorCount_pos_iff]
  simp [Nat.pos_iff_ne_zero]

/-- A check fails exactly when something is in its way, or when it is strict and an error is found.
It prints nothing in the first case; otherwise it compares two modules and prints the report in the
format chosen, whether it fails or not, and it does not fail where all findings are warnings. -/
theorem check_outcome (request : CheckRequest) (tree : FileTree) (color : Bool) :
    ((request.run tree color).failure ≠ none ↔
      request.Hindered tree ∨ ∃ s c format, request.Compares tree s c format ∧
        request.IsStrict s ∧ ∃ f ∈ c.catalog.findings, f.severity = .error) ∧
    (request.Hindered tree → (request.run tree color).output = none) ∧
    (¬ request.Hindered tree → ∃ s c format, request.Compares tree s c format) ∧
    ∀ s c format, request.Compares tree s c format → c.validate? = some c.catalog ∧
      (request.run tree color).output = some (Report.render color format c.catalog ++ "\n") ∧
      Report.Prints color c.catalog format (Report.render color format c.catalog) ∧
      ((∀ f ∈ c.catalog.findings, f.severity = .warning) →
        (request.run tree color).failure = none) := by
  refine ⟨⟨fun hfailure => ?_, ?_⟩, fun h => (run_of_hindered h color).1, exists_compares, ?_⟩
  · by_cases hhindered : request.Hindered tree
    · exact .inl hhindered
    · obtain ⟨s, c, format, hcompares⟩ := exists_compares hhindered
      exact .inr ⟨s, c, format, hcompares, (run_of_compares hcompares color).2.mp hfailure⟩
  · rintro (hhindered | ⟨s, c, format, hcompares, hstrict⟩)
    · exact (run_of_hindered hhindered color).2
    · exact (run_of_compares hcompares color).2.mpr hstrict
  · intro s c format hcompares
    obtain ⟨houtput, hfailure⟩ := run_of_compares hcompares color
    refine ⟨hcompares.validate?_eq, houtput, Report.prints_render color format c.catalog, ?_⟩
    intro hwarnings
    by_contra hfails
    obtain ⟨-, f, hf, herror⟩ := hfailure.mp hfails
    rw [hwarnings f hf] at herror
    cases herror

/-! ### Two revisions of a module -/

/-- The module of a file, if there is one and it has no imports. -/
def moduleAt? (tree : FileTree) (path : PathName) : Option Module :=
  (readSource tree path).toOption.bind fun main =>
    if main.imports.isEmpty then (Yin.Environment.module ⟨main, []⟩).toOption else none

theorem loadsAs_of_moduleAt? {path : PathName} {m : Module} (h : moduleAt? tree path = some m)
    (search : List PathName) : LoadsAs tree search path m := by
  obtain ⟨main, hmain, h⟩ := Option.bind_eq_some_iff.mp h
  obtain ⟨hempty, hmodule⟩ := Option.ite_none_right_eq_some.mp h
  rw [LoadsAs, Loader.loadFile, Outcome.toOption_eq_some_iff.mp hmain]
  simp only
  rw [Loader.loadSource_of_no_imports (List.isEmpty_iff.mp hempty)]
  exact Outcome.toOption_eq_some_iff.mp hmodule

/-- A module with one leaf. -/
def leafModule (revisions properties : String) : Bytes :=
  ("<module name=\"m\"><namespace uri=\"u\"/><prefix value=\"m\"/>" ++ revisions ++
    "<leaf name=\"a\"><type name=\"int8\"/>" ++ properties ++ "</leaf></module>").toUTF8.toList

/-- Two files of a module; in the later one, the leaf has no units. -/
def revisedLeaf : FileTree :=
  ⟨.directory [
    ("1.yin", .file (leafModule "<revision date=\"2020-01-01\"/>" "<units name=\"s\"/>")),
    ("2.yin", .file (leafModule
      "<revision date=\"2021-01-01\"/><revision date=\"2020-01-01\"/>" ""))], ⟨"/"⟩⟩

def unitsRemoved : Finding := ⟨.units, "none [/m:a]", "s [/m:a]"⟩

/-- A check of the two files. -/
def leafCheck (format : Option Report.Format) (strict : Bool) : CheckRequest where
  new := [⟨"2.yin"⟩]
  old := ⟨"1.yin"⟩
  format := format
  strict := strict

theorem exists_compares_leafCheck (format : Option Report.Format) (strict : Bool) :
    ∃ c, (leafCheck format strict).Compares revisedLeaf {} c (format.getD .text) ∧
      c.catalog = .ofList [unitsRemoved] := by
  have hfindings : (do
      let old ← moduleAt? revisedLeaf ⟨"1.yin"⟩
      let new ← moduleAt? revisedLeaf ⟨"2.yin"⟩
      some (Comparison.catalog ⟨old, new, .rfc6020⟩).findings) = some [unitsRemoved] := by
    decide +kernel
  obtain ⟨old, hold, hfindings⟩ := Option.bind_eq_some_iff.mp hfindings
  obtain ⟨new, hnew, hfindings⟩ := Option.bind_eq_some_iff.mp hfindings
  have hnoFile : Settings.locate? revisedLeaf none revisedLeaf.current = none := by
    decide +kernel
  refine ⟨⟨old, new, .rfc6020⟩, ⟨?_, ?_, ?_, .usual rfl rfl, ?_⟩, ?_⟩
  · refine .noFile fun path hpath => ?_
    cases hnoFile.symm.trans (settingsFile_iff.mp hpath)
  · exact ⟨[], .setting rfl, loadsAs_of_moduleAt? hold []⟩
  · exact ⟨[], ⟨"2.yin"⟩, .setting rfl, rfl, loadsAs_of_moduleAt? hnew []⟩
  · cases format with
    | none => exact .usual rfl rfl
    | some f => exact .given rfl
  · exact Catalog.eq_of_findings (Option.some.inj hfindings)

/-- A strict check prints its report in colours and fails, one that is not strict prints JSON, and
one with no new file prints nothing. -/
theorem check_outcome_revisedLeaf :
    (((leafCheck none true).run revisedLeaf true).output = some
        ("\x1b[31m1. [error] units: units removed\x1b[0m\n" ++
          "   new units: none [/m:a]\n" ++
          "\x1b[2m   old units: s [/m:a]\x1b[0m\n" ++
          "\x1b[1;31mfindings=1 errors=1 warnings=0\x1b[0m\n") ∧
      ((leafCheck none true).run revisedLeaf true).failure ≠ none) ∧
    (((leafCheck (some .json) false).run revisedLeaf true).output = some
        ("\x7b\n  \"errors\": 1,\n  \"warnings\": 0,\n  \"findings\": [\n    \x7b\n" ++
          "      \"ordinal\": 1,\n      \"severity\": \"error\",\n      \"kind\": \"units\",\n" ++
          "      \"message\": \"units removed\",\n      \"new\": \"none [/m:a]\",\n" ++
          "      \"old\": \"s [/m:a]\"\n    \x7d\n  ]\n\x7d\n") ∧
      ((leafCheck (some .json) false).run revisedLeaf true).failure = none) ∧
    (({ leafCheck none true with new := [] }.run revisedLeaf true).output = none ∧
      ({ leafCheck none true with new := [] }.run revisedLeaf true).failure ≠ none) := by
  refine ⟨?_, ?_, ?_⟩
  · obtain ⟨hfails, -, -, hprints⟩ := check_outcome (leafCheck none true) revisedLeaf true
    obtain ⟨c, hcompares, hcatalog⟩ := exists_compares_leafCheck none true
    obtain ⟨-, houtput, -⟩ := hprints _ _ _ hcompares
    rw [houtput, hfails, hcatalog]
    refine ⟨by decide +kernel, .inr ⟨_, _, _, hcompares, .inl rfl, ?_⟩⟩
    rw [hcatalog]
    exact ⟨unitsRemoved, by decide, rfl⟩
  · obtain ⟨hfails, -, -, hprints⟩ := check_outcome (leafCheck (some .json) false) revisedLeaf true
    obtain ⟨c, hcompares, hcatalog⟩ := exists_compares_leafCheck (some .json) false
    obtain ⟨-, houtput, -⟩ := hprints _ _ _ hcompares
    rw [houtput, hcatalog]
    refine ⟨by decide +kernel, ?_⟩
    by_contra hfailure
    rcases hfails.mp hfailure with hhindered | ⟨s, c', format, hcompares', hstrict, -⟩
    · exact hcompares.not_hindered hhindered
    · obtain rfl := hcompares'.completed.unique hcompares.completed
      rcases hstrict with hstrict | hstrict <;> cases hstrict
  · obtain ⟨hfails, hsilent, -⟩ :=
      check_outcome { leafCheck none true with new := [] } revisedLeaf true
    have hhindered : Hindered { leafCheck none true with new := [] } revisedLeaf :=
      .newFiles (by decide)
    exact ⟨hsilent hhindered, hfails.mpr (.inl hhindered)⟩

end CheckRequest

end Command

end YangEvolution
