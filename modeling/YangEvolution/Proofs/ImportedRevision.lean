import YangEvolution.Proofs.Address
import YangEvolution.Proofs.RepeatedLoad

/-!
The revisions that imports ask for. A module is looked up once in a load, for the first import of
its name that is met, and all other imports of the name lead to what was found then, whatever
revision they ask for. Main statement: the exact condition under which the prefix of an import leads
to the file of the revision that it asks for; where all imports of the name ask for this revision
from the same directory it does, and two imports in the other order show that it does not always.
-/

namespace YangEvolution

namespace Yin

/-- The prefix of an import stands for what it imports: it is not that of the module itself, and it
is not that of an import before. -/
structure ModuleSource.Binds (s : ModuleSource) (i : Import) : Prop where
  other : i.nsPrefix ≠ s.nsPrefix
  first : s.imports.find? (fun j => j.nsPrefix == i.nsPrefix) = some i

namespace Environment

/-- The module that is being loaded and those that were loaded for it. -/
def HasSource (env : Environment) (s : ModuleSource) : Prop :=
  s = env.main ∨ s ∈ env.imports.map Prod.snd

/-- Wherever it stands in a module, a reference with the prefix leads to a definition at the top of
`m`, if there is one of its name. -/
def ResolvesIn (env : Environment) (s : ModuleSource) (given : String) (m : ModuleSource) : Prop :=
  ∀ (scope : Scope) (keyword reference name : String), scope.source = s →
    splitReference reference = (some given, name) →
    env.findDefinition keyword scope reference =
      .ok ((findNamed? m.root keyword name).map fun stmt => (stmt, .top m))

theorem resolvesIn_of_moduleOfPrefix {env : Environment} {s m : ModuleSource} {given : String}
    (hgiven : given ≠ s.nsPrefix) (h : env.moduleOfPrefix s given = .ok m) :
    env.ResolvesIn s given m := by
  rintro scope keyword reference name rfl hsplit
  rw [findDefinition, hsplit]
  simp only [if_neg hgiven, h]
  rfl

/-- What an import binds its prefix to: the module that is being loaded, if it has the name, and
otherwise the one that was loaded under the name. -/
theorem moduleOfPrefix_of_binds {env : Environment} {s m : ModuleSource} {i : Import}
    (h : s.Binds i) :
    env.moduleOfPrefix s i.nsPrefix = .ok m ↔ env.source? (env.keyOf i.target) = some m := by
  have himported : s.imported? i.nsPrefix = some i.target := by
    rw [ModuleSource.imported?, h.first]
    rfl
  simp [moduleOfPrefix_eq_ok_iff h.other, himported]

end Environment

end Yin

namespace Loading

open Text Yin

/-! ### The file of a revision -/

variable {tree : FileTree} {search : List PathName} {cache cache' : ModuleCache}
  {pending : List Request} {looked : List LookUp} {fault : Option LoadFault}

/-- The file of the wanted revision is found first, if it is in the directory of the importing
module. -/
theorem locate?_of_isFile {q : Request} {dir : PathName} {r : Revision} (hdir : q.dir = some dir)
    (hrevision : q.wanted.revision = some r)
    (hfile : tree.isFile (revisionFile dir q.wanted.target r) = true) :
    q.locate? tree search = some (revisionFile dir q.wanted.target r) := by
  have hwanted : moduleFile? tree dir q.wanted.target (some r) =
      some (revisionFile dir q.wanted.target r) := by
    simp [moduleFile?, Option.filter_some, hfile]
  simp [Request.locate?, hdir, hrevision, hwanted]

/-! ### What the look-ups of a run have found -/

/-- A module that is loaded under a name stays so. -/
theorem Loads.lookup_of_cache (h : Loads tree search cache pending looked fault cache')
    {name : String} {m : ModuleSource} (hm : cache.lookup name = some m) :
    cache'.lookup name = some m := by
  induction h with
  | done | notFound | unreadable => exact hm
  | skip _ _ ih => exact ih hm
  | @read cache _ r _ _ _ _ _ hnew _ _ _ ih =>
      refine ih ?_
      have hne : (name == r.wanted.target) = false := by
        refine beq_eq_false_iff_ne.mpr fun heq => ?_
        rw [isLoaded, ← heq, hm] at hnew
        cases hnew
      rw [List.lookup_cons, hne]
      exact hm

/-- In a run without a fault, each look-up has found a file, and what was read from it is loaded
under the name. -/
theorem Loads.lookup_of_looked (h : Loads tree search cache pending looked fault cache')
    (hnone : fault = none) {l : LookUp} (hl : l ∈ looked) :
    ∃ path m, l.found = some path ∧ l.request.locate? tree search = some path ∧
      readSource tree path = .ok m ∧ cache'.lookup l.name = some m := by
  induction h with
  | done => cases hl
  | skip _ _ ih => exact ih hnone hl
  | notFound | unreadable => cases hnone
  | @read cache _ r _ path m _ _ _ hlocate hread h ih =>
      rcases List.mem_cons.mp hl with rfl | hl
      · exact ⟨path, m, rfl, hlocate, hread, h.lookup_of_cache (by simp [LookUp.name])⟩
      · exact ih hnone hl

/-- A look-up is for an import of a module that was loaded, or for one that was pending. -/
theorem Loads.request_origin (h : Loads tree search cache pending looked fault cache')
    {l : LookUp} (hl : l ∈ looked) :
    l.request ∈ pending ∨ ∃ s ∈ cache'.map Prod.snd, l.request ∈ Request.ofSource s := by
  induction h with
  | done => cases hl
  | skip _ _ ih => exact (ih hl).imp_left (List.mem_cons_of_mem _)
  | notFound | unreadable =>
      obtain rfl := List.mem_singleton.mp hl
      exact .inl List.mem_cons_self
  | @read _ _ _ _ _ m _ _ _ _ _ h ih =>
      rcases List.mem_cons.mp hl with rfl | hl
      · exact .inl List.mem_cons_self
      · rcases ih hl with hpending | hloaded
        · rcases List.mem_append.mp hpending with hm | hrest
          · exact .inr ⟨m, h.mem_sources List.mem_cons_self, hm⟩
          · exact .inl (List.mem_cons_of_mem _ hrest)
        · exact .inr hloaded

/-! ### Imports that are honoured -/

/-- An import asks for a revision, and the file of the revision is in the directory of the importing
module. -/
structure AsksFor (tree : FileTree) (s : ModuleSource) (i : Import) (path : PathName) : Prop where
  binds : s.Binds i
  named : ∃ dir r, s.dir = some dir ∧ i.revision = some r ∧ path = revisionFile dir i.target r
  isFile : tree.isFile path = true

/-- Any request for the same revision from the same directory leads to the file. -/
theorem AsksFor.locate?_eq {s s' : ModuleSource} {i j : Import} {path : PathName}
    (h : AsksFor tree s i path) (htarget : j.target = i.target) (hdir : s'.dir = s.dir)
    (hrevision : j.revision = i.revision) :
    Request.locate? tree search ⟨s'.name, s'.dir, j⟩ = some path := by
  obtain ⟨-, ⟨dir, r, hsdir, hsrevision, rfl⟩, hfile⟩ := h
  rw [← htarget] at hfile ⊢
  exact locate?_of_isFile (hdir.trans hsdir) (hrevision.trans hsrevision) hfile

/-- The prefix of an import leads to the module that is read from a file. -/
def Honoured (tree : FileTree) (env : Environment) (s : ModuleSource) (i : Import)
    (path : PathName) : Prop :=
  ∃ m, readSource tree path = .ok m ∧ env.moduleOfPrefix s i.nsPrefix = .ok m ∧
    env.ResolvesIn s i.nsPrefix m

variable {main : ModuleSource}

/-- The imports of the module and of all modules loaded for it are loaded, each by the look-up that
was made for its name. -/
theorem Loads.exists_looked (h : Loads tree search [] (Request.ofSource main) looked none cache)
    {s : ModuleSource} (hs : Environment.HasSource ⟨main, cache⟩ s) {i : Import}
    (hi : i ∈ s.imports) :
    ∃ l ∈ looked, l.name = i.target ∧
      ∃ s', Environment.HasSource ⟨main, cache⟩ s' ∧ l.request ∈ Request.ofSource s' := by
  have hloaded : isLoaded cache i.target = true := by
    rcases hs with rfl | hs
    · exact h.isLoaded_pending rfl ⟨s.name, s.dir, i⟩ (List.mem_map_of_mem hi)
    · exact h.whole rfl (by simp [Accounted]) s hs i hi
  rw [isLoaded_iff_mem_keys, h.keys_of_no_fault] at hloaded
  obtain ⟨l, hl, hname⟩ : ∃ l ∈ looked, l.name = i.target := by
    simpa using hloaded
  refine ⟨l, hl, hname, ?_⟩
  rcases h.request_origin hl with hmain | ⟨s', hs', hrequest⟩
  · exact ⟨main, .inl rfl, hmain⟩
  · exact ⟨s', .inr hs', hrequest⟩

theorem honoured_iff {env : Environment} {s : ModuleSource} {i : Import} (hbinds : s.Binds i)
    {path : PathName} :
    Honoured tree env s i path ↔
      ∃ m, readSource tree path = .ok m ∧ env.source? (env.keyOf i.target) = some m := by
  constructor
  · rintro ⟨m, hread, hmodule, -⟩
    exact ⟨m, hread, (Environment.moduleOfPrefix_of_binds hbinds).mp hmodule⟩
  · rintro ⟨m, hread, hsource⟩
    have hmodule := (Environment.moduleOfPrefix_of_binds hbinds).mpr hsource
    exact ⟨m, hread, hmodule, Environment.resolvesIn_of_moduleOfPrefix hbinds.other hmodule⟩

/-- The file that was found at the look-up of a name decides for all imports of the name, but for
the name of the module that is being loaded. -/
theorem Loads.honoured_iff_looked
    (h : Loads tree search [] (Request.ofSource main) looked none cache) {s : ModuleSource}
    {i : Import} (hbinds : s.Binds i) {l : LookUp} (hl : l ∈ looked) (hname : l.name = i.target)
    {path : PathName} :
    Honoured tree ⟨main, cache⟩ s i path ↔
      (i.target = main.name ∧ readSource tree path = .ok main) ∨
      (i.target ≠ main.name ∧ ∃ found, l.found = some found ∧
        readSource tree found = readSource tree path) := by
  obtain ⟨found, m, hfound, -, hread, hlookup⟩ := h.lookup_of_looked rfl hl
  rw [hname] at hlookup
  rw [honoured_iff hbinds]
  by_cases hmain : i.target = main.name
  · simp [Environment.keyOf, Environment.source?, hmain]
  · simp [Environment.keyOf, Environment.source?, hmain, hlookup, hfound, hread, eq_comm]

namespace Loader

variable {loader after : Loader} {origin : Origin} {m : Module}

theorem exists_loads_of_load (h : loader.load tree origin = (.ok m, after)) :
    ∃ main looked, origin.header tree = .ok main ∧
      Loads tree loader.search loader.cache (Request.ofSource main) looked none after.cache := by
  obtain ⟨main, hmain⟩ := exists_header_of_load h
  obtain ⟨looked, fault, cache', hrun⟩ :=
    exists_loads tree loader.search loader.cache (Request.ofSource main)
  rw [load_of_header hmain, loadSource_of_loads hrun] at h
  obtain ⟨hresult, rfl⟩ := Prod.mk.inj h
  cases fault with
  | none => exact ⟨main, looked, hmain, hrun⟩
  | some f => cases hresult

theorem load_of_loads (hheader : origin.header tree = .ok main)
    (hrun : Loads tree loader.search loader.cache (Request.ofSource main) looked none cache')
    (hm : Environment.module ⟨main, cache'⟩ = .ok m) :
    loader.load tree origin = (.ok m, ⟨loader.search, cache'⟩) := by
  rw [load_of_header hheader, loadSource_of_loads hrun, outcome, hm]

/-- A module is loaded with a new loader. The prefix of an import that asks for a revision leads to
the file of the revision exactly when this file reads the same as the one that was found at the only
look-up of the imported name; an import of the name of the module itself leads to the module itself.
Where all imports of the name ask for the same revision from the same directory, the prefix leads to
the file of the revision. -/
theorem imported_revision_iff {search : List PathName}
    (h : load ⟨search, []⟩ tree origin = (.ok m, after)) :
    ∃ main looked, origin.header tree = .ok main ∧
      Loads tree search [] (Request.ofSource main) looked none after.cache ∧
      ∀ s i path, Environment.HasSource ⟨main, after.cache⟩ s → AsksFor tree s i path →
        (Honoured tree ⟨main, after.cache⟩ s i path ↔
          (i.target = main.name ∧ readSource tree path = .ok main) ∨
          (i.target ≠ main.name ∧ ∃ l ∈ looked, l.name = i.target ∧
            ∃ found, l.found = some found ∧ readSource tree found = readSource tree path)) ∧
        (i.target ≠ main.name →
          (∀ s' j, Environment.HasSource ⟨main, after.cache⟩ s' → j ∈ s'.imports →
            j.target = i.target → s'.dir = s.dir ∧ j.revision = i.revision) →
          Honoured tree ⟨main, after.cache⟩ s i path) := by
  obtain ⟨main, looked, hmain, hrun⟩ := exists_loads_of_load h
  refine ⟨main, looked, hmain, hrun, fun s i path hs hasks => ?_⟩
  have hi : i ∈ s.imports := List.mem_of_find?_eq_some hasks.binds.first
  obtain ⟨l, hl, hname, s', hs', hrequest⟩ := hrun.exists_looked hs hi
  refine ⟨⟨fun hhonoured => ?_, ?_⟩, fun hother hsame => ?_⟩
  · refine ((hrun.honoured_iff_looked hasks.binds hl hname).mp hhonoured).imp_right ?_
    rintro ⟨hother, hfound⟩
    exact ⟨hother, l, hl, hname, hfound⟩
  · rintro (hself | ⟨hother, l, hl, hname, hfound⟩)
    · exact (hrun.honoured_iff_looked hasks.binds hl hname).mpr (.inl hself)
    · exact (hrun.honoured_iff_looked hasks.binds hl hname).mpr (.inr ⟨hother, hfound⟩)
  · -- the request that was looked up comes from one of the imports of the name
    obtain ⟨j, hj, hrequest⟩ := List.mem_map.mp hrequest
    have htarget : j.target = i.target := by
      rw [← hname, LookUp.name, ← hrequest]
    obtain ⟨hdir, hrevision⟩ := hsame s' j hs' hj htarget
    obtain ⟨found, -, hfound, hlocated, -, -⟩ := hrun.lookup_of_looked rfl hl
    rw [← hrequest, hasks.locate?_eq htarget hdir hrevision] at hlocated
    refine (hrun.honoured_iff_looked hasks.binds hl hname).mpr (.inr ⟨hother, found, hfound, ?_⟩)
    rw [Option.some.inj hlocated]

/-! ### Two imports that ask for different revisions -/

/-- A module with one typedef. -/
def codes (revision base : String) : Bytes :=
  ("<module name=\"types\"><namespace uri=\"u\"/><prefix value=\"types\"/>" ++ revision ++
    "<typedef name=\"code\"><type name=\"" ++ base ++ "\"/></typedef></module>").toUTF8.toList

/-- A directory with two files of `types`, one of them of a revision, and with a module `lines` that
imports `types` without asking for one. -/
def depot : FileTree :=
  ⟨.directory [("d", .directory [("lines.yin", .file (importing "lines" "types")),
    ("types.yin", .file (codes "" "string")),
    ("types@2020-01-01.yin", .file (codes "<revision date=\"2020-01-01\"/>" "int8"))])], ⟨"/"⟩⟩

def importLines : String :=
  "<import module=\"lines\"><prefix value=\"lines\"/></import>"

def importTypes : String :=
  "<import module=\"types\"><prefix value=\"types\"/><revision-date date=\"2020-01-01\"/></import>"

/-- A module with two imports, and a leaf of the type of `types`. -/
def tickets (first second : String) : Bytes :=
  ("<module name=\"tickets\"><namespace uri=\"t\"/><prefix value=\"tickets\"/>" ++ first ++
    second ++ "<leaf name=\"id\"><type name=\"types:code\"/></leaf></module>").toUTF8.toList

/-- All of a module but its statements that the loading of imports depends on. -/
structure Headline where
  name : String
  nsPrefix : String
  revision : Option Revision
  imports : List Import
  dir : Option PathName
  deriving DecidableEq

def headline (s : ModuleSource) : Headline :=
  ⟨s.name, s.nsPrefix, s.revision, s.imports, s.dir⟩

theorem ofSource_of_headline {s : ModuleSource} {line : Headline} (h : headline s = line) :
    Request.ofSource s = line.imports.map fun i => ⟨line.name, line.dir, i⟩ := by
  rw [← h]
  rfl

/-- The built-in type behind the type of the first leaf of a module. -/
def firstBase? (m : Module) : Option String := do
  let type ← (← m.children.head?).data.type
  let base ← type.base
  some base.qname.localName

/-- The headlines of a module and of two modules that it is resolved with, and the built-in type
behind the type of its first leaf then. -/
def resolvedWith? (main m m' : Except LoadFault ModuleSource) : Option (List Headline × String) :=
  match main, m, m' with
  | .ok main, .ok m, .ok m' =>
      match Environment.module ⟨main, [(m.name, m), (m'.name, m')]⟩ with
      | .ok resolved => (firstBase? resolved).map ([headline main, headline m, headline m'], ·)
      | .error _ => none
  | _, _, _ => none

theorem exists_of_resolvedWith? {main m m' : Except LoadFault ModuleSource}
    {line line₁ line₂ : Headline} {base : String}
    (h : resolvedWith? main m m' = some ([line, line₁, line₂], base)) :
    ∃ s s₁ s₂ resolved, main = .ok s ∧ m = .ok s₁ ∧ m' = .ok s₂ ∧
      headline s = line ∧ headline s₁ = line₁ ∧ headline s₂ = line₂ ∧
      Environment.module ⟨s, [(line₁.name, s₁), (line₂.name, s₂)]⟩ = .ok resolved ∧
      firstBase? resolved = some base := by
  unfold resolvedWith? at h
  split at h
  · rename_i s s₁ s₂
    split at h
    · rename_i resolved hresolved
      obtain ⟨found, hbase, heq⟩ := Option.map_eq_some_iff.mp h
      cases heq
      exact ⟨s, s₁, s₂, resolved, rfl, rfl, rfl, rfl, rfl, rfl, hresolved, hbase⟩
    · cases h
  · cases h

/-- The import of `types` that asks for a revision. -/
def datedTypes : Import :=
  ⟨"types", "types", Revision.ofParts? 2020 1 1⟩

def ticketsLine (imports : List Import) : Headline :=
  ⟨"tickets", "tickets", none, imports, some ⟨"d"⟩⟩

def linesLine : Headline :=
  ⟨"lines", "lines", none, [⟨"types", "types", none⟩], some ⟨"d"⟩⟩

def typesLine (revision : Option Revision) : Headline :=
  ⟨"types", "types", revision, [], some ⟨"d"⟩⟩

/-- Whichever import is first, that of `types` asks for the revision that there is a file of, and it
is not an import of the module itself. -/
theorem asksFor_datedTypes {main : ModuleSource} {imports : List Import}
    (hline : headline main = ticketsLine imports)
    (hfirst : imports.find? (fun j => j.nsPrefix == "types") = some datedTypes) :
    AsksFor depot main datedTypes ⟨"d/types@2020-01-01.yin"⟩ ∧ datedTypes.target ≠ main.name := by
  have hname : main.name = "tickets" := congrArg Headline.name hline
  have hown : main.nsPrefix = "tickets" := congrArg Headline.nsPrefix hline
  have himports : main.imports = imports := congrArg Headline.imports hline
  have hdir : main.dir = some ⟨"d"⟩ := congrArg Headline.dir hline
  refine ⟨⟨⟨?_, ?_⟩, ⟨⟨"d"⟩, ⟨2020, 1, 1, by decide, by decide⟩, hdir, rfl, by decide +kernel⟩,
    by decide +kernel⟩, ?_⟩
  · rw [hown]
    decide
  · rw [himports]
    exact hfirst
  · rw [hname]
    decide

/-- With the import of `types` first, its prefix leads to the file of the revision. -/
theorem imported_revision_iff_types_first :
    ∃ m after main,
      load ⟨[], []⟩ depot (.document (tickets importTypes importLines) (some ⟨"d"⟩)) =
        (.ok m, after) ∧
      AsksFor depot main datedTypes ⟨"d/types@2020-01-01.yin"⟩ ∧
      Honoured depot ⟨main, after.cache⟩ main datedTypes ⟨"d/types@2020-01-01.yin"⟩ ∧
      firstBase? m = some "int8" := by
  have hread : resolvedWith? (sourceOf (tickets importTypes importLines) (some ⟨"d"⟩))
      (readSource depot ⟨"d/lines.yin"⟩) (readSource depot ⟨"d/types@2020-01-01.yin"⟩) =
        some ([ticketsLine [datedTypes, ⟨"lines", "lines", none⟩], linesLine,
          typesLine (Revision.ofParts? 2020 1 1)], "int8") := by
    decide +kernel
  obtain ⟨main, lines, dated, m, hmain, hlines, hdated, hline, hlinesLine, hdatedLine, hm, hbase⟩ :=
    exists_of_resolvedWith? hread
  have hrun : Loads depot [] [] (Request.ofSource main)
      [⟨⟨"tickets", some ⟨"d"⟩, datedTypes⟩, some ⟨"d/types@2020-01-01.yin"⟩⟩,
        ⟨⟨"tickets", some ⟨"d"⟩, ⟨"lines", "lines", none⟩⟩, some ⟨"d/lines.yin"⟩⟩] none
      [("lines", lines), ("types", dated)] := by
    rw [ofSource_of_headline hline]
    refine .read rfl (by decide +kernel) hdated ?_
    rw [ofSource_of_headline hdatedLine]
    refine .read rfl (by decide +kernel) hlines ?_
    rw [ofSource_of_headline hlinesLine]
    exact .skip rfl (.done _)
  have hheader : (Origin.document (tickets importTypes importLines) (some ⟨"d"⟩)).header depot =
      .ok main := hmain
  have hload : load ⟨[], []⟩ depot (.document (tickets importTypes importLines) (some ⟨"d"⟩)) =
      (.ok m, ⟨[], [("lines", lines), ("types", dated)]⟩) := load_of_loads hheader hrun hm
  obtain ⟨hasks, hother⟩ := asksFor_datedTypes hline (by decide +kernel)
  obtain ⟨main', looked, hheader', hrun', hiff⟩ := imported_revision_iff hload
  cases hheader.symm.trans hheader'
  obtain ⟨rfl, -, -⟩ := hrun'.unique hrun
  have hhonoured := (hiff main _ _ (.inl rfl) hasks).1.mpr
    (.inr ⟨hother, _, List.mem_cons_self, rfl, _, rfl, rfl⟩)
  exact ⟨m, _, main, hload, hasks, hhonoured, hbase⟩

/-- With the import of `lines` first, the prefix of the import of `types` leads to the file without
a date, though this import asks for the revision, and the leaf has another type. -/
theorem import_order_decides_revision :
    ∃ m after main,
      load ⟨[], []⟩ depot (.document (tickets importLines importTypes) (some ⟨"d"⟩)) =
        (.ok m, after) ∧
      AsksFor depot main datedTypes ⟨"d/types@2020-01-01.yin"⟩ ∧
      ¬ Honoured depot ⟨main, after.cache⟩ main datedTypes ⟨"d/types@2020-01-01.yin"⟩ ∧
      Honoured depot ⟨main, after.cache⟩ main datedTypes ⟨"d/types.yin"⟩ ∧
      firstBase? m = some "string" := by
  have hread : resolvedWith? (sourceOf (tickets importLines importTypes) (some ⟨"d"⟩))
      (readSource depot ⟨"d/types.yin"⟩) (readSource depot ⟨"d/lines.yin"⟩) =
        some ([ticketsLine [⟨"lines", "lines", none⟩, datedTypes], typesLine none, linesLine],
          "string") := by
    decide +kernel
  have hdated : (readSource depot ⟨"d/types@2020-01-01.yin"⟩).toOption.map headline =
      some (typesLine (Revision.ofParts? 2020 1 1)) := by
    decide +kernel
  obtain ⟨main, plain, lines, m, hmain, hplain, hlines, hline, hplainLine, hlinesLine, hm, hbase⟩ :=
    exists_of_resolvedWith? hread
  have hrun : Loads depot [] [] (Request.ofSource main)
      [⟨⟨"tickets", some ⟨"d"⟩, ⟨"lines", "lines", none⟩⟩, some ⟨"d/lines.yin"⟩⟩,
        ⟨⟨"lines", some ⟨"d"⟩, ⟨"types", "types", none⟩⟩, some ⟨"d/types.yin"⟩⟩] none
      [("types", plain), ("lines", lines)] := by
    rw [ofSource_of_headline hline]
    refine .read rfl (by decide +kernel) hlines ?_
    rw [ofSource_of_headline hlinesLine]
    refine .read rfl (by decide +kernel) hplain ?_
    rw [ofSource_of_headline hplainLine]
    exact .skip rfl (.done _)
  have hload : load ⟨[], []⟩ depot (.document (tickets importLines importTypes) (some ⟨"d"⟩)) =
      (.ok m, ⟨[], [("types", plain), ("lines", lines)]⟩) := load_of_loads hmain hrun hm
  obtain ⟨hasks, hother⟩ := asksFor_datedTypes hline (by decide +kernel)
  have hiff (path : PathName) :
      Honoured depot ⟨main, [("types", plain), ("lines", lines)]⟩ main datedTypes path ↔
        readSource depot ⟨"d/types.yin"⟩ = readSource depot path := by
    rw [hrun.honoured_iff_looked hasks.binds (List.mem_cons_of_mem _ List.mem_cons_self) rfl]
    simp [hother]
  refine ⟨m, _, main, hload, hasks, fun hhonoured => ?_, (hiff _).mpr rfl, hbase⟩
  -- the two files differ in their revision
  rw [← (hiff _).mp hhonoured, hplain] at hdated
  cases hplainLine.symm.trans (Option.some.inj hdated)

end Loader

end Loading

end YangEvolution
