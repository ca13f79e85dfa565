import YangEvolution.Proofs.ImportRun
import YangEvolution.Proofs.LoadedNodes

/-!
Loading the same module again. A module that was read counts as loaded before what it imports is,
also where that fails then. A fault inside an import is therefore not found a second time: the load
goes on after that import. Main statement: apart from that, a load that is done again comes to the
same, and it is also what leaves a loader with modules whose imports are not loaded.
-/

namespace YangEvolution.Loading

open Text Yin

variable {tree : FileTree} {search : List PathName} {cache cache' : ModuleCache}
  {pending : List Request} {looked : List LookUp} {fault : Option LoadFault}

/-! ### Runs over parts of the requests -/

theorem Loads.append {before rest : List Request} {looked₁ looked₂ : List LookUp}
    {mid : ModuleCache} (h₁ : Loads tree search cache before looked₁ none mid)
    (h₂ : Loads tree search mid rest looked₂ fault cache') :
    Loads tree search cache (before ++ rest) (looked₁ ++ looked₂) fault cache' := by
  generalize hnone : (none : Option LoadFault) = first at h₁
  induction h₁ with
  | done => exact h₂
  | skip hloaded _ ih => exact .skip hloaded (ih h₂ hnone)
  | notFound | unreadable => cases hnone
  | read hnew hlocate hread _ ih =>
      have hrest := ih h₂ hnone
      rw [List.append_assoc] at hrest
      exact .read hnew hlocate hread hrest

/-- What comes after a fault is not looked at. -/
theorem Loads.append_of_fault {f : LoadFault}
    (h : Loads tree search cache pending looked (some f) cache') (rest : List Request) :
    Loads tree search cache (pending ++ rest) looked (some f) cache' := by
  generalize hsome : some f = fault at h
  induction h with
  | done => cases hsome
  | skip hloaded _ ih => exact .skip hloaded (ih hsome)
  | notFound hnew hlocate => exact .notFound hnew hlocate
  | unreadable hnew hlocate hread => exact .unreadable hnew hlocate hread
  | read hnew hlocate hread _ ih =>
      have hrest := ih hsome
      rw [List.append_assoc] at hrest
      exact .read hnew hlocate hread hrest

theorem Loads.of_append {before rest : List Request}
    (h : Loads tree search cache (before ++ rest) looked fault cache') :
    (fault.isSome ∧ Loads tree search cache before looked fault cache') ∨
      ∃ looked₁ looked₂ mid, Loads tree search cache before looked₁ none mid ∧
        Loads tree search mid rest looked₂ fault cache' := by
  generalize hpending : before ++ rest = pending at h
  induction h generalizing before with
  | done cache =>
      obtain ⟨rfl, rfl⟩ := List.append_eq_nil_iff.mp hpending
      exact .inr ⟨[], [], cache, .done cache, .done cache⟩
  | @skip cache _ r others _ _ hloaded h ih =>
      cases before with
      | nil =>
          obtain rfl : rest = r :: others := hpending
          exact .inr ⟨[], _, cache, .done cache, .skip hloaded h⟩
      | cons q before =>
          obtain ⟨rfl, hrest⟩ := List.cons.inj hpending
          rcases ih hrest with ⟨hfault, hbefore⟩ | ⟨looked₁, looked₂, mid, hbefore, hafter⟩
          · exact .inl ⟨hfault, .skip hloaded hbefore⟩
          · exact .inr ⟨looked₁, looked₂, mid, .skip hloaded hbefore, hafter⟩
  | @notFound cache r others hnew hlocate =>
      cases before with
      | nil =>
          obtain rfl : rest = r :: others := hpending
          exact .inr ⟨[], _, cache, .done cache, .notFound hnew hlocate⟩
      | cons q before =>
          obtain ⟨rfl, -⟩ := List.cons.inj hpending
          exact .inl ⟨rfl, .notFound hnew hlocate⟩
  | @unreadable cache r others _ _ hnew hlocate hread =>
      cases before with
      | nil =>
          obtain rfl : rest = r :: others := hpending
          exact .inr ⟨[], _, cache, .done cache, .unreadable hnew hlocate hread⟩
      | cons q before =>
          obtain ⟨rfl, -⟩ := List.cons.inj hpending
          exact .inl ⟨rfl, .unreadable hnew hlocate hread⟩
  | @read cache _ r others path m _ _ hnew hlocate hread h ih =>
      cases before with
      | nil =>
          obtain rfl : rest = r :: others := hpending
          exact .inr ⟨[], _, cache, .done cache, .read hnew hlocate hread h⟩
      | cons q before =>
          obtain ⟨rfl, rfl⟩ := List.cons.inj hpending
          rcases ih (List.append_assoc _ _ _) with
            ⟨hfault, hbefore⟩ | ⟨looked₁, looked₂, mid, hbefore, hafter⟩
          · exact .inl ⟨hfault, .read hnew hlocate hread hbefore⟩
          · exact .inr ⟨_, looked₂, mid, .read hnew hlocate hread hbefore, hafter⟩

theorem Loads.append_of_loaded {before rest : List Request}
    (hbefore : ∀ r ∈ before, isLoaded cache r.wanted.target = true)
    (h : Loads tree search cache rest looked fault cache') :
    Loads tree search cache (before ++ rest) looked fault cache' := by
  induction before with
  | nil => exact h
  | cons r before ih =>
      obtain ⟨hr, hbefore⟩ := List.forall_mem_cons.mp hbefore
      exact .skip hr (ih hbefore)

/-! ### Where a run stops -/

/-- Why a request cannot be met, whatever else is loaded. -/
inductive Refused (tree : FileTree) (search : List PathName) (r : Request) : LoadFault → Prop where
  | notFound : r.locate? tree search = none →
      Refused tree search r (.importNotFound r.importer r.wanted.target)
  | unreadable {path : PathName} {f : LoadFault} : r.locate? tree search = some path →
      readSource tree path = .error f → Refused tree search r f

theorem Refused.loads {r : Request} {f : LoadFault} (h : Refused tree search r f)
    (hnew : isLoaded cache r.wanted.target = false) (rest : List Request) :
    ∃ looked, Loads tree search cache (r :: rest) looked (some f) cache := by
  cases h with
  | notFound hlocate => exact ⟨_, .notFound hnew hlocate⟩
  | unreadable hlocate hread => exact ⟨_, .unreadable hnew hlocate hread⟩

/-- The module that is requested is read, and then the loading of what it imports stops at a
fault. -/
inductive FailsInside (tree : FileTree) (search : List PathName) (cache : ModuleCache)
    (r : Request) (f : LoadFault) (cache' : ModuleCache) : Prop where
  | intro {path : PathName} {m : ModuleSource} {looked : List LookUp} :
      isLoaded cache r.wanted.target = false → r.locate? tree search = some path →
      readSource tree path = .ok m →
      Loads tree search ((r.wanted.target, m) :: cache) (Request.ofSource m) looked (some f)
        cache' →
      FailsInside tree search cache r f cache'

theorem FailsInside.loads {r : Request} {f : LoadFault}
    (h : FailsInside tree search cache r f cache') (rest : List Request) :
    ∃ looked, Loads tree search cache (r :: rest) looked (some f) cache' := by
  obtain ⟨hnew, hlocate, hread, hrun⟩ := h
  exact ⟨_, .read hnew hlocate hread (hrun.append_of_fault rest)⟩

theorem FailsInside.isLoaded {r : Request} {f : LoadFault}
    (h : FailsInside tree search cache r f cache') : isLoaded cache' r.wanted.target = true := by
  obtain ⟨-, -, -, hrun⟩ := h
  exact hrun.isLoaded_mono (by simp)

/-- A run that stops does so at the first request that is refused or that fails inside. -/
theorem Loads.stops {f : LoadFault}
    (h : Loads tree search cache pending looked (some f) cache') :
    ∃ before r rest looked' mid, pending = before ++ r :: rest ∧
      Loads tree search cache before looked' none mid ∧
      ((isLoaded mid r.wanted.target = false ∧ Refused tree search r f ∧ cache' = mid) ∨
        FailsInside tree search mid r f cache') := by
  induction pending generalizing cache looked with
  | nil => cases h
  | cons r rest ih =>
      cases h with
      | skip hloaded h =>
          obtain ⟨before, q, others, looked', mid, rfl, hbefore, hstop⟩ := ih h
          exact ⟨r :: before, q, others, looked', mid, rfl, .skip hloaded hbefore, hstop⟩
      | notFound hnew hlocate =>
          exact ⟨[], r, rest, [], cache', rfl, .done cache', .inl ⟨hnew, .notFound hlocate, rfl⟩⟩
      | unreadable hnew hlocate hread =>
          exact ⟨[], r, rest, [], cache', rfl, .done cache',
            .inl ⟨hnew, .unreadable hlocate hread, rfl⟩⟩
      | read hnew hlocate hread h =>
          rcases h.of_append with ⟨-, hinside⟩ | ⟨looked₁, looked₂, mid, hinside, hafter⟩
          · exact ⟨[], r, rest, [], cache, rfl, .done cache, .inr ⟨hnew, hlocate, hread, hinside⟩⟩
          · obtain ⟨before, q, others, looked', mid', rfl, hbefore, hstop⟩ := ih hafter
            exact ⟨r :: before, q, others, _, mid', rfl,
              .read hnew hlocate hread (hinside.append hbefore), hstop⟩

theorem Loads.mem_sources (h : Loads tree search cache pending looked fault cache')
    {s : ModuleSource} (hs : s ∈ cache.map Prod.snd) : s ∈ cache'.map Prod.snd := by
  induction h with
  | done | notFound | unreadable => exact hs
  | skip _ _ ih => exact ih hs
  | read _ _ _ _ ih => exact ih (List.mem_cons_of_mem _ hs)

/-- At a fault some name is not loaded that was requested or that a loaded module imports. -/
theorem Loads.exists_not_loaded (h : Loads tree search cache pending looked fault cache')
    (hfault : fault.isSome) :
    ∃ name, isLoaded cache' name = false ∧
      ((∃ r ∈ pending, r.wanted.target = name) ∨
        ∃ s ∈ cache'.map Prod.snd, ∃ i ∈ s.imports, i.target = name) := by
  induction h with
  | done => cases hfault
  | skip _ _ ih =>
      obtain ⟨name, hnew, ⟨r, hr, hname⟩ | himported⟩ := ih hfault
      · exact ⟨name, hnew, .inl ⟨r, List.mem_cons_of_mem _ hr, hname⟩⟩
      · exact ⟨name, hnew, .inr himported⟩
  | notFound hnew | unreadable hnew => exact ⟨_, hnew, .inl ⟨_, List.mem_cons_self, rfl⟩⟩
  | @read _ _ _ _ _ m _ _ _ _ _ h ih =>
      obtain ⟨name, hnew, ⟨r, hr, hname⟩ | himported⟩ := ih hfault
      · rcases List.mem_append.mp hr with hr | hr
        · obtain ⟨i, hi, rfl⟩ := List.mem_map.mp hr
          exact ⟨name, hnew, .inr ⟨m, h.mem_sources List.mem_cons_self, i, hi, hname⟩⟩
        · exact ⟨name, hnew, .inl ⟨r, List.mem_cons_of_mem _ hr, hname⟩⟩
      · exact ⟨name, hnew, .inr himported⟩

theorem FailsInside.not_whole {r : Request} {f : LoadFault}
    (h : FailsInside tree search cache r f cache') : ¬ Whole cache' := by
  obtain @⟨_, m, _, -, -, -, hrun⟩ := h
  intro hwhole
  obtain ⟨name, hnew, ⟨q, hq, rfl⟩ | ⟨s, hs, i, hi, rfl⟩⟩ := hrun.exists_not_loaded rfl
  · obtain ⟨i, hi, rfl⟩ := List.mem_map.mp hq
    have hloaded := hwhole m (hrun.mem_sources List.mem_cons_self) i hi
    simp [hnew] at hloaded
  · have hloaded := hwhole s hs i hi
    simp [hnew] at hloaded

/-! ### Loads -/

namespace Loader

/-- The load of a module stops inside one of its imports; `rest` are its imports after that one. -/
def StopsInside (loader : Loader) (tree : FileTree) (main : ModuleSource) (f : LoadFault)
    (rest : List Request) : Prop :=
  ∃ before r looked mid cache', Request.ofSource main = before ++ r :: rest ∧
    Loads tree loader.search loader.cache before looked none mid ∧
    FailsInside tree loader.search mid r f cache'

variable {loader : Loader} {main : ModuleSource}

/-- After a load that stopped inside an import, the next one goes on behind that import. -/
theorem loadSource_of_stopsInside {f : LoadFault} {rest : List Request}
    (h : loader.StopsInside tree main f rest) :
    (loader.loadSource tree main).1 = .error f ∧
      ¬ Whole (loader.loadSource tree main).2.cache ∧
      (loader.loadSource tree main).2.loadSource tree main =
        (loader.loadSource tree main).2.loadVia tree main rest := by
  obtain ⟨before, r, looked, mid, cache', hpending, hbefore, hinside⟩ := h
  obtain ⟨_, hstop⟩ := hinside.loads rest
  have hfirst := hbefore.append hstop
  rw [← hpending] at hfirst
  rw [loadSource_of_loads hfirst]
  refine ⟨rfl, hinside.not_whole, ?_⟩
  obtain ⟨looked', fault, last, hrest⟩ := exists_loads tree loader.search cache' rest
  have hloaded : ∀ q ∈ before ++ [r], isLoaded cache' q.wanted.target = true := by
    intro q hq
    rcases List.mem_append.mp hq with hq | hq
    · exact hstop.isLoaded_mono (hbefore.isLoaded_pending rfl q hq)
    · rw [List.mem_singleton.mp hq]
      exact hinside.isLoaded
  have hagain := hrest.append_of_loaded hloaded
  rw [List.append_assoc, List.singleton_append, ← hpending] at hagain
  exact (loadSource_of_loads hagain).trans (loadVia_of_loads hrest).symm

/-- A load that does not stop inside an import can be done again. -/
theorem loadSource_of_not_stopsInside (h : ∀ f rest, ¬ loader.StopsInside tree main f rest) :
    (loader.loadSource tree main).2.loadSource tree main = loader.loadSource tree main ∧
      (Whole loader.cache → Whole (loader.loadSource tree main).2.cache) := by
  obtain ⟨looked, fault, cache', hrun⟩ :=
    exists_loads tree loader.search loader.cache (Request.ofSource main)
  rw [loadSource_of_loads hrun]
  have hkeep : ∀ {pending looked mid}, Loads tree loader.search loader.cache pending looked none
      mid → Whole loader.cache → Whole mid := by
    intro pending looked mid hloads hwhole
    exact hloads.whole rfl fun s hs i hi => .inl (hwhole s hs i hi)
  cases fault with
  | none =>
      have hdone : Loads tree loader.search cache' [] [] none cache' := .done cache'
      have hagain := hdone.append_of_loaded (hrun.isLoaded_pending rfl)
      rw [List.append_nil] at hagain
      exact ⟨loadSource_of_loads hagain, hkeep hrun⟩
  | some f =>
      obtain ⟨before, r, rest, looked', mid, hpending, hbefore, hstop⟩ := hrun.stops
      rcases hstop with ⟨hnew, hrefused, rfl⟩ | hinside
      · obtain ⟨_, hrefused⟩ := hrefused.loads hnew rest
        have hagain := hrefused.append_of_loaded (hbefore.isLoaded_pending rfl)
        rw [← hpending] at hagain
        exact ⟨loadSource_of_loads hagain, hkeep hbefore⟩
      · exact absurd ⟨before, r, looked', mid, cache', hpending, hbefore, hinside⟩ (h f rest)

/-- A load that is done again has the same result exactly where it did not stop inside an import, or
where the imports behind that one lead to the same fault. Where it did not stop inside an import,
the loader is left as it is, too; and that is exactly when a loader in which all imports of loaded
modules are loaded remains one. -/
theorem load_again_iff (loader : Loader) (tree : FileTree) (origin : Origin) :
    (((loader.load tree origin).2.load tree origin).1 = (loader.load tree origin).1 ↔
      ∀ main, origin.header tree = .ok main → ∀ f rest, loader.StopsInside tree main f rest →
        ((loader.load tree origin).2.loadVia tree main rest).1 = .error f) ∧
    ((∀ main, origin.header tree = .ok main → ∀ f rest, ¬ loader.StopsInside tree main f rest) →
      (loader.load tree origin).2.load tree origin = loader.load tree origin) ∧
    (Whole loader.cache → (Whole (loader.load tree origin).2.cache ↔
      ∀ main, origin.header tree = .ok main →
        ∀ f rest, ¬ loader.StopsInside tree main f rest)) := by
  cases hheader : origin.header tree with
  | error f =>
      rw [load_of_header_error hheader, load_of_header_error hheader]
      simp
  | ok main =>
      simp only [load_of_header hheader, Except.ok.injEq, forall_eq']
      refine ⟨⟨?_, ?_⟩, fun h => (loadSource_of_not_stopsInside h).1,
        fun hwhole => ⟨?_, fun h => (loadSource_of_not_stopsInside h).2 hwhole⟩⟩
      · intro hsame f rest hstop
        obtain ⟨hfirst, -, hagain⟩ := loadSource_of_stopsInside hstop
        rw [← hagain, hsame, hfirst]
      · intro hrest
        by_cases hstop : ∃ f rest, loader.StopsInside tree main f rest
        · obtain ⟨f, rest, hstop⟩ := hstop
          obtain ⟨hfirst, -, hagain⟩ := loadSource_of_stopsInside hstop
          rw [hagain, hrest f rest hstop, hfirst]
        · simp only [not_exists] at hstop
          rw [(loadSource_of_not_stopsInside hstop).1]
      · intro hafter f rest hstop
        exact (loadSource_of_stopsInside hstop).2.1 hafter

/-! ### A module whose import has an import that is nowhere -/

/-- A module document with one import and nothing else. -/
def importing (name target : String) : Bytes :=
  ("<module name=\"" ++ name ++ "\"><namespace uri=\"urn:" ++ name ++ "\"/><prefix value=\"" ++
    name ++ "\"/><import module=\"" ++ target ++ "\"><prefix value=\"" ++ target ++
    "\"/></import></module>").toUTF8.toList

/-- A directory with a module `a` that imports `b`, which is not there. -/
def shelf : FileTree :=
  ⟨.directory [("d", .directory [("a.yin", .file (importing "a" "b"))])], ⟨"/"⟩⟩

/-- A new loader that searches the directory. -/
def fresh : Loader := ⟨[⟨"d"⟩], []⟩

/-- What is requested for a module that was read, if one was. -/
def requested (source : Except LoadFault ModuleSource) : List (String × Option PathName × Import) :=
  match source with
  | .error _ => []
  | .ok s => s.imports.map fun i => (s.name, s.dir, i)

theorem exists_of_requested {source : Except LoadFault ModuleSource} {name : String}
    {dir : Option PathName} {i : Import} (h : requested source = [(name, dir, i)]) :
    ∃ s, source = .ok s ∧ Request.ofSource s = [⟨name, dir, i⟩] := by
  cases source with
  | error f => cases h
  | ok s =>
      refine ⟨s, rfl, ?_⟩
      obtain ⟨j, hj, hof⟩ := List.map_eq_singleton_iff.mp h
      cases hof
      rw [Request.ofSource, hj]
      rfl

/-- Whether a module is resolved with one import. -/
def resolvesWith (name : String) (main imported : Except LoadFault ModuleSource) : Bool :=
  match main, imported with
  | .ok main, .ok m => (Environment.module ⟨main, [(name, m)]⟩).isOk
  | _, _ => false

theorem exists_of_resolvesWith {name : String} {m : ModuleSource}
    (h : resolvesWith name (.ok main) (.ok m) = true) :
    ∃ resolved, Environment.module ⟨main, [(name, m)]⟩ = .ok resolved := by
  unfold resolvesWith at h
  cases hmodule : Environment.module ⟨main, [(name, m)]⟩ with
  | error f => simp [hmodule, Except.isOk, Except.toBool] at h
  | ok resolved => exact ⟨resolved, rfl⟩

/-- The first load of a module that imports `a` finds that `b` is not there for `a`; the second one
does not, and succeeds. -/
theorem fault_inside_import_found_once :
    (fresh.load shelf (.document (importing "m" "a") none)).1 = .error (.importNotFound "a" "b") ∧
      ∃ m, ((fresh.load shelf (.document (importing "m" "a") none)).2.load shelf
        (.document (importing "m" "a") none)).1 = .ok m := by
  have hmain : requested (sourceOf (importing "m" "a") none) = [("m", none, ⟨"a", "a", none⟩)] := by
    decide +kernel
  have hread : requested (readSource shelf ⟨"d/a.yin"⟩) =
      [("a", some ⟨"d"⟩, ⟨"b", "b", none⟩)] := by
    decide +kernel
  have hresolved : resolvesWith "a" (sourceOf (importing "m" "a") none)
      (readSource shelf ⟨"d/a.yin"⟩) = true := by
    decide +kernel
  obtain ⟨main, hmain, hrequests⟩ := exists_of_requested hmain
  obtain ⟨a, hread, hneeds⟩ := exists_of_requested hread
  have hheader : (Origin.document (importing "m" "a") none).header shelf = .ok main := hmain
  have hinside : Loads shelf fresh.search [("a", a)] (Request.ofSource a ++ [])
      [⟨⟨"a", some ⟨"d"⟩, ⟨"b", "b", none⟩⟩, none⟩] (some (.importNotFound "a" "b"))
      [("a", a)] := by
    rw [hneeds]
    exact .notFound rfl (by decide +kernel)
  have hfirst : Loads shelf fresh.search fresh.cache (Request.ofSource main)
      [⟨⟨"m", none, ⟨"a", "a", none⟩⟩, some ⟨"d/a.yin"⟩⟩,
        ⟨⟨"a", some ⟨"d"⟩, ⟨"b", "b", none⟩⟩, none⟩] (some (.importNotFound "a" "b"))
      [("a", a)] := by
    rw [hrequests]
    exact .read rfl (by decide +kernel) hread hinside
  have hsecond : Loads shelf fresh.search [("a", a)] (Request.ofSource main) [] none
      [("a", a)] := by
    rw [hrequests]
    exact .skip rfl (.done _)
  rw [load_of_header hheader, loadSource_of_loads hfirst, load_of_header hheader,
    loadSource_of_loads hsecond]
  rw [hmain, hread] at hresolved
  exact ⟨rfl, exists_of_resolvesWith hresolved⟩

/-- A module that imports `b` itself has the same fault each time. -/
theorem load_again_iff_not_found :
    (∀ main, sourceOf (importing "m" "b") none = .ok main → ∀ f rest,
      ¬ fresh.StopsInside shelf main f rest) ∧
    (fresh.load shelf (.document (importing "m" "b") none)).2.load shelf
        (.document (importing "m" "b") none) =
      fresh.load shelf (.document (importing "m" "b") none) := by
  have hmain : requested (sourceOf (importing "m" "b") none) = [("m", none, ⟨"b", "b", none⟩)] := by
    decide +kernel
  obtain ⟨source, hsource, hrequests⟩ := exists_of_requested hmain
  have houtside : ∀ main, sourceOf (importing "m" "b") none = .ok main → ∀ f rest,
      ¬ fresh.StopsInside shelf main f rest := by
    rintro main hmain f rest ⟨before, r, _, _, _, hpending, -, @⟨_, _, _, -, hlocate, -, -⟩⟩
    cases hsource.symm.trans hmain
    rw [hrequests] at hpending
    have hr : r ∈ [(⟨"m", none, ⟨"b", "b", none⟩⟩ : Request)] := hpending ▸ by simp
    have hnowhere : Request.locate? shelf fresh.search ⟨"m", none, ⟨"b", "b", none⟩⟩ = none := by
      decide +kernel
    rw [List.mem_singleton.mp hr, hnowhere] at hlocate
    cases hlocate
  exact ⟨houtside, (load_again_iff fresh shelf (.document (importing "m" "b") none)).2.1 houtside⟩

end Loader

end YangEvolution.Loading
