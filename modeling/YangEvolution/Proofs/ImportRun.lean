import YangEvolution.Loading.Loader

/-!
Runs of the loading of imports, with every look-up of a module that they make. A look-up names the
request that it is made for and the file that it finds, which is then read. Main statement: from a
new loader there is exactly one run for every module, however the modules import one another; it
looks each name up at most once; and where it ends without a fault, everything that the modules
loaded for it import is loaded, so that each of their prefixes stands for a module.
-/

namespace YangEvolution.Loading

open Yin

/-- A look-up of a module. The file that is found is read, and read once. -/
structure LookUp where
  request : Request
  found : Option PathName

def LookUp.name (l : LookUp) : String :=
  l.request.wanted.target

/-- `Loads tree search cache pending looked fault cache'`: with the modules of `cache` loaded, the
loading of pending requests makes the look-ups `looked`, one after the other, and ends with `cache'`
loaded, at a fault if there is one. What a module imports is loaded before what was pending. -/
inductive Loads (tree : FileTree) (search : List PathName) :
    ModuleCache → List Request → List LookUp → Option LoadFault → ModuleCache → Prop where
  | done (cache : ModuleCache) : Loads tree search cache [] [] none cache
  | skip {cache cache' : ModuleCache} {r : Request} {rest : List Request} {looked : List LookUp}
      {fault : Option LoadFault} : isLoaded cache r.wanted.target = true →
      Loads tree search cache rest looked fault cache' →
      Loads tree search cache (r :: rest) looked fault cache'
  | notFound {cache : ModuleCache} {r : Request} {rest : List Request} :
      isLoaded cache r.wanted.target = false → r.locate? tree search = none →
      Loads tree search cache (r :: rest) [⟨r, none⟩]
        (some (.importNotFound r.importer r.wanted.target)) cache
  | unreadable {cache : ModuleCache} {r : Request} {rest : List Request} {path : PathName}
      {fault : LoadFault} : isLoaded cache r.wanted.target = false →
      r.locate? tree search = some path → readSource tree path = .error fault →
      Loads tree search cache (r :: rest) [⟨r, some path⟩] (some fault) cache
  | read {cache cache' : ModuleCache} {r : Request} {rest : List Request} {path : PathName}
      {m : ModuleSource} {looked : List LookUp} {fault : Option LoadFault} :
      isLoaded cache r.wanted.target = false → r.locate? tree search = some path →
      readSource tree path = .ok m →
      Loads tree search ((r.wanted.target, m) :: cache) (Request.ofSource m ++ rest) looked fault
        cache' →
      Loads tree search cache (r :: rest) (⟨r, some path⟩ :: looked) fault cache'

variable {tree : FileTree} {search : List PathName} {cache cache' : ModuleCache}
  {pending : List Request} {looked : List LookUp} {fault : Option LoadFault}

/-! ### There is exactly one run -/

theorem exists_loads_loadImports (tree : FileTree) (search : List PathName) (first : List String)
    (cache : ModuleCache) (pending : List Request)
    (h : ∀ r ∈ pending, r.wanted.target ∈ reachable tree first) :
    ∃ looked, Loads tree search cache pending looked
      (loadImports tree search first cache pending h).1
      (loadImports tree search first cache pending h).2 := by
  fun_induction loadImports tree search first cache pending h with
  | case1 cache => exact ⟨_, .done cache⟩
  | case2 cache r rest _ hloaded _ ih =>
      obtain ⟨looked, ih⟩ := ih
      exact ⟨looked, .skip hloaded ih⟩
  | case3 cache r rest _ hloaded hlocate => exact ⟨_, .notFound (by simpa using hloaded) hlocate⟩
  | case4 cache r rest _ hloaded path hlocate fault hread =>
      exact ⟨_, .unreadable (by simpa using hloaded) hlocate hread⟩
  | case5 cache r rest _ hloaded path hlocate m hread _ ih =>
      obtain ⟨looked, ih⟩ := ih
      exact ⟨_, .read (by simpa using hloaded) hlocate hread ih⟩

theorem Loads.unique {looked₁ looked₂ : List LookUp} {fault₁ fault₂ : Option LoadFault}
    {cache₁ cache₂ : ModuleCache} (h₁ : Loads tree search cache pending looked₁ fault₁ cache₁)
    (h₂ : Loads tree search cache pending looked₂ fault₂ cache₂) :
    looked₂ = looked₁ ∧ fault₂ = fault₁ ∧ cache₂ = cache₁ := by
  induction h₁ generalizing looked₂ with
  | done =>
      cases h₂
      exact ⟨rfl, rfl, rfl⟩
  | skip hloaded _ ih =>
      cases h₂ with
      | skip _ h => exact ih h
      | notFound hnew | unreadable hnew | read hnew => simp [hnew] at hloaded
  | notFound hnew hlocate =>
      cases h₂ with
      | skip hloaded => simp [hnew] at hloaded
      | notFound => exact ⟨rfl, rfl, rfl⟩
      | unreadable _ hlocate' | read _ hlocate' => simp [hlocate] at hlocate'
  | unreadable hnew hlocate hread =>
      cases h₂ with
      | skip hloaded => simp [hnew] at hloaded
      | notFound _ hlocate' => simp [hlocate] at hlocate'
      | unreadable _ hlocate' hread' =>
          cases hlocate.symm.trans hlocate'
          cases hread.symm.trans hread'
          exact ⟨rfl, rfl, rfl⟩
      | read _ hlocate' hread' =>
          cases hlocate.symm.trans hlocate'
          cases hread.symm.trans hread'
  | read hnew hlocate hread _ ih =>
      cases h₂ with
      | skip hloaded => simp [hnew] at hloaded
      | notFound _ hlocate' => simp [hlocate] at hlocate'
      | unreadable _ hlocate' hread' =>
          cases hlocate.symm.trans hlocate'
          cases hread.symm.trans hread'
      | read _ hlocate' hread' h =>
          cases hlocate.symm.trans hlocate'
          cases hread.symm.trans hread'
          obtain ⟨rfl, hrest⟩ := ih h
          exact ⟨rfl, hrest⟩

theorem exists_loads (tree : FileTree) (search : List PathName) (cache : ModuleCache)
    (pending : List Request) :
    ∃ looked fault cache', Loads tree search cache pending looked fault cache' := by
  have hfirst : ∀ r ∈ pending, r.wanted.target ∈
      reachable tree (pending.map fun r => r.wanted.target) :=
    fun r hr => List.mem_append_left _ (List.mem_map_of_mem hr)
  obtain ⟨looked, h⟩ := exists_loads_loadImports tree search _ cache pending hfirst
  exact ⟨looked, _, _, h⟩

/-- What a load comes to after the imports of the module are loaded, or are not for a fault. -/
def outcome (fault : Option LoadFault) (env : Environment) : Except LoadFault Module :=
  match fault with
  | some f => .error f
  | none => env.module

namespace Loader

/-- Loads what is requested for a module, and resolves it. -/
def loadVia (loader : Loader) (tree : FileTree) (main : ModuleSource) (pending : List Request) :
    Except LoadFault Module × Loader :=
  let loaded := loadImports tree loader.search (pending.map fun r => r.wanted.target) loader.cache
    pending fun _ hr => List.mem_append_left _ (List.mem_map_of_mem hr)
  (outcome loaded.1 ⟨main, loaded.2⟩, { loader with cache := loaded.2 })

theorem loadVia_of_loads {loader : Loader} {main : ModuleSource}
    (h : Loads tree loader.search loader.cache pending looked fault cache') :
    loader.loadVia tree main pending =
      (outcome fault ⟨main, cache'⟩, ⟨loader.search, cache'⟩) := by
  obtain ⟨_, hrun⟩ := exists_loads_loadImports tree loader.search
    (pending.map fun r => r.wanted.target) loader.cache pending
    fun _ hr => List.mem_append_left _ (List.mem_map_of_mem hr)
  obtain ⟨-, rfl, rfl⟩ := hrun.unique h
  rfl

theorem loadSource_of_loads {loader : Loader} {main : ModuleSource}
    (h : Loads tree loader.search loader.cache (Request.ofSource main) looked fault cache') :
    loader.loadSource tree main = (outcome fault ⟨main, cache'⟩, ⟨loader.search, cache'⟩) :=
  loadVia_of_loads h

end Loader

/-! ### What a run has loaded and looked up -/

theorem isLoaded_iff_mem_keys {name : String} :
    isLoaded cache name = true ↔ name ∈ cache.map Prod.fst := by
  induction cache with
  | nil => simp [isLoaded]
  | cons entry rest ih =>
      obtain ⟨key, m⟩ := entry
      rw [isLoaded_cons, Bool.or_eq_true, beq_iff_eq, ih, List.map_cons, List.mem_cons]

/-- Each look-up but one that ends in a fault adds the name that it is for. -/
theorem Loads.keys (h : Loads tree search cache pending looked fault cache') :
    ∃ stopped : List String, stopped.length = fault.toList.length ∧
      (looked.map LookUp.name).reverse ++ cache.map Prod.fst = stopped ++ cache'.map Prod.fst := by
  induction h with
  | done => exact ⟨[], rfl, rfl⟩
  | skip _ _ ih => exact ih
  | @notFound _ r | @unreadable _ r => exact ⟨[r.wanted.target], rfl, rfl⟩
  | read _ _ _ _ ih =>
      obtain ⟨stopped, hlength, hkeys⟩ := ih
      refine ⟨stopped, hlength, ?_⟩
      rw [← hkeys]
      simp [LookUp.name]

theorem Loads.keys_of_no_fault (h : Loads tree search cache pending looked none cache') :
    cache'.map Prod.fst = (looked.map LookUp.name).reverse ++ cache.map Prod.fst := by
  obtain ⟨stopped, hlength, hkeys⟩ := h.keys
  obtain rfl := List.length_eq_zero_iff.mp hlength
  exact hkeys.symm

theorem Loads.isLoaded_mono (h : Loads tree search cache pending looked fault cache')
    {name : String} (hname : isLoaded cache name = true) : isLoaded cache' name = true := by
  induction h with
  | done | notFound | unreadable => exact hname
  | skip _ _ ih => exact ih hname
  | read _ _ _ _ ih => exact ih (by simp [hname])

/-- A name is looked up only while it is not loaded, and it is loaded from then on. -/
theorem Loads.nodup_looked (h : Loads tree search cache pending looked fault cache') :
    (∀ l ∈ looked, isLoaded cache l.name = false) ∧ (looked.map LookUp.name).Nodup := by
  induction h with
  | done => simp
  | skip _ _ ih => exact ih
  | notFound hnew | unreadable hnew => simpa [LookUp.name] using hnew
  | @read cache _ r _ _ m looked _ hnew _ _ _ ih =>
      obtain ⟨hlater, hnodup⟩ := ih
      have hapart : ∀ l ∈ looked, l.name ≠ r.wanted.target ∧ isLoaded cache l.name = false := by
        intro l hl
        simpa using hlater l hl
      refine ⟨?_, ?_⟩
      · rintro l (_ | ⟨_, hl⟩)
        · exact hnew
        · exact (hapart l hl).2
      · rw [List.map_cons, List.nodup_cons]
        refine ⟨?_, hnodup⟩
        intro hmem
        obtain ⟨l, hl, hname⟩ := List.mem_map.mp hmem
        exact (hapart l hl).1 hname

/-! ### What the loaded modules import is loaded -/

/-- Whatever a loaded module imports is loaded or pending. -/
def Accounted (cache : ModuleCache) (pending : List Request) : Prop :=
  ∀ s ∈ cache.map Prod.snd, ∀ i ∈ s.imports,
    isLoaded cache i.target = true ∨ ∃ r ∈ pending, r.wanted.target = i.target

/-- Whatever a loaded module imports is loaded. -/
def Whole (cache : ModuleCache) : Prop :=
  ∀ s ∈ cache.map Prod.snd, ∀ i ∈ s.imports, isLoaded cache i.target = true

theorem accounted_nil_iff : Accounted cache [] ↔ Whole cache := by
  simp [Accounted, Whole]

theorem Accounted.skip {r : Request} {rest : List Request} (h : Accounted cache (r :: rest))
    (hr : isLoaded cache r.wanted.target = true) : Accounted cache rest := by
  intro s hs i hi
  rcases h s hs i hi with hloaded | ⟨q, hq, hname⟩
  · exact .inl hloaded
  · rcases List.mem_cons.mp hq with rfl | hq
    · exact .inl (hname ▸ hr)
    · exact .inr ⟨q, hq, hname⟩

/-- The imports of a module are pending once it is loaded. -/
theorem Accounted.read {r : Request} {rest : List Request} (h : Accounted cache (r :: rest))
    (m : ModuleSource) :
    Accounted ((r.wanted.target, m) :: cache) (Request.ofSource m ++ rest) := by
  intro s hs i hi
  rcases List.mem_cons.mp hs with hs | hs
  · obtain rfl : s = m := hs
    exact .inr ⟨⟨s.name, s.dir, i⟩, List.mem_append_left _ (List.mem_map_of_mem hi), rfl⟩
  · rcases h s hs i hi with hloaded | ⟨q, hq, hname⟩
    · exact .inl (by simp [hloaded])
    · rcases List.mem_cons.mp hq with rfl | hq
      · exact .inl (by simp [hname])
      · exact .inr ⟨q, List.mem_append_right _ hq, hname⟩

theorem Loads.whole (h : Loads tree search cache pending looked fault cache')
    (hnone : fault = none) (haccounted : Accounted cache pending) : Whole cache' := by
  induction h with
  | done => exact accounted_nil_iff.mp haccounted
  | skip hloaded _ ih => exact ih hnone (haccounted.skip hloaded)
  | notFound | unreadable => cases hnone
  | @read _ _ _ _ _ m _ _ _ _ _ _ ih => exact ih hnone (haccounted.read m)

theorem Loads.isLoaded_pending (h : Loads tree search cache pending looked fault cache')
    (hnone : fault = none) : ∀ r ∈ pending, isLoaded cache' r.wanted.target = true := by
  induction h with
  | done => simp
  | skip hloaded h ih =>
      rintro r (_ | ⟨_, hr⟩)
      · exact h.isLoaded_mono hloaded
      · exact ih hnone r hr
  | notFound | unreadable => cases hnone
  | read _ _ _ h ih =>
      rintro r (_ | ⟨_, hr⟩)
      · exact h.isLoaded_mono (by simp)
      · exact ih hnone r (List.mem_append_right _ hr)

/-- Each prefix that an import of a module binds stands for a module, where all imports of the
module are loaded. -/
theorem exists_moduleOfPrefix {env : Environment} {s : ModuleSource}
    (hloaded : ∀ i ∈ s.imports, isLoaded env.imports i.target = true) {i : Import}
    (hi : i ∈ s.imports) : ∃ m, env.moduleOfPrefix s i.nsPrefix = .ok m := by
  unfold Environment.moduleOfPrefix
  split
  · exact ⟨s, rfl⟩
  · -- the import that is found first for the prefix need not be `i`
    obtain ⟨j, hj⟩ : ∃ j, s.imports.find? (fun j => j.nsPrefix == i.nsPrefix) = some j :=
      Option.isSome_iff_exists.mp (List.find?_isSome.mpr ⟨i, hi, by simp⟩)
    have himported : s.imported? i.nsPrefix = some j.target := by
      simp [ModuleSource.imported?, hj]
    obtain ⟨m, hm⟩ : ∃ m, env.imports.lookup j.target = some m :=
      Option.isSome_iff_exists.mp (hloaded j (List.mem_of_find?_eq_some hj))
    simp only [himported, hm]
    split
    · exact ⟨env.main, rfl⟩
    · exact ⟨m, rfl⟩

/-- A new loader loads the imports of any module in one finite run, which looks each name up at most
once. If the run ends without a fault, the loaded modules are those that were looked up, and the
module and each of them has all its imports loaded and a module for each prefix of an import. -/
theorem imports_loaded_once_and_closed (tree : FileTree) (search : List PathName)
    (main : ModuleSource) :
    ∃ looked fault cache,
      Loads tree search [] (Request.ofSource main) looked fault cache ∧
      (∀ looked' fault' cache',
        Loads tree search [] (Request.ofSource main) looked' fault' cache' →
          looked' = looked ∧ fault' = fault ∧ cache' = cache) ∧
      Loader.loadSource ⟨search, []⟩ tree main =
        (outcome fault ⟨main, cache⟩, ⟨search, cache⟩) ∧
      (looked.map LookUp.name).Nodup ∧
      (fault = none →
        cache.map Prod.fst = (looked.map LookUp.name).reverse ∧
        ∀ s, s = main ∨ s ∈ cache.map Prod.snd → ∀ i ∈ s.imports,
          i.target ∈ cache.map Prod.fst ∧
            ∃ m, Environment.moduleOfPrefix ⟨main, cache⟩ s i.nsPrefix = .ok m) := by
  obtain ⟨looked, fault, cache, hrun⟩ := exists_loads tree search [] (Request.ofSource main)
  refine ⟨looked, fault, cache, hrun, fun _ _ _ h => hrun.unique h,
    Loader.loadSource_of_loads hrun, hrun.nodup_looked.2, ?_⟩
  rintro rfl
  have hwhole : Whole cache := hrun.whole rfl (by simp [Accounted])
  have hloaded : ∀ s, s = main ∨ s ∈ cache.map Prod.snd → ∀ i ∈ s.imports,
      isLoaded cache i.target = true := by
    rintro s (rfl | hs) i hi
    · exact hrun.isLoaded_pending rfl ⟨s.name, s.dir, i⟩ (List.mem_map_of_mem hi)
    · exact hwhole s hs i hi
  refine ⟨by simpa using hrun.keys_of_no_fault, fun s hs i hi => ⟨?_, ?_⟩⟩
  · exact isLoaded_iff_mem_keys.mp (hloaded s hs i hi)
  · exact exists_moduleOfPrefix (hloaded s hs) hi

end YangEvolution.Loading
