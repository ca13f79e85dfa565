import YangEvolution.Loading.ModuleFile
import YangEvolution.Markup.Document
import YangEvolution.Yin.ModuleSource

/-!
Loading what a module imports, directly and through other imports. A module that was loaded under
the name that is asked for is not loaded again, so that modules may import one another; there are
only as many names to ask for as the files of the tree and the first module contain.
-/

namespace YangEvolution.Loading

open Text Markup Yin Outcome

def readDocument (tree : FileTree) (path : PathName) : Except SourceFault Element :=
  match tree.read path with
  | .error fault => .error (.file fault)
  | .ok content => (Markup.parse content).mapError .document

/-- Reads the header of a module from a file. -/
def readSource (tree : FileTree) (path : PathName) : Except LoadFault ModuleSource := do
  let root ← (readDocument tree path).mapError (.unreadable path.text)
  ModuleSource.ofElement path.text path.parent? root

/-- An import of a module that was read from a directory. -/
structure Request where
  importer : String
  dir : Option PathName
  wanted : Import

namespace Request

def ofSource (m : ModuleSource) : List Request :=
  m.imports.map fun i => ⟨m.name, m.dir, i⟩

/-- The file of the wanted module: the directory of the importing module is searched first. -/
def locate? (tree : FileTree) (search : List PathName) (r : Request) : Option PathName :=
  (r.dir.toList ++ search).findSome? fun dir =>
    moduleFile? tree dir r.wanted.target r.wanted.revision

end Request

/-- The names that a document asks for. -/
def targetsIn (content : Bytes) : List String :=
  match Markup.parse content with
  | .ok root => ModuleSource.targets root
  | .error _ => []

/-- All names that can be asked for: the first ones and those in the files of the tree. -/
def reachable (tree : FileTree) (first : List String) : List String :=
  first ++ tree.root.contents.flatMap targetsIn

def isLoaded (cache : ModuleCache) (name : String) : Bool :=
  (cache.lookup name).isSome

/-- How many of the names are not loaded. -/
def missing (names : List String) (cache : ModuleCache) : Nat :=
  names.countP fun name => !isLoaded cache name

theorem exists_of_readDocument_eq_ok {tree : FileTree} {path : PathName} {root : Element}
    (h : readDocument tree path = .ok root) :
    ∃ content ∈ tree.root.contents, Markup.parse content = .ok root := by
  unfold readDocument at h
  split at h
  · cases h
  · rename_i content hread
    exact ⟨content, FileTree.read_mem_contents hread, mapError_eq_ok_iff.1 h⟩

theorem target_mem_reachable {tree : FileTree} {path : PathName} {m : ModuleSource}
    (h : readSource tree path = .ok m) (first : List String) {i : Import} (hi : i ∈ m.imports) :
    i.target ∈ reachable tree first := by
  obtain ⟨root, hroot, h⟩ := exists_of_bind_eq_ok h
  obtain ⟨content, hcontent, hparse⟩ :=
    exists_of_readDocument_eq_ok (mapError_eq_ok_iff.1 hroot)
  have htargets : i.target ∈ targetsIn content := by
    simpa [targetsIn, hparse] using ModuleSource.target_mem_targets h hi
  exact List.mem_append_right _ (List.mem_flatMap.2 ⟨content, hcontent, htargets⟩)

@[simp] theorem isLoaded_cons (name : String) (m : ModuleSource) (cache : ModuleCache)
    (n : String) : isLoaded ((name, m) :: cache) n = (n == name || isLoaded cache n) := by
  simp only [isLoaded, List.lookup_cons]
  cases n == name <;> simp

theorem missing_cons_le (names : List String) (cache : ModuleCache) (name : String)
    (m : ModuleSource) : missing names ((name, m) :: cache) ≤ missing names cache := by
  refine List.countP_mono_left fun n _ h => ?_
  simp only [isLoaded_cons, Bool.not_or, Bool.and_eq_true] at h
  exact h.2

theorem missing_cons_lt {names : List String} {cache : ModuleCache} {name : String}
    (m : ModuleSource) (hmem : name ∈ names) (hnew : isLoaded cache name = false) :
    missing names ((name, m) :: cache) < missing names cache := by
  induction names with
  | nil => cases hmem
  | cons n rest ih =>
    have hle := missing_cons_le rest cache name m
    unfold missing at ih hle ⊢
    rw [List.countP_cons, List.countP_cons]
    by_cases hn : n = name
    · subst hn
      simp only [isLoaded_cons, beq_self_eq_true, Bool.true_or, Bool.not_true, hnew,
        Bool.not_false, if_true] at hle ⊢
      exact Nat.lt_succ_of_le hle
    · have h := ih ((List.mem_cons.1 hmem).resolve_left fun h => hn h.symm)
      simp only [isLoaded_cons, beq_false_of_ne hn, Bool.false_or] at h ⊢
      exact Nat.add_lt_add_right h _

/-- Loads the modules of pending requests and of the requests in them, each before those that come
after it, and stops at the first fault. What was loaded until then is kept. -/
def loadImports (tree : FileTree) (search : List PathName) (first : List String)
    (cache : ModuleCache) (pending : List Request)
    (h : ∀ r ∈ pending, r.wanted.target ∈ reachable tree first) :
    Option LoadFault × ModuleCache :=
  match pending, h with
  | [], _ => (none, cache)
  | r :: rest, h =>
    if _loaded : isLoaded cache r.wanted.target then
      loadImports tree search first cache rest fun q hq => h q (List.mem_cons_of_mem _ hq)
    else
      match r.locate? tree search with
      | none => (some (.importNotFound r.importer r.wanted.target), cache)
      | some path =>
        match _read : readSource tree path with
        | .error fault => (some fault, cache)
        | .ok m =>
          loadImports tree search first ((r.wanted.target, m) :: cache)
            (Request.ofSource m ++ rest) fun q hq => by
              rcases List.mem_append.1 hq with hq | hq
              · obtain ⟨i, hi, rfl⟩ := List.mem_map.1 hq
                exact target_mem_reachable _read first hi
              · exact h q (List.mem_cons_of_mem _ hq)
termination_by (missing (reachable tree first) cache, pending.length)
decreasing_by
  · exact Prod.Lex.right _ (Nat.lt_succ_self _)
  · exact Prod.Lex.left _ _ (missing_cons_lt m (h r List.mem_cons_self) (by simpa using _loaded))

end YangEvolution.Loading
