import YangEvolution.Loading.Imports
import YangEvolution.Yin.Definition

/-!
Loaders: modules are loaded from files or from documents at hand, and what they import is kept for
later loads, also where a load fails.
-/

namespace YangEvolution.Loading

open Text Yin

structure Loader where
  search : List PathName
  cache : ModuleCache := []

namespace Loader

/-- Loads the imports of a module and resolves it. -/
def loadSource (loader : Loader) (tree : FileTree) (main : ModuleSource) :
    Except LoadFault Module × Loader :=
  let pending := Request.ofSource main
  let loaded := loadImports tree loader.search (pending.map fun r => r.wanted.target) loader.cache
    pending fun _ hr => List.mem_append_left _ (List.mem_map_of_mem hr)
  let result := match loaded.1 with
    | some fault => .error fault
    | none => Environment.module ⟨main, loaded.2⟩
  (result, { loader with cache := loaded.2 })

/-- Loads a module from a file. -/
def loadFile (loader : Loader) (tree : FileTree) (path : PathName) :
    Except LoadFault Module × Loader :=
  match readSource tree path with
  | .error fault => (.error fault, loader)
  | .ok main => loader.loadSource tree main

/-- Where documents at hand come from. -/
def memory : String := "<memory>"

/-- Reads the header of a module from a document at hand. -/
def sourceOf (content : Bytes) (dir : Option PathName) : Except LoadFault ModuleSource := do
  let root ← (Markup.parse content).mapError fun fault => .unreadable memory (.document fault)
  ModuleSource.ofElement memory dir root

/-- Loads a module from a document at hand; its imports are searched first in `dir`. -/
def loadDocument (loader : Loader) (tree : FileTree) (content : Bytes) (dir : Option PathName) :
    Except LoadFault Module × Loader :=
  match sourceOf content dir with
  | .error fault => (.error fault, loader)
  | .ok main => loader.loadSource tree main

end Loader

end YangEvolution.Loading
