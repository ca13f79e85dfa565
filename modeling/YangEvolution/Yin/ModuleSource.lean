import YangEvolution.Outcome.Except
import YangEvolution.Yin.Statement

/-!
Module documents: a module whose header is read and whose other statements are still as written.
-/

namespace YangEvolution.Yin

open Text Markup Outcome

structure Import where
  target : String
  nsPrefix : String
  revision : Option Revision
  deriving DecidableEq

structure ModuleSource where
  name : String
  uri : String
  nsPrefix : String
  /-- The newest of the revisions. -/
  revision : Option Revision
  revisions : List Revision
  imports : List Import
  root : Element
  /-- The directory that is searched first for imported modules. -/
  dir : Option PathName

def readRevision (owner date : String) : Except LoadFault Revision :=
  match Revision.read? date with
  | some r => .ok r
  | none => .error (.invalid owner "revision date" date)

/-- The value of a substatement that has to be there. -/
def required (owner statement : String) (value : Option String) : Except LoadFault String :=
  match value with
  | some v => .ok v
  | none => .error (.missingStatement owner statement)

def revisionOf (owner : String) (stmt : Element) : Except LoadFault Revision := do
  readRevision owner (← argument owner stmt "date")

/-- The revision that an import asks for, if it does. -/
def importedRevision (owner : String) (stmt : Element) : Except LoadFault (Option Revision) :=
  match stmt.childAttribute? "revision-date" "date" with
  | some date => some <$> readRevision owner date
  | none => .ok none

def importOf (owner : String) (stmt : Element) : Except LoadFault Import := do
  let target ← argument owner stmt "module"
  let nsPrefix ← required owner "prefix" (stmt.childAttribute? "prefix" "value")
  let revision ← importedRevision owner stmt
  .ok { target, nsPrefix, revision }

/-- The outermost element of a module document has to be a module. -/
def checkTag (origin : String) (root : Element) : Except LoadFault Unit :=
  if root.tag = "module" then .ok () else .error (.notModule origin root.tag)

namespace ModuleSource

/-- Reads the header of a module from its document, which comes from `origin`. -/
def ofElement (origin : String) (dir : Option PathName) (root : Element) :
    Except LoadFault ModuleSource := do
  checkTag origin root
  let name ← argument origin root "name"
  let uri ← required name "namespace" (root.childAttribute? "namespace" "uri")
  let nsPrefix ← required name "prefix" (root.childAttribute? "prefix" "value")
  let revisions ← (root.childrenOf "revision").mapM (revisionOf name)
  let imports ← (root.childrenOf "import").mapM (importOf name)
  .ok { name, uri, nsPrefix, revision := Revision.newest? revisions, revisions, imports, root, dir }

/-- The names of the modules that a document asks for. -/
def targets (root : Element) : List String :=
  (root.childrenOf "import").filterMap fun stmt => stmt.attribute? "module"

theorem target_mem_of_importOf {owner : String} {stmt : Element} {i : Import}
    (h : importOf owner stmt = .ok i) : stmt.attribute? "module" = some i.target := by
  unfold importOf at h
  obtain ⟨target, htarget, h⟩ := exists_of_bind_eq_ok h
  obtain ⟨_, _, h⟩ := exists_of_bind_eq_ok h
  obtain ⟨_, _, h⟩ := exists_of_bind_eq_ok h
  cases h
  unfold argument at htarget
  split at htarget
  · rename_i hvalue
    cases htarget
    exact hvalue
  · cases htarget

theorem target_mem_targets {origin : String} {dir : Option PathName} {root : Element}
    {m : ModuleSource} (h : ofElement origin dir root = .ok m) {i : Import} (hi : i ∈ m.imports) :
    i.target ∈ targets root := by
  unfold ofElement at h
  obtain ⟨_, _, h⟩ := exists_of_bind_eq_ok h
  obtain ⟨_, _, h⟩ := exists_of_bind_eq_ok h
  obtain ⟨_, _, h⟩ := exists_of_bind_eq_ok h
  obtain ⟨_, _, h⟩ := exists_of_bind_eq_ok h
  obtain ⟨_, _, h⟩ := exists_of_bind_eq_ok h
  obtain ⟨imports, himports, h⟩ := exists_of_bind_eq_ok h
  cases h
  obtain ⟨stmt, hstmt, hof⟩ := exists_of_mapM_eq_ok himports hi
  exact List.mem_filterMap.2 ⟨stmt, hstmt, target_mem_of_importOf hof⟩

/-- The name of the module that is imported under a prefix. -/
def imported? (m : ModuleSource) (given : String) : Option String :=
  (m.imports.find? fun i => i.nsPrefix == given).map Import.target

end ModuleSource

/-- Imported modules by the names under which they were asked for. -/
abbrev ModuleCache := List (String × ModuleSource)

end YangEvolution.Yin
