import YangEvolution.Yin.ModuleSource

/-!
Scopes: where a statement stands, and what the references in it mean. A prefixed reference leads
to the definitions at the top of another module; any other is looked up in the enclosing
statements, from the innermost on.
-/

namespace YangEvolution.Yin

open Text Markup

/-- The module that is being loaded and the modules that were loaded for it. -/
structure Environment where
  main : ModuleSource
  imports : ModuleCache

/-- The module that a statement is written in, and its enclosing statements from the innermost on.
-/
structure Scope where
  source : ModuleSource
  ancestors : List Element

namespace Scope

/-- The scope of the statements at the top of a module. -/
def top (source : ModuleSource) : Scope := ⟨source, [source.root]⟩

/-- The scope of the statements in `stmt`. -/
def enter (s : Scope) (stmt : Element) : Scope :=
  ⟨s.source, stmt :: s.ancestors⟩

/-- The module that faults are reported for. -/
def owner (s : Scope) : String :=
  s.source.name

end Scope

/-- The first definition of a name in a statement. -/
def findNamed? (parent : Element) (keyword name : String) : Option Element :=
  parent.children.find? fun c => c.tag == keyword && c.attribute? "name" == some name

/-- The innermost definition of a name, with the statements that enclose it. -/
def findEnclosed? (keyword name : String) : List Element → Option (Element × List Element)
  | [] => none
  | a :: rest =>
    match findNamed? a keyword name with
    | some stmt => some (stmt, a :: rest)
    | none => findEnclosed? keyword name rest

namespace Environment

/-- The module that a prefix stands for in a module. -/
def moduleOfPrefix (env : Environment) (source : ModuleSource) (given : String) :
    Except LoadFault ModuleSource :=
  if given = source.nsPrefix then .ok source
  else
    match source.imported? given with
    | none => .error (.unknownPrefix source.name given)
    | some name =>
      if name = env.main.name then .ok env.main
      else
        match env.imports.lookup name with
        | some m => .ok m
        | none => .error (.unknownPrefix source.name given)

/-- The module that a reference leads to, and the local name in it. -/
def splitOwner (env : Environment) (source : ModuleSource) (reference : String) :
    Except LoadFault (ModuleSource × String) :=
  match splitReference reference with
  | (some given, localName) => do .ok (← env.moduleOfPrefix source given, localName)
  | (none, localName) => .ok (source, localName)

/-- The qualified name that a reference stands for. -/
def qualify (env : Environment) (scope : Scope) (reference : String) : Except LoadFault QName := do
  let (m, localName) ← env.splitOwner scope.source reference
  .ok ⟨m.uri, m.revision, localName⟩

/-- The definition that a reference leads to, with the scope that it is in. -/
def findDefinition (env : Environment) (keyword : String) (scope : Scope) (reference : String) :
    Except LoadFault (Option (Element × Scope)) :=
  let enclosed (localName : String) : Option (Element × Scope) :=
    (findEnclosed? keyword localName scope.ancestors).map fun (stmt, ancestors) =>
      (stmt, ⟨scope.source, ancestors⟩)
  match splitReference reference with
  | (none, localName) => .ok (enclosed localName)
  | (some given, localName) =>
    if given = scope.source.nsPrefix then .ok (enclosed localName)
    else do
      let m ← env.moduleOfPrefix scope.source given
      .ok ((findNamed? m.root keyword localName).map fun stmt => (stmt, Scope.top m))

/-- The qualified name of a node, which belongs to the module that is being loaded wherever it was
written. -/
def nodeName (env : Environment) (localName : String) : QName :=
  ⟨env.main.uri, env.main.revision, localName⟩

end Environment

end YangEvolution.Yin
