import YangEvolution.Schema.Module
import YangEvolution.Yin.NodeStatement

/-!
The definitions of a module and the module that they make up. Of several faults the first is found:
those of the data tree first, then those of the other definitions in the order in which they are
written.
-/

namespace YangEvolution.Yin

open Text Markup

/-- A definition at the top of a module, other than a data node. -/
inductive Definition where
  | rpc (node : SchemaNode)
  | augmentation (augmentation : Augmentation)
  | typedef (type : TypeDef)
  | identity (identity : Identity)

namespace Definition

def rpc? : Definition → Option SchemaNode
  | .rpc node => some node
  | _ => none

def augmentation? : Definition → Option Augmentation
  | .augmentation a => some a
  | _ => none

def typedef? : Definition → Option TypeDef
  | .typedef t => some t
  | _ => none

def identity? : Definition → Option Identity
  | .identity i => some i
  | _ => none

end Definition

def targetSegment (env : Environment) (scope : Scope) (step : String) :
    Except LoadFault Segment := do
  let (m, localName) ← env.splitOwner scope.source step
  .ok ⟨m.name, localName⟩

/-- What an augmentation adds below the input or output of an operation is neither configuration
nor state data. -/
def augmentedConfig (target : SchemaPath) : Option Bool :=
  if target.localNames.any fun s => s == "input" || s == "output" then none else some true

def augmentationOf (env : Environment) (scope : Scope) (stmt : Element) :
    Except LoadFault Augmentation := do
  let raw ← argument scope.owner stmt "target-node"
  let target : SchemaPath := ⟨← (pathSteps raw).mapM (targetSegment env scope)⟩
  let children ← nodesVia env (.upTo env maxDepth) (scope.enter stmt) (augmentedConfig target)
    stmt.children
  let status ← statusOf scope.owner stmt
  .ok { target, when := whenOf stmt, status, children }

def identityOf (env : Environment) (scope : Scope) (stmt : Element) :
    Except LoadFault Identity := do
  let name ← argument scope.owner stmt "name"
  let bases ← baseIdentities env scope stmt
  let status ← statusOf scope.owner stmt
  .ok {
    qname := env.nodeName name
    bases
    status
    description := descriptionOf stmt
    reference := referenceOf stmt }

/-- The definition of a statement at the top of a module, if it is one. A typedef at the top counts
as one that is followed. -/
def definitionOf? (env : Environment) (scope : Scope) (stmt : Element) :
    Except LoadFault (Option Definition) :=
  match stmt.tag with
  | "rpc" => do .ok (some (.rpc (← nodeVia env (.upTo env maxDepth) scope none .rpc stmt)))
  | "augment" => do .ok (some (.augmentation (← augmentationOf env scope stmt)))
  | "typedef" => do .ok (some (.typedef (← typedefOf env (maxDepth - 1) scope stmt)))
  | "identity" => do .ok (some (.identity (← identityOf env scope stmt)))
  | _ => .ok none

/-- Resolves the module that is being loaded. -/
def Environment.module (env : Environment) : Except LoadFault Module := do
  let main := env.main
  let scope := Scope.top main
  let nodes ← nodesVia env (.upTo env maxDepth) scope (some true) main.root.children
  let definitions ← main.root.children.mapM (definitionOf? env scope)
  let definitions := definitions.filterMap id
  .ok {
    name := main.name
    uri := main.uri
    nsPrefix := main.nsPrefix
    revision := main.revision
    revisions := main.revisions
    children := nodes.filter fun n => n.data.kind != .notification
    notifications := nodes.filter fun n => n.data.kind == .notification
    rpcs := definitions.filterMap Definition.rpc?
    augmentations := definitions.filterMap Definition.augmentation?
    typedefs := definitions.filterMap Definition.typedef?
    identities := definitions.filterMap Definition.identity? }

end YangEvolution.Yin
