import YangEvolution.Yin.Refinement
import YangEvolution.Yin.TypeStatement

/-!
Statements of schema nodes. Nodes are built by recursion on statements; the uses of groupings are
followed a bounded number of times, which also ends a grouping that uses itself.
-/

namespace YangEvolution.Yin

open Text Markup

/-- The kind of node that a data definition statement makes. -/
def dataKind? (tag : String) : Option NodeKind :=
  match NodeKind.ofKeyword? tag with
  | some .rpc => none
  | some .input => none
  | some .output => none
  | kind => kind

/-- How the statements of nodes refer to what is defined elsewhere. A grouping is given by its name
as it is written, its statement and its scope, and by what its nodes inherit as `config`. -/
structure References where
  type : Scope → Element → Except LoadFault TypeDef
  grouping : String → Element → Scope → Option Bool → Except LoadFault (List SchemaNode)

/-- Operations and notifications are neither configuration nor state data, nor is what is in them.
-/
def inheritedConfig (kind : NodeKind) (inherited : Option Bool) : Option Bool :=
  match kind with
  | .rpc => none
  | .action => none
  | .notification => none
  | _ => inherited

def configOf (owner : String) (stmt : Element) :
    Option Bool → Except LoadFault (Option Bool)
  | none => .ok none
  | some inherited =>
    match stmt.childAttribute? "config" "value" with
    | some raw => some <$> readFlag owner "config" raw
    | none => .ok (some inherited)

def mandatoryOf (owner : String) (stmt : Element) : Except LoadFault Bool :=
  match stmt.childAttribute? "mandatory" "value" with
  | some raw => readFlag owner "mandatory" raw
  | none => .ok false

/-- The type of a leaf or leaf-list, with the defaults and the units that the node states. -/
def nodeType (refs : References) (scope : Scope) (kind : NodeKind) (name : String)
    (stmt : Element) : Except LoadFault TypeDef :=
  match stmt.child? "type" with
  | none =>
    .error (.missingStatement scope.owner ("type (in " ++ kind.keyword ++ " " ++ name ++ ")"))
  | some type => do
    let t ← refs.type (scope.enter stmt) type
    .ok { t with
      default := (defaultOf stmt).or t.default
      units := (stmt.childAttribute? "units" "name").or t.units }

def nodeNameOf (owner : String) (kind : NodeKind) (stmt : Element) : Except LoadFault String :=
  match kind with
  | .input => .ok kind.keyword
  | .output => .ok kind.keyword
  | _ => argument owner stmt "name"

/-- What the statement of a node says of the node itself. -/
def nodeDataOf (env : Environment) (refs : References) (scope : Scope) (inherited : Option Bool)
    (kind : NodeKind) (stmt : Element) : Except LoadFault NodeData := do
  let owner := scope.owner
  let name ← nodeNameOf owner kind stmt
  let status ← statusOf owner stmt
  let musts ← mustsOf owner stmt
  let config ← configOf owner stmt (inheritedConfig kind inherited)
  let mandatory ← (if kind.isMandatoryAware then some <$> mandatoryOf owner stmt else .ok none)
  let count ← (if kind.isElementCounted then elementCountOf owner stmt else .ok none)
  let type ← (if kind.isTyped then some <$> nodeType refs scope kind name stmt else .ok none)
  .ok {
    kind
    qname := env.nodeName name
    status
    description := descriptionOf stmt
    reference := referenceOf stmt
    config
    mandatory
    count
    musts
    when := whenOf stmt
    type }

/-- The nodes that a `uses` statement brings in. -/
def usedNodes (env : Environment) (refs : References) (scope : Scope) (inherited : Option Bool)
    (stmt : Element) : Except LoadFault (List SchemaNode) := do
  let name ← argument scope.owner stmt "name"
  match ← env.findDefinition "grouping" scope name with
  | none => .error (.unresolvedGrouping scope.owner name)
  | some (grouping, inner) =>
    let nodes ← refs.grouping name grouping inner inherited
    let nodes := match whenOf stmt with
      | some condition => nodes.map (addCondition condition)
      | none => nodes
    (stmt.childrenOf "refine").foldlM (refine scope.owner) nodes

/-- The case that a node directly in a choice stands for. -/
def implicitCase (n : SchemaNode) : SchemaNode where
  data := {
    kind := .branch
    qname := n.data.qname
    status := n.data.status
    config := n.data.config }
  children := [n]

/-- The input or output of an operation that does not state it. -/
def emptyPart (env : Environment) (kind : NodeKind) : SchemaNode where
  data := { kind, qname := env.nodeName kind.keyword }
  children := []

mutual

/-- The node of a statement that is in `scope`. -/
def nodeVia (env : Environment) (refs : References) (scope : Scope) (inherited : Option Bool)
    (kind : NodeKind) : Element → Except LoadFault SchemaNode
  | ⟨tag, nsPrefix, attributes, children, text⟩ => do
    let stmt : Element := ⟨tag, nsPrefix, attributes, children, text⟩
    let data ← nodeDataOf env refs scope inherited kind stmt
    match kind with
    | .container | .list | .branch | .input | .output | .notification =>
      .ok ⟨data, ← nodesVia env refs (scope.enter stmt) data.config children⟩
    | .choice => .ok ⟨data, ← casesVia env refs (scope.enter stmt) data.config children⟩
    | .rpc | .action =>
      let input ← partVia env refs (scope.enter stmt) .input children
      let output ← partVia env refs (scope.enter stmt) .output children
      .ok ⟨data, [input, output]⟩
    | .leaf | .leafList | .anydata | .anyxml => .ok ⟨data, []⟩

/-- The nodes of statements, and the nodes that are brought in by the groupings they use. -/
def nodesVia (env : Environment) (refs : References) (scope : Scope) (inherited : Option Bool) :
    List Element → Except LoadFault (List SchemaNode)
  | [] => .ok []
  | stmt :: rest =>
    match dataKind? stmt.tag with
    | some kind => do
      let node ← nodeVia env refs scope inherited kind stmt
      let nodes ← nodesVia env refs scope inherited rest
      .ok (node :: nodes)
    | none =>
      if stmt.tag = "uses" then do
        let used ← usedNodes env refs scope inherited stmt
        let nodes ← nodesVia env refs scope inherited rest
        .ok (used ++ nodes)
      else nodesVia env refs scope inherited rest

/-- The cases of a choice. -/
def casesVia (env : Environment) (refs : References) (scope : Scope) (inherited : Option Bool) :
    List Element → Except LoadFault (List SchemaNode)
  | [] => .ok []
  | stmt :: rest =>
    match dataKind? stmt.tag with
    | some kind =>
      if kind.isData then do
        let node ← nodeVia env refs scope inherited kind stmt
        let cases ← casesVia env refs scope inherited rest
        .ok ((if kind = .branch then node else implicitCase node) :: cases)
      else casesVia env refs scope inherited rest
    | none => casesVia env refs scope inherited rest

/-- The input or output of an operation. -/
def partVia (env : Environment) (refs : References) (scope : Scope) (kind : NodeKind) :
    List Element → Except LoadFault SchemaNode
  | [] => .ok (emptyPart env kind)
  | stmt :: rest =>
    if stmt.tag = kind.keyword then nodeVia env refs scope none kind stmt
    else partVia env refs scope kind rest

end

/-- References that follow at most `depth` typedefs and groupings. -/
def References.upTo (env : Environment) : Nat → References
  | 0 => {
      type := typeOf env 0
      grouping := fun name _ inner _ => .error (.tooDeep inner.owner name) }
  | depth + 1 => {
      type := typeOf env (depth + 1)
      grouping := fun _ stmt inner inherited =>
        nodesVia env (References.upTo env depth) (inner.enter stmt) inherited stmt.children }

end YangEvolution.Yin
