import YangEvolution.Yin.Statement

/-!
Refinements: what a use of a grouping changes in the nodes that it brings in.
-/

namespace YangEvolution.Yin

open Text Markup

mutual

/-- Makes all configuration in a tree state data; what is neither stays so. -/
def clearConfig : SchemaNode → SchemaNode
  | ⟨data, children⟩ =>
    ⟨{ data with config := data.config.map fun _ => false }, clearConfigAll children⟩

def clearConfigAll : List SchemaNode → List SchemaNode
  | [] => []
  | n :: rest => clearConfig n :: clearConfigAll rest

end

/-- Changes the first node of a name, or fails with `fault` where there is none. -/
def modifyFirst (fault : LoadFault) (name : String)
    (change : SchemaNode → Except LoadFault SchemaNode) :
    List SchemaNode → Except LoadFault (List SchemaNode)
  | [] => .error fault
  | n :: rest =>
    if n.localName = name then do .ok ((← change n) :: rest)
    else do .ok (n :: (← modifyFirst fault name change rest))

/-- Changes the node that steps lead to, each to the first node of its name. -/
def modifyAt (fault : LoadFault) (change : SchemaNode → Except LoadFault SchemaNode) :
    List String → List SchemaNode → Except LoadFault (List SchemaNode)
  | [], _ => .error fault
  | [name], nodes => modifyFirst fault name change nodes
  | name :: next :: rest, nodes =>
    modifyFirst fault name
      (fun n => do .ok { n with children := ← modifyAt fault change (next :: rest) n.children })
      nodes

def refineTexts (stmt : Element) (n : SchemaNode) : SchemaNode :=
  { n with data := { n.data with
      description := (descriptionOf stmt).or n.data.description
      reference := (referenceOf stmt).or n.data.reference } }

/-- A node that is refined to be state data has only state data below it. -/
def refineConfig (owner : String) (stmt : Element) (n : SchemaNode) :
    Except LoadFault SchemaNode :=
  match stmt.childAttribute? "config" "value" with
  | none => .ok n
  | some raw => do
    let config ← readFlag owner "config" raw
    let data := { n.data with config := some config }
    .ok ⟨data, if config then n.children else clearConfigAll n.children⟩

def refineMandatory (owner : String) (stmt : Element) (n : SchemaNode) :
    Except LoadFault SchemaNode :=
  match stmt.childAttribute? "mandatory" "value" with
  | none => .ok n
  | some raw => do
    let mandatory ← readFlag owner "mandatory" raw
    .ok { n with data := { n.data with mandatory := some mandatory } }

/-- Each bound that has a statement is replaced. -/
def refineCount (owner : String) (stmt : Element) (n : SchemaNode) :
    Except LoadFault SchemaNode :=
  let hasMin := (stmt.child? "min-elements").isSome
  let hasMax := (stmt.child? "max-elements").isSome
  if hasMin || hasMax then do
    let refined := (← elementCountOf owner stmt).getD {}
    let count := n.data.count.getD {}
    let count : ElementCount := {
      min := if hasMin then refined.min else count.min
      max := if hasMax then refined.max else count.max }
    .ok { n with data := { n.data with count := some count } }
  else .ok n

/-- A default changes only a node that has a type. -/
def refineDefault (stmt : Element) (n : SchemaNode) : SchemaNode :=
  match defaultOf stmt with
  | none => n
  | some value =>
    { n with data := { n.data with
        type := n.data.type.map fun t => { t with default := some value } } }

def refineMusts (owner : String) (stmt : Element) (n : SchemaNode) :
    Except LoadFault SchemaNode := do
  let added ← mustsOf owner stmt
  .ok { n with data := { n.data with musts := n.data.musts ++ added } }

def refineNode (owner : String) (stmt : Element) (n : SchemaNode) :
    Except LoadFault SchemaNode := do
  let n ← refineConfig owner stmt (refineTexts stmt n)
  let n ← refineMandatory owner stmt n
  let n ← refineCount owner stmt n
  refineMusts owner stmt (refineDefault stmt n)

/-- Applies a `refine` statement to the nodes that a grouping brought in. -/
def refine (owner : String) (nodes : List SchemaNode) (stmt : Element) :
    Except LoadFault (List SchemaNode) := do
  let target ← argument owner stmt "target-node"
  let steps := (pathSteps target).map fun step => (splitReference step).2
  modifyAt (.invalid owner "refine target" target) (refineNode owner stmt) steps nodes

/-- Makes the presence of a node depend on one more condition. -/
def addCondition (condition : String) (n : SchemaNode) : SchemaNode :=
  let joint := match n.data.when with
    | some own => "(" ++ own ++ ") and (" ++ condition ++ ")"
    | none => condition
  { n with data := { n.data with when := some joint } }

end YangEvolution.Yin
