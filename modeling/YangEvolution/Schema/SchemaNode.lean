import YangEvolution.Schema.TypeDef

/-!
The nodes of a schema tree. What a node says of itself is kept apart from its children.
-/

namespace YangEvolution

/-- The statement that a node comes from; `branch` is a case of a choice. -/
inductive NodeKind where
  | container
  | list
  | leaf
  | leafList
  | choice
  | branch
  | anydata
  | anyxml
  | rpc
  | input
  | output
  | action
  | notification
  deriving DecidableEq

namespace NodeKind

def all : List NodeKind :=
  [container, list, leaf, leafList, choice, branch, anydata, anyxml, rpc, input, output, action,
    notification]

def keyword : NodeKind → String
  | container => "container"
  | list => "list"
  | leaf => "leaf"
  | leafList => "leaf-list"
  | choice => "choice"
  | branch => "case"
  | anydata => "anydata"
  | anyxml => "anyxml"
  | rpc => "rpc"
  | input => "input"
  | output => "output"
  | action => "action"
  | notification => "notification"

def ofKeyword? (s : String) : Option NodeKind :=
  all.find? fun k => k.keyword == s

/-- The kinds that can be mandatory. -/
def isMandatoryAware : NodeKind → Bool
  | leaf | choice | anydata | anyxml => true
  | _ => false

/-- The kinds whose instances are counted. -/
def isElementCounted : NodeKind → Bool
  | list | leafList => true
  | _ => false

/-- The kinds that have a type. -/
def isTyped : NodeKind → Bool
  | leaf | leafList => true
  | _ => false

/-- The kinds of the tree of configuration and state data. -/
def isData : NodeKind → Bool
  | container | list | leaf | leafList | choice | branch | anydata | anyxml => true
  | _ => false

end NodeKind

/-- How many instances a list or leaf-list may have; an absent bound does not restrict them. -/
structure ElementCount where
  min : Option Nat := none
  max : Option Nat := none
  deriving DecidableEq

structure Must where
  xpath : String
  errorMessage : Option String := none
  errorAppTag : Option String := none
  description : Option String := none
  reference : Option String := none
  deriving DecidableEq

/-- What a node says of itself. -/
structure NodeData where
  kind : NodeKind
  qname : QName
  status : Status := .current
  description : Option String := none
  reference : Option String := none
  config : Option Bool := none
  mandatory : Option Bool := none
  count : Option ElementCount := none
  musts : List Must := []
  when : Option String := none
  type : Option TypeDef := none

def NodeData.isMandatory (d : NodeData) : Bool :=
  d.mandatory == some true

structure SchemaNode where
  data : NodeData
  children : List SchemaNode

namespace SchemaNode

def localName (n : SchemaNode) : String :=
  n.data.qname.localName

/-- The first node of the given local name. -/
def find? (nodes : List SchemaNode) (name : String) : Option SchemaNode :=
  nodes.find? fun n => n.localName == name

/-- The node reached from `n` by local names. -/
def descend? (n : SchemaNode) : List String → Option SchemaNode
  | [] => some n
  | name :: rest => (find? n.children name).bind fun c => c.descend? rest

end SchemaNode

end YangEvolution
