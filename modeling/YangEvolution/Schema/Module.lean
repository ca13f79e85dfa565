import YangEvolution.Schema.SchemaNode
import YangEvolution.Schema.SchemaPath

/-!
Resolved modules and the definitions in them. A look-up by name answers with the first definition
of that name.
-/

namespace YangEvolution

structure Identity where
  qname : QName
  bases : List QName := []
  status : Status := .current
  description : Option String := none
  reference : Option String := none
  deriving DecidableEq

/-- Nodes that a module adds below a node of its own or of another module. -/
structure Augmentation where
  target : SchemaPath
  when : Option String := none
  status : Status := .current
  children : List SchemaNode := []

/-- A module with all references resolved. The data tree and the notifications at its top are kept
apart, and `revisions` are all dates that it declares, of which `revision` is the newest. -/
structure Module where
  name : String
  uri : String
  nsPrefix : String
  revision : Option Revision := none
  revisions : List Revision := []
  children : List SchemaNode := []
  rpcs : List SchemaNode := []
  notifications : List SchemaNode := []
  augmentations : List Augmentation := []
  typedefs : List TypeDef := []
  identities : List Identity := []

namespace Module

/-- The qualified name of a definition of the module. -/
def qname (m : Module) (localName : String) : QName :=
  ⟨m.uri, m.revision, localName⟩

/-- The data node reached from the root by local names. -/
def findNode? (m : Module) (path : SchemaPath) : Option SchemaNode :=
  match path.localNames with
  | [] => none
  | first :: rest => (SchemaNode.find? m.children first).bind fun n => n.descend? rest

def findRpc? (m : Module) (name : String) : Option SchemaNode :=
  SchemaNode.find? m.rpcs name

def findNotification? (m : Module) (name : String) : Option SchemaNode :=
  SchemaNode.find? m.notifications name

def findAugmentation? (m : Module) (target : SchemaPath) : Option Augmentation :=
  m.augmentations.find? fun a => a.target == target

def findTypedef? (m : Module) (name : String) : Option TypeDef :=
  m.typedefs.find? fun t => t.qname.localName == name

def findIdentity? (m : Module) (name : String) : Option Identity :=
  m.identities.find? fun i => i.qname.localName == name

end Module

end YangEvolution
