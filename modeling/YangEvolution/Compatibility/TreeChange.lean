import YangEvolution.Compatibility.NodeChange
import YangEvolution.Schema.Module

/-!
What may change in trees of nodes. Each old node is compared with its counterpart and then its
children are, in order; below a node without a counterpart nothing is compared. The counterpart of
a data node is looked up by its whole path from the root of the new module, that of any other node
among the children of its parent's counterpart.
-/

namespace YangEvolution

/-- Two modules to compare, and the version of the language whose rules apply. -/
structure Comparison where
  old : Module
  new : Module
  version : LanguageVersion

namespace Comparison

def enter (c : Comparison) (p : Position) (name : String) : Position :=
  p.enter ⟨c.old.name, name⟩ ⟨c.new.name, name⟩

/-- The finding that an old node has no counterpart. -/
def missing (p : Position) (old : NodeData) : Finding :=
  p.finding .missingNode "missing" old.kind.keyword

mutual

/-- Compares an old node with the first node of its name among `siblings`. -/
def nested (c : Comparison) (siblings : List SchemaNode) (parent : Position) :
    SchemaNode → List Finding
  | ⟨data, children⟩ =>
    let p := c.enter parent data.qname.localName
    match SchemaNode.find? siblings data.qname.localName with
    | none => [missing p data]
    | some new =>
      Compatibility.nodeFindings c.version p data new.data ++ c.nestedAll new.children p children

def nestedAll (c : Comparison) (siblings : List SchemaNode) (parent : Position) :
    List SchemaNode → List Finding
  | [] => []
  | n :: rest => c.nested siblings parent n ++ c.nestedAll siblings parent rest

end

mutual

/-- Compares an old data node with the node at its path in the new module. -/
def dataNode (c : Comparison) (parent : Position) : SchemaNode → List Finding
  | ⟨data, children⟩ =>
    let p := c.enter parent data.qname.localName
    match c.new.findNode? p.new with
    | none => [missing p data]
    | some new =>
      Compatibility.nodeFindings c.version p data new.data ++ c.dataNodes p children

def dataNodes (c : Comparison) (parent : Position) : List SchemaNode → List Finding
  | [] => []
  | n :: rest => c.dataNode parent n ++ c.dataNodes parent rest

end

theorem nestedAll_eq_flatMap (c : Comparison) (siblings : List SchemaNode) (parent : Position)
    (nodes : List SchemaNode) :
    c.nestedAll siblings parent nodes = nodes.flatMap (c.nested siblings parent) := by
  induction nodes with
  | nil => simp [nestedAll]
  | cons n rest ih => simp [nestedAll, ih]

theorem dataNodes_eq_flatMap (c : Comparison) (parent : Position) (nodes : List SchemaNode) :
    c.dataNodes parent nodes = nodes.flatMap (c.dataNode parent) := by
  induction nodes with
  | nil => simp [dataNodes]
  | cons n rest ih => simp [dataNodes, ih]

end Comparison

end YangEvolution
