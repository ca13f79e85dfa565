import YangEvolution.Compatibility.TreeChange
import YangEvolution.Proofs.CompatibleNode
import YangEvolution.Proofs.SchemaTree

/-!
When the rules are silent on trees of nodes. The two ways in which counterparts are looked up are
kept apart: a data node is looked up by its path from the root of the new module, any other node
among the children of the counterpart of its parent.
-/

namespace YangEvolution

namespace SchemaNode

/-- The first of some nodes with the given local name. -/
def FirstNamed (nodes : List SchemaNode) (name : String) (n : SchemaNode) : Prop :=
  IsFirst (fun m => m.localName = name) nodes n

/-- Local names resolve to a node by first matches, from some nodes on. -/
inductive Resolves : List SchemaNode → List String → SchemaNode → Prop where
  | last {nodes : List SchemaNode} {name : String} {n : SchemaNode} : FirstNamed nodes name n →
      Resolves nodes [name] n
  | child {nodes : List SchemaNode} {name : String} {names : List String} {n m : SchemaNode} :
      FirstNamed nodes name n → Resolves n.children names m → Resolves nodes (name :: names) m

theorem find?_eq_some_iff {nodes : List SchemaNode} {name : String} {n : SchemaNode} :
    find? nodes name = some n ↔ FirstNamed nodes name n :=
  find?_key_eq_some_iff

theorem resolves_cons_iff {nodes : List SchemaNode} {name : String} {names : List String}
    {m : SchemaNode} :
    Resolves nodes (name :: names) m ↔
      ∃ n, FirstNamed nodes name n ∧ (names = [] ∧ m = n ∨ Resolves n.children names m) := by
  constructor
  · rintro (h | ⟨h, hm⟩)
    · exact ⟨m, h, .inl ⟨rfl, rfl⟩⟩
    · exact ⟨_, h, .inr hm⟩
  · rintro ⟨n, h, ⟨rfl, rfl⟩ | hm⟩
    · exact .last h
    · exact .child h hm

theorem descend?_eq_some_iff {n m : SchemaNode} {names : List String} :
    n.descend? names = some m ↔ names = [] ∧ m = n ∨ Resolves n.children names m := by
  induction names generalizing n with
  | nil =>
      have hnone : ¬ Resolves n.children [] m := by rintro ⟨⟩
      simp [descend?, hnone, eq_comm]
  | cons name rest ih =>
      simp [descend?, Option.bind_eq_some_iff, find?_eq_some_iff, resolves_cons_iff, ih]

end SchemaNode

open SchemaNode

theorem Module.findNode?_eq_some_iff {m : Module} {path : SchemaPath} {n : SchemaNode} :
    m.findNode? path = some n ↔ Resolves m.children path.localNames n := by
  unfold findNode?
  cases path.localNames with
  | nil =>
      have hnone : ¬ Resolves m.children [] n := by rintro ⟨⟩
      simp [hnone]
  | cons first rest =>
      simp [Option.bind_eq_some_iff, find?_eq_some_iff, descend?_eq_some_iff, resolves_cons_iff]

namespace Compatibility

/-- The new node can stand for the old one, and so can, for each child of the old node, the first
child of the same name of the new one, and so on down the tree. -/
inductive SubtreeCompatible (version : LanguageVersion) : SchemaNode → SchemaNode → Prop where
  | node {old new : SchemaNode} : NodeCompatible version old.data new.data →
      (∀ n ∈ old.children, ∃ n', FirstNamed new.children n.localName n') →
      (∀ n ∈ old.children, ∀ n', FirstNamed new.children n.localName n' →
        SubtreeCompatible version n n') →
      SubtreeCompatible version old new

/-- For each of `nodes`, the first of `siblings` of the same name can stand with its tree. -/
def ForestCompatible (version : LanguageVersion) (siblings nodes : List SchemaNode) : Prop :=
  ∀ n ∈ nodes, ∃ n', FirstNamed siblings n.localName n' ∧ SubtreeCompatible version n n'

theorem subtreeCompatible_iff {version : LanguageVersion} {old new : SchemaNode} :
    SubtreeCompatible version old new ↔
      NodeCompatible version old.data new.data ∧
        ForestCompatible version new.children old.children := by
  constructor
  · rintro ⟨hnode, hfound, hchildren⟩
    refine ⟨hnode, ?_⟩
    intro n hn
    obtain ⟨n', hn'⟩ := hfound n hn
    exact ⟨n', hn', hchildren n hn n' hn'⟩
  · rintro ⟨hnode, hforest⟩
    refine .node hnode ?_ ?_
    · intro n hn
      obtain ⟨n', hn', -⟩ := hforest n hn
      exact ⟨n', hn'⟩
    · intro n hn n' hn'
      obtain ⟨m, hm, hcompatible⟩ := hforest n hn
      rw [← find?_eq_some_iff] at hm hn'
      cases hm.symm.trans hn'
      exact hcompatible

end Compatibility

namespace Comparison

open Compatibility

@[simp] theorem localNames_new_enter (c : Comparison) (p : Position) (name : String) :
    (c.enter p name).new.localNames = p.new.localNames ++ [name] := by
  simp [enter, Position.enter]

theorem nestedAll_eq_nil_iff {c : Comparison} {siblings nodes : List SchemaNode}
    {parent : Position} :
    c.nestedAll siblings parent nodes = [] ↔ ∀ n ∈ nodes, c.nested siblings parent n = [] := by
  rw [nestedAll_eq_flatMap, List.flatMap_eq_nil_iff]

theorem dataNodes_eq_nil_iff {c : Comparison} {nodes : List SchemaNode} {parent : Position} :
    c.dataNodes parent nodes = [] ↔ ∀ n ∈ nodes, c.dataNode parent n = [] := by
  rw [dataNodes_eq_flatMap, List.flatMap_eq_nil_iff]

theorem nested_eq_nil_iff (c : Comparison) (siblings : List SchemaNode) (parent : Position)
    (n : SchemaNode) :
    c.nested siblings parent n = [] ↔
      ∃ n', FirstNamed siblings n.localName n' ∧ SubtreeCompatible c.version n n' := by
  simp only [← find?_eq_some_iff]
  induction n using SchemaNode.treeInduction generalizing siblings parent with
  | node data children ih =>
      rw [nested]
      change _ ↔ ∃ n', SchemaNode.find? siblings data.qname.localName = some n' ∧ _
      cases hfind : SchemaNode.find? siblings data.qname.localName with
      | none => simp
      | some new =>
          have hchildren : c.nestedAll new.children (c.enter parent data.qname.localName) children
              = [] ↔ ForestCompatible c.version new.children children := by
            simp only [nestedAll_eq_nil_iff, ForestCompatible, ← find?_eq_some_iff]
            exact forall_congr' fun n => forall_congr' fun hn => ih n hn _ _
          simp [List.append_eq_nil_iff, nodeFindings_eq_nil_iff, hchildren, subtreeCompatible_iff]

theorem forestCompatible_iff (c : Comparison) (siblings nodes : List SchemaNode)
    (parent : Position) :
    c.nestedAll siblings parent nodes = [] ↔ ForestCompatible c.version siblings nodes := by
  rw [nestedAll_eq_nil_iff]
  exact forall_congr' fun n => forall_congr' fun _ => c.nested_eq_nil_iff siblings parent n

/-- The walk stops below a node that is missing, and that node is enough for a finding; otherwise it
has asked for every path below. -/
theorem dataNode_eq_nil_iff (c : Comparison) (parent : Position) (n : SchemaNode) :
    c.dataNode parent n = [] ↔
      ∀ names m, n.Contains names m →
        ∃ m', Resolves c.new.children (parent.new.localNames ++ names) m' ∧
          NodeCompatible c.version m.data m'.data := by
  induction n using SchemaNode.treeInduction generalizing parent with
  | node data children ih =>
      rw [dataNode]
      constructor
      · intro h names m hm
        cases hfind : c.new.findNode? (c.enter parent data.qname.localName).new with
        | none => simp [hfind] at h
        | some new =>
            simp only [hfind, List.append_eq_nil_iff, nodeFindings_eq_nil_iff,
              dataNodes_eq_nil_iff] at h
            rw [Module.findNode?_eq_some_iff, localNames_new_enter] at hfind
            cases hm with
            | self => exact ⟨new, hfind, h.1⟩
            | child hc hm =>
                have hbelow := (ih _ hc _).mp (h.2 _ hc) _ _ hm
                rwa [localNames_new_enter, List.append_assoc] at hbelow
      · intro h
        obtain ⟨new, hresolves, hnew⟩ := h _ _ (.self _)
        have hfind : c.new.findNode? (c.enter parent data.qname.localName).new = some new := by
          rw [Module.findNode?_eq_some_iff, localNames_new_enter]
          exact hresolves
        simp only [hfind, List.append_eq_nil_iff, nodeFindings_eq_nil_iff, dataNodes_eq_nil_iff]
        refine ⟨hnew, ?_⟩
        intro n hn
        refine (ih n hn _).mpr ?_
        intro names m hm
        rw [localNames_new_enter, List.append_assoc]
        exact h _ m (.child hn hm)

end Comparison

end YangEvolution
