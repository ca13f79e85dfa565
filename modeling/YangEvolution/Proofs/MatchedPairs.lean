import Mathlib.Data.List.Basic
import YangEvolution.Proofs.RuleFamilies
import YangEvolution.Proofs.Verdict

/-!
The pairs of definitions that a comparison looks at. The nodes of a tree are listed with the local
names that lead to them, and the counterpart of a node is what the same names lead to in the new
module, by first matches. Main statement: but for nodes that are missing, the findings on trees are
those on the pairs of a node and its counterpart, pair by pair and in the order of the old trees.
-/

namespace YangEvolution

namespace SchemaNode

mutual

/-- All nodes of a tree, each with the local names that lead to it. -/
def entries : SchemaNode → List (List String × NodeData)
  | ⟨data, children⟩ =>
    ([data.qname.localName], data) ::
      (entriesAll children).map fun e => (data.qname.localName :: e.1, e.2)

def entriesAll : List SchemaNode → List (List String × NodeData)
  | [] => []
  | n :: rest => n.entries ++ entriesAll rest

end

theorem entriesAll_eq_flatMap (nodes : List SchemaNode) :
    entriesAll nodes = nodes.flatMap entries := by
  induction nodes with
  | nil => simp [entriesAll]
  | cons n rest ih => simp [entriesAll, ih]

theorem exists_contains_of_mem_entries {n : SchemaNode} {e : List String × NodeData}
    (h : e ∈ n.entries) : ∃ m, n.Contains e.1 m ∧ m.data = e.2 := by
  induction n using treeInduction generalizing e with
  | node data children ih =>
      rw [entries, List.mem_cons, List.mem_map] at h
      obtain rfl | ⟨below, hbelow, rfl⟩ := h
      · exact ⟨_, .self _, rfl⟩
      · rw [entriesAll_eq_flatMap, List.mem_flatMap] at hbelow
        obtain ⟨c, hc, hbelow⟩ := hbelow
        obtain ⟨m, hm, hdata⟩ := ih c hc hbelow
        exact ⟨m, .child hc hm, hdata⟩

theorem exists_contains_of_mem_entriesAll {nodes : List SchemaNode} {e : List String × NodeData}
    (h : e ∈ entriesAll nodes) : ∃ n ∈ nodes, ∃ m, n.Contains e.1 m ∧ m.data = e.2 := by
  rw [entriesAll_eq_flatMap, List.mem_flatMap] at h
  obtain ⟨n, hn, h⟩ := h
  exact ⟨n, hn, exists_contains_of_mem_entries h⟩

/-- The names that lead to a node are those of nodes on the way. -/
theorem Contains.exists_occurs {n m : SchemaNode} {names : List String} (h : n.Contains names m) :
    ∀ name ∈ names, ∃ k, Occurs [n] k ∧ k.localName = name := by
  induction h with
  | self n =>
      intro name hname
      exact ⟨n, .of_mem List.mem_cons_self, (List.mem_singleton.mp hname).symm⟩
  | @child n c m names hc _ ih =>
      intro name hname
      rcases List.mem_cons.mp hname with rfl | hname
      · exact ⟨n, .of_mem List.mem_cons_self, rfl⟩
      · obtain ⟨k, ⟨top, htop, hk⟩, hlocal⟩ := ih name hname
        obtain rfl := List.mem_singleton.mp htop
        exact ⟨k, .below List.mem_cons_self ⟨top, hc, hk⟩, hlocal⟩

theorem exists_occurs_of_mem_names {nodes : List SchemaNode} {e : List String × NodeData}
    (h : e ∈ entriesAll nodes) {name : String} (hname : name ∈ e.1) :
    ∃ n, Occurs nodes n ∧ n.localName = name := by
  obtain ⟨n, hn, m, hm, -⟩ := exists_contains_of_mem_entriesAll h
  obtain ⟨k, ⟨top, htop, hk⟩, hlocal⟩ := hm.exists_occurs name hname
  obtain rfl := List.mem_singleton.mp htop
  exact ⟨k, ⟨top, hn, hk⟩, hlocal⟩

theorem names_ne_nil {nodes : List SchemaNode} {e : List String × NodeData}
    (h : e ∈ entriesAll nodes) : e.1 ≠ [] := by
  obtain ⟨n, -, m, hm, -⟩ := exists_contains_of_mem_entriesAll h
  intro hnil
  rw [hnil] at hm
  cases hm

/-- The node that local names lead to from some nodes on. -/
def reach? (nodes : List SchemaNode) : List String → Option SchemaNode
  | [] => none
  | name :: rest => (find? nodes name).bind fun n => n.descend? rest

theorem reach?_singleton (nodes : List SchemaNode) (name : String) :
    reach? nodes [name] = find? nodes name := by
  cases hfind : find? nodes name <;> simp [reach?, hfind, descend?]

theorem reach?_cons {names : List String} (h : names ≠ []) (nodes : List SchemaNode)
    (name : String) :
    reach? nodes (name :: names) = (find? nodes name).bind fun n => reach? n.children names := by
  cases names with
  | nil => exact absurd rfl h
  | cons next rest => rfl

end SchemaNode

open SchemaNode

/-- The rules about a definition and its counterpart, and not about a whole module or about what is
missing. -/
def Rule.isAboutPairs : Rule → Bool
  | .moduleName | .moduleNamespace | .revision | .missingRevision | .missingOldRevision => false
  | .missingIdentity | .baseIdentity | .missingBaseIdentity | .missingNode => false
  | _ => true

theorem Module.findNode?_eq_reach? (m : Module) (path : SchemaPath) :
    m.findNode? path = reach? m.children path.localNames := by
  unfold findNode?
  cases path.localNames <;> rfl

namespace Comparison

open Compatibility

/-- A node and its counterpart, and where they are. -/
structure NodePair where
  position : Position
  old : NodeData
  new : NodeData

/-- A type definition and its counterpart, and where they are. -/
structure TypedefPair where
  position : Position
  old : TypeDef
  new : TypeDef

/-- Where local names lead from a position on. -/
def place (c : Comparison) (parent : Position) (names : List String) : Position :=
  names.foldl c.enter parent

/-- The node of an entry with its counterpart, if it has one from `siblings` on. -/
def pair? (c : Comparison) (siblings : List SchemaNode) (parent : Position)
    (e : List String × NodeData) : Option NodePair :=
  (reach? siblings e.1).map fun n => ⟨c.place parent e.1, e.2, n.data⟩

/-- The pairs among some trees and those from `siblings` on. -/
def pairsAmong (c : Comparison) (siblings : List SchemaNode) (parent : Position)
    (nodes : List SchemaNode) : List NodePair :=
  (entriesAll nodes).filterMap (c.pair? siblings parent)

def augmentationPairs (c : Comparison) (a : Augmentation) : List NodePair :=
  match c.new.findAugmentation? a.target with
  | some b => c.pairsAmong b.children ⟨a.target, b.target⟩ a.children
  | none => []

/-- All nodes of the old module that have a counterpart, with it. -/
def nodePairs (c : Comparison) : List NodePair :=
  c.pairsAmong c.new.children .root c.old.children ++
    c.pairsAmong c.new.rpcs .root c.old.rpcs ++
    c.pairsAmong c.new.notifications .root c.old.notifications ++
    c.old.augmentations.flatMap c.augmentationPairs

/-- All type definitions of the old module that have a counterpart, with it. -/
def typedefPairs (c : Comparison) : List TypedefPair :=
  c.old.typedefs.filterMap fun t =>
    (c.new.findTypedef? t.qname.localName).map fun u =>
      ⟨c.enter .root t.qname.localName, t, u⟩

variable {c : Comparison}

/-! ### Walks from pair to pair -/

theorem pair?_below {siblings : List SchemaNode} {parent : Position} {name : String}
    {e : List String × NodeData} (h : e.1 ≠ []) :
    c.pair? siblings parent (name :: e.1, e.2) =
      (find? siblings name).bind fun n => c.pair? n.children (c.enter parent name) e := by
  simp only [pair?, reach?_cons h, Option.map_bind]
  rfl

theorem filterMap_pair?_entries {siblings : List SchemaNode} {parent : Position}
    (data : NodeData) (children : List SchemaNode) :
    (entries ⟨data, children⟩).filterMap (c.pair? siblings parent) =
      match find? siblings data.qname.localName with
      | none => []
      | some new => ⟨c.enter parent data.qname.localName, data, new.data⟩ ::
          c.pairsAmong new.children (c.enter parent data.qname.localName) children := by
  have hbelow : ((entriesAll children).map fun e => (data.qname.localName :: e.1, e.2)).filterMap
        (c.pair? siblings parent) =
      (entriesAll children).filterMap fun e =>
        (find? siblings data.qname.localName).bind fun n =>
          c.pair? n.children (c.enter parent data.qname.localName) e := by
    rw [List.filterMap_map]
    exact List.filterMap_congr fun e he => pair?_below (names_ne_nil he)
  have hself : c.pair? siblings parent ([data.qname.localName], data) =
      (find? siblings data.qname.localName).map fun n =>
        ⟨c.enter parent data.qname.localName, data, n.data⟩ := by
    rw [pair?, reach?_singleton]
    rfl
  rw [entries, List.filterMap_cons, hself, hbelow]
  cases find? siblings data.qname.localName with
  | none => simp
  | some new => rfl

/-- The findings of a rule on a pair. -/
def pairFindings (c : Comparison) (rule : Rule) (q : NodePair) : List Finding :=
  (nodeFindings c.version q.position q.old q.new).filter fun f => f.rule == rule

theorem filter_nested {rule : Rule} (h : rule.isAboutPairs = true) (siblings : List SchemaNode)
    (parent : Position) (n : SchemaNode) :
    (c.nested siblings parent n).filter (fun f => f.rule == rule) =
      (n.entries.filterMap (c.pair? siblings parent)).flatMap (c.pairFindings rule) := by
  induction n using treeInduction generalizing siblings parent with
  | node data children ih =>
      rw [nested, filterMap_pair?_entries]
      cases find? siblings data.qname.localName with
      | none =>
          refine List.filter_eq_nil_iff.mpr fun f hf hrule => ?_
          obtain rfl := List.mem_singleton.mp hf
          rw [← beq_iff_eq.mp hrule] at h
          cases h
      | some new =>
          have hchildren : (c.nestedAll new.children (c.enter parent data.qname.localName)
              children).filter (fun f => f.rule == rule) = (c.pairsAmong new.children
                (c.enter parent data.qname.localName) children).flatMap (c.pairFindings rule) := by
            rw [nestedAll_eq_flatMap, pairsAmong, entriesAll_eq_flatMap, List.filter_flatMap,
              List.filterMap_flatMap, List.flatMap_assoc]
            exact List.flatMap_congr fun n hn => ih n hn _ _
          simp only [List.filter_append, hchildren, List.flatMap_cons]
          rfl

theorem filter_nestedAll {rule : Rule} (h : rule.isAboutPairs = true)
    (siblings : List SchemaNode) (parent : Position) (nodes : List SchemaNode) :
    (c.nestedAll siblings parent nodes).filter (fun f => f.rule == rule) =
      (c.pairsAmong siblings parent nodes).flatMap (c.pairFindings rule) := by
  rw [nestedAll_eq_flatMap, pairsAmong, entriesAll_eq_flatMap, List.filter_flatMap,
    List.filterMap_flatMap, List.flatMap_assoc]
  exact List.flatMap_congr fun n _ => filter_nested h siblings parent n

section DataNodes

variable {siblings : List SchemaNode} {parent : Position}

theorem findNode?_enter (h : ∀ names, names ≠ [] →
      reach? c.new.children (parent.new.localNames ++ names) = reach? siblings names)
    (name : String) : c.new.findNode? (c.enter parent name).new = find? siblings name := by
  rw [Module.findNode?_eq_reach?, localNames_new_enter, h _ (List.cons_ne_nil _ _),
    reach?_singleton]

theorem reach?_enter (h : ∀ names, names ≠ [] →
      reach? c.new.children (parent.new.localNames ++ names) = reach? siblings names)
    {name : String} {new : SchemaNode} (hnew : find? siblings name = some new)
    (names : List String) (hnames : names ≠ []) :
    reach? c.new.children ((c.enter parent name).new.localNames ++ names) =
      reach? new.children names := by
  rw [localNames_new_enter, List.append_assoc, List.singleton_append, h _ (List.cons_ne_nil _ _),
    reach?_cons hnames, hnew]
  rfl

/-- A data node that is looked up from the root is looked up among the children of its parent's
counterpart. -/
theorem dataNode_eq_nested (h : ∀ names, names ≠ [] →
      reach? c.new.children (parent.new.localNames ++ names) = reach? siblings names)
    (n : SchemaNode) : c.dataNode parent n = c.nested siblings parent n := by
  induction n using treeInduction generalizing siblings parent with
  | node data children ih =>
      rw [dataNode, nested, findNode?_enter h]
      cases hnew : find? siblings data.qname.localName with
      | none => rfl
      | some new =>
          simp only [dataNodes_eq_flatMap, nestedAll_eq_flatMap]
          rw [List.flatMap_congr fun n hn => ih n hn (reach?_enter h hnew)]

end DataNodes

theorem dataNodes_eq_nestedAll (nodes : List SchemaNode) :
    c.dataNodes .root nodes = c.nestedAll c.new.children .root nodes := by
  rw [dataNodes_eq_flatMap, nestedAll_eq_flatMap]
  exact List.flatMap_congr fun n _ => dataNode_eq_nested (fun _ _ => rfl) n

theorem flatMap_operationFindings (operations nodes : List SchemaNode) :
    nodes.flatMap (c.operationFindings (find? operations)) =
      c.nestedAll operations .root nodes := by
  rw [nestedAll_eq_flatMap]
  exact List.flatMap_congr fun n _ => operationFindings_eq_nested operations n

/-! ### The findings on pairs -/

theorem isAboutPairs_of_mem_headerFindings {f : Finding} (h : f ∈ c.headerFindings) :
    f.rule.isAboutPairs = false := by
  rcases rule_of_mem_headerFindings h with hrule | hrule <;> rw [hrule] <;> rfl

theorem isAboutPairs_of_mem_revisionFindings {f : Finding} (h : f ∈ c.revisionFindings) :
    f.rule.isAboutPairs = false := by
  rcases rule_of_mem_revisionFindings h with hrule | hrule <;> rw [hrule] <;> rfl

theorem isAboutPairs_of_mem_historyFindings {f : Finding} (h : f ∈ c.historyFindings) :
    f.rule.isAboutPairs = false := by
  rw [rule_of_mem_historyFindings h]
  rfl

theorem isAboutPairs_of_mem_identityFindings {i : Identity} {f : Finding}
    (h : f ∈ c.identityFindings i) : f.rule.isAboutPairs = false := by
  rcases rule_of_mem_identityFindings h with hrule | hrule | hrule <;> rw [hrule] <;> rfl

/-- The findings of a rule about pairs are those on the pairs of nodes and then those on the pairs
of type definitions. -/
theorem filter_findings {rule : Rule} (h : rule.isAboutPairs = true) :
    c.findings.filter (fun f => f.rule == rule) =
      c.nodePairs.flatMap (c.pairFindings rule) ++
        c.old.typedefs.flatMap fun t => (c.typedefFindings t).filter fun f => f.rule == rule := by
  have hnone : ∀ findings : List Finding, (∀ f ∈ findings, f.rule.isAboutPairs = false) →
      findings.filter (fun f => f.rule == rule) = [] := by
    intro findings hfindings
    refine List.filter_eq_nil_iff.mpr fun f hf hrule => ?_
    rw [← beq_iff_eq.mp hrule, hfindings f hf] at h
    cases h
  have hheader := hnone c.headerFindings fun _ => isAboutPairs_of_mem_headerFindings
  have hrevision := hnone c.revisionFindings fun _ => isAboutPairs_of_mem_revisionFindings
  have hhistory := hnone c.historyFindings fun _ => isAboutPairs_of_mem_historyFindings
  have hidentities : (if c.version.is7950 then c.old.identities.flatMap c.identityFindings
      else []).filter (fun f => f.rule == rule) = [] := by
    refine hnone _ fun f hf => ?_
    split at hf
    · obtain ⟨i, -, hf⟩ := List.mem_flatMap.mp hf
      exact isAboutPairs_of_mem_identityFindings hf
    · cases hf
  have hoperations : ∀ operations nodes : List SchemaNode,
      (nodes.flatMap (c.operationFindings (find? operations))).filter (fun f => f.rule == rule) =
        (c.pairsAmong operations .root nodes).flatMap (c.pairFindings rule) := by
    intro operations nodes
    rw [← filter_nestedAll h, nestedAll_eq_flatMap]
    exact congrArg _ (List.flatMap_congr fun n _ => operationFindings_eq_nested operations n)
  have haugmentations : (c.old.augmentations.flatMap c.augmentationFindings).filter
      (fun f => f.rule == rule) =
        (c.old.augmentations.flatMap c.augmentationPairs).flatMap (c.pairFindings rule) := by
    rw [List.filter_flatMap, List.flatMap_assoc]
    refine List.flatMap_congr fun a _ => ?_
    cases hfind : c.new.findAugmentation? a.target with
    | none =>
        simp only [augmentationFindings, augmentationPairs, hfind]
        exact hnone _ fun f hf => by rw [List.mem_singleton.mp hf]; rfl
    | some b =>
        simp only [augmentationFindings, augmentationPairs, hfind]
        exact filter_nestedAll h _ _ _
  have hrpcs : (c.old.rpcs.flatMap (c.operationFindings c.new.findRpc?)).filter
      (fun f => f.rule == rule) = _ := hoperations c.new.rpcs c.old.rpcs
  have hnotifications :
      (c.old.notifications.flatMap (c.operationFindings c.new.findNotification?)).filter
        (fun f => f.rule == rule) = _ := hoperations c.new.notifications c.old.notifications
  simp only [findings, List.filter_append, hheader, hrevision, hhistory, hidentities,
    dataNodes_eq_nestedAll, filter_nestedAll h, hrpcs, hnotifications, haugmentations, nodePairs,
    List.flatMap_append, List.nil_append]
  rw [List.filter_flatMap]

end Comparison

end YangEvolution
