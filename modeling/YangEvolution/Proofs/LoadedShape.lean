import YangEvolution.Proofs.LoadedNodes

/-!
The shape of loaded modules: whose names their nodes have, and which nodes are below which. A node
is built in that shape, and what is done to it afterwards leaves its outline as it is. Main
statement: all nodes of a loaded module have names of that module, wherever the groupings that they
come from are written; operations have an input and an output, choices have cases, and leaves
nothing below them.
-/

namespace YangEvolution

namespace SchemaNode

/-- A node has a name of the module of a namespace and revision, and the children that its kind
calls for. -/
structure Shaped (uri : String) (revision : Option Revision) (n : SchemaNode) : Prop where
  uri : n.data.qname.uri = uri
  revision : n.data.qname.revision = revision
  operation : n.data.kind ∈ [.rpc, .action] →
    n.children.map (fun c => c.data.kind) = [.input, .output]
  choice : n.data.kind = .choice → ∀ c ∈ n.children, c.data.kind = .branch
  childless : n.data.kind ∈ [.leaf, .leafList, .anydata, .anyxml] → n.children = []

/-- A node and all nodes below it have their shape. -/
def AllShaped (uri : String) (revision : Option Revision) (n : SchemaNode) : Prop :=
  ∀ d, Occurs [n] d → d.Shaped uri revision

variable {uri : String} {revision : Option Revision} {n : SchemaNode}

theorem allShaped_iff : AllShaped uri revision n ↔
    n.Shaped uri revision ∧ ∀ c ∈ n.children, AllShaped uri revision c :=
  forall_occurs_iff

/-- The shape of a node can be read off its outline. -/
theorem shaped_outline_iff : n.outline.Shaped uri revision ↔ n.Shaped uri revision := by
  have hkinds : n.outline.children.map (fun c => c.data.kind) =
      n.children.map (fun c => c.data.kind) := by
    simp [outline_eq]
  have hcases : (∀ c ∈ n.outline.children, c.data.kind = .branch) ↔
      ∀ c ∈ n.children, c.data.kind = .branch := by
    simp [outline_eq]
  have hnil : n.outline.children = [] ↔ n.children = [] := by
    simp [outline_eq]
  have hdata : n.outline.data.kind = n.data.kind ∧ n.outline.data.qname = n.data.qname := by
    simp [outline_eq]
  constructor
  · rintro ⟨huri, hrevision, hoperation, hchoice, hchildless⟩
    rw [hdata.2] at huri hrevision
    rw [hdata.1] at hoperation hchoice hchildless
    exact ⟨huri, hrevision, fun h => hkinds ▸ hoperation h, fun h => hcases.mp (hchoice h),
      fun h => hnil.mp (hchildless h)⟩
  · rintro ⟨huri, hrevision, hoperation, hchoice, hchildless⟩
    rw [← hdata.2] at huri hrevision
    rw [← hdata.1] at hoperation hchoice hchildless
    exact ⟨huri, hrevision, fun h => hkinds.trans (hoperation h), fun h => hcases.mpr (hchoice h),
      fun h => hnil.mpr (hchildless h)⟩

theorem allShaped_outline_iff :
    AllShaped uri revision n.outline ↔ AllShaped uri revision n := by
  induction n using treeInduction with
  | node data children ih =>
      rw [allShaped_iff, allShaped_iff, shaped_outline_iff]
      have hchildren : (outline ⟨data, children⟩).children = children.map outline := by
        rw [outline_eq]
      rw [hchildren, List.forall_mem_map]
      exact and_congr_right fun _ => forall₂_congr ih

theorem forall_allShaped_congr {nodes nodes' : List SchemaNode}
    (h : nodes'.map outline = nodes.map outline) :
    (∀ n ∈ nodes', AllShaped uri revision n) ↔ ∀ n ∈ nodes, AllShaped uri revision n := by
  have hforall : ∀ nodes : List SchemaNode, (∀ n ∈ nodes, AllShaped uri revision n) ↔
      ∀ n ∈ nodes.map outline, AllShaped uri revision n := fun nodes => by
    rw [List.forall_mem_map]
    exact forall₂_congr fun n _ => allShaped_outline_iff.symm
  rw [hforall nodes', h, ← hforall nodes]

end SchemaNode

open SchemaNode

namespace Yin

open Text Markup Outcome

/-! ### Refinements -/

theorem outline_refined {owner : String} {refines : List Element} {nodes used : List SchemaNode}
    (h : refines.foldlM (refine owner) nodes = .ok used) :
    used.map outline = nodes.map outline := by
  induction refines generalizing nodes with
  | nil =>
      cases h
      rfl
  | cons r rest ih =>
      rw [List.foldlM_cons] at h
      obtain ⟨next, hnext, h⟩ := exists_of_bind_eq_ok h
      obtain ⟨path, -, hrefined⟩ := refine_eq_ok hnext false
      exact (ih h).trans hrefined.outline

/-! ### Nodes -/

variable {env : Environment} {refs : References} {scope : Scope} {inherited : Option Bool}

theorem kind_of_nodeVia {kind : NodeKind} {stmt : Element} {n : SchemaNode}
    (h : nodeVia env refs scope inherited kind stmt = .ok n) : n.data.kind = kind :=
  (nodeDataOf_eq_ok (nodeVia_eq_ok h)).1

theorem kind_of_mem_casesVia {stmts : List Element} {cases : List SchemaNode}
    (h : casesVia env refs scope inherited stmts = .ok cases) :
    ∀ c ∈ cases, c.data.kind = .branch := by
  induction stmts generalizing cases with
  | nil =>
      cases h
      exact fun c hc => absurd hc List.not_mem_nil
  | cons stmt rest ih =>
      rw [casesVia] at h
      split at h
      · rename_i kind _
        split at h
        · obtain ⟨n, hn, h⟩ := exists_of_bind_eq_ok h
          obtain ⟨others, hothers, h⟩ := exists_of_bind_eq_ok h
          cases h
          refine List.forall_mem_cons.mpr ⟨?_, ih hothers⟩
          split
          · rename_i hkind
            exact (kind_of_nodeVia hn).trans hkind
          · rfl
        · exact ih h
      · exact ih h

theorem kind_of_partVia {kind : NodeKind} {stmts : List Element} {n : SchemaNode}
    (h : partVia env refs scope kind stmts = .ok n) : n.data.kind = kind := by
  induction stmts with
  | nil =>
      cases h
      rfl
  | cons stmt rest ih =>
      rw [partVia] at h
      split at h
      · exact kind_of_nodeVia h
      · exact ih h

/-- A node is built in its shape. -/
theorem shaped_of_nodeVia {kind : NodeKind} {stmt : Element} {n : SchemaNode}
    (h : nodeVia env refs scope inherited kind stmt = .ok n) :
    n.Shaped env.main.uri env.main.revision := by
  obtain ⟨name, -, hname⟩ := qname_of_nodeDataOf (nodeVia_eq_ok h)
  have huri : n.data.qname.uri = env.main.uri := by
    rw [hname, Environment.nodeName]
  have hrevision : n.data.qname.revision = env.main.revision := by
    rw [hname, Environment.nodeName]
  have hkind := kind_of_nodeVia h
  have hother : ∀ {kinds : List NodeKind} {P : Prop}, kind ∉ kinds → n.data.kind ∈ kinds → P :=
    fun hnot hmem => absurd (hkind ▸ hmem) hnot
  obtain ⟨tag, nsPrefix, attributes, children, text⟩ := stmt
  rw [nodeVia] at h
  obtain ⟨data, -, h⟩ := exists_of_bind_eq_ok h
  -- of the three conditions on children at most one is about the kind of the node
  cases kind with
  | container | list | branch | input | output | notification =>
      exact ⟨huri, hrevision, hother (by decide),
        fun h => absurd (hkind.symm.trans h) (by decide), hother (by decide)⟩
  | choice =>
      obtain ⟨cases, hcases, h⟩ := exists_of_bind_eq_ok h
      cases h
      exact ⟨huri, hrevision, hother (by decide), fun _ => kind_of_mem_casesVia hcases,
        hother (by decide)⟩
  | rpc | action =>
      obtain ⟨input, hinput, h⟩ := exists_of_bind_eq_ok h
      obtain ⟨output, houtput, h⟩ := exists_of_bind_eq_ok h
      cases h
      refine ⟨huri, hrevision, fun _ => ?_,
        fun h => absurd (hkind.symm.trans h) (by decide), hother (by decide)⟩
      rw [List.map_cons, List.map_singleton, kind_of_partVia hinput, kind_of_partVia houtput]
  | leaf | leafList | anydata | anyxml =>
      cases h
      exact ⟨huri, hrevision, hother (by decide),
        fun h => absurd (hkind.symm.trans h) (by decide), fun _ => rfl⟩

theorem allShaped_implicitCase {uri : String} {revision : Option Revision} {n : SchemaNode} :
    AllShaped uri revision (implicitCase n) ↔ AllShaped uri revision n := by
  have hself : AllShaped uri revision n → (implicitCase n).Shaped uri revision := by
    intro h
    obtain ⟨hn, -⟩ := allShaped_iff.mp h
    exact ⟨hn.uri, hn.revision, by simp [implicitCase], by simp [implicitCase],
      by simp [implicitCase]⟩
  rw [allShaped_iff]
  simp only [implicitCase, List.forall_mem_singleton]
  exact and_iff_right_of_imp hself

theorem allShaped_emptyPart {kind : NodeKind} (h : kind ∉ [.rpc, .action]) :
    AllShaped env.main.uri env.main.revision (emptyPart env kind) := by
  refine allShaped_iff.mpr ⟨⟨rfl, rfl, fun hkind => absurd hkind h, fun _ => ?_, fun _ => rfl⟩, ?_⟩
  · exact fun c hc => absurd hc List.not_mem_nil
  · exact fun c hc => absurd hc List.not_mem_nil

/-- All nodes of a constituent have their shape, whichever module its statements are written in. -/
theorem allShaped_of_nodes {depth : Nat} {b : Constituent} {nodes : List SchemaNode}
    (h : b.nodes env (.upTo env depth) scope inherited = .ok nodes) :
    ∀ n ∈ nodes, AllShaped env.main.uri env.main.revision n := by
  refine Constituent.induction env
    (motive := fun _ _ _ _ nodes => ∀ n ∈ nodes, AllShaped env.main.uri env.main.revision n)
    ?node ?uses depth scope inherited b nodes h
  case node =>
    intro depth scope inherited kind stmt n hn ih
    refine List.forall_mem_singleton.mpr (allShaped_iff.mpr ⟨shaped_of_nodeVia hn, ?_⟩)
    refine (forall_children_iff (fun _ => allShaped_implicitCase)
      (allShaped_emptyPart (by decide)) (allShaped_emptyPart (by decide)) hn).mpr fun b hb => ?_
    obtain ⟨nodes, hnodes⟩ := exists_nodes_of_nodeVia hn hb
    exact ⟨nodes, hnodes, ih b hb nodes hnodes⟩
  case uses =>
    -- the condition and the refinements of a `uses` statement keep the outlines
    intro depth scope inherited stmt grouping inner nodes used hleads hnodes ih hused
    refine (forall_allShaped_congr ((outline_refined hused).trans
      (outline_conditioned stmt nodes))).mpr ?_
    refine (forall_nodesVia_iff hnodes).mpr fun b hb => ?_
    obtain ⟨nodes, hnodes⟩ := exists_nodes_of_nodesVia hnodes hb
    exact ⟨nodes, hnodes, ih b hb nodes hnodes⟩

/-! ### Modules -/

variable {m : Module}

theorem allShaped_of_module (h : env.module = .ok m) :
    ∀ n ∈ m.trees, AllShaped env.main.uri env.main.revision n := by
  have hshaped : ∀ {scope inherited} {b : Constituent},
      b.All env (.upTo env maxDepth) scope inherited (fun _ => True) →
      b.All env (.upTo env maxDepth) scope inherited
        (AllShaped env.main.uri env.main.revision) := by
    rintro scope inherited b ⟨nodes, hnodes, -⟩
    exact ⟨nodes, hnodes, allShaped_of_nodes hnodes⟩
  have hparts := module_eq_ok h
  obtain ⟨hdata, hrpcs, haugmentations⟩ := hparts.forall_trees_iff.mp fun _ _ => trivial
  refine hparts.forall_trees_iff.mpr ⟨?_, ?_, ?_⟩
  · exact fun b hb => hshaped (hdata b hb)
  · exact fun stmt hstmt htag => hshaped (hrpcs stmt hstmt htag)
  · exact fun stmt hstmt htag a ha b hb => hshaped (haugmentations stmt hstmt htag a ha b hb)

theorem kind_of_mem_rpcs (h : env.module = .ok m) {n : SchemaNode} (hn : n ∈ m.rpcs) :
    n.data.kind = .rpc := by
  obtain ⟨stmt, -, -, hnode⟩ := ((module_eq_ok h).rpcs n).mp hn
  exact kind_of_nodeVia hnode

/-- The nodes at the top are apart by whether they are notifications, and the header is that of the
module that is being loaded. -/
theorem header_and_top_of_module (h : env.module = .ok m) :
    m.uri = env.main.uri ∧ m.revision = env.main.revision ∧
      (∀ n ∈ m.notifications, n.data.kind = .notification) ∧
      ∀ n ∈ m.children, n.data.kind ≠ .notification := by
  obtain ⟨nodes, -, h⟩ := exists_of_bind_eq_ok h
  obtain ⟨definitions, -, h⟩ := exists_of_bind_eq_ok h
  cases h
  refine ⟨rfl, rfl, fun n hn => ?_, fun n hn => ?_⟩
  · simpa using (List.mem_filter.mp hn).2
  · simpa using (List.mem_filter.mp hn).2

end Yin

namespace Loading.Loader

open Text Yin

variable {loader after : Loader} {tree : FileTree} {m : Module}

/-- Every loaded module has the namespace and revision of its header, and so has the name of each
node in it, at any depth and whichever module its grouping came from. All operations, choices and
leaves have the children that they should have, and the nodes at the top are sorted by kind. -/
theorem loaded_shape {origin : Origin} (h : loader.load tree origin = (.ok m, after)) :
    ∃ main, origin.header tree = .ok main ∧ m.uri = main.uri ∧ m.revision = main.revision ∧
      (∀ n, m.HasNode n → n.Shaped main.uri main.revision) ∧
      (∀ n ∈ m.rpcs, n.data.kind = .rpc) ∧
      (∀ n ∈ m.notifications, n.data.kind = .notification) ∧
      ∀ n ∈ m.children, n.data.kind ≠ .notification := by
  obtain ⟨main, hmain, hmodule⟩ := module_of_load h
  obtain ⟨huri, hrevision, hnotifications, hchildren⟩ := header_and_top_of_module hmodule
  refine ⟨main, hmain, huri, hrevision, fun n hn => ?_, fun n => kind_of_mem_rpcs hmodule,
    hnotifications, hchildren⟩
  obtain ⟨top, htop, names, hn⟩ := Module.hasNode_iff.mp hn
  exact allShaped_of_module hmodule top htop n (occurs_singleton.mpr ⟨names, hn⟩)

/-- A module with an operation that states nothing, and a grouping with a leaf directly in a choice.
-/
def choiceUsed : Bytes :=
  ("<module name=\"a\"><namespace uri=\"u\"/><prefix value=\"a\"/><rpc name=\"r\"/>" ++
    "<grouping name=\"g\"><choice name=\"h\"><leaf name=\"c\"><type name=\"string\"/></leaf>" ++
    "</choice></grouping><uses name=\"g\"/></module>").toUTF8.toList

theorem loaded_shape_choiceUsed :
    ∃ m rpc choice, load ⟨[], []⟩ ⟨.empty, ⟨"/"⟩⟩ (.document choiceUsed none) =
        (.ok m, ⟨[], []⟩) ∧
      rpc ∈ m.rpcs ∧ rpc.children.map (fun c => c.data.kind) = [.input, .output] ∧
      choice ∈ m.children ∧ choice.data.qname.uri = m.uri ∧ choice.children ≠ [] ∧
      ∀ c ∈ choice.children, c.data.kind = .branch := by
  have hchecked : loadsAlone choiceUsed (fun m => !m.rpcs.isEmpty &&
      m.children.any fun n => n.data.kind == .choice && !n.children.isEmpty) = true := by
    decide +kernel
  obtain ⟨m, hload, hany⟩ := exists_of_loadsAlone hchecked ⟨.empty, ⟨"/"⟩⟩
  simp only [Bool.and_eq_true, List.any_eq_true, beq_iff_eq, Bool.not_eq_true',
    List.isEmpty_eq_false_iff] at hany
  obtain ⟨hrpcs, choice, hchoice, hkind, hne⟩ := hany
  obtain ⟨rpc, hrpc⟩ := List.exists_mem_of_ne_nil _ hrpcs
  obtain ⟨main, -, huri, -, hshaped, hoperations, -⟩ := loaded_shape hload
  have hoperation := hshaped rpc (.rpc (.of_mem hrpc))
  have hcases := hshaped choice (.data (.of_mem hchoice))
  exact ⟨m, rpc, choice, hload, hrpc, hoperation.operation (by simp [hoperations rpc hrpc]),
    hchoice, hcases.uri.trans huri.symm, hne, hcases.choice hkind⟩

end Loading.Loader

end YangEvolution
