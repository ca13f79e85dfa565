import YangEvolution.Proofs.NodeBuilding
import YangEvolution.Proofs.Refining

/-!
Which optional properties the nodes of a module have. A node is built with what its kind calls for;
only a refinement can give it more, since the kind of the node that it leads to is not looked at.
Main statement: a resolved module has the documented properties at all its nodes exactly when each
refinement on the way to them sets only what the node at its place may have.
-/

namespace YangEvolution

open SchemaNode

/-- The properties of nodes as they are documented. -/
structure Module.Documented (m : Module) : Prop where
  mandatory : ∀ n, m.HasNode n →
    (n.data.mandatory.isSome ↔ n.data.kind ∈ [.leaf, .choice, .anydata, .anyxml])
  count : ∀ n, m.HasNode n → n.data.count.isSome → n.data.kind ∈ [.list, .leafList]
  type : ∀ n, m.HasNode n → (n.data.type.isSome ↔ n.data.kind ∈ [.leaf, .leafList])
  config : ∀ n, m.HasNode n → n.data.kind ∈ [.rpc, .action, .notification] →
    ∀ d, Occurs [n] d → d.data.config = none

namespace NodeKind

theorem isMandatoryAware_iff (k : NodeKind) :
    k.isMandatoryAware = true ↔ k ∈ [.leaf, .choice, .anydata, .anyxml] := by
  cases k <;> decide

theorem isElementCounted_iff (k : NodeKind) :
    k.isElementCounted = true ↔ k ∈ [.list, .leafList] := by
  cases k <;> decide

theorem isTyped_iff (k : NodeKind) : k.isTyped = true ↔ k ∈ [.leaf, .leafList] := by
  cases k <;> decide

theorem isOperation_iff (k : NodeKind) :
    k.isOperation = true ↔ k ∈ [.rpc, .action, .notification] := by
  cases k <;> decide

end NodeKind

namespace Traits

/-- A node has what its kind calls for. -/
structure Complete (t : Traits) : Prop where
  mandatory : t.kind.isMandatoryAware = true → t.mandatory = true
  type : t.type = t.kind.isTyped

/-- A node has nothing that its place does not allow. -/
structure Proper (t : Traits) : Prop where
  mandatory : t.mandatory = true → t.kind.isMandatoryAware = true
  count : t.count = true → t.kind.isElementCounted = true
  config : t.inOperation = true → t.config = false

end Traits

instance : DecidablePred Traits.Proper := fun t =>
  decidable_of_iff
    ((t.mandatory = true → t.kind.isMandatoryAware = true) ∧
      (t.count = true → t.kind.isElementCounted = true) ∧
      (t.inOperation = true → t.config = false))
    ⟨fun ⟨hmandatory, hcount, hconfig⟩ => ⟨hmandatory, hcount, hconfig⟩,
      fun ⟨hmandatory, hcount, hconfig⟩ => ⟨hmandatory, hcount, hconfig⟩⟩

/-! ### Documented modules -/

namespace SchemaNode

variable {Q : Traits → Prop}

theorem Everywhere.of_contains {n d : SchemaNode} {names : List String}
    (hd : n.Contains names d) {inOperation : Bool} (h : Everywhere Q inOperation n) :
    ∃ inner, (inOperation = true → inner = true) ∧ Everywhere Q inner d := by
  induction hd generalizing inOperation with
  | self n => exact ⟨inOperation, id, h⟩
  | child hc _ ih =>
      obtain ⟨inner, hinner, hd⟩ := ih ((everywhere_iff.mp h).2 _ hc)
      refine ⟨inner, fun hin => hinner ?_, hd⟩
      simp [NodeData.place, hin]

theorem Everywhere.of_occurs {nodes : List SchemaNode} {d : SchemaNode} {inOperation : Bool}
    (h : ∀ n ∈ nodes, Everywhere Q inOperation n) (hd : Occurs nodes d) :
    ∃ inner, (inOperation = true → inner = true) ∧ Everywhere Q inner d := by
  obtain ⟨n, hn, names, hd⟩ := hd
  exact (h n hn).of_contains hd

theorem config_eq_none_of_proper {d : NodeData} {inOperation : Bool}
    (h : (d.traits inOperation).Proper) (hin : (d.place inOperation).inOperation = true) :
    d.config = none := by
  simpa [NodeData.traits] using h.config hin

/-- Below an operation nothing is configuration or state data. -/
theorem Everywhere.config_eq_none {n d : SchemaNode} {inOperation : Bool}
    (h : Everywhere Traits.Proper inOperation n) (hn : n.data.kind.isOperation = true)
    (hd : Occurs [n] d) : d.data.config = none := by
  have hinside : (n.data.place inOperation).inOperation = true := by
    simp [NodeData.place, hn]
  obtain ⟨hself, hchildren⟩ := everywhere_iff.mp h
  rcases occurs_cons.mp hd with rfl | hd | hd
  · exact config_eq_none_of_proper hself hinside
  · obtain ⟨inner, hinner, hd⟩ := Everywhere.of_occurs hchildren hd
    refine config_eq_none_of_proper (everywhere_iff.mp hd).1 ?_
    simp [NodeData.place, hinner hinside]
  · exact absurd hd (not_occurs_nil d)

theorem everywhere_proper_of_occurs {n : SchemaNode} {inOperation : Bool}
    (hmandatory : ∀ d, Occurs [n] d → d.data.mandatory.isSome →
      d.data.kind.isMandatoryAware = true)
    (hcount : ∀ d, Occurs [n] d → d.data.count.isSome → d.data.kind.isElementCounted = true)
    (hconfig : ∀ o, Occurs [n] o → o.data.kind.isOperation = true →
      ∀ d, Occurs [o] d → d.data.config = none)
    (hinside : inOperation = true → ∀ d, Occurs [n] d → d.data.config = none) :
    Everywhere Traits.Proper inOperation n := by
  induction n using treeInduction generalizing inOperation with
  | node data children ih =>
      have hself : Occurs [⟨data, children⟩] ⟨data, children⟩ := .of_mem List.mem_cons_self
      have hbelow : ∀ c ∈ children, ∀ d, Occurs [c] d → Occurs [⟨data, children⟩] d := by
        intro c hc d hd
        obtain ⟨names, hd⟩ := occurs_singleton.mp hd
        exact .below List.mem_cons_self ⟨c, hc, names, hd⟩
      -- all that is below an operation, and all that is in one already
      have hnone : (data.place inOperation).inOperation = true →
          ∀ d, Occurs [⟨data, children⟩] d → d.data.config = none := by
        intro hin
        rcases Bool.or_eq_true_iff.mp hin with hin | hin
        · exact hinside hin
        · exact hconfig _ hself hin
      refine everywhere_iff.mpr ⟨⟨hmandatory _ hself, hcount _ hself, ?_⟩, ?_⟩
      · intro hin
        have hdata : data.config = none := hnone hin _ hself
        simp [NodeData.traits, hdata]
      · intro c hc
        exact ih c hc (fun d hd => hmandatory d (hbelow c hc d hd))
          (fun d hd => hcount d (hbelow c hc d hd)) (fun o ho => hconfig o (hbelow c hc o ho))
          (fun hin d hd => hnone hin d (hbelow c hc d hd))

end SchemaNode

theorem Module.documented_iff {m : Module}
    (hcomplete : ∀ n ∈ m.trees, Everywhere Traits.Complete false n) :
    m.Documented ↔ ∀ n ∈ m.trees, Everywhere Traits.Proper false n := by
  constructor
  · intro h n hn
    have hhas : ∀ d, Occurs [n] d → m.HasNode d := by
      intro d hd
      obtain ⟨names, hd⟩ := occurs_singleton.mp hd
      exact hasNode_iff.mpr ⟨n, hn, names, hd⟩
    refine everywhere_proper_of_occurs ?_ ?_ ?_ (fun hin => by cases hin)
    · intro d hd hsome
      exact (NodeKind.isMandatoryAware_iff _).mpr ((h.mandatory d (hhas d hd)).mp hsome)
    · intro d hd hsome
      exact (NodeKind.isElementCounted_iff _).mpr (h.count d (hhas d hd) hsome)
    · intro o ho hkind
      exact h.config o (hhas o ho) ((NodeKind.isOperation_iff _).mp hkind)
  · intro h
    have hproper : ∀ n, m.HasNode n → ∃ inner, Everywhere Traits.Proper inner n := by
      intro n hn
      obtain ⟨inner, -, hn⟩ := Everywhere.of_occurs h (hasNode_iff.mp hn)
      exact ⟨inner, hn⟩
    have hfull : ∀ n, m.HasNode n → ∃ inner, (n.data.traits inner).Complete := by
      intro n hn
      obtain ⟨inner, -, hn⟩ := Everywhere.of_occurs hcomplete (hasNode_iff.mp hn)
      exact ⟨inner, (everywhere_iff.mp hn).1⟩
    constructor
    · intro n hn
      obtain ⟨inner, hproper⟩ := hproper n hn
      obtain ⟨inner', hfull⟩ := hfull n hn
      rw [← NodeKind.isMandatoryAware_iff]
      exact ⟨(everywhere_iff.mp hproper).1.mandatory, hfull.mandatory⟩
    · intro n hn hsome
      obtain ⟨inner, hproper⟩ := hproper n hn
      exact (NodeKind.isElementCounted_iff _).mp ((everywhere_iff.mp hproper).1.count hsome)
    · intro n hn
      obtain ⟨inner, hfull⟩ := hfull n hn
      rw [← NodeKind.isTyped_iff]
      exact Bool.eq_iff_iff.mp hfull.type
    · intro n hn hkind d hd
      obtain ⟨inner, hproper⟩ := hproper n hn
      exact hproper.config_eq_none ((NodeKind.isOperation_iff _).mpr hkind) hd

/-- A `refine` statement sets only what the node at a place may have. -/
structure Place.Takes (p : Place) (stmt : Markup.Element) : Prop where
  mandatory : (stmt.childAttribute? "mandatory" "value").isSome → p.kind.isMandatoryAware = true
  count : (stmt.child? "min-elements").isSome ∨ (stmt.child? "max-elements").isSome →
    p.kind.isElementCounted = true
  config : p.inOperation = true → stmt.childAttribute? "config" "value" = none

namespace Yin

open Text Markup Outcome

/-- A `refine` statement sets only what the node that it leads to may have. -/
def RefineFits (owner : String) (inOperation : Bool) (nodes : List SchemaNode) (stmt : Element) :
    Prop :=
  ∀ path, argument owner stmt "target-node" = .ok path →
    ∀ p, place? inOperation (refineSteps path) nodes = some p → p.Takes stmt

/-- The refinements on the way to the nodes of a constituent set only what the nodes that they lead
to may have: those of the uses among the constituents below it, and those of the uses in the
groupings that are followed. -/
inductive Fits (env : Environment) :
    Nat → Scope → Option Bool → Bool → Constituent → Prop where
  | node {depth : Nat} {scope : Scope} {inherited : Option Bool} {inOperation : Bool}
      {kind : NodeKind} {stmt : Element} :
      (∀ data, nodeDataOf env (.upTo env depth) scope inherited kind stmt = .ok data →
        ∀ b ∈ constituents kind stmt.children,
          Fits env depth (scope.enter stmt) data.config (inOperation || kind.isOperation) b) →
      Fits env depth scope inherited inOperation ⟨some kind, stmt⟩
  | uses {depth : Nat} {scope : Scope} {inherited : Option Bool} {inOperation : Bool}
      {stmt : Element} :
      (∀ grouping inner, LeadsTo env scope stmt grouping inner →
        ∀ b ∈ grouping.children.filterMap bodyConstituent?,
          Fits env depth (inner.enter grouping) inherited inOperation b) →
      (∀ grouping inner nodes, LeadsTo env scope stmt grouping inner →
        nodesVia env (.upTo env depth) (inner.enter grouping) inherited grouping.children =
          .ok nodes →
        ∀ r ∈ stmt.childrenOf "refine", RefineFits scope.owner inOperation nodes r) →
      Fits env (depth + 1) scope inherited inOperation ⟨none, stmt⟩

/-! ### Refinements -/

theorem proper_refinedTraits_iff {stmt : Element} {t : Traits} :
    (refinedTraits stmt t).Proper ↔ t.Proper ∧ t.toPlace.Takes stmt := by
  constructor
  · rintro ⟨hmandatory, hcount, hconfig⟩
    simp only [refinedTraits, Bool.or_eq_true, Bool.or_eq_false_iff] at hmandatory hcount hconfig
    refine ⟨⟨fun h => hmandatory (.inl h), fun h => hcount (.inl (.inl h)),
      fun h => (hconfig h).1⟩, fun h => hmandatory (.inr h), ?_, ?_⟩
    · rintro (h | h)
      · exact hcount (.inl (.inr h))
      · exact hcount (.inr h)
    · intro h
      simpa using (hconfig h).2
  · rintro ⟨hproper, htakes⟩
    constructor
    · intro h
      exact (Bool.or_eq_true_iff.mp h).elim hproper.mandatory htakes.mandatory
    · intro h
      rcases Bool.or_eq_true_iff.mp h with h | h
      · exact (Bool.or_eq_true_iff.mp h).elim hproper.count fun h => htakes.count (.inl h)
      · exact htakes.count (.inr h)
    · intro h
      simp [refinedTraits, hproper.config h, htakes.config h]

theorem complete_refinedTraits {stmt : Element} {t : Traits} (h : t.Complete) :
    (refinedTraits stmt t).Complete where
  mandatory hkind := by simp [refinedTraits, h.mandatory hkind]
  type := h.type

variable {owner : String} {refines : List Element} {nodes used : List SchemaNode}

theorem refineFits_congr {nodes' : List SchemaNode} (h : nodes'.map outline = nodes.map outline)
    {inOperation : Bool} {r : Element} :
    RefineFits owner inOperation nodes' r ↔ RefineFits owner inOperation nodes r := by
  simp only [RefineFits, place?_congr h]

theorem forall_proper_refined_iff (h : refines.foldlM (refine owner) nodes = .ok used)
    (inOperation : Bool) :
    (∀ n ∈ used, Everywhere Traits.Proper inOperation n) ↔
      (∀ n ∈ nodes, Everywhere Traits.Proper inOperation n) ∧
      ∀ r ∈ refines, RefineFits owner inOperation nodes r := by
  induction refines generalizing nodes with
  | nil =>
      cases h
      simp
  | cons r rest ih =>
      rw [List.foldlM_cons] at h
      obtain ⟨next, hnext, h⟩ := exists_of_bind_eq_ok h
      obtain ⟨path, hpath, houtline, before, t, after, hplace, hentry, hentry'⟩ :=
        refine_eq_ok hnext inOperation
      -- one entry of the inventory has changed; the later refinements still lead where they led
      have hhead : (∀ n ∈ next, Everywhere Traits.Proper inOperation n) ↔
          (∀ n ∈ nodes, Everywhere Traits.Proper inOperation n) ∧ t.toPlace.Takes r := by
        rw [forall_everywhere_iff, forall_everywhere_iff, hentry, hentry']
        simp only [List.forall_mem_append, List.forall_mem_cons, proper_refinedTraits_iff]
        grind
      have hfits : RefineFits owner inOperation nodes r ↔ t.toPlace.Takes r := by
        simp [RefineFits, hpath, hplace]
      rw [ih h, hhead, and_assoc, List.forall_mem_cons, hfits]
      simp only [refineFits_congr houtline]

theorem forall_complete_refined (h : refines.foldlM (refine owner) nodes = .ok used)
    {inOperation : Bool} (hnodes : ∀ n ∈ nodes, Everywhere Traits.Complete inOperation n) :
    ∀ n ∈ used, Everywhere Traits.Complete inOperation n := by
  induction refines generalizing nodes with
  | nil =>
      cases h
      exact hnodes
  | cons r rest ih =>
      rw [List.foldlM_cons] at h
      obtain ⟨next, hnext, h⟩ := exists_of_bind_eq_ok h
      obtain ⟨path, -, -, before, t, after, -, hentry, hentry'⟩ := refine_eq_ok hnext inOperation
      refine ih h ?_
      rw [forall_everywhere_iff, hentry']
      rw [forall_everywhere_iff, hentry] at hnodes
      simp only [List.forall_mem_append, List.forall_mem_cons] at hnodes ⊢
      exact ⟨hnodes.1, complete_refinedTraits hnodes.2.1, hnodes.2.2⟩

theorem inventories_conditioned (stmt : Element) (nodes : List SchemaNode) (inOperation : Bool) :
    inventories inOperation (conditioned stmt nodes) = inventories inOperation nodes := by
  unfold conditioned
  split
  · rw [inventories_eq_flatMap, inventories_eq_flatMap, List.flatMap_map]
    congr
    funext n
    exact inventory_addCondition _ n inOperation
  · rfl

theorem outline_conditioned (stmt : Element) (nodes : List SchemaNode) :
    (conditioned stmt nodes).map outline = nodes.map outline := by
  unfold conditioned
  split
  · rw [List.map_map]
    exact List.map_congr_left fun n _ => outline_addCondition _ n
  · rfl

/-! ### Constituents -/

theorem everywhere_implicitCase {Q : Traits → Prop} {n : SchemaNode} {inOperation : Bool} :
    Everywhere Q inOperation (implicitCase n) ↔
      Q ((implicitCase n).data.traits inOperation) ∧ Everywhere Q inOperation n := by
  rw [everywhere_iff]
  simp [implicitCase, NodeData.place, NodeKind.isOperation]

theorem everywhere_complete_implicitCase {n : SchemaNode} {inOperation : Bool} :
    Everywhere Traits.Complete inOperation (implicitCase n) ↔
      Everywhere Traits.Complete inOperation n := by
  have hself : ((implicitCase n).data.traits inOperation).Complete := ⟨nofun, rfl⟩
  rw [everywhere_implicitCase, and_iff_right hself]

theorem everywhere_proper_implicitCase {n : SchemaNode} {inOperation : Bool} :
    Everywhere Traits.Proper inOperation (implicitCase n) ↔
      Everywhere Traits.Proper inOperation n := by
  have hself : Everywhere Traits.Proper inOperation n →
      ((implicitCase n).data.traits inOperation).Proper := by
    intro h
    refine ⟨nofun, nofun, fun hin => (everywhere_iff.mp h).1.config ?_⟩
    have hop : inOperation = true := by
      simpa [implicitCase, NodeData.traits, NodeData.place, NodeKind.isOperation] using hin
    simp [NodeData.traits, NodeData.place, hop]
  rw [everywhere_implicitCase, and_iff_right_of_imp hself]

theorem everywhere_emptyPart {Q : Traits → Prop} {env : Environment} {kind : NodeKind}
    {inOperation : Bool} (h : Q ((emptyPart env kind).data.traits inOperation)) :
    Everywhere Q inOperation (emptyPart env kind) :=
  everywhere_iff.mpr ⟨h, fun _ hc => absurd hc List.not_mem_nil⟩

variable {env : Environment} {refs : References} {scope : Scope} {inherited : Option Bool}

/-- Where a node is built, so are all its constituents. -/
theorem exists_nodes_of_nodeVia {kind : NodeKind} {stmt : Element} {n : SchemaNode}
    (h : nodeVia env refs scope inherited kind stmt = .ok n) {b : Constituent}
    (hb : b ∈ constituents kind stmt.children) :
    ∃ nodes, b.nodes env refs (scope.enter stmt) n.data.config = .ok nodes := by
  obtain ⟨nodes, hnodes, -⟩ := (forall_children_iff (P := fun _ => True) (fun _ => Iff.rfl) trivial
    trivial h).mp (fun _ _ => trivial) b hb
  exact ⟨nodes, hnodes⟩

theorem exists_nodes_of_nodesVia {stmts : List Element} {nodes : List SchemaNode}
    (h : nodesVia env refs scope inherited stmts = .ok nodes) {b : Constituent}
    (hb : b ∈ stmts.filterMap bodyConstituent?) :
    ∃ nodes, b.nodes env refs scope inherited = .ok nodes := by
  obtain ⟨nodes, hnodes, -⟩ :=
    (forall_nodesVia_iff (P := fun _ => True) h).mp (fun _ _ => trivial) b hb
  exact ⟨nodes, hnodes⟩

/-- Every node has what its kind calls for: it is built with it, and refinements take nothing away.
-/
theorem everywhere_complete {depth : Nat} {b : Constituent} {nodes : List SchemaNode}
    (h : b.nodes env (.upTo env depth) scope inherited = .ok nodes) (inOperation : Bool) :
    ∀ n ∈ nodes, Everywhere Traits.Complete inOperation n := by
  refine Constituent.induction env
    (motive := fun _ _ _ _ nodes => ∀ inOperation, ∀ n ∈ nodes,
      Everywhere Traits.Complete inOperation n)
    ?node ?uses depth scope inherited b nodes h inOperation
  case node =>
    intro depth scope inherited kind stmt n hn ih inOperation m hm
    cases List.mem_singleton.mp hm
    obtain ⟨hkind, -, hmandatory, -, htype⟩ := nodeDataOf_eq_ok (nodeVia_eq_ok hn)
    refine everywhere_iff.mpr ⟨⟨fun haware => ?_, ?_⟩, ?_⟩
    · exact hmandatory.trans (hkind ▸ haware)
    · exact htype.trans (hkind ▸ rfl)
    · refine (forall_children_iff (fun _ => everywhere_complete_implicitCase)
        (everywhere_emptyPart ⟨nofun, rfl⟩) (everywhere_emptyPart ⟨nofun, rfl⟩) hn).mpr ?_
      intro b hb
      obtain ⟨nodes, hnodes⟩ := exists_nodes_of_nodeVia hn hb
      exact ⟨nodes, hnodes, ih b hb nodes hnodes _⟩
  case uses =>
    intro depth scope inherited stmt grouping inner nodes used hleads hnodes ih hused inOperation
    refine forall_complete_refined hused ?_
    rw [forall_everywhere_iff, inventories_conditioned, ← forall_everywhere_iff]
    refine (forall_nodesVia_iff hnodes).mpr ?_
    intro b hb
    obtain ⟨nodes, hnodes⟩ := exists_nodes_of_nodesVia hnodes hb
    exact ⟨nodes, hnodes, ih b hb nodes hnodes _⟩

/-- What the statement of a node says of it is allowed at its place. -/
theorem proper_of_nodeDataOf {kind : NodeKind} {stmt : Element} {data : NodeData}
    (h : nodeDataOf env refs scope inherited kind stmt = .ok data) {inOperation : Bool}
    (hinherited : inOperation = true → inherited = none) :
    (data.traits inOperation).Proper := by
  obtain ⟨rfl, -, hmandatory, hcount, -⟩ := nodeDataOf_eq_ok h
  refine ⟨hmandatory.symm.trans, hcount, fun hin => ?_⟩
  have hnone : data.config = none := by
    rcases Bool.or_eq_true_iff.mp hin with hin | hin
    · cases hinherited hin
      exact config_of_inherited_none h
    · exact config_of_operation h hin
  simp [NodeData.traits, hnone]

/-- The nodes of a constituent are proper exactly when the refinements on the way to them fit. -/
theorem everywhere_proper_iff_fits {depth : Nat} {b : Constituent} {nodes : List SchemaNode}
    (h : b.nodes env (.upTo env depth) scope inherited = .ok nodes) {inOperation : Bool}
    (hinherited : inOperation = true → inherited = none) :
    (∀ n ∈ nodes, Everywhere Traits.Proper inOperation n) ↔
      Fits env depth scope inherited inOperation b := by
  refine Constituent.induction env
    (motive := fun depth scope inherited b nodes => ∀ inOperation,
      (inOperation = true → inherited = none) →
      ((∀ n ∈ nodes, Everywhere Traits.Proper inOperation n) ↔
        Fits env depth scope inherited inOperation b))
    ?node ?uses depth scope inherited b nodes h inOperation hinherited
  case node =>
    intro depth scope inherited kind stmt n hn ih inOperation hinherited
    have hdata := nodeVia_eq_ok hn
    have hself := proper_of_nodeDataOf hdata hinherited
    obtain rfl : n.data.kind = kind := (nodeDataOf_eq_ok hdata).1
    -- what is in an operation inherits neither, so that the hypothesis holds again below
    have hinside : (n.data.place inOperation).inOperation = true → n.data.config = none :=
      config_eq_none_of_proper hself
    rw [List.forall_mem_singleton, everywhere_iff, and_iff_right hself,
      forall_children_iff (fun _ => everywhere_proper_implicitCase)
        (everywhere_emptyPart ⟨nofun, nofun, fun _ => rfl⟩)
        (everywhere_emptyPart ⟨nofun, nofun, fun _ => rfl⟩) hn]
    constructor
    · intro hall
      refine .node fun data hdata' b hb => ?_
      cases hdata.symm.trans hdata'
      obtain ⟨nodes, hnodes, hproper⟩ := hall b hb
      exact (ih b hb nodes hnodes _ hinside).mp hproper
    · rintro (⟨hfits⟩) b hb
      obtain ⟨nodes, hnodes⟩ := exists_nodes_of_nodeVia hn hb
      exact ⟨nodes, hnodes, (ih b hb nodes hnodes _ hinside).mpr (hfits _ hdata b hb)⟩
  case uses =>
    intro depth scope inherited stmt grouping inner nodes used hleads hnodes ih hused inOperation
      hinherited
    rw [forall_proper_refined_iff hused, forall_everywhere_iff, inventories_conditioned,
      ← forall_everywhere_iff, forall_nodesVia_iff hnodes]
    simp only [refineFits_congr (outline_conditioned stmt nodes)]
    constructor
    · rintro ⟨hall, hrefines⟩
      refine .uses ?_ ?_
      · intro grouping' inner' hleads' b hb
        obtain ⟨rfl, rfl⟩ := hleads.unique hleads'
        obtain ⟨nodes, hnodes, hproper⟩ := hall b hb
        exact (ih b hb nodes hnodes _ hinherited).mp hproper
      · intro grouping' inner' nodes' hleads' hnodes'
        obtain ⟨rfl, rfl⟩ := hleads.unique hleads'
        cases hnodes.symm.trans hnodes'
        exact hrefines
    · rintro (_ | ⟨hbody, hrefines⟩)
      refine ⟨fun b hb => ?_, hrefines _ _ _ hleads hnodes⟩
      obtain ⟨nodes, hnodes⟩ := exists_nodes_of_nodesVia hnodes hb
      exact ⟨nodes, hnodes, (ih b hb nodes hnodes _ hinherited).mpr (hbody _ _ hleads b hb)⟩

/-! ### Modules -/

/-- Each refinement on the way to the nodes of the module that is being loaded sets only what the
node that it leads to may have. -/
structure RefinementsFit (env : Environment) : Prop where
  data : ∀ b ∈ env.main.root.children.filterMap bodyConstituent?,
    Fits env maxDepth (Scope.top env.main) (some true) false b
  rpcs : ∀ stmt ∈ env.main.root.children, stmt.tag = "rpc" →
    Fits env maxDepth (Scope.top env.main) none false ⟨some .rpc, stmt⟩
  augmentations : ∀ stmt ∈ env.main.root.children, stmt.tag = "augment" →
    ∀ a, augmentationOf env (Scope.top env.main) stmt = .ok a →
      ∀ b ∈ stmt.children.filterMap bodyConstituent?,
        Fits env maxDepth ((Scope.top env.main).enter stmt) (augmentedConfig a.target) false b

variable {m : Module}

theorem everywhere_complete_of_module (h : env.module = .ok m) :
    ∀ n ∈ m.trees, Everywhere Traits.Complete false n := by
  have hcomplete : ∀ {scope inherited} {b : Constituent},
      b.All env (.upTo env maxDepth) scope inherited (fun _ => True) →
      b.All env (.upTo env maxDepth) scope inherited (Everywhere Traits.Complete false) := by
    rintro scope inherited b ⟨nodes, hnodes, -⟩
    exact ⟨nodes, hnodes, everywhere_complete hnodes false⟩
  have hparts := module_eq_ok h
  obtain ⟨hdata, hrpcs, haugmentations⟩ := hparts.forall_trees_iff.mp fun _ _ => trivial
  refine hparts.forall_trees_iff.mpr ⟨?_, ?_, ?_⟩
  · exact fun b hb => hcomplete (hdata b hb)
  · exact fun stmt hstmt htag => hcomplete (hrpcs stmt hstmt htag)
  · exact fun stmt hstmt htag a ha b hb => hcomplete (haugmentations stmt hstmt htag a ha b hb)

theorem documented_iff_refinementsFit (h : env.module = .ok m) :
    m.Documented ↔ RefinementsFit env := by
  have hproper : ∀ {scope inherited} {b : Constituent},
      b.All env (.upTo env maxDepth) scope inherited (fun _ => True) →
      (b.All env (.upTo env maxDepth) scope inherited (Everywhere Traits.Proper false) ↔
        Fits env maxDepth scope inherited false b) := by
    rintro scope inherited b ⟨nodes, hnodes, -⟩
    rw [Constituent.all_iff hnodes]
    exact everywhere_proper_iff_fits hnodes nofun
  have hparts := module_eq_ok h
  obtain ⟨hdata, hrpcs, haugmentations⟩ := hparts.forall_trees_iff.mp fun _ _ => trivial
  rw [Module.documented_iff (everywhere_complete_of_module h), hparts.forall_trees_iff]
  constructor
  · rintro ⟨hdata', hrpcs', haugmentations'⟩
    constructor
    · exact fun b hb => (hproper (hdata b hb)).mp (hdata' b hb)
    · exact fun stmt hstmt htag => (hproper (hrpcs stmt hstmt htag)).mp (hrpcs' stmt hstmt htag)
    · exact fun stmt hstmt htag a ha b hb =>
        (hproper (haugmentations stmt hstmt htag a ha b hb)).mp
          (haugmentations' stmt hstmt htag a ha b hb)
  · intro hfits
    refine ⟨?_, ?_, ?_⟩
    · exact fun b hb => (hproper (hdata b hb)).mpr (hfits.data b hb)
    · exact fun stmt hstmt htag =>
        (hproper (hrpcs stmt hstmt htag)).mpr (hfits.rpcs stmt hstmt htag)
    · exact fun stmt hstmt htag a ha b hb =>
        (hproper (haugmentations stmt hstmt htag a ha b hb)).mpr
          (hfits.augmentations stmt hstmt htag a ha b hb)

end Yin

end YangEvolution
