import YangEvolution.Proofs.Agreement
import YangEvolution.Proofs.FirstMatch
import YangEvolution.Proofs.NodeBuilding
import YangEvolution.Proofs.Refining

/-!
What is inherited as `config`. Nodes that differ in the values of `config` only are alike once all
configuration among them is made state data. Main statement: statements that inherit one value are
resolved as they are with another, to nodes that differ in the values of `config` only.
-/

namespace YangEvolution

open SchemaNode

namespace Yin

open Text Markup Outcome

/-- Nodes that are the same, at all depths, but for the values of `config`. -/
def Recoloured (n n' : SchemaNode) : Prop :=
  clearConfig n' = clearConfig n

/-- Lists of such nodes. -/
def RecolouredAll (nodes nodes' : List SchemaNode) : Prop :=
  nodes'.map clearConfig = nodes.map clearConfig

variable {n n' : SchemaNode} {nodes nodes' : List SchemaNode}

theorem clearConfig_eq (n : SchemaNode) :
    clearConfig n =
      ⟨{ n.data with config := n.data.config.map fun _ => false }, n.children.map clearConfig⟩ := by
  obtain ⟨data, children⟩ := n
  rw [clearConfig, clearConfigAll_eq_map]

theorem recoloured_iff : Recoloured n n' ↔
    (∃ config : Option Bool, config.isSome = n.data.config.isSome ∧
      n'.data = { n.data with config }) ∧ RecolouredAll n.children n'.children := by
  rw [Recoloured, clearConfig_eq, clearConfig_eq, SchemaNode.mk.injEq, RecolouredAll]
  refine and_congr_left fun _ => ?_
  obtain ⟨⟨kind, qname, status, description, reference, config, mandatory, count, musts, when,
    type⟩, children⟩ := n
  obtain ⟨⟨kind', qname', status', description', reference', config', mandatory', count', musts',
    when', type'⟩, children'⟩ := n'
  have hmap : ∀ a b : Option Bool,
      (a.map fun _ => false) = (b.map fun _ => false) ↔ a.isSome = b.isSome := by
    intro a b
    cases a <;> cases b <;> simp
  simp only [NodeData.mk.injEq, hmap]
  constructor
  · rintro ⟨rfl, rfl, rfl, rfl, rfl, hconfig, rfl, rfl, rfl, rfl, rfl⟩
    exact ⟨config', hconfig, rfl, rfl, rfl, rfl, rfl, rfl, rfl, rfl, rfl, rfl, rfl⟩
  · rintro ⟨_, hconfig, rfl, rfl, rfl, rfl, rfl, rfl, rfl, rfl, rfl, rfl, rfl⟩
    exact ⟨rfl, rfl, rfl, rfl, rfl, hconfig, rfl, rfl, rfl, rfl, rfl⟩

theorem RecolouredAll.cons (h : Recoloured n n') (hrest : RecolouredAll nodes nodes') :
    RecolouredAll (n :: nodes) (n' :: nodes') := by
  rw [RecolouredAll, List.map_cons, List.map_cons, h, hrest]

theorem RecolouredAll.append {others others' : List SchemaNode} (h : RecolouredAll nodes nodes')
    (hothers : RecolouredAll others others') :
    RecolouredAll (nodes ++ others) (nodes' ++ others') := by
  rw [RecolouredAll, List.map_append, List.map_append, h, hothers]

theorem Recoloured.localName (h : Recoloured n n') : n'.localName = n.localName := by
  obtain ⟨⟨config, -, hdata⟩, -⟩ := recoloured_iff.mp h
  rw [SchemaNode.localName, SchemaNode.localName, hdata]

theorem RecolouredAll.forall₂ (h : RecolouredAll nodes nodes') :
    List.Forall₂ Recoloured nodes nodes' :=
  forall₂_of_map_eq h

theorem recolouredAll_of_forall₂ (h : List.Forall₂ Recoloured nodes nodes') :
    RecolouredAll nodes nodes' :=
  map_eq_of_forall₂ h

/-! ### Operations on nodes -/

theorem Recoloured.addCondition (h : Recoloured n n') (condition : String) :
    Recoloured (addCondition condition n) (addCondition condition n') := by
  obtain ⟨⟨config, hconfig, hdata⟩, hchildren⟩ := recoloured_iff.mp h
  refine recoloured_iff.mpr ⟨⟨config, hconfig, ?_⟩, hchildren⟩
  simp only [Yin.addCondition, hdata]

theorem Recoloured.implicitCase (h : Recoloured n n') :
    Recoloured (implicitCase n) (implicitCase n') := by
  obtain ⟨⟨config, hconfig, hdata⟩, -⟩ := recoloured_iff.mp h
  refine recoloured_iff.mpr ⟨⟨config, hconfig, ?_⟩, .cons h rfl⟩
  simp only [Yin.implicitCase, hdata]

section Refining

variable {strict : Prop} {owner : String} {stmt : Element}

theorem Recoloured.refineConfig (h : Recoloured n n') :
    Agree strict Recoloured (refineConfig owner stmt n) (refineConfig owner stmt n') := by
  obtain ⟨⟨config, hconfig, hdata⟩, hchildren⟩ := recoloured_iff.mp h
  unfold Yin.refineConfig
  cases stmt.childAttribute? "config" "value" with
  | none => exact .ok h
  | some raw =>
      refine (Agree.refl (readFlag owner "config" raw)).bind_eq fun value => ?_
      refine .ok (recoloured_iff.mpr ⟨⟨some value, rfl, ?_⟩, ?_⟩)
      · simp only [hdata]
      · cases value with
        | true => exact hchildren
        | false =>
            simp only [Bool.false_eq_true, if_false, clearConfigAll_eq_map]
            exact congrArg (List.map clearConfig) hchildren

theorem Recoloured.refineNode (h : Recoloured n n') :
    Agree strict Recoloured (refineNode owner stmt n) (refineNode owner stmt n') := by
  have htexts : Recoloured (refineTexts stmt n) (refineTexts stmt n') := by
    obtain ⟨⟨config, hconfig, hdata⟩, hchildren⟩ := recoloured_iff.mp h
    refine recoloured_iff.mpr ⟨⟨config, hconfig, ?_⟩, hchildren⟩
    simp only [refineTexts, hdata]
  refine htexts.refineConfig.bind fun m m' hm => ?_
  have hmandatory : Agree strict Recoloured (refineMandatory owner stmt m)
      (refineMandatory owner stmt m') := by
    obtain ⟨⟨config, hconfig, hdata⟩, hchildren⟩ := recoloured_iff.mp hm
    unfold refineMandatory
    split
    · exact .ok hm
    · refine (Agree.refl _).bind_eq fun value => .ok (recoloured_iff.mpr ⟨⟨config, hconfig, ?_⟩,
        hchildren⟩)
      simp only [hdata]
  refine hmandatory.bind fun m m' hm => ?_
  have hcount : Agree strict Recoloured (refineCount owner stmt m) (refineCount owner stmt m') := by
    obtain ⟨⟨config, hconfig, hdata⟩, hchildren⟩ := recoloured_iff.mp hm
    unfold refineCount
    dsimp only
    split
    · refine (Agree.refl _).bind_eq fun value => .ok (recoloured_iff.mpr ⟨⟨config, hconfig, ?_⟩,
        hchildren⟩)
      simp only [hdata]
    · exact .ok hm
  refine hcount.bind fun m m' hm => ?_
  have hdefault : Recoloured (refineDefault stmt m) (refineDefault stmt m') := by
    obtain ⟨⟨config, hconfig, hdata⟩, hchildren⟩ := recoloured_iff.mp hm
    unfold refineDefault
    split
    · exact hm
    · refine recoloured_iff.mpr ⟨⟨config, hconfig, ?_⟩, hchildren⟩
      simp only [hdata]
  obtain ⟨⟨config, hconfig, hdata⟩, hchildren⟩ := recoloured_iff.mp hdefault
  refine (Agree.refl _).bind_eq fun value => .ok (recoloured_iff.mpr ⟨⟨config, hconfig, ?_⟩,
    hchildren⟩)
  simp only [hdata]

theorem RecolouredAll.modifyFirst {fault : LoadFault} {name : String}
    {change : SchemaNode → Except LoadFault SchemaNode}
    (hchange : ∀ n n', Recoloured n n' → Agree strict Recoloured (change n) (change n'))
    (h : RecolouredAll nodes nodes') :
    Agree strict RecolouredAll (modifyFirst fault name change nodes)
      (modifyFirst fault name change nodes') := by
  have hnodes := h.forall₂
  clear h
  induction hnodes with
  | nil => exact .error fun _ => rfl
  | @cons n n' rest rest' hn hrest ih =>
      rw [Yin.modifyFirst, Yin.modifyFirst, hn.localName]
      split
      · exact (hchange n n' hn).bind fun m m' hm =>
          .ok (.cons hm (recolouredAll_of_forall₂ hrest))
      · exact ih.bind fun _ _ hall => .ok (.cons hn hall)

theorem RecolouredAll.modifyAt {fault : LoadFault} (steps : List String)
    (h : RecolouredAll nodes nodes') :
    Agree strict RecolouredAll (modifyAt fault (Yin.refineNode owner stmt) steps nodes)
      (modifyAt fault (Yin.refineNode owner stmt) steps nodes') := by
  induction steps generalizing nodes nodes' with
  | nil => exact .error fun _ => rfl
  | cons name rest ih =>
      cases rest with
      | nil => exact h.modifyFirst fun n n' hn => hn.refineNode
      | cons next rest =>
          refine h.modifyFirst fun n n' hn => ?_
          obtain ⟨hdata, hchildren⟩ := recoloured_iff.mp hn
          exact (ih hchildren).bind fun _ _ hall => .ok (recoloured_iff.mpr ⟨hdata, hall⟩)

theorem RecolouredAll.foldlM_refine (stmts : List Element) (h : RecolouredAll nodes nodes') :
    Agree strict RecolouredAll (stmts.foldlM (refine owner) nodes)
      (stmts.foldlM (refine owner) nodes') := by
  induction stmts generalizing nodes nodes' with
  | nil => exact .ok h
  | cons stmt rest ih =>
      rw [List.foldlM_cons, List.foldlM_cons]
      refine Agree.bind ?_ fun _ _ hall => ih hall
      exact (Agree.refl _).bind_eq fun _ => h.modifyAt _

end Refining

/-! ### Resolving -/

section Resolving

variable {strict : Prop} {env : Environment} {refs : References} {scope : Scope}
  {inherited inherited' : Option Bool}

theorem agree_nodeDataOf (h : inherited'.isSome = inherited.isSome) (kind : NodeKind)
    (stmt : Element) :
    Agree strict (fun d d' => ∃ config : Option Bool, config.isSome = d.config.isSome ∧
        d' = { d with config }) (nodeDataOf env refs scope inherited kind stmt)
      (nodeDataOf env refs scope inherited' kind stmt) := by
  have hinherited : (inheritedConfig kind inherited').isSome =
      (inheritedConfig kind inherited).isSome := by
    cases kind <;> first | exact h | rfl
  have hconfig : Agree strict (fun c c' : Option Bool => c'.isSome = c.isSome)
      (configOf scope.owner stmt (inheritedConfig kind inherited))
      (configOf scope.owner stmt (inheritedConfig kind inherited')) := by
    revert hinherited
    generalize inheritedConfig kind inherited = a
    generalize inheritedConfig kind inherited' = b
    intro hab
    cases a with
    | none =>
        cases b with
        | none => exact .ok rfl
        | some _ => cases hab
    | some a =>
        cases b with
        | none => cases hab
        | some b =>
            unfold configOf
            cases stmt.childAttribute? "config" "value" with
            | none => exact .ok rfl
            | some raw =>
                exact ((Agree.refl _).map_eq some).imp fun _ _ heq => heq ▸ rfl
  unfold nodeDataOf
  refine (Agree.refl _).bind_eq fun name => (Agree.refl _).bind_eq fun status =>
    (Agree.refl _).bind_eq fun musts => hconfig.bind fun config config' hsome =>
    (Agree.refl _).bind_eq fun mandatory => (Agree.refl _).bind_eq fun count =>
    (Agree.refl _).bind_eq fun type => .ok ⟨config', hsome, rfl⟩

/-- The nodes of groupings do not depend on the value that is inherited, up to `config`. -/
def References.Recolour (strict : Prop) (refs : References) : Prop :=
  ∀ name stmt inner, ∀ inherited inherited' : Option Bool, inherited'.isSome = inherited.isSome →
    Agree strict RecolouredAll (refs.grouping name stmt inner inherited)
      (refs.grouping name stmt inner inherited')

theorem agree_usedNodes (hrefs : refs.Recolour strict) (h : inherited'.isSome = inherited.isSome)
    (stmt : Element) :
    Agree strict RecolouredAll (usedNodes env refs scope inherited stmt)
      (usedNodes env refs scope inherited' stmt) := by
  unfold usedNodes
  refine (Agree.refl _).bind_eq fun name => (Agree.refl _).bind_eq fun found => ?_
  cases found with
  | none => exact .error fun _ => rfl
  | some found =>
      refine (hrefs name _ _ _ _ h).bind fun nodes nodes' hnodes => ?_
      cases whenOf stmt with
      | none => exact hnodes.foldlM_refine _
      | some condition =>
          refine RecolouredAll.foldlM_refine _ (recolouredAll_of_forall₂ ?_)
          rw [List.forall₂_map_left_iff, List.forall₂_map_right_iff]
          exact hnodes.forall₂.imp fun _ _ hn => hn.addCondition condition

section Lists

variable {stmts : List Element} (hrefs : refs.Recolour strict)
  (hstmts : ∀ c ∈ stmts, ∀ kind scope, ∀ inherited inherited' : Option Bool,
    inherited'.isSome = inherited.isSome →
      Agree strict Recoloured (nodeVia env refs scope inherited kind c)
        (nodeVia env refs scope inherited' kind c))
  (h : inherited'.isSome = inherited.isSome)

include hrefs hstmts h

theorem agree_nodesVia :
    Agree strict RecolouredAll (nodesVia env refs scope inherited stmts)
      (nodesVia env refs scope inherited' stmts) := by
  induction stmts with
  | nil => exact .ok rfl
  | cons c rest ih =>
      have hrest := ih fun d hd => hstmts d (List.mem_cons_of_mem _ hd)
      rw [nodesVia, nodesVia]
      cases dataKind? c.tag with
      | some kind =>
          exact (hstmts c List.mem_cons_self kind scope _ _ h).bind fun _ _ hn =>
            hrest.bind fun _ _ hall => .ok (.cons hn hall)
      | none =>
          dsimp only
          split
          · exact (agree_usedNodes hrefs h c).bind fun _ _ hused =>
              hrest.bind fun _ _ hall => .ok (hused.append hall)
          · exact hrest

omit hrefs in
theorem agree_casesVia :
    Agree strict RecolouredAll (casesVia env refs scope inherited stmts)
      (casesVia env refs scope inherited' stmts) := by
  induction stmts with
  | nil => exact .ok rfl
  | cons c rest ih =>
      have hrest := ih fun d hd => hstmts d (List.mem_cons_of_mem _ hd)
      rw [casesVia, casesVia]
      cases dataKind? c.tag with
      | none => exact hrest
      | some kind =>
          dsimp only
          split
          · refine (hstmts c List.mem_cons_self kind scope _ _ h).bind fun n n' hn =>
              hrest.bind fun _ _ hall => .ok (.cons ?_ hall)
            split
            · exact hn
            · exact hn.implicitCase
          · exact hrest

theorem agree_childrenVia (kind : NodeKind) :
    Agree strict RecolouredAll (childrenVia env refs scope inherited kind stmts)
      (childrenVia env refs scope inherited' kind stmts) := by
  cases kind with
  | container | list | branch | input | output | notification =>
      exact agree_nodesVia hrefs hstmts h
  | choice => exact agree_casesVia hstmts h
  | rpc | action =>
      exact ((Agree.refl _).imp fun _ _ heq => congrArg (List.map clearConfig) heq.symm)
  | leaf | leafList | anydata | anyxml => exact .ok rfl

end Lists

theorem agree_nodeVia (hrefs : refs.Recolour strict) (h : inherited'.isSome = inherited.isSome)
    (kind : NodeKind) (stmt : Element) :
    Agree strict Recoloured (nodeVia env refs scope inherited kind stmt)
      (nodeVia env refs scope inherited' kind stmt) := by
  induction stmt using Element.treeInduction generalizing kind scope inherited inherited' with
  | element stmt ih =>
      rw [nodeVia_eq, nodeVia_eq]
      refine (agree_nodeDataOf h kind stmt).bind ?_
      rintro data _ ⟨config, hconfig, rfl⟩
      refine Agree.bind (agree_childrenVia hrefs (fun c hc kind _ _ _ h => ih c hc h kind) hconfig
        kind) ?_
      exact fun _ _ hall => .ok (recoloured_iff.mpr ⟨⟨config, hconfig, rfl⟩, hall⟩)

theorem recolour_upTo (env : Environment) (depth : Nat) :
    (References.upTo env depth).Recolour strict := by
  induction depth with
  | zero => exact fun _ _ _ _ _ _ => .error fun _ => rfl
  | succ depth ih =>
      intro name stmt inner inherited inherited' h
      exact agree_nodesVia ih (fun c _ kind _ _ _ h => agree_nodeVia ih h kind c) h

/-- What is below a statement is resolved with any value that it inherits, to nodes that differ in
the values of `config` only. -/
theorem exists_childrenVia_of_inherited {depth : Nat} {kind : NodeKind} {stmts : List Element}
    (h : inherited'.isSome = inherited.isSome)
    (hnodes : childrenVia env (.upTo env depth) scope inherited kind stmts = .ok nodes) :
    ∃ nodes', childrenVia env (.upTo env depth) scope inherited' kind stmts = .ok nodes' ∧
      RecolouredAll nodes nodes' := by
  have hrefs : (References.upTo env depth).Recolour True := recolour_upTo env depth
  exact (agree_childrenVia hrefs (fun c _ kind _ _ _ h => agree_nodeVia hrefs h kind c) h
    kind).exists_of_eq_ok hnodes

end Resolving

end Yin

end YangEvolution
