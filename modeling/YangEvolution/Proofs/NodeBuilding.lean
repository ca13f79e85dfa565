import YangEvolution.Proofs.SchemaTree
import YangEvolution.Yin.Definition

/-!
How the nodes of a statement come about. The statements that are resolved below another one are its
constituents: statements of nodes, and `uses` statements. A property of nodes that does not tell an
implicit case from the node in it holds of all children of a node exactly when it holds of all nodes
of its constituents, so that what is true of built nodes can be proved statement by statement.
-/

namespace YangEvolution

namespace Yin

open Text Markup Outcome

/-! ### Keywords -/

theorem tag_of_dataKind? {tag : String} {kind : NodeKind} (h : dataKind? tag = some kind) :
    tag = kind.keyword := by
  have hkeyword : NodeKind.ofKeyword? tag = some kind := by
    unfold dataKind? at h
    split at h
    · cases h
    · cases h
    · cases h
    · exact h
  have hfits := List.find?_some (show NodeKind.all.find? _ = some kind from hkeyword)
  exact (beq_iff_eq.mp hfits).symm

theorem ofKeyword?_keyword (kind : NodeKind) : NodeKind.ofKeyword? kind.keyword = some kind := by
  cases kind <;> rfl

theorem kind_of_keyword {kind kind' : NodeKind} (h : kind.keyword = kind'.keyword) :
    kind = kind' := by
  rw [← Option.some_inj, ← ofKeyword?_keyword, h, ofKeyword?_keyword]

/-! ### Statements that are passed over -/

/-- The statements that nodes are built from, in the order in which they stand. -/
def isNodeStatement (stmt : Element) : Bool :=
  (dataKind? stmt.tag).isSome || stmt.tag == "uses"

section Passed

variable (env : Environment) (refs : References) (scope : Scope) (inherited : Option Bool)

theorem membersVia_eq_mapM (follow : TypedefResolver) (stmts : List Element) :
    membersVia env follow scope stmts =
      (stmts.filter fun c => c.tag == "type").mapM (typeVia env follow scope) := by
  induction stmts with
  | nil => rw [membersVia]; rfl
  | cons stmt rest ih =>
      rw [membersVia]
      by_cases htag : stmt.tag = "type"
      · rw [if_pos htag, List.filter_cons_of_pos (by simpa using htag), List.mapM_cons, ih]
        rfl
      · rw [if_neg htag, List.filter_cons_of_neg (by simpa using htag), ih]

theorem nodesVia_filter (stmts : List Element) :
    nodesVia env refs scope inherited (stmts.filter isNodeStatement) =
      nodesVia env refs scope inherited stmts := by
  induction stmts with
  | nil => rfl
  | cons stmt rest ih =>
      cases hkind : dataKind? stmt.tag with
      | some kind =>
          rw [List.filter_cons_of_pos (by simp [isNodeStatement, hkind]), nodesVia, nodesVia, hkind]
          simp only [ih]
      | none =>
          by_cases huses : stmt.tag = "uses"
          · rw [List.filter_cons_of_pos (by simp [isNodeStatement, huses]), nodesVia, nodesVia,
              hkind]
            simp only [ih]
          · rw [List.filter_cons_of_neg (by simp [isNodeStatement, hkind, huses]), ih, nodesVia,
              hkind]
            simp only [if_neg huses]

theorem casesVia_filter (stmts : List Element) :
    casesVia env refs scope inherited (stmts.filter isNodeStatement) =
      casesVia env refs scope inherited stmts := by
  induction stmts with
  | nil => rfl
  | cons stmt rest ih =>
      by_cases hnode : isNodeStatement stmt = true
      · rw [List.filter_cons_of_pos hnode, casesVia, casesVia, ih]
      · have hkind : dataKind? stmt.tag = none := by
          simp only [isNodeStatement, Bool.or_eq_true, not_or, Bool.not_eq_true,
            Option.isSome_eq_false_iff, Option.isNone_iff_eq_none] at hnode
          exact hnode.1
        rw [List.filter_cons_of_neg hnode, ih, casesVia, hkind]

theorem partVia_eq_find? (kind : NodeKind) (stmts : List Element) :
    partVia env refs scope kind stmts =
      match stmts.find? fun c => c.tag == kind.keyword with
      | some stmt => nodeVia env refs scope none kind stmt
      | none => .ok (emptyPart env kind) := by
  induction stmts with
  | nil => rw [partVia]; rfl
  | cons stmt rest ih =>
      rw [partVia]
      by_cases htag : stmt.tag = kind.keyword
      · rw [if_pos htag, List.find?_cons_of_pos (by simpa using htag)]
      · rw [if_neg htag, List.find?_cons_of_neg (by simpa using htag), ih]

theorem nodesVia_append (stmts others : List Element) :
    nodesVia env refs scope inherited (stmts ++ others) = (do
      let nodes ← nodesVia env refs scope inherited stmts
      let more ← nodesVia env refs scope inherited others
      .ok (nodes ++ more)) := by
  induction stmts with
  | nil =>
      rw [List.nil_append, nodesVia, ok_bind]
      cases nodesVia env refs scope inherited others <;> rfl
  | cons stmt rest ih =>
      rw [List.cons_append, nodesVia, nodesVia, ih]
      cases dataKind? stmt.tag with
      | some kind => simp only [bind_assoc, ok_bind, List.cons_append]
      | none =>
          dsimp only
          split
          · simp only [bind_assoc, ok_bind, List.append_assoc]
          · rfl

theorem casesVia_append (stmts others : List Element) :
    casesVia env refs scope inherited (stmts ++ others) = (do
      let nodes ← casesVia env refs scope inherited stmts
      let more ← casesVia env refs scope inherited others
      .ok (nodes ++ more)) := by
  induction stmts with
  | nil =>
      rw [List.nil_append, casesVia, ok_bind]
      cases casesVia env refs scope inherited others <;> rfl
  | cons stmt rest ih =>
      rw [List.cons_append, casesVia, casesVia, ih]
      cases dataKind? stmt.tag with
      | none => rfl
      | some kind =>
          dsimp only
          split
          · simp only [bind_assoc, ok_bind, List.cons_append]
          · rfl

end Passed

/-! ### Below a statement -/

/-- The nodes below the node of a statement of a kind. -/
def childrenVia (env : Environment) (refs : References) (scope : Scope) (inherited : Option Bool)
    (kind : NodeKind) (stmts : List Element) : Except LoadFault (List SchemaNode) :=
  match kind with
  | .container | .list | .branch | .input | .output | .notification =>
    nodesVia env refs scope inherited stmts
  | .choice => casesVia env refs scope inherited stmts
  | .rpc | .action => do
    let input ← partVia env refs scope .input stmts
    let output ← partVia env refs scope .output stmts
    .ok [input, output]
  | .leaf | .leafList | .anydata | .anyxml => .ok []

theorem nodeVia_eq (env : Environment) (refs : References) (scope : Scope)
    (inherited : Option Bool) (kind : NodeKind) (stmt : Element) :
    nodeVia env refs scope inherited kind stmt = (do
      let data ← nodeDataOf env refs scope inherited kind stmt
      let children ← childrenVia env refs (scope.enter stmt) data.config kind stmt.children
      .ok ⟨data, children⟩) := by
  obtain ⟨tag, nsPrefix, attributes, children, text⟩ := stmt
  rw [nodeVia]
  congr
  funext data
  cases kind with
  | rpc | action =>
      simp only [childrenVia, bind_assoc]
      rfl
  | _ => rfl

/-! ### Constituents -/

/-- A statement that is resolved to nodes: the statement of a node of some kind, or a `uses`
statement where there is no kind. -/
structure Constituent where
  kind : Option NodeKind
  stmt : Element

/-- What a statement is in the body of a container. -/
def bodyConstituent? (stmt : Element) : Option Constituent :=
  match dataKind? stmt.tag with
  | some kind => some ⟨some kind, stmt⟩
  | none => if stmt.tag = "uses" then some ⟨none, stmt⟩ else none

/-- What a statement is directly in a choice. -/
def caseConstituent? (stmt : Element) : Option Constituent :=
  match dataKind? stmt.tag with
  | some kind => if kind.isData then some ⟨some kind, stmt⟩ else none
  | none => none

/-- The input or output of an operation, if it is stated. -/
def partConstituent? (kind : NodeKind) (stmts : List Element) : Option Constituent :=
  (stmts.find? fun stmt => stmt.tag == kind.keyword).map fun stmt => ⟨some kind, stmt⟩

/-- What is resolved below the statement of a node. -/
def constituents (kind : NodeKind) (stmts : List Element) : List Constituent :=
  match kind with
  | .container | .list | .branch | .input | .output | .notification =>
    stmts.filterMap bodyConstituent?
  | .choice => stmts.filterMap caseConstituent?
  | .rpc | .action =>
    (partConstituent? .input stmts).toList ++ (partConstituent? .output stmts).toList
  | .leaf | .leafList | .anydata | .anyxml => []

/-- The nodes that a constituent is resolved to. -/
def Constituent.nodes (env : Environment) (refs : References) (scope : Scope)
    (inherited : Option Bool) : Constituent → Except LoadFault (List SchemaNode)
  | ⟨some kind, stmt⟩ => (fun n => [n]) <$> nodeVia env refs scope inherited kind stmt
  | ⟨none, stmt⟩ => usedNodes env refs scope inherited stmt

/-- All nodes of a constituent have a property; it has to be resolved for that. -/
def Constituent.All (env : Environment) (refs : References) (scope : Scope)
    (inherited : Option Bool) (P : SchemaNode → Prop) (b : Constituent) : Prop :=
  ∃ nodes, b.nodes env refs scope inherited = .ok nodes ∧ ∀ n ∈ nodes, P n

variable {env : Environment} {refs : References} {scope : Scope} {inherited : Option Bool}
  {P : SchemaNode → Prop}

theorem Constituent.all_iff {b : Constituent} {nodes : List SchemaNode}
    (h : b.nodes env refs scope inherited = .ok nodes) :
    b.All env refs scope inherited P ↔ ∀ n ∈ nodes, P n := by
  simp [All, h]

theorem Constituent.all_node_iff {kind : NodeKind} {stmt : Element} {n : SchemaNode}
    (h : nodeVia env refs scope inherited kind stmt = .ok n) :
    All env refs scope inherited P ⟨some kind, stmt⟩ ↔ P n := by
  simp [All, nodes, h, Functor.map, Except.map]

theorem Constituent.all_uses_iff {stmt : Element} {used : List SchemaNode}
    (h : usedNodes env refs scope inherited stmt = .ok used) :
    All env refs scope inherited P ⟨none, stmt⟩ ↔ ∀ n ∈ used, P n :=
  all_iff h

theorem mem_of_mem_constituents {kind : NodeKind} {stmts : List Element} {b : Constituent}
    (h : b ∈ constituents kind stmts) : b.stmt ∈ stmts := by
  have hbody : b ∈ stmts.filterMap bodyConstituent? → b.stmt ∈ stmts := by
    intro h
    obtain ⟨stmt, hstmt, hb⟩ := List.mem_filterMap.mp h
    unfold bodyConstituent? at hb
    split at hb
    · cases hb
      exact hstmt
    · split at hb
      · cases hb
        exact hstmt
      · cases hb
  have hcase : b ∈ stmts.filterMap caseConstituent? → b.stmt ∈ stmts := by
    intro h
    obtain ⟨stmt, hstmt, hb⟩ := List.mem_filterMap.mp h
    unfold caseConstituent? at hb
    split at hb
    · split at hb
      · cases hb
        exact hstmt
      · cases hb
    · cases hb
  have hpart : ∀ part, b ∈ (partConstituent? part stmts).toList → b.stmt ∈ stmts := by
    intro part h
    obtain ⟨stmt, hstmt, rfl⟩ := Option.map_eq_some_iff.mp (Option.mem_toList.mp h)
    exact List.mem_of_find?_eq_some hstmt
  cases kind with
  | container | list | branch | input | output | notification => exact hbody h
  | choice => exact hcase h
  | rpc | action => exact (List.mem_append.mp h).elim (hpart _) (hpart _)
  | leaf | leafList | anydata | anyxml => exact absurd h List.not_mem_nil

/-- The keyword of the statement of a constituent. -/
def Constituent.keyword : Constituent → String
  | ⟨some kind, _⟩ => kind.keyword
  | ⟨none, _⟩ => "uses"

theorem tag_of_mem_body {stmts : List Element} {b : Constituent}
    (h : b ∈ stmts.filterMap bodyConstituent?) : b.stmt.tag = b.keyword := by
  obtain ⟨stmt, -, hb⟩ := List.mem_filterMap.mp h
  unfold bodyConstituent? at hb
  split at hb
  · rename_i hkind
    cases hb
    exact tag_of_dataKind? hkind
  · split at hb
    · rename_i huses
      cases hb
      exact huses
    · cases hb

theorem tag_of_mem_constituents {kind : NodeKind} {stmts : List Element} {b : Constituent}
    (h : b ∈ constituents kind stmts) : b.stmt.tag = b.keyword := by
  have hcase : b ∈ stmts.filterMap caseConstituent? → b.stmt.tag = b.keyword := by
    intro h
    obtain ⟨stmt, -, hb⟩ := List.mem_filterMap.mp h
    unfold caseConstituent? at hb
    split at hb
    · rename_i hkind
      split at hb
      · cases hb
        exact tag_of_dataKind? hkind
      · cases hb
    · cases hb
  have hpart : ∀ part, b ∈ (partConstituent? part stmts).toList → b.stmt.tag = b.keyword := by
    intro part h
    obtain ⟨stmt, hstmt, rfl⟩ := Option.map_eq_some_iff.mp (Option.mem_toList.mp h)
    have hfits := List.find?_some hstmt
    exact beq_iff_eq.mp hfits
  cases kind with
  | container | list | branch | input | output | notification => exact tag_of_mem_body h
  | choice => exact hcase h
  | rpc | action => exact (List.mem_append.mp h).elim (hpart _) (hpart _)
  | leaf | leafList | anydata | anyxml => exact absurd h List.not_mem_nil

/-! ### Lists of statements -/

theorem forall_nodesVia_iff {stmts : List Element} {nodes : List SchemaNode}
    (h : nodesVia env refs scope inherited stmts = .ok nodes) :
    (∀ n ∈ nodes, P n) ↔
      ∀ b ∈ stmts.filterMap bodyConstituent?, b.All env refs scope inherited P := by
  induction stmts generalizing nodes with
  | nil =>
      cases h
      simp
  | cons stmt rest ih =>
      rw [nodesVia] at h
      cases hkind : dataKind? stmt.tag with
      | some kind =>
          simp only [hkind] at h
          obtain ⟨n, hn, h⟩ := exists_of_bind_eq_ok h
          obtain ⟨ns, hns, h⟩ := exists_of_bind_eq_ok h
          cases h
          have hhead : bodyConstituent? stmt = some ⟨some kind, stmt⟩ := by
            simp [bodyConstituent?, hkind]
          rw [List.filterMap_cons_some hhead, List.forall_mem_cons, List.forall_mem_cons,
            ih hns, Constituent.all_node_iff hn]
      | none =>
          simp only [hkind] at h
          split at h
          · rename_i huses
            obtain ⟨used, hused, h⟩ := exists_of_bind_eq_ok h
            obtain ⟨ns, hns, h⟩ := exists_of_bind_eq_ok h
            cases h
            have hhead : bodyConstituent? stmt = some ⟨none, stmt⟩ := by
              rw [bodyConstituent?, hkind]
              exact if_pos huses
            rw [List.filterMap_cons_some hhead, List.forall_mem_cons, List.forall_mem_append,
              ih hns, Constituent.all_uses_iff hused]
          · rename_i huses
            have hhead : bodyConstituent? stmt = none := by
              simp [bodyConstituent?, hkind, huses]
            rw [List.filterMap_cons_none hhead]
            exact ih h

theorem forall_casesVia_iff (hcase : ∀ n, P (implicitCase n) ↔ P n) {stmts : List Element}
    {nodes : List SchemaNode} (h : casesVia env refs scope inherited stmts = .ok nodes) :
    (∀ n ∈ nodes, P n) ↔
      ∀ b ∈ stmts.filterMap caseConstituent?, b.All env refs scope inherited P := by
  induction stmts generalizing nodes with
  | nil =>
      cases h
      simp
  | cons stmt rest ih =>
      rw [casesVia] at h
      cases hkind : dataKind? stmt.tag with
      | some kind =>
          simp only [hkind] at h
          split at h
          · rename_i hdata
            obtain ⟨n, hn, h⟩ := exists_of_bind_eq_ok h
            obtain ⟨ns, hns, h⟩ := exists_of_bind_eq_ok h
            cases h
            have hhead : caseConstituent? stmt = some ⟨some kind, stmt⟩ := by
              simp [caseConstituent?, hkind, hdata]
            have hwrapped : P (if kind = .branch then n else implicitCase n) ↔ P n := by
              split
              · exact Iff.rfl
              · exact hcase n
            rw [List.filterMap_cons_some hhead, List.forall_mem_cons, List.forall_mem_cons,
              ih hns, hwrapped, Constituent.all_node_iff hn]
          · rename_i hdata
            have hhead : caseConstituent? stmt = none := by
              simp [caseConstituent?, hkind, hdata]
            rw [List.filterMap_cons_none hhead]
            exact ih h
      | none =>
          simp only [hkind] at h
          have hhead : caseConstituent? stmt = none := by
            simp [caseConstituent?, hkind]
          rw [List.filterMap_cons_none hhead]
          exact ih h

theorem partVia_iff {kind : NodeKind} (hempty : P (emptyPart env kind)) {stmts : List Element}
    {n : SchemaNode} (h : partVia env refs scope kind stmts = .ok n) :
    P n ↔ ∀ b ∈ (partConstituent? kind stmts).toList, b.All env refs scope none P := by
  induction stmts with
  | nil =>
      cases h
      simp [partConstituent?, hempty]
  | cons stmt rest ih =>
      rw [partVia] at h
      split at h
      · rename_i htag
        have hfind : partConstituent? kind (stmt :: rest) = some ⟨some kind, stmt⟩ := by
          simp [partConstituent?, htag]
        rw [hfind]
        simp [Constituent.all_node_iff h]
      · rename_i htag
        have hfind : partConstituent? kind (stmt :: rest) = partConstituent? kind rest := by
          simp [partConstituent?, htag]
        rw [hfind]
        exact ih h

/-! ### Nodes -/

/-- A value that is read where the kind of a node calls for it. -/
theorem isSome_of_read {α : Type} {called : Bool} {x : Except LoadFault α} {y : Option α}
    (h : (if called then some <$> x else .ok none) = .ok y) : y.isSome = called := by
  cases called with
  | false =>
      cases h
      rfl
  | true =>
      cases x with
      | error fault => cases h
      | ok v =>
          cases h
          rfl

/-- What the statement of a node says of the node fits the kind of the node. -/
theorem nodeDataOf_eq_ok {kind : NodeKind} {stmt : Element} {data : NodeData}
    (h : nodeDataOf env refs scope inherited kind stmt = .ok data) :
    data.kind = kind ∧
      configOf scope.owner stmt (inheritedConfig kind inherited) = .ok data.config ∧
      data.mandatory.isSome = kind.isMandatoryAware ∧
      (data.count.isSome → kind.isElementCounted) ∧
      data.type.isSome = kind.isTyped := by
  unfold nodeDataOf at h
  obtain ⟨name, -, h⟩ := exists_of_bind_eq_ok h
  obtain ⟨status, -, h⟩ := exists_of_bind_eq_ok h
  obtain ⟨musts, -, h⟩ := exists_of_bind_eq_ok h
  obtain ⟨config, hconfig, h⟩ := exists_of_bind_eq_ok h
  obtain ⟨mandatory, hmandatory, h⟩ := exists_of_bind_eq_ok h
  obtain ⟨count, hcount, h⟩ := exists_of_bind_eq_ok h
  obtain ⟨type, htype, h⟩ := exists_of_bind_eq_ok h
  cases h
  refine ⟨rfl, hconfig, isSome_of_read hmandatory, ?_, isSome_of_read htype⟩
  intro hsome
  by_cases hkind : kind.isElementCounted = true
  · exact hkind
  · rw [if_neg hkind] at hcount
    cases hcount
    cases hsome

theorem qname_of_nodeDataOf {kind : NodeKind} {stmt : Element} {data : NodeData}
    (h : nodeDataOf env refs scope inherited kind stmt = .ok data) :
    ∃ name, nodeNameOf scope.owner kind stmt = .ok name ∧ data.qname = env.nodeName name := by
  obtain ⟨name, hname, h⟩ := exists_of_bind_eq_ok h
  obtain ⟨status, -, h⟩ := exists_of_bind_eq_ok h
  obtain ⟨musts, -, h⟩ := exists_of_bind_eq_ok h
  obtain ⟨config, -, h⟩ := exists_of_bind_eq_ok h
  obtain ⟨mandatory, -, h⟩ := exists_of_bind_eq_ok h
  obtain ⟨count, -, h⟩ := exists_of_bind_eq_ok h
  obtain ⟨type, -, h⟩ := exists_of_bind_eq_ok h
  cases h
  exact ⟨name, hname, rfl⟩

theorem config_of_operation {kind : NodeKind} {stmt : Element} {data : NodeData}
    (h : nodeDataOf env refs scope inherited kind stmt = .ok data)
    (hkind : kind.isOperation = true) : data.config = none := by
  obtain ⟨-, hconfig, -⟩ := nodeDataOf_eq_ok h
  have hnone : inheritedConfig kind inherited = none := by
    cases kind with
    | rpc | action | notification => rfl
    | _ => cases hkind
  rw [hnone] at hconfig
  exact (Except.ok.inj hconfig).symm

/-- Without configuration or state around it, a node is neither. -/
theorem config_of_inherited_none {kind : NodeKind} {stmt : Element} {data : NodeData}
    (h : nodeDataOf env refs scope none kind stmt = .ok data) : data.config = none := by
  obtain ⟨-, hconfig, -⟩ := nodeDataOf_eq_ok h
  have hnone : inheritedConfig kind none = none := by
    cases kind <;> rfl
  rw [hnone] at hconfig
  exact (Except.ok.inj hconfig).symm

theorem nodeVia_eq_ok {kind : NodeKind} {stmt : Element} {n : SchemaNode}
    (h : nodeVia env refs scope inherited kind stmt = .ok n) :
    nodeDataOf env refs scope inherited kind stmt = .ok n.data := by
  rw [nodeVia_eq] at h
  obtain ⟨data, hdata, h⟩ := exists_of_bind_eq_ok h
  obtain ⟨children, -, h⟩ := exists_of_bind_eq_ok h
  cases h
  exact hdata

/-- The children of a node are the nodes of its constituents, up to what is implicit. -/
theorem forall_children_iff (hcase : ∀ n, P (implicitCase n) ↔ P n)
    (hinput : P (emptyPart env .input)) (houtput : P (emptyPart env .output))
    {kind : NodeKind} {stmt : Element} {n : SchemaNode}
    (h : nodeVia env refs scope inherited kind stmt = .ok n) :
    (∀ c ∈ n.children, P c) ↔
      ∀ b ∈ constituents kind stmt.children,
        b.All env refs (scope.enter stmt) n.data.config P := by
  obtain ⟨tag, nsPrefix, attributes, children, text⟩ := stmt
  rw [nodeVia] at h
  obtain ⟨data, hdata, h⟩ := exists_of_bind_eq_ok h
  cases kind with
  | container | list | branch | input | output | notification =>
      obtain ⟨nodes, hnodes, h⟩ := exists_of_bind_eq_ok h
      cases h
      exact forall_nodesVia_iff hnodes
  | choice =>
      obtain ⟨nodes, hnodes, h⟩ := exists_of_bind_eq_ok h
      cases h
      exact forall_casesVia_iff hcase hnodes
  | rpc | action =>
      obtain ⟨input, hinputVia, h⟩ := exists_of_bind_eq_ok h
      obtain ⟨output, houtputVia, h⟩ := exists_of_bind_eq_ok h
      cases h
      rw [config_of_operation hdata rfl]
      simp only [constituents, List.forall_mem_append, List.forall_mem_cons,
        partVia_iff hinput hinputVia, partVia_iff houtput houtputVia]
      simp
  | leaf | leafList | anydata | anyxml =>
      cases h
      simp [constituents]

/-! ### Uses -/

/-- The nodes of a grouping after the condition of the `uses` statement that brings them in. -/
def conditioned (stmt : Element) (nodes : List SchemaNode) : List SchemaNode :=
  match whenOf stmt with
  | some condition => nodes.map (addCondition condition)
  | none => nodes

/-- A `uses` statement in `scope` leads to a grouping in the scope `inner`. -/
def LeadsTo (env : Environment) (scope : Scope) (stmt grouping : Element) (inner : Scope) : Prop :=
  ∃ name, argument scope.owner stmt "name" = .ok name ∧
    env.findDefinition "grouping" scope name = .ok (some (grouping, inner))

theorem LeadsTo.unique {stmt grouping grouping' : Element} {inner inner' : Scope}
    (h : LeadsTo env scope stmt grouping inner) (h' : LeadsTo env scope stmt grouping' inner') :
    grouping' = grouping ∧ inner' = inner := by
  obtain ⟨name, hname, hfound⟩ := h
  obtain ⟨name', hname', hfound'⟩ := h'
  cases hname.symm.trans hname'
  cases hfound.symm.trans hfound'
  exact ⟨rfl, rfl⟩

theorem usedNodes_eq_ok {stmt : Element} {used : List SchemaNode}
    (h : usedNodes env refs scope inherited stmt = .ok used) :
    ∃ name grouping inner nodes, LeadsTo env scope stmt grouping inner ∧
      refs.grouping name grouping inner inherited = .ok nodes ∧
      (stmt.childrenOf "refine").foldlM (refine scope.owner) (conditioned stmt nodes) =
        .ok used := by
  unfold usedNodes at h
  obtain ⟨name, hname, h⟩ := exists_of_bind_eq_ok h
  obtain ⟨found, hfound, h⟩ := exists_of_bind_eq_ok h
  cases found with
  | none => cases h
  | some found =>
      obtain ⟨grouping, inner⟩ := found
      obtain ⟨nodes, hnodes, h⟩ := exists_of_bind_eq_ok h
      exact ⟨name, grouping, inner, nodes, ⟨name, hname, hfound⟩, hnodes, h⟩

/-- Induction on how constituents are resolved: on the number of groupings that may still be
followed and, between two of them, on the statements. -/
theorem Constituent.induction (env : Environment)
    {motive : Nat → Scope → Option Bool → Constituent → List SchemaNode → Prop}
    (node : ∀ depth scope inherited kind stmt n,
      nodeVia env (.upTo env depth) scope inherited kind stmt = .ok n →
      (∀ b ∈ constituents kind stmt.children, ∀ nodes,
        b.nodes env (.upTo env depth) (scope.enter stmt) n.data.config = .ok nodes →
        motive depth (scope.enter stmt) n.data.config b nodes) →
      motive depth scope inherited ⟨some kind, stmt⟩ [n])
    (uses : ∀ depth scope inherited stmt grouping inner nodes used,
      LeadsTo env scope stmt grouping inner →
      nodesVia env (.upTo env depth) (inner.enter grouping) inherited grouping.children =
        .ok nodes →
      (∀ b ∈ grouping.children.filterMap bodyConstituent?, ∀ nodes,
        b.nodes env (.upTo env depth) (inner.enter grouping) inherited = .ok nodes →
        motive depth (inner.enter grouping) inherited b nodes) →
      (stmt.childrenOf "refine").foldlM (refine scope.owner) (conditioned stmt nodes) = .ok used →
      motive (depth + 1) scope inherited ⟨none, stmt⟩ used)
    (depth : Nat) (scope : Scope) (inherited : Option Bool) (b : Constituent)
    (nodes : List SchemaNode) (h : b.nodes env (.upTo env depth) scope inherited = .ok nodes) :
    motive depth scope inherited b nodes := by
  -- with the uses at some depth done, the statements of nodes follow by induction on statements
  have hbetween : ∀ depth, (∀ scope inherited stmt used,
        usedNodes env (.upTo env depth) scope inherited stmt = .ok used →
        motive depth scope inherited ⟨none, stmt⟩ used) →
      ∀ stmt kind scope inherited nodes,
        (Constituent.mk kind stmt).nodes env (.upTo env depth) scope inherited = .ok nodes →
        motive depth scope inherited ⟨kind, stmt⟩ nodes := by
    intro depth huses stmt
    induction stmt using Element.treeInduction with
    | element stmt ih =>
        intro kind scope inherited nodes h
        cases kind with
        | none => exact huses _ _ _ _ h
        | some kind =>
            obtain ⟨n, hn, h⟩ := exists_of_bind_eq_ok ((map_eq_pure_bind _ _).symm.trans h)
            cases h
            refine node _ _ _ _ _ n hn ?_
            intro b hb nodes hnodes
            exact ih b.stmt (mem_of_mem_constituents hb) b.kind _ _ _ hnodes
  induction depth generalizing scope inherited b nodes with
  | zero =>
      refine hbetween 0 ?_ b.stmt b.kind scope inherited nodes h
      intro scope inherited stmt used h
      obtain ⟨_, _, _, _, _, hnodes, _⟩ := usedNodes_eq_ok h
      cases hnodes
  | succ depth ih =>
      refine hbetween (depth + 1) ?_ b.stmt b.kind scope inherited nodes h
      intro scope inherited stmt used h
      obtain ⟨name, grouping, inner, nodes, hleads, hnodes, hrefined⟩ := usedNodes_eq_ok h
      exact uses depth _ _ _ _ _ _ _ hleads hnodes (fun b _ nodes => ih _ _ b nodes) hrefined

/-! ### Modules -/

/-- What the statement of a definition is, by its keyword. -/
inductive Defines (env : Environment) (scope : Scope) (stmt : Element) : Definition → Prop where
  | rpc {n : SchemaNode} : stmt.tag = "rpc" →
      nodeVia env (.upTo env maxDepth) scope none .rpc stmt = .ok n →
      Defines env scope stmt (.rpc n)
  | augmentation {a : Augmentation} : stmt.tag = "augment" →
      augmentationOf env scope stmt = .ok a → Defines env scope stmt (.augmentation a)
  | typedef {t : TypeDef} : stmt.tag = "typedef" →
      typedefOf env (maxDepth - 1) scope stmt = .ok t → Defines env scope stmt (.typedef t)
  | identity {i : Identity} : stmt.tag = "identity" → identityOf env scope stmt = .ok i →
      Defines env scope stmt (.identity i)

theorem definitionOf?_eq_some_iff {stmt : Element} {d : Definition} :
    definitionOf? env scope stmt = .ok (some d) ↔ Defines env scope stmt d := by
  constructor
  · intro h
    unfold definitionOf? at h
    split at h
    case h_5 => cases h
    all_goals
      rename_i htag
      obtain ⟨_, hread, h⟩ := exists_of_bind_eq_ok h
      cases h
      constructor
      · exact htag
      · exact hread
  · rintro (⟨htag, hread⟩ | ⟨htag, hread⟩ | ⟨htag, hread⟩ | ⟨htag, hread⟩)
    all_goals
      rw [definitionOf?, htag, hread]
      rfl

theorem defines_rpc_iff {stmt : Element} {n : SchemaNode} :
    Defines env scope stmt (.rpc n) ↔
      stmt.tag = "rpc" ∧ nodeVia env (.upTo env maxDepth) scope none .rpc stmt = .ok n := by
  constructor
  · rintro (⟨htag, hread⟩)
    exact ⟨htag, hread⟩
  · rintro ⟨htag, hread⟩
    exact .rpc htag hread

theorem defines_augmentation_iff {stmt : Element} {a : Augmentation} :
    Defines env scope stmt (.augmentation a) ↔
      stmt.tag = "augment" ∧ augmentationOf env scope stmt = .ok a := by
  constructor
  · rintro (_ | ⟨htag, hread⟩)
    exact ⟨htag, hread⟩
  · rintro ⟨htag, hread⟩
    exact .augmentation htag hread

theorem augmentationOf_eq_ok {stmt : Element} {a : Augmentation}
    (h : augmentationOf env scope stmt = .ok a) :
    nodesVia env (.upTo env maxDepth) (scope.enter stmt) (augmentedConfig a.target)
      stmt.children = .ok a.children := by
  obtain ⟨raw, -, h⟩ := exists_of_bind_eq_ok h
  obtain ⟨segments, -, h⟩ := exists_of_bind_eq_ok h
  obtain ⟨children, hchildren, h⟩ := exists_of_bind_eq_ok h
  obtain ⟨status, -, h⟩ := exists_of_bind_eq_ok h
  cases h
  exact hchildren

/-- What the trees of a module are made of. -/
structure ModuleNodes (env : Environment) (m : Module) : Prop where
  data : ∃ nodes, nodesVia env (.upTo env maxDepth) (Scope.top env.main) (some true)
      env.main.root.children = .ok nodes ∧
    ∀ n, n ∈ nodes ↔ n ∈ m.children ∨ n ∈ m.notifications
  resolved : ∀ stmt ∈ env.main.root.children, ∃ definition,
    definitionOf? env (Scope.top env.main) stmt = .ok definition
  rpcs : ∀ n, n ∈ m.rpcs ↔ ∃ stmt ∈ env.main.root.children, stmt.tag = "rpc" ∧
    nodeVia env (.upTo env maxDepth) (Scope.top env.main) none .rpc stmt = .ok n
  augmentations : ∀ a, a ∈ m.augmentations ↔ ∃ stmt ∈ env.main.root.children,
    stmt.tag = "augment" ∧ augmentationOf env (Scope.top env.main) stmt = .ok a

theorem module_eq_ok {m : Module} (h : env.module = .ok m) : ModuleNodes env m := by
  obtain ⟨nodes, hnodes, h⟩ := exists_of_bind_eq_ok h
  obtain ⟨definitions, hdefinitions, h⟩ := exists_of_bind_eq_ok h
  cases h
  have hmem : ∀ d, some d ∈ definitions ↔
      ∃ stmt ∈ env.main.root.children, Defines env (Scope.top env.main) stmt d := by
    intro d
    simp only [mem_of_mapM_eq_ok_iff hdefinitions, definitionOf?_eq_some_iff]
  have hrpc : ∀ d n, Definition.rpc? d = some n ↔ d = .rpc n := by
    intro d n
    cases d <;> simp [Definition.rpc?]
  have haugmentation : ∀ d a, Definition.augmentation? d = some a ↔ d = .augmentation a := by
    intro d a
    cases d <;> simp [Definition.augmentation?]
  refine ⟨⟨nodes, hnodes, fun n => ?_⟩, fun stmt hstmt => ?_, fun n => ?_, fun a => ?_⟩
  · simp only [List.mem_filter, bne_iff_ne, beq_iff_eq, ← and_or_left]
    exact (and_iff_left (Classical.em _).symm).symm
  · obtain ⟨definition, -, hdefinition⟩ := exists_mem_of_mapM_eq_ok hdefinitions hstmt
    exact ⟨definition, hdefinition⟩
  · simp [List.mem_filterMap, hrpc, hmem, defines_rpc_iff]
  · simp [List.mem_filterMap, haugmentation, hmem, defines_augmentation_iff]

/-- The trees of a module are the nodes of the constituents of its statements. -/
theorem ModuleNodes.forall_trees_iff {m : Module} (h : ModuleNodes env m) :
    (∀ n ∈ m.trees, P n) ↔
      (∀ b ∈ env.main.root.children.filterMap bodyConstituent?,
        b.All env (.upTo env maxDepth) (Scope.top env.main) (some true) P) ∧
      (∀ stmt ∈ env.main.root.children, stmt.tag = "rpc" →
        Constituent.All env (.upTo env maxDepth) (Scope.top env.main) none P
          ⟨some .rpc, stmt⟩) ∧
      (∀ stmt ∈ env.main.root.children, stmt.tag = "augment" →
        ∀ a, augmentationOf env (Scope.top env.main) stmt = .ok a →
          ∀ b ∈ stmt.children.filterMap bodyConstituent?,
            b.All env (.upTo env maxDepth) ((Scope.top env.main).enter stmt)
              (augmentedConfig a.target) P) := by
  obtain ⟨nodes, hnodes, hmem⟩ := h.data
  have hdata : (∀ n ∈ m.children, P n) ∧ (∀ n ∈ m.notifications, P n) ↔ ∀ n ∈ nodes, P n := by
    simp only [hmem, or_imp, forall_and]
  have hrpcs : (∀ n ∈ m.rpcs, P n) ↔ ∀ stmt ∈ env.main.root.children, stmt.tag = "rpc" →
      Constituent.All env (.upTo env maxDepth) (Scope.top env.main) none P
        ⟨some .rpc, stmt⟩ := by
    constructor
    · intro hall stmt hstmt htag
      obtain ⟨definition, hdefinition⟩ := h.resolved stmt hstmt
      rw [definitionOf?, htag] at hdefinition
      obtain ⟨n, hn, -⟩ := exists_of_bind_eq_ok hdefinition
      exact (Constituent.all_node_iff hn).mpr (hall n ((h.rpcs n).mpr ⟨stmt, hstmt, htag, hn⟩))
    · intro hall n hn
      obtain ⟨stmt, hstmt, htag, hn⟩ := (h.rpcs n).mp hn
      exact (Constituent.all_node_iff hn).mp (hall stmt hstmt htag)
  have haugmentations : (∀ n ∈ m.augmentations.flatMap Augmentation.children, P n) ↔
      ∀ stmt ∈ env.main.root.children, stmt.tag = "augment" →
        ∀ a, augmentationOf env (Scope.top env.main) stmt = .ok a →
          ∀ b ∈ stmt.children.filterMap bodyConstituent?,
            b.All env (.upTo env maxDepth) ((Scope.top env.main).enter stmt)
              (augmentedConfig a.target) P := by
    rw [List.forall_mem_flatMap]
    constructor
    · intro hall stmt hstmt htag a ha
      exact (forall_nodesVia_iff (augmentationOf_eq_ok ha)).mp
        (hall a ((h.augmentations a).mpr ⟨stmt, hstmt, htag, ha⟩))
    · intro hall a ha
      obtain ⟨stmt, hstmt, htag, ha⟩ := (h.augmentations a).mp ha
      exact (forall_nodesVia_iff (augmentationOf_eq_ok ha)).mpr (hall stmt hstmt htag a ha)
  rw [← hrpcs, ← haugmentations, ← forall_nodesVia_iff hnodes, ← hdata]
  simp only [Module.trees, List.forall_mem_append]
  grind

end Yin

end YangEvolution
