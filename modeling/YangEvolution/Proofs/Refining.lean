import YangEvolution.Outcome.Except
import YangEvolution.Proofs.SchemaTree
import YangEvolution.Yin.Refinement

/-!
What a refinement changes. The inventory of a tree lists which optional properties its nodes have.
A `refine` statement changes one entry of it, that of the node it leads to, which has afterwards
also what the statement sets, whatever its kind. Kinds and names stay, so that later refinements
lead to the same nodes.
-/

namespace YangEvolution

/-- What a path leads to: a node of some kind, and whether it is an operation or in one. -/
structure Place where
  kind : NodeKind
  inOperation : Bool

/-- Which optional properties the node at a place has. -/
structure Traits extends Place where
  config : Bool
  mandatory : Bool
  count : Bool
  type : Bool

namespace NodeData

/-- The place of a node among nodes that are in an operation or not. -/
def place (inOperation : Bool) (d : NodeData) : Place :=
  ⟨d.kind, inOperation || d.kind.isOperation⟩

def traits (inOperation : Bool) (d : NodeData) : Traits where
  toPlace := d.place inOperation
  config := d.config.isSome
  mandatory := d.mandatory.isSome
  count := d.count.isSome
  type := d.type.isSome

end NodeData

namespace SchemaNode

mutual

/-- The traits of a node and of all nodes below it. -/
def inventory (inOperation : Bool) : SchemaNode → List Traits
  | ⟨data, children⟩ =>
    data.traits inOperation :: inventories (data.place inOperation).inOperation children

def inventories (inOperation : Bool) : List SchemaNode → List Traits
  | [] => []
  | n :: rest => inventory inOperation n ++ inventories inOperation rest

/-- A tree without anything but kinds and names. -/
def outline : SchemaNode → SchemaNode
  | ⟨data, children⟩ => ⟨{ kind := data.kind, qname := data.qname }, outlines children⟩

def outlines : List SchemaNode → List SchemaNode
  | [] => []
  | n :: rest => outline n :: outlines rest

end

/-- The place that local names lead to, each to the first node of its name. -/
def place? (inOperation : Bool) : List String → List SchemaNode → Option Place
  | [], _ => none
  | [name], nodes => (find? nodes name).map fun n => n.data.place inOperation
  | name :: next :: rest, nodes =>
    (find? nodes name).bind fun n =>
      place? (n.data.place inOperation).inOperation (next :: rest) n.children

theorem inventory_eq (inOperation : Bool) (n : SchemaNode) :
    inventory inOperation n = n.data.traits inOperation ::
      inventories (n.data.place inOperation).inOperation n.children := by
  obtain ⟨data, children⟩ := n
  rw [inventory]

theorem inventories_eq_flatMap (inOperation : Bool) (nodes : List SchemaNode) :
    inventories inOperation nodes = nodes.flatMap (inventory inOperation) := by
  induction nodes with
  | nil => rfl
  | cons n rest ih => simp [inventories, ih]

theorem inventories_append_cons (inOperation : Bool) (before after : List SchemaNode)
    (n : SchemaNode) :
    inventories inOperation (before ++ n :: after) =
      inventories inOperation before ++ inventory inOperation n ++
        inventories inOperation after := by
  simp [inventories_eq_flatMap]

/-- All nodes of a tree have traits with a property. -/
def Everywhere (Q : Traits → Prop) (inOperation : Bool) (n : SchemaNode) : Prop :=
  ∀ t ∈ inventory inOperation n, Q t

variable {Q : Traits → Prop}

theorem forall_everywhere_iff {inOperation : Bool} {nodes : List SchemaNode} :
    (∀ n ∈ nodes, Everywhere Q inOperation n) ↔ ∀ t ∈ inventories inOperation nodes, Q t := by
  rw [inventories_eq_flatMap, List.forall_mem_flatMap]
  exact Iff.rfl

theorem everywhere_iff {inOperation : Bool} {n : SchemaNode} :
    Everywhere Q inOperation n ↔ Q (n.data.traits inOperation) ∧
      ∀ c ∈ n.children, Everywhere Q (n.data.place inOperation).inOperation c := by
  rw [Everywhere, inventory_eq, List.forall_mem_cons, forall_everywhere_iff]

theorem outlines_eq_map (nodes : List SchemaNode) : outlines nodes = nodes.map outline := by
  induction nodes with
  | nil => rfl
  | cons n rest ih => simp [outlines, ih]

theorem outline_eq (n : SchemaNode) :
    n.outline = ⟨{ kind := n.data.kind, qname := n.data.qname }, n.children.map outline⟩ := by
  obtain ⟨data, children⟩ := n
  rw [outline, outlines_eq_map]

theorem find?_map_outline (nodes : List SchemaNode) (name : String) :
    find? (nodes.map outline) name = (find? nodes name).map outline := by
  have hname : ∀ n : SchemaNode, n.outline.localName = n.localName := by
    intro n
    simp [outline_eq, localName]
  simp only [find?, List.find?_map, Function.comp_def, hname]

theorem place?_map_outline (inOperation : Bool) (steps : List String) (nodes : List SchemaNode) :
    place? inOperation steps (nodes.map outline) = place? inOperation steps nodes := by
  fun_induction place? inOperation steps nodes with
  | case1 => rfl
  | case2 inOperation name nodes =>
      rw [place?, find?_map_outline, Option.map_map]
      congr
      funext n
      simp [outline_eq, NodeData.place]
  | case3 inOperation name next rest nodes ih =>
      rw [place?, find?_map_outline, Option.bind_map]
      congr
      funext n
      simpa [outline_eq, NodeData.place] using ih n

/-- Where names lead to depends on kinds and names only. -/
theorem place?_congr {nodes nodes' : List SchemaNode} (h : nodes'.map outline = nodes.map outline)
    (inOperation : Bool) (steps : List String) :
    place? inOperation steps nodes' = place? inOperation steps nodes := by
  rw [← place?_map_outline, h, place?_map_outline]

end SchemaNode

open SchemaNode

namespace Yin

open Text Markup Outcome

theorem clearConfigAll_eq_map (nodes : List SchemaNode) :
    clearConfigAll nodes = nodes.map clearConfig := by
  induction nodes with
  | nil => rfl
  | cons n rest ih => simp [clearConfigAll, ih]

theorem outline_clearConfig (n : SchemaNode) : (clearConfig n).outline = n.outline := by
  induction n using treeInduction with
  | node data children ih =>
      rw [clearConfig, outline_eq, outline_eq, clearConfigAll_eq_map, List.map_map]
      exact congrArg _ (List.map_congr_left ih)

theorem inventory_clearConfig (n : SchemaNode) (inOperation : Bool) :
    inventory inOperation (clearConfig n) = inventory inOperation n := by
  induction n using treeInduction generalizing inOperation with
  | node data children ih =>
      rw [clearConfig, inventory, inventory, clearConfigAll_eq_map, inventories_eq_flatMap,
        inventories_eq_flatMap, List.flatMap_map]
      congr 1
      · simp [NodeData.traits, NodeData.place]
      · exact congrArg List.flatten (List.map_congr_left fun c hc => ih c hc _)

theorem outline_addCondition (condition : String) (n : SchemaNode) :
    (addCondition condition n).outline = n.outline := by
  simp [outline_eq, addCondition]

theorem inventory_addCondition (condition : String) (n : SchemaNode) (inOperation : Bool) :
    inventory inOperation (addCondition condition n) = inventory inOperation n := by
  simp [inventory_eq, addCondition, NodeData.traits, NodeData.place]

/-! ### The node that is refined -/

/-- The traits of a node after a `refine` statement that leads to it. -/
def refinedTraits (stmt : Element) (t : Traits) : Traits :=
  { t with
    config := t.config || (stmt.childAttribute? "config" "value").isSome
    mandatory := t.mandatory || (stmt.childAttribute? "mandatory" "value").isSome
    count := t.count || (stmt.child? "min-elements").isSome ||
      (stmt.child? "max-elements").isSome }

variable {owner : String} {stmt : Element} {n n' : SchemaNode}

/-- What the `config` of a `refine` statement makes of a node's own value and of the nodes below. -/
inductive ConfigRefined (owner : String) (stmt : Element) (own : Option Bool)
    (below : List SchemaNode) : Option Bool → List SchemaNode → Prop where
  | unsaid : stmt.childAttribute? "config" "value" = none →
      ConfigRefined owner stmt own below own below
  | said {raw : String} {value : Bool} : stmt.childAttribute? "config" "value" = some raw →
      readFlag owner "config" raw = .ok value →
      ConfigRefined owner stmt own below (some value)
        (if value then below else below.map clearConfig)

theorem ConfigRefined.isSome_eq {own config : Option Bool} {nodes children : List SchemaNode}
    (h : ConfigRefined owner stmt own nodes config children) :
    config.isSome = (own.isSome || (stmt.childAttribute? "config" "value").isSome) := by
  cases h with
  | unsaid hnone => simp [hnone]
  | said hraw _ => simp [hraw]

theorem ConfigRefined.children_eq {own config : Option Bool} {nodes children : List SchemaNode}
    (h : ConfigRefined owner stmt own nodes config children) :
    children = nodes ∨ children = nodes.map clearConfig := by
  cases h with
  | unsaid => exact .inl rfl
  | @said raw value =>
      cases value with
      | true => exact .inl rfl
      | false => exact .inr rfl

theorem refineConfig_eq_ok (h : refineConfig owner stmt n = .ok n') :
    ∃ config children, n' = ⟨{ n.data with config := config }, children⟩ ∧
      ConfigRefined owner stmt n.data.config n.children config children := by
  obtain ⟨data, nodes⟩ := n
  unfold refineConfig at h
  split at h
  · rename_i hattribute
    cases h
    exact ⟨data.config, nodes, rfl, .unsaid hattribute⟩
  · rename_i raw hattribute
    obtain ⟨config, hconfig, h⟩ := exists_of_bind_eq_ok h
    cases h
    refine ⟨some config, _, rfl, ?_⟩
    rw [clearConfigAll_eq_map]
    exact .said hattribute hconfig

theorem refineMandatory_eq_ok (h : refineMandatory owner stmt n = .ok n') :
    ∃ mandatory, n' = ⟨{ n.data with mandatory := mandatory }, n.children⟩ ∧
      mandatory.isSome =
        (n.data.mandatory.isSome || (stmt.childAttribute? "mandatory" "value").isSome) := by
  obtain ⟨data, nodes⟩ := n
  unfold refineMandatory at h
  split at h
  · rename_i hattribute
    cases h
    exact ⟨data.mandatory, rfl, by simp [hattribute]⟩
  · rename_i raw hattribute
    obtain ⟨mandatory, -, h⟩ := exists_of_bind_eq_ok h
    cases h
    exact ⟨some mandatory, rfl, by simp [hattribute]⟩

theorem refineCount_eq_ok (h : refineCount owner stmt n = .ok n') :
    ∃ count, n' = ⟨{ n.data with count := count }, n.children⟩ ∧
      count.isSome = (n.data.count.isSome || (stmt.child? "min-elements").isSome ||
        (stmt.child? "max-elements").isSome) := by
  obtain ⟨data, nodes⟩ := n
  unfold refineCount at h
  dsimp only at h
  split at h
  · rename_i hset
    obtain ⟨refined, -, h⟩ := exists_of_bind_eq_ok h
    cases h
    exact ⟨_, rfl, by rw [Bool.or_assoc, hset, Bool.or_true, Option.isSome_some]⟩
  · rename_i hset
    cases h
    exact ⟨data.count, rfl, by rw [Bool.or_assoc, Bool.of_not_eq_true hset, Bool.or_false]⟩

/-- All that a `refine` statement does to the node that it leads to. -/
theorem exists_of_refineNode (h : refineNode owner stmt n = .ok n') :
    ∃ config children mandatory count added,
      n' = ⟨{ n.data with
        description := (descriptionOf stmt).or n.data.description
        reference := (referenceOf stmt).or n.data.reference
        config := config
        mandatory := mandatory
        count := count
        musts := n.data.musts ++ added
        type := (refineDefault stmt n).data.type }, children⟩ ∧
      ConfigRefined owner stmt n.data.config n.children config children ∧
      mandatory.isSome =
        (n.data.mandatory.isSome || (stmt.childAttribute? "mandatory" "value").isSome) ∧
      count.isSome = (n.data.count.isSome || (stmt.child? "min-elements").isSome ||
        (stmt.child? "max-elements").isSome) ∧
      mustsOf owner stmt = .ok added := by
  unfold refineNode at h
  obtain ⟨n₁, h₁, h⟩ := exists_of_bind_eq_ok h
  obtain ⟨n₂, h₂, h⟩ := exists_of_bind_eq_ok h
  obtain ⟨n₃, h₃, h⟩ := exists_of_bind_eq_ok h
  obtain ⟨added, hadded, h⟩ := exists_of_bind_eq_ok h
  obtain ⟨config, children, rfl, hconfig⟩ := refineConfig_eq_ok h₁
  obtain ⟨mandatory, rfl, hmandatory⟩ := refineMandatory_eq_ok h₂
  obtain ⟨count, rfl, hcount⟩ := refineCount_eq_ok h₃
  refine ⟨config, children, mandatory, count, added, ?_, hconfig, hmandatory, hcount, hadded⟩
  -- the default is set in what the other substatements have made of the node
  cases h
  unfold refineDefault
  split
  all_goals rfl

theorem refineNode_eq_ok (h : refineNode owner stmt n = .ok n') :
    (∀ inOperation,
        n'.data.traits inOperation = refinedTraits stmt (n.data.traits inOperation)) ∧
      n'.data.qname = n.data.qname ∧
      (n'.children = n.children ∨ n'.children = n.children.map clearConfig) := by
  obtain ⟨config, children, mandatory, count, added, rfl, hconfig, hmandatory, hcount, -⟩ :=
    exists_of_refineNode h
  refine ⟨fun inOperation => ?_, rfl, hconfig.children_eq⟩
  have htype : (refineDefault stmt n).data.type.isSome = n.data.type.isSome := by
    unfold refineDefault
    split
    · rfl
    · exact Option.isSome_map
  simp [NodeData.traits, NodeData.place, refinedTraits, hconfig.isSome_eq, hmandatory, hcount,
    htype]

theorem outline_refineNode (h : refineNode owner stmt n = .ok n') : n'.outline = n.outline := by
  obtain ⟨htraits, hqname, hchildren⟩ := refineNode_eq_ok h
  have hkind : n'.data.kind = n.data.kind := congrArg (fun t => t.kind) (htraits false)
  have houtlines : n'.children.map outline = n.children.map outline := by
    rcases hchildren with hchildren | hchildren
    · rw [hchildren]
    · rw [hchildren, List.map_map]
      exact List.map_congr_left fun c _ => outline_clearConfig c
  rw [outline_eq, outline_eq, hkind, hqname, houtlines]

theorem inventory_refineNode (h : refineNode owner stmt n = .ok n') (inOperation : Bool) :
    inventory inOperation n' = refinedTraits stmt (n.data.traits inOperation) ::
      inventories (n.data.place inOperation).inOperation n.children := by
  obtain ⟨htraits, -, hchildren⟩ := refineNode_eq_ok h
  have hplace : n'.data.place inOperation = n.data.place inOperation :=
    congrArg Traits.toPlace (htraits inOperation)
  rw [inventory_eq, htraits, hplace]
  rcases hchildren with hchildren | hchildren
  · rw [hchildren]
  · rw [hchildren, inventories_eq_flatMap, inventories_eq_flatMap, List.flatMap_map]
    congr
    funext c
    exact inventory_clearConfig c _

/-! ### The way to it -/

theorem modifyFirst_eq_ok {fault : LoadFault} {name : String}
    {change : SchemaNode → Except LoadFault SchemaNode} {nodes nodes' : List SchemaNode}
    (h : modifyFirst fault name change nodes = .ok nodes') :
    ∃ before n n' after, nodes = before ++ n :: after ∧ nodes' = before ++ n' :: after ∧
      (n.localName = name ∧ ∀ m ∈ before, m.localName ≠ name) ∧ change n = .ok n' := by
  induction nodes generalizing nodes' with
  | nil => cases h
  | cons first rest ih =>
      rw [modifyFirst] at h
      split at h
      · rename_i hname
        obtain ⟨n', hn', h⟩ := exists_of_bind_eq_ok h
        cases h
        exact ⟨[], first, n', rest, rfl, rfl, ⟨hname, List.forall_mem_nil _⟩, hn'⟩
      · rename_i hname
        obtain ⟨rest', hrest, h⟩ := exists_of_bind_eq_ok h
        cases h
        obtain ⟨before, n, n', after, rfl, rfl, ⟨hn, hbefore⟩, hn'⟩ := ih hrest
        exact ⟨first :: before, n, n', after, rfl, rfl,
          ⟨hn, List.forall_mem_cons.mpr ⟨hname, hbefore⟩⟩, hn'⟩

theorem find?_append {name : String} {earlier later : List SchemaNode} {n : SchemaNode}
    (hearlier : ∀ m ∈ earlier, m.localName ≠ name) (hn : n.localName = name) :
    SchemaNode.find? (earlier ++ n :: later) name = some n := by
  refine List.find?_eq_some_iff_append.mpr ⟨by simpa using hn, earlier, later, rfl, fun m hm => ?_⟩
  simpa using hearlier m hm

/-- The node that the steps lead to has also what the statement sets; all else is as before. -/
structure RefinedAt (stmt : Element) (inOperation : Bool) (steps : List String)
    (nodes nodes' : List SchemaNode) : Prop where
  outline : nodes'.map outline = nodes.map outline
  entry : ∃ before t after, place? inOperation steps nodes = some t.toPlace ∧
    inventories inOperation nodes = before ++ t :: after ∧
    inventories inOperation nodes' = before ++ refinedTraits stmt t :: after

theorem modifyAt_eq_ok {fault : LoadFault} {steps : List String}
    {nodes nodes' : List SchemaNode}
    (h : modifyAt fault (refineNode owner stmt) steps nodes = .ok nodes') (inOperation : Bool) :
    RefinedAt stmt inOperation steps nodes nodes' := by
  fun_induction modifyAt fault (refineNode owner stmt) steps nodes
      generalizing nodes' inOperation with
  | case1 => cases h
  | case2 name nodes =>
      obtain ⟨before, n, n', after, rfl, rfl, ⟨hn, hbefore⟩, hn'⟩ := modifyFirst_eq_ok h
      have hfind : find? (before ++ n :: after) name = some n := find?_append hbefore hn
      refine ⟨by simp [outline_refineNode hn'], inventories inOperation before,
        n.data.traits inOperation, inventories (n.data.place inOperation).inOperation n.children ++
          inventories inOperation after, by simp [place?, hfind, NodeData.traits], ?_, ?_⟩
      · simp [inventories_append_cons, inventory_eq]
      · simp [inventories_append_cons, inventory_refineNode hn']
  | case3 name next rest nodes ih =>
      -- the entry is in the inventory of the children, between what precedes and follows the node
      obtain ⟨before, n, n', after, rfl, rfl, ⟨hn, hbefore⟩, hn'⟩ := modifyFirst_eq_ok h
      have hfind : find? (before ++ n :: after) name = some n := find?_append hbefore hn
      obtain ⟨children, hchildren, hn'⟩ := exists_of_bind_eq_ok hn'
      cases hn'
      obtain ⟨houtline, above, t, below, hplace, hentry, hentry'⟩ :=
        ih n hchildren (n.data.place inOperation).inOperation
      refine ⟨by simp [outline_eq, houtline],
        inventories inOperation before ++ n.data.traits inOperation :: above, t,
        below ++ inventories inOperation after, by simp [place?, hfind, hplace], ?_, ?_⟩
      · simp [inventories_append_cons, inventory_eq, hentry]
      · simp [inventories_append_cons, inventory_eq, hentry']

/-- The local names of a path in a `refine` statement. -/
def refineSteps (path : String) : List String :=
  (pathSteps path).map fun step => (splitReference step).2

theorem refine_eq_ok {nodes nodes' : List SchemaNode} (h : refine owner nodes stmt = .ok nodes')
    (inOperation : Bool) :
    ∃ path, argument owner stmt "target-node" = .ok path ∧
      RefinedAt stmt inOperation (refineSteps path) nodes nodes' := by
  obtain ⟨path, hpath, h⟩ := exists_of_bind_eq_ok h
  exact ⟨path, hpath, modifyAt_eq_ok h inOperation⟩

end Yin

end YangEvolution
