import YangEvolution.Proofs.InheritedConfig

/-!
A node whose `config` is refined. What is compared is a tree with nothing but kinds, names and
`config`. Main statement: where a node is refined to a value, and where it is built with the value
instead, whatever is around it in a choice or further out, all nodes have the same `config` exactly
under a condition on the node itself and what is below it.
-/

namespace YangEvolution

namespace SchemaNode

mutual

/-- A tree without anything but kinds, names and `config`. -/
def configs : SchemaNode → SchemaNode
  | ⟨data, children⟩ =>
    ⟨{ kind := data.kind, qname := data.qname, config := data.config }, configsAll children⟩

def configsAll : List SchemaNode → List SchemaNode
  | [] => []
  | n :: rest => configs n :: configsAll rest

end

/-- The node that local names lead to, each to the first node of its name. -/
def reached? (steps : List String) (nodes : List SchemaNode) : Option SchemaNode :=
  match steps with
  | [] => none
  | name :: rest => (find? nodes name).bind fun n => n.descend? rest

/-- Nothing among the nodes or below them is configuration. -/
def NoConfiguration (nodes : List SchemaNode) : Prop :=
  ∀ d, Occurs nodes d → d.data.config ≠ some true

theorem configsAll_eq_map (nodes : List SchemaNode) : configsAll nodes = nodes.map configs := by
  induction nodes with
  | nil => rfl
  | cons n rest ih => rw [configsAll, ih, List.map_cons]

theorem configs_eq (n : SchemaNode) :
    n.configs = ⟨{ kind := n.data.kind, qname := n.data.qname, config := n.data.config },
      n.children.map configs⟩ := by
  obtain ⟨data, children⟩ := n
  rw [configs, configsAll_eq_map]

theorem configs_eq_iff {n n' : SchemaNode} :
    n'.configs = n.configs ↔ (n'.data.kind = n.data.kind ∧ n'.data.qname = n.data.qname) ∧
      n'.data.config = n.data.config ∧ n'.children.map configs = n.children.map configs := by
  simp only [configs_eq, SchemaNode.mk.injEq, NodeData.mk.injEq, true_and, and_true, and_assoc]

theorem reached?_children {steps : List String} (h : steps ≠ []) (n : SchemaNode) :
    reached? steps n.children = n.descend? steps := by
  cases steps with
  | nil => exact absurd rfl h
  | cons name rest => rfl

theorem forall_occurs_iff_forall {P : SchemaNode → Prop} {nodes : List SchemaNode} :
    (∀ d, Occurs nodes d → P d) ↔ ∀ n ∈ nodes, ∀ d, Occurs [n] d → P d := by
  constructor
  · intro h n hn d hd
    obtain ⟨names, hd⟩ := occurs_singleton.mp hd
    exact h d ⟨n, hn, names, hd⟩
  · rintro h d ⟨n, hn, names, hd⟩
    exact h n hn d (occurs_singleton.mpr ⟨names, hd⟩)

end SchemaNode

open SchemaNode

namespace Yin

open Text Markup Outcome

/-- Clearing configuration changes nothing exactly where there is none. -/
theorem configs_clearConfig_eq_iff (n : SchemaNode) :
    (clearConfig n).configs = n.configs ↔ NoConfiguration [n] := by
  induction n using treeInduction with
  | node data children ih =>
      rw [clearConfig, clearConfigAll_eq_map, NoConfiguration, forall_occurs_iff, configs_eq_iff,
        and_iff_right ⟨rfl, rfl⟩]
      refine and_congr ?_ ?_
      · show data.config.map (fun _ => false) = data.config ↔ data.config ≠ some true
        rcases data.config with _ | _ | _ <;> simp
      · rw [List.map_map, List.map_inj_left]
        exact forall₂_congr ih

theorem map_configs_eq_iff {nodes nodes' : List SchemaNode} (h : RecolouredAll nodes nodes') :
    nodes'.map configs = (nodes.map clearConfig).map configs ↔ NoConfiguration nodes' := by
  rw [← h, List.map_map, eq_comm, List.map_inj_left, NoConfiguration, forall_occurs_iff_forall]
  exact forall₂_congr fun n _ => configs_clearConfig_eq_iff n

/-! ### Refining -/

theorem refineNode_config {owner raw : String} {stmt : Element} {n n' : SchemaNode}
    (hraw : stmt.childAttribute? "config" "value" = some raw)
    (h : refineNode owner stmt n = .ok n') :
    ∃ value, readFlag owner "config" raw = .ok value ∧ n'.data.kind = n.data.kind ∧
      n'.data.qname = n.data.qname ∧ n'.data.config = some value ∧
      n'.children = if value then n.children else n.children.map clearConfig := by
  obtain ⟨config, children, mandatory, count, added, rfl, hconfig, -⟩ := exists_of_refineNode h
  cases hconfig with
  | unsaid hnone => exact absurd (hraw.symm.trans hnone) (Option.some_ne_none raw)
  | @said raw' value hraw' hvalue =>
      cases hraw.symm.trans hraw'
      exact ⟨value, hvalue, rfl, rfl, rfl, rfl⟩

theorem modifyFirst_append {fault : LoadFault} {name : String}
    {change : SchemaNode → Except LoadFault SchemaNode} {earlier later : List SchemaNode}
    {n : SchemaNode} (hearlier : ∀ m ∈ earlier, m.localName ≠ name) (hn : n.localName = name) :
    modifyFirst fault name change (earlier ++ n :: later) =
      (do .ok (earlier ++ (← change n) :: later)) := by
  induction earlier with
  | nil => rw [List.nil_append, modifyFirst, if_pos hn]; rfl
  | cons m rest ih =>
      obtain ⟨hm, hrest⟩ := List.forall_mem_cons.mp hearlier
      rw [List.cons_append, modifyFirst, if_neg hm, ih hrest]
      simp only [bind_assoc, ok_bind, List.cons_append]

/-! ### Directly in a choice -/

/-- A data node directly in a choice that is no case has a case of its own. -/
def isShorthand (outer kind : NodeKind) : Bool :=
  outer == .choice && kind != .branch

/-- What a data node in the statement of another kind brings about there. -/
def wrapped (outer kind : NodeKind) (n : SchemaNode) : SchemaNode :=
  if isShorthand outer kind then implicitCase n else n

/-- The same where the node is changed afterwards; its case stays as it is. -/
def rewrapped (outer kind : NodeKind) (n n' : SchemaNode) : SchemaNode :=
  if isShorthand outer kind then { implicitCase n with children := [n'] } else n'

/-- The steps of a path to a data node directly in the statement of another kind. -/
def stepsTo (outer kind : NodeKind) (name : String) : List String :=
  if isShorthand outer kind then [name, name] else [name]

section Wrapping

variable {outer kind : NodeKind} {n n' m : SchemaNode} {name : String}

theorem configs_rewrapped_eq_iff (hm : m.data.qname = n.data.qname) :
    (wrapped outer kind m).configs = (rewrapped outer kind n n').configs ↔
      (isShorthand outer kind = true → m.data.config = n.data.config) ∧
        m.configs = n'.configs := by
  cases hshorthand : isShorthand outer kind with
  | false => simp [wrapped, rewrapped, hshorthand]
  | true =>
      simp only [wrapped, rewrapped, hshorthand, if_true]
      rw [configs_eq_iff, and_iff_right ⟨rfl, hm⟩]
      simp [implicitCase]

theorem reached?_stepsTo {earlier later : List SchemaNode} (steps : List String)
    (hearlier : ∀ x ∈ earlier, x.localName ≠ name) (hn : n.localName = name) :
    reached? (stepsTo outer kind name ++ steps) (earlier ++ wrapped outer kind n :: later) =
      n.descend? steps := by
  cases hshorthand : isShorthand outer kind with
  | false =>
      simp [stepsTo, wrapped, hshorthand, reached?, find?_append hearlier hn]
  | true =>
      have hcase : (implicitCase n).localName = name := hn
      have hinside : SchemaNode.find? (implicitCase n).children name = some n :=
        find?_append (List.forall_mem_nil _) hn
      simp [stepsTo, wrapped, hshorthand, reached?, find?_append hearlier hcase,
        SchemaNode.descend?, hinside]

/-- How a node is changed by a change further on. -/
def changeAt (fault : LoadFault) (change : SchemaNode → Except LoadFault SchemaNode)
    (steps : List String) (n : SchemaNode) : Except LoadFault SchemaNode :=
  match steps with
  | [] => change n
  | name :: rest => do .ok { n with children := ← modifyAt fault change (name :: rest) n.children }

theorem modifyAt_cons (fault : LoadFault) (change : SchemaNode → Except LoadFault SchemaNode)
    (name : String) (steps : List String) (nodes : List SchemaNode) :
    modifyAt fault change (name :: steps) nodes =
      modifyFirst fault name (changeAt fault change steps) nodes := by
  cases steps <;> rfl

theorem changeAt_of_ne_nil (fault : LoadFault)
    (change : SchemaNode → Except LoadFault SchemaNode) {steps : List String} (h : steps ≠ [])
    (n : SchemaNode) :
    changeAt fault change steps n =
      (do .ok { n with children := ← modifyAt fault change steps n.children }) := by
  cases steps with
  | nil => exact absurd rfl h
  | cons name rest => rfl

theorem modifyAt_stepsTo {fault : LoadFault} {change : SchemaNode → Except LoadFault SchemaNode}
    {earlier later : List SchemaNode} (steps : List String)
    (hearlier : ∀ x ∈ earlier, x.localName ≠ name) (hn : n.localName = name) :
    modifyAt fault change (stepsTo outer kind name ++ steps)
        (earlier ++ wrapped outer kind n :: later) =
      (do .ok (earlier ++ rewrapped outer kind n (← changeAt fault change steps n) :: later)) := by
  cases hshorthand : isShorthand outer kind with
  | false =>
      simp only [stepsTo, wrapped, rewrapped, hshorthand, Bool.false_eq_true, if_false,
        List.singleton_append, modifyAt_cons, modifyFirst_append hearlier hn]
  | true =>
      have hcase : (implicitCase n).localName = name := hn
      have hinside : modifyAt fault change (name :: steps) (implicitCase n).children =
          (do .ok [← changeAt fault change steps n]) := by
        rw [modifyAt_cons]
        exact modifyFirst_append (List.forall_mem_nil _) hn
      have hchange : changeAt fault change (name :: steps) (implicitCase n) =
          (do .ok { implicitCase n with children := [← changeAt fault change steps n] }) := by
        rw [changeAt, hinside]
        simp only [bind_assoc, ok_bind]
      simp only [stepsTo, wrapped, rewrapped, hshorthand, if_true, List.cons_append,
        List.nil_append, modifyAt_cons, modifyFirst_append hearlier hcase, hchange, bind_assoc,
        ok_bind]

end Wrapping

/-! ### Both ways compared -/

/-- Where refining a node `n` to a value gives all nodes the `config` that they have with the value
written, the node being `n'` then: below a node that becomes state data, nothing has `config true`
written; below one that becomes configuration, nothing inherits another value; and the case of a
node directly in a choice has the value already. -/
def Interchangeable (value shorthand : Bool) (n n' : SchemaNode) : Prop :=
  (shorthand = true → n.data.config = some value) ∧
    if value then n'.children.map configs = n.children.map configs
    else NoConfiguration n'.children

/-- Steps lead to `n` before a refinement, and to `n'` where the value is written. -/
structure Compared (value shorthand : Bool) (steps : List String)
    (nodes refined written : List SchemaNode) (n n' : SchemaNode) : Prop where
  before : reached? steps nodes = some n
  after : reached? steps written = some n'
  data : n'.data = { n.data with config := some value }
  children : RecolouredAll n.children n'.children
  unchanged : n.data.config = some value → n'.children = n.children
  alike : written.map configs = refined.map configs ↔ Interchangeable value shorthand n n'

theorem interchangeable_iff {outer kind : NodeKind} {value : Bool} {n n₁ n' : SchemaNode}
    (hkind : n₁.data.kind = n.data.kind) (hname : n₁.data.qname = n.data.qname)
    (hconfig : n₁.data.config = some value)
    (hchildren : n₁.children = if value then n.children else n.children.map clearConfig)
    (hdata : n'.data = { n.data with config := some value })
    (hrecoloured : RecolouredAll n.children n'.children) :
    (wrapped outer kind n').configs = (rewrapped outer kind n n₁).configs ↔
      Interchangeable value (isShorthand outer kind) n n' := by
  have hqname : n'.data.qname = n.data.qname := by rw [hdata]
  have hkind' : n'.data.kind = n.data.kind := by rw [hdata]
  have hwritten : n'.data.config = some value := by rw [hdata]
  rw [configs_rewrapped_eq_iff hqname, hwritten]
  refine and_congr ⟨fun h hyes => (h hyes).symm, fun h hyes => (h hyes).symm⟩ ?_
  rw [configs_eq_iff, and_iff_right ⟨hkind'.trans hkind.symm, hqname.trans hname.symm⟩, hwritten,
    hconfig, and_iff_right rfl, hchildren]
  cases value with
  | true => exact Iff.rfl
  | false => exact map_configs_eq_iff hrecoloured

/-- One statement further out, nothing else differs. -/
theorem Compared.outwards {value shorthand : Bool} {steps : List String}
    {children refined written : List SchemaNode} {n n' : SchemaNode}
    (h : Compared value shorthand steps children refined written n n') (hsteps : steps ≠ [])
    {outer kind : NodeKind} {name : String} {earlier later : List SchemaNode} {data : NodeData}
    (hearlier : ∀ m ∈ earlier, m.localName ≠ name) (hname : data.qname.localName = name) :
    Compared value shorthand (stepsTo outer kind name ++ steps)
      (earlier ++ wrapped outer kind ⟨data, children⟩ :: later)
      (earlier ++ rewrapped outer kind ⟨data, children⟩ ⟨data, refined⟩ :: later)
      (earlier ++ wrapped outer kind ⟨data, written⟩ :: later) n n' := by
  have hreached : ∀ nodes, reached? (stepsTo outer kind name ++ steps)
      (earlier ++ wrapped outer kind ⟨data, nodes⟩ :: later) = reached? steps nodes := by
    intro nodes
    have hn : (⟨data, nodes⟩ : SchemaNode).localName = name := hname
    rw [reached?_stepsTo steps hearlier hn]
    exact (reached?_children hsteps ⟨data, nodes⟩).symm
  refine ⟨(hreached _).trans h.before, (hreached _).trans h.after, h.data, h.children, h.unchanged,
    ?_⟩
  have hwhole : (wrapped outer kind ⟨data, written⟩).configs =
      (rewrapped outer kind ⟨data, children⟩ ⟨data, refined⟩).configs ↔
        written.map configs = refined.map configs := by
    have hqname : (⟨data, written⟩ : SchemaNode).data.qname =
        (⟨data, children⟩ : SchemaNode).data.qname := rfl
    rw [configs_rewrapped_eq_iff hqname, configs_eq_iff]
    simp
  rw [← h.alike, ← hwhole]
  simp

end Yin

end YangEvolution
