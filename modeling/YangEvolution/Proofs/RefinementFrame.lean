import YangEvolution.Proofs.RefinedNode

/-!
What a `refine` statement leaves alone. A position in a tree gives the index of a child at each
level, so that nodes of one name are told apart. Main statement: a `refine` statement changes
nothing outside the subtree at the one position that its path leads to, below that position at most
`config`, and at the position itself at most what it can state, so that no node comes, goes or gets
another kind, name, status or condition.
-/

namespace YangEvolution

namespace SchemaNode

/-- The node at a position below a node. -/
def descendAt? (n : SchemaNode) : List Nat → Option SchemaNode
  | [] => some n
  | i :: rest => n.children[i]?.bind fun c => c.descendAt? rest

/-- The node at a position among nodes. -/
def reachedAt? (position : List Nat) (nodes : List SchemaNode) : Option SchemaNode :=
  match position with
  | [] => none
  | i :: rest => nodes[i]?.bind fun n => n.descendAt? rest

/-- `Leads nodes names position`: local names lead to a position, at each level to the first node
of its name. -/
inductive Leads : List SchemaNode → List String → List Nat → Prop where
  | last {earlier later : List SchemaNode} {n : SchemaNode} :
      (∀ m ∈ earlier, m.localName ≠ n.localName) →
      Leads (earlier ++ n :: later) [n.localName] [earlier.length]
  | further {earlier later : List SchemaNode} {n : SchemaNode} {names : List String}
      {position : List Nat} : (∀ m ∈ earlier, m.localName ≠ n.localName) →
      Leads n.children names position →
      Leads (earlier ++ n :: later) (n.localName :: names) (earlier.length :: position)

@[simp] theorem descendAt?_nil (n : SchemaNode) : n.descendAt? [] = some n := rfl

theorem descendAt?_of_ne_nil {p : List Nat} (h : p ≠ []) (n : SchemaNode) :
    n.descendAt? p = reachedAt? p n.children := by
  cases p with
  | nil => exact absurd rfl h
  | cons i rest => rfl

theorem descendAt?_append (n : SchemaNode) (p q : List Nat) :
    n.descendAt? (p ++ q) = (n.descendAt? p).bind fun m => m.descendAt? q := by
  induction p generalizing n with
  | nil => rfl
  | cons i rest ih =>
      rw [List.cons_append, descendAt?, descendAt?]
      cases n.children[i]? with
      | none => rfl
      | some c => exact ih c

theorem reachedAt?_append {p : List Nat} (h : p ≠ []) (q : List Nat) (nodes : List SchemaNode) :
    reachedAt? (p ++ q) nodes = (reachedAt? p nodes).bind fun m => m.descendAt? q := by
  cases p with
  | nil => exact absurd rfl h
  | cons i rest =>
      rw [List.cons_append, reachedAt?, reachedAt?]
      cases nodes[i]? with
      | none => rfl
      | some n => exact descendAt?_append n rest q

section Around

variable {earlier later : List SchemaNode} {n n' : SchemaNode}

theorem reachedAt?_length (p : List Nat) :
    reachedAt? (earlier.length :: p) (earlier ++ n :: later) = n.descendAt? p := by
  simp [reachedAt?]

theorem reachedAt?_of_ne {i : Nat} (h : i ≠ earlier.length) (p : List Nat) :
    reachedAt? (i :: p) (earlier ++ n' :: later) = reachedAt? (i :: p) (earlier ++ n :: later) := by
  have hsame : (earlier ++ n' :: later)[i]? = (earlier ++ n :: later)[i]? := by
    by_cases hi : i < earlier.length
    · rw [List.getElem?_append_left hi, List.getElem?_append_left hi]
    · rw [List.getElem?_append_right (by omega), List.getElem?_append_right (by omega)]
      obtain ⟨k, hk⟩ : ∃ k, i - earlier.length = k + 1 := ⟨i - earlier.length - 1, by omega⟩
      simp [hk]
  rw [reachedAt?, reachedAt?, hsame]

end Around

end SchemaNode

open SchemaNode

namespace Yin

open Text Markup Outcome

/-! ### A change at one position -/

/-- A list of nodes in which the node at a position is replaced by `n'`. -/
structure ReplacedAt (target : List Nat) (n' : SchemaNode) (nodes nodes' : List SchemaNode) :
    Prop where
  inside : ∀ p, reachedAt? (target ++ p) nodes' = n'.descendAt? p
  outside : ∀ p, ¬ target <+: p →
    (reachedAt? p nodes').map SchemaNode.data = (reachedAt? p nodes).map SchemaNode.data

theorem ReplacedAt.here {earlier later : List SchemaNode} {n n' : SchemaNode} :
    ReplacedAt [earlier.length] n' (earlier ++ n :: later) (earlier ++ n' :: later) where
  inside p := reachedAt?_length p
  outside p hp := by
    cases p with
    | nil => rfl
    | cons i rest =>
        have hi : i ≠ earlier.length := by
          rintro rfl
          exact hp (List.cons_prefix_cons.mpr ⟨rfl, List.nil_prefix⟩)
        rw [reachedAt?_of_ne hi]

/-- A change further down leaves the nodes on the way as they are. -/
theorem ReplacedAt.outwards {target : List Nat} {n' : SchemaNode}
    {children children' : List SchemaNode} (h : ReplacedAt target n' children children')
    (htarget : target ≠ []) {earlier later : List SchemaNode} {data : NodeData} :
    ReplacedAt (earlier.length :: target) n' (earlier ++ ⟨data, children⟩ :: later)
      (earlier ++ ⟨data, children'⟩ :: later) where
  inside p := by
    rw [List.cons_append, reachedAt?_length]
    rw [descendAt?_of_ne_nil (List.append_ne_nil_of_left_ne_nil htarget p)]
    exact h.inside p
  outside p hp := by
    cases p with
    | nil => rfl
    | cons i rest =>
        by_cases hi : i = earlier.length
        · subst hi
          have hrest : ¬ target <+: rest := fun hle =>
            hp (List.cons_prefix_cons.mpr ⟨rfl, hle⟩)
          rw [reachedAt?_length, reachedAt?_length]
          cases rest with
          | nil => rfl
          | cons j rest => exact h.outside (j :: rest) hrest
        · rw [reachedAt?_of_ne hi]

theorem exists_of_modifyAt {fault : LoadFault} {change : SchemaNode → Except LoadFault SchemaNode}
    {steps : List String} {nodes nodes' : List SchemaNode}
    (h : modifyAt fault change steps nodes = .ok nodes') :
    ∃ target n n', target ≠ [] ∧ Leads nodes steps target ∧ reachedAt? target nodes = some n ∧
      change n = .ok n' ∧ ReplacedAt target n' nodes nodes' := by
  induction steps generalizing nodes nodes' with
  | nil => cases h
  | cons name steps ih =>
      rw [modifyAt_cons] at h
      obtain ⟨earlier, n, n', later, rfl, rfl, ⟨rfl, hearlier⟩, hchange⟩ := modifyFirst_eq_ok h
      cases steps with
      | nil =>
          refine ⟨[earlier.length], n, n', List.cons_ne_nil _ _, .last hearlier, ?_, hchange, .here⟩
          exact reachedAt?_length []
      | cons next steps =>
          obtain ⟨data, below⟩ := n
          obtain ⟨children, hchildren, hn'⟩ := exists_of_bind_eq_ok hchange
          cases hn'
          obtain ⟨target, m, m', htarget, hleads, hm, hm', hreplaced⟩ := ih hchildren
          refine ⟨earlier.length :: target, m, m', List.cons_ne_nil _ _, .further hearlier hleads,
            ?_, hm', hreplaced.outwards htarget⟩
          rw [reachedAt?_length, descendAt?_of_ne_nil htarget]
          exact hm

/-! ### The node that is refined, and what is below it -/

/-- The statement says `config false`. -/
def MakesState (stmt : Element) : Prop :=
  ∃ raw, stmt.childAttribute? "config" "value" = some raw ∧ trim raw = "false"

/-- What a `refine` statement may change in the node that it leads to. -/
def RefinedData (owner : String) (stmt : Element) (d d' : NodeData) : Prop :=
  ∃ description reference config mandatory count default added,
    mustsOf owner stmt = .ok added ∧
    d' = { d with
      description := description
      reference := reference
      config := config
      mandatory := mandatory
      count := count
      type := d.type.map fun t => { t with default := default }
      musts := d.musts ++ added }

/-- What a `refine` statement may change in a node below that one. -/
def ClearedData (stmt : Element) (d d' : NodeData) : Prop :=
  d' = d ∨ MakesState stmt ∧ d.config.isSome = true ∧ d' = { d with config := some false }

variable {owner : String} {stmt : Element} {n n' : SchemaNode} {nodes nodes' : List SchemaNode}

theorem trim_eq_of_readFlag {what raw : String} (h : readFlag owner what raw = .ok false) :
    trim raw = "false" := by
  unfold readFlag at h
  split at h
  · cases h
  · assumption
  · cases h

theorem exists_type_refineDefault (stmt : Element) (n : SchemaNode) :
    ∃ default, (refineDefault stmt n).data.type =
      n.data.type.map fun t => { t with default := default } := by
  unfold refineDefault
  split
  · refine ⟨n.data.type.bind TypeDef.default, ?_⟩
    rcases n.data.type with _ | ⟨_, _, _, _, _, _, _, _⟩
    · rfl
    · rfl
  · rename_i value _
    exact ⟨some value, rfl⟩

theorem refinedData_of_refineNode (h : refineNode owner stmt n = .ok n') :
    RefinedData owner stmt n.data n'.data := by
  obtain ⟨config, children, mandatory, count, added, rfl, -, -, -, hadded⟩ := exists_of_refineNode h
  obtain ⟨default, hdefault⟩ := exists_type_refineDefault stmt n
  exact ⟨_, _, config, mandatory, count, default, added, hadded, by rw [hdefault]⟩

theorem children_of_refineNode (h : refineNode owner stmt n = .ok n') :
    n'.children = n.children ∨ MakesState stmt ∧ n'.children = n.children.map clearConfig := by
  obtain ⟨config, children, mandatory, count, added, rfl, hconfig, -⟩ := exists_of_refineNode h
  cases hconfig with
  | unsaid => exact .inl rfl
  | @said raw value hraw hvalue =>
      cases value with
      | true => exact .inl rfl
      | false => exact .inr ⟨⟨raw, hraw, trim_eq_of_readFlag hvalue⟩, rfl⟩

theorem descendAt?_clearConfig (p : List Nat) (n : SchemaNode) :
    (clearConfig n).descendAt? p = (n.descendAt? p).map clearConfig := by
  induction p generalizing n with
  | nil => rfl
  | cons i rest ih =>
      rw [descendAt?, descendAt?, clearConfig_eq, List.getElem?_map]
      cases n.children[i]? with
      | none => rfl
      | some c => exact ih c

theorem reachedAt?_map_clearConfig (p : List Nat) (nodes : List SchemaNode) :
    reachedAt? p (nodes.map clearConfig) = (reachedAt? p nodes).map clearConfig := by
  cases p with
  | nil => rfl
  | cons i rest =>
      rw [reachedAt?, reachedAt?, List.getElem?_map]
      cases nodes[i]? with
      | none => rfl
      | some n => exact descendAt?_clearConfig rest n

theorem clearedData_clearConfig (h : MakesState stmt) (n : SchemaNode) :
    ClearedData stmt n.data (clearConfig n).data := by
  obtain ⟨data, children⟩ := n
  rw [clearConfig]
  cases hconfig : data.config with
  | none => exact .inl (by rw [Option.map_none, ← hconfig])
  | some value => exact .inr ⟨h, by simp [hconfig], by simp⟩

/-- Below the refined node, every position has a node before and after, or neither. -/
theorem descendants_of_refineNode (h : refineNode owner stmt n = .ok n') {p : List Nat}
    (hp : p ≠ []) :
    Option.Rel (fun m m' => ClearedData stmt m.data m'.data) (n.descendAt? p)
      (n'.descendAt? p) := by
  rw [descendAt?_of_ne_nil hp, descendAt?_of_ne_nil hp]
  rcases children_of_refineNode h with hsame | ⟨hstate, hcleared⟩
  · rw [hsame]
    exact optionRel_refl (fun m => .inl rfl) _
  · rw [hcleared, reachedAt?_map_clearConfig]
    cases reachedAt? p n.children with
    | none => exact .none
    | some m => exact .some (clearedData_clearConfig hstate m)

/-! ### Before and after -/

/-- How nodes differ before and after a `refine` statement that leads to a position among them. -/
structure RefinedOnlyAt (owner : String) (stmt : Element) (target : List Nat)
    (nodes nodes' : List SchemaNode) : Prop where
  shape : ∀ p, (reachedAt? p nodes').isSome = (reachedAt? p nodes).isSome
  kept : ∀ p n n', reachedAt? p nodes = some n → reachedAt? p nodes' = some n' →
    n'.data.kind = n.data.kind ∧ n'.data.qname = n.data.qname ∧ n'.data.status = n.data.status ∧
      n'.data.when = n.data.when
  outside : ∀ p n n', ¬ target <+: p → reachedAt? p nodes = some n →
    reachedAt? p nodes' = some n' → n'.data = n.data
  descendants : ∀ p n n', target <+: p → p ≠ target → reachedAt? p nodes = some n →
    reachedAt? p nodes' = some n' → ClearedData stmt n.data n'.data
  itself : ∃ n n', reachedAt? target nodes = some n ∧ reachedAt? target nodes' = some n' ∧
    RefinedData owner stmt n.data n'.data

/-- What a refinement may do to the node at a position. -/
def DataChange (owner : String) (stmt : Element) (target p : List Nat) (d d' : NodeData) : Prop :=
  (¬ target <+: p ∧ d' = d) ∨ (target <+: p ∧ p ≠ target ∧ ClearedData stmt d d') ∨
    (p = target ∧ RefinedData owner stmt d d')

theorem DataChange.kept {target p : List Nat} {d d' : NodeData}
    (h : DataChange owner stmt target p d d') :
    d'.kind = d.kind ∧ d'.qname = d.qname ∧ d'.status = d.status ∧ d'.when = d.when := by
  rcases h with ⟨-, rfl⟩ | ⟨-, -, rfl | ⟨-, -, rfl⟩⟩ |
    ⟨-, description, reference, config, mandatory, count, default, added, -, rfl⟩
  all_goals exact ⟨rfl, rfl, rfl, rfl⟩

/-- Every position has a node before and after a change at one position, or neither. -/
theorem ReplacedAt.dataChange {target : List Nat} (htarget : target ≠ [])
    (hn : reachedAt? target nodes = some n) (h : refineNode owner stmt n = .ok n')
    (hreplaced : ReplacedAt target n' nodes nodes') (p : List Nat) :
    Option.Rel (fun m m' => DataChange owner stmt target p m.data m'.data) (reachedAt? p nodes)
      (reachedAt? p nodes') := by
  by_cases hp : target <+: p
  · obtain ⟨q, rfl⟩ := hp
    rw [hreplaced.inside q, reachedAt?_append htarget, hn, Option.bind_some]
    by_cases hq : q = []
    · subst hq
      exact .some (.inr (.inr ⟨List.append_nil target, refinedData_of_refineNode h⟩))
    · refine optionRel_imp (descendants_of_refineNode h hq) fun m m' hm => ?_
      exact .inr (.inl ⟨List.prefix_append target q, by simpa using hq, hm⟩)
  · have hdata := hreplaced.outside p hp
    cases hm : reachedAt? p nodes with
    | none =>
        rw [hm, Option.map_none, Option.map_eq_none_iff] at hdata
        rw [hdata]
        exact .none
    | some m =>
        rw [hm, Option.map_some] at hdata
        obtain ⟨m', hm', hmm'⟩ := Option.map_eq_some_iff.mp hdata
        rw [hm']
        exact .some (.inl ⟨hp, hmm'⟩)

theorem ReplacedAt.refinedOnlyAt {target : List Nat} (htarget : target ≠ [])
    (hn : reachedAt? target nodes = some n) (h : refineNode owner stmt n = .ok n')
    (hreplaced : ReplacedAt target n' nodes nodes') :
    RefinedOnlyAt owner stmt target nodes nodes' := by
  have hchange := hreplaced.dataChange htarget hn h
  have hboth : ∀ {p m m'}, reachedAt? p nodes = some m → reachedAt? p nodes' = some m' →
      DataChange owner stmt target p m.data m'.data := by
    intro p m m' hm hm'
    have hp := hchange p
    rw [hm, hm'] at hp
    cases hp with
    | some hp => exact hp
  have hn' : reachedAt? target nodes' = some n' := by
    simpa using hreplaced.inside []
  refine ⟨fun p => isSome_eq_of_optionRel (hchange p), fun p m m' hm hm' => (hboth hm hm').kept,
    fun p m m' hp hm hm' => ?_, fun p m m' hp hne hm hm' => ?_,
    n, n', hn, hn', refinedData_of_refineNode h⟩
  · rcases hboth hm hm' with ⟨-, hsame⟩ | ⟨hbelow, -⟩ | ⟨rfl, -⟩
    · exact hsame
    · exact absurd hbelow hp
    · exact absurd (List.prefix_refl p) hp
  · rcases hboth hm hm' with ⟨houtside, -⟩ | ⟨-, -, hcleared⟩ | ⟨heq, -⟩
    · exact absurd hp houtside
    · exact hcleared
    · exact absurd heq hne

/-- A `refine` statement changes one node, and `config` below it. -/
theorem refine_changes_one_subtree (h : refine owner nodes stmt = .ok nodes') :
    ∃ path target, argument owner stmt "target-node" = .ok path ∧
      Leads nodes (refineSteps path) target ∧ RefinedOnlyAt owner stmt target nodes nodes' := by
  obtain ⟨path, hpath, h⟩ := exists_of_bind_eq_ok h
  obtain ⟨target, n, n', htarget, hleads, hn, hn', hreplaced⟩ := exists_of_modifyAt h
  exact ⟨path, target, hpath, hleads, hreplaced.refinedOnlyAt htarget hn hn'⟩

/-- A lamp with a level and conditions, either both configuration or both state data. -/
def lamp (config : Bool) (musts : List Must) : SchemaNode :=
  ⟨{ kind := .container, qname := ⟨"urn:home", none, "lamp"⟩, config := some config, musts },
    [⟨{ kind := .leaf, qname := ⟨"urn:home", none, "level"⟩, config := some config }, []⟩]⟩

/-- Makes a lamp state data, and has it depend on its level. -/
def dimming : Element where
  tag := "refine"
  attributes := [("target-node", "h:lamp")]
  children := [
    { tag := "config", attributes := [("value", "false")] },
    { tag := "must", attributes := [("condition", "level")] }]

theorem refine_changes_one_subtree_lamps :
    refine "home" [lamp true [], lamp true []] dimming =
        .ok [lamp false [{ xpath := "level" }], lamp true []] ∧
      ∃ path target, argument "home" dimming "target-node" = .ok path ∧
        Leads [lamp true [], lamp true []] (refineSteps path) target ∧
        RefinedOnlyAt "home" dimming target [lamp true [], lamp true []]
          [lamp false [{ xpath := "level" }], lamp true []] := by
  have h : refine "home" [lamp true [], lamp true []] dimming =
      .ok [lamp false [{ xpath := "level" }], lamp true []] := rfl
  exact ⟨h, refine_changes_one_subtree h⟩

end Yin

end YangEvolution
