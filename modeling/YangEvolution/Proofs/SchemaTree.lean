import YangEvolution.Schema.Module

/-!
Trees of schema nodes: induction on them, and where in a tree or in a module a node occurs.
-/

namespace YangEvolution

/-- The kinds below which nothing is configuration or state data. -/
def NodeKind.isOperation : NodeKind → Bool
  | rpc | action | notification => true
  | _ => false

namespace SchemaNode

/-- Induction on the tree below a node. -/
theorem treeInduction {motive : SchemaNode → Prop}
    (node : ∀ data children, (∀ n ∈ children, motive n) → motive ⟨data, children⟩)
    (n : SchemaNode) : motive n :=
  match n with
  | ⟨data, children⟩ => node data children fun m _ => treeInduction node m

/-- `Contains n names m`: local names from that of `n` on lead from `n` to `m`. Where siblings share
a name, they lead to several nodes. -/
inductive Contains : SchemaNode → List String → SchemaNode → Prop where
  | self (n : SchemaNode) : Contains n [n.localName] n
  | child {n c m : SchemaNode} {names : List String} : c ∈ n.children → Contains c names m →
      Contains n (n.localName :: names) m

/-- `n` is one of the nodes or anywhere below one. -/
def Occurs (nodes : List SchemaNode) (n : SchemaNode) : Prop :=
  ∃ top ∈ nodes, ∃ names, top.Contains names n

theorem Occurs.of_mem {nodes : List SchemaNode} {n : SchemaNode} (h : n ∈ nodes) :
    Occurs nodes n :=
  ⟨n, h, _, .self n⟩

theorem Occurs.below {nodes : List SchemaNode} {n m : SchemaNode} (hn : n ∈ nodes)
    (h : Occurs n.children m) : Occurs nodes m := by
  obtain ⟨c, hc, names, hm⟩ := h
  exact ⟨n, hn, _, .child hc hm⟩

theorem occurs_singleton {n m : SchemaNode} : Occurs [n] m ↔ ∃ names, n.Contains names m := by
  simp [Occurs]

@[simp] theorem not_occurs_nil (n : SchemaNode) : ¬ Occurs [] n := by
  rintro ⟨top, htop, -⟩
  cases htop

@[simp] theorem occurs_cons {nodes : List SchemaNode} {top n : SchemaNode} :
    Occurs (top :: nodes) n ↔ n = top ∨ Occurs top.children n ∨ Occurs nodes n := by
  constructor
  · rintro ⟨first, hfirst, names, hn⟩
    rcases List.mem_cons.mp hfirst with rfl | hfirst
    · cases hn with
      | self => exact .inl rfl
      | child hc hn => exact .inr (.inl ⟨_, hc, _, hn⟩)
    · exact .inr (.inr ⟨first, hfirst, names, hn⟩)
  · rintro (rfl | hn | ⟨first, hfirst, names, hn⟩)
    · exact .of_mem List.mem_cons_self
    · exact .below List.mem_cons_self hn
    · exact ⟨first, List.mem_cons_of_mem _ hfirst, names, hn⟩

/-- What holds of all nodes of a tree holds of its top and of all nodes of the trees below that. -/
theorem forall_occurs_iff {P : SchemaNode → Prop} {n : SchemaNode} :
    (∀ d, Occurs [n] d → P d) ↔ P n ∧ ∀ c ∈ n.children, ∀ d, Occurs [c] d → P d := by
  constructor
  · intro h
    refine ⟨h n (.of_mem List.mem_cons_self), fun c hc d hd => h d ?_⟩
    obtain ⟨names, hd⟩ := occurs_singleton.mp hd
    exact .below List.mem_cons_self ⟨c, hc, names, hd⟩
  · rintro ⟨hself, hchildren⟩ d hd
    rcases occurs_cons.mp hd with rfl | ⟨c, hc, names, hd⟩ | hd
    · exact hself
    · exact hchildren c hc d (occurs_singleton.mpr ⟨names, hd⟩)
    · exact absurd hd (not_occurs_nil d)

end SchemaNode

/-- `n` is a node of the module: of its data tree, of an operation or notification, or of what it
adds elsewhere. -/
inductive Module.HasNode (m : Module) (n : SchemaNode) : Prop where
  | data : SchemaNode.Occurs m.children n → HasNode m n
  | rpc : SchemaNode.Occurs m.rpcs n → HasNode m n
  | notification : SchemaNode.Occurs m.notifications n → HasNode m n
  | augmentation {a : Augmentation} : a ∈ m.augmentations → SchemaNode.Occurs a.children n →
      HasNode m n

/-- All trees of a module. -/
def Module.trees (m : Module) : List SchemaNode :=
  m.children ++ m.rpcs ++ m.notifications ++ m.augmentations.flatMap Augmentation.children

theorem Module.hasNode_iff {m : Module} {n : SchemaNode} :
    m.HasNode n ↔ SchemaNode.Occurs m.trees n := by
  simp only [trees, SchemaNode.Occurs, List.mem_append, List.mem_flatMap]
  constructor
  · rintro (⟨top, h, hn⟩ | ⟨top, h, hn⟩ | ⟨top, h, hn⟩ | ⟨ha, top, h, hn⟩)
    · exact ⟨top, .inl (.inl (.inl h)), hn⟩
    · exact ⟨top, .inl (.inl (.inr h)), hn⟩
    · exact ⟨top, .inl (.inr h), hn⟩
    · exact ⟨top, .inr ⟨_, ha, h⟩, hn⟩
  · rintro ⟨top, ((h | h) | h) | ⟨a, ha, h⟩, hn⟩
    · exact .data ⟨top, h, hn⟩
    · exact .rpc ⟨top, h, hn⟩
    · exact .notification ⟨top, h, hn⟩
    · exact .augmentation ha ⟨top, h, hn⟩

end YangEvolution
