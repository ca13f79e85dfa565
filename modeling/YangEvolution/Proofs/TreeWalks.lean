import YangEvolution.Proofs.MissingNodes

/-!
The ways to go through the trees of a comparison. A data node is looked up by its path from the root
of the new module, any other node among the children of its parent's counterpart. Main statement:
the two ways report the same findings in the same order, from the root and from each pair of nodes
below it, as a path and the descent along it both take the first node of each name. Both are the
pre-order listing of the old trees, with what each of their nodes has to say.
-/

namespace YangEvolution

namespace SchemaNode

/-- Longer paths go on among the children of what shorter ones lead to. -/
theorem reach?_append {names below : List String} (hnames : names ≠ []) (hbelow : below ≠ [])
    (nodes : List SchemaNode) :
    reach? nodes (names ++ below) =
      (reach? nodes names).bind fun n => reach? n.children below := by
  induction names generalizing nodes with
  | nil => exact absurd rfl hnames
  | cons name rest ih =>
      cases rest with
      | nil => rw [List.singleton_append, reach?_cons hbelow, reach?_singleton]
      | cons next rest =>
          have hrest : next :: rest ≠ [] := List.cons_ne_nil _ _
          rw [List.cons_append, reach?_cons (List.append_ne_nil_of_left_ne_nil hrest _),
            reach?_cons hrest, Option.bind_assoc]
          exact congrArg _ (funext fun n => ih hrest n.children)

instance (siblings : List SchemaNode) (names : List String) :
    Decidable (Unmatched siblings names) :=
  inferInstanceAs (Decidable (_ ∧ _))

end SchemaNode

namespace Comparison

open SchemaNode Compatibility

variable {c : Comparison}

/-! ### Paths from the root and siblings -/

/-- Below a place whose path leads to a counterpart, the walks agree. -/
theorem dataNode_of_findNode? {names : List String} {counterpart : SchemaNode}
    (h : c.new.findNode? (c.place .root names).new = some counterpart) (n : SchemaNode) :
    c.dataNode (c.place .root names) n =
      c.nested counterpart.children (c.place .root names) n := by
  have hreach : reach? c.new.children names = some counterpart :=
    (counterpart?_data names).symm.trans h
  have hnames : names ≠ [] := by
    rintro rfl
    cases hreach
  refine dataNode_eq_nested (fun below hbelow => ?_) n
  rw [localNames_new_place]
  calc reach? c.new.children (names ++ below)
      = (reach? c.new.children names).bind fun n => reach? n.children below :=
        reach?_append hnames hbelow _
    _ = reach? counterpart.children below := by rw [hreach, Option.bind_some]

/-- Whether nodes are looked up by their paths from the root or among siblings, the same findings
are reported in the same order. -/
theorem root_walk_eq_sibling_walk (c : Comparison) :
    c.dataNodes .root c.old.children = c.old.children.flatMap (c.nested c.new.children .root) ∧
      ∀ (names : List String) (counterpart : SchemaNode),
        c.new.findNode? (c.place .root names).new = some counterpart → ∀ n,
          c.dataNode (c.place .root names) n =
            c.nested counterpart.children (c.place .root names) n := by
  constructor
  · rw [dataNodes_eq_nestedAll, nestedAll_eq_flatMap]
  · intro names counterpart h n
    exact dataNode_of_findNode? h n

/-- A network that has two stops of one name. -/
def twoStops (first second : List SchemaNode) : Module where
  name := "network"
  uri := "urn:network"
  nsPrefix := "n"
  children := [facility "stop" .current first, facility "stop" .current second]

/-- Of the two stops and of the two platforms the first ones are met, so the exit of the second stop
is missing. -/
theorem root_walk_eq_sibling_walk_repeated :
    let c : Comparison :=
      ⟨twoStops [facility "platform" .current []] [facility "exit" .current []],
        twoStops [facility "platform" .obsolete [], facility "platform" .current []]
          [facility "exit" .current []], .rfc7950⟩
    let platforms := [facility "platform" .obsolete [], facility "platform" .current []]
    c.dataNodes .root c.old.children =
        [⟨.status, "obsolete [/network:stop/network:platform]",
            "current [/network:stop/network:platform]"⟩,
          ⟨.missingNode, "missing [/network:stop/network:exit]",
            "container [/network:stop/network:exit]"⟩] ∧
      c.new.findNode? (c.place .root ["stop"]).new = some (facility "stop" .current platforms) ∧
      c.dataNode (c.place .root ["stop"]) (facility "exit" .current []) =
        c.nested platforms (c.place .root ["stop"]) (facility "exit" .current []) := by
  intro c platforms
  obtain ⟨hroot, hplaces⟩ := root_walk_eq_sibling_walk c
  have hstop : c.new.findNode? (c.place .root ["stop"]).new =
      some (facility "stop" .current platforms) := rfl
  refine ⟨?_, hstop, hplaces _ _ hstop _⟩
  rw [hroot]
  decide

/-! ### Pre-order listings -/

/-- What there is to say on a node of an old tree, when counterparts are looked up from `siblings`
on. Below a node that is missing, nothing is said. -/
def entryFindings (c : Comparison) (siblings : List SchemaNode) (parent : Position)
    (e : List String × NodeData) : List Finding :=
  match reach? siblings e.1 with
  | some n => nodeFindings c.version (c.place parent e.1) e.2 n.data
  | none => if Unmatched siblings e.1 then [missing (c.place parent e.1) e.2] else []

/-- The findings on old trees in the pre-order of their nodes. -/
def preorder (c : Comparison) (siblings : List SchemaNode) (parent : Position)
    (nodes : List SchemaNode) : List Finding :=
  (entriesAll nodes).flatMap (c.entryFindings siblings parent)

theorem entryFindings_top {siblings : List SchemaNode} {parent : Position} (data : NodeData) :
    c.entryFindings siblings parent ([data.qname.localName], data) =
      match find? siblings data.qname.localName with
      | none => [missing (c.enter parent data.qname.localName) data]
      | some n =>
        nodeFindings c.version (c.enter parent data.qname.localName) data n.data := by
  rw [entryFindings, reach?_singleton]
  cases hfind : find? siblings data.qname.localName with
  | none => exact if_pos (unmatched_singleton.mpr hfind)
  | some n => rfl

theorem entryFindings_below {siblings : List SchemaNode} {parent : Position} {name : String}
    {e : List String × NodeData} (h : e.1 ≠ []) :
    c.entryFindings siblings parent (name :: e.1, e.2) =
      match find? siblings name with
      | none => []
      | some n => c.entryFindings n.children (c.enter parent name) e := by
  simp only [entryFindings, reach?_cons h, unmatched_cons h]
  cases hfind : find? siblings name with
  | none => simp
  | some n => simp [place]

theorem nested_eq_flatMap_entries (siblings : List SchemaNode) (parent : Position)
    (n : SchemaNode) :
    c.nested siblings parent n = n.entries.flatMap (c.entryFindings siblings parent) := by
  induction n using treeInduction generalizing siblings parent with
  | node data children ih =>
      have hbelow : ∀ e ∈ entriesAll children,
          c.entryFindings siblings parent (data.qname.localName :: e.1, e.2) = _ :=
        fun e he => entryFindings_below (names_ne_nil he)
      rw [nested, entries, List.flatMap_cons, entryFindings_top, List.flatMap_map,
        List.flatMap_congr hbelow]
      cases find? siblings data.qname.localName with
      | none => simp
      | some new =>
          simp only [nestedAll_eq_flatMap, entriesAll_eq_flatMap, List.flatMap_assoc]
          rw [List.flatMap_congr fun n hn => ih n hn _ _]

theorem nestedAll_eq_preorder (siblings : List SchemaNode) (parent : Position)
    (nodes : List SchemaNode) :
    c.nestedAll siblings parent nodes = c.preorder siblings parent nodes := by
  rw [nestedAll_eq_flatMap, preorder, entriesAll_eq_flatMap, List.flatMap_assoc]
  exact List.flatMap_congr fun n _ => nested_eq_flatMap_entries siblings parent n

end Comparison

end YangEvolution
