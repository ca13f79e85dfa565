import YangEvolution.Proofs.AugmentationSplit
import YangEvolution.Proofs.MatchedPairs
import YangEvolution.Proofs.RuleFamilies

/-!
Nodes that have no counterpart in the new module. A node is lost where its parent has a counterpart
and it has none itself. Main statement: lost nodes and augmentations of a target that is augmented
no more are what is reported as missing, and what a node without a counterpart says and what is
below it has no influence on the catalog, but for its kind and its local name.
-/

namespace YangEvolution

namespace SchemaNode

/-- `Replaced n n' names top top'`: in the tree of `top`, the node `n` at one place that `names`
lead to is replaced by `n'`. -/
inductive Replaced (n n' : SchemaNode) : List String → SchemaNode → SchemaNode → Prop where
  | self : Replaced n n' [n.localName] n n'
  | child {data : NodeData} {before after : List SchemaNode} {c c' : SchemaNode}
      {names : List String} : Replaced n n' names c c' →
      Replaced n n' (data.qname.localName :: names) ⟨data, before ++ c :: after⟩
        ⟨data, before ++ c' :: after⟩

/-- The same in one of several trees. -/
inductive ReplacedAmong (n n' : SchemaNode) (names : List String) :
    List SchemaNode → List SchemaNode → Prop where
  | tree {before after : List SchemaNode} {top top' : SchemaNode} : Replaced n n' names top top' →
      ReplacedAmong n n' names (before ++ top :: after) (before ++ top' :: after)

theorem exists_replaced {top n : SchemaNode} {names : List String} (h : top.Contains names n)
    (n' : SchemaNode) : ∃ top', Replaced n n' names top top' := by
  induction h with
  | self n => exact ⟨n', .self⟩
  | @child top c n names hc _ ih =>
      obtain ⟨data, children⟩ := top
      obtain ⟨before, after, rfl⟩ := List.append_of_mem hc
      obtain ⟨c', hc'⟩ := ih
      exact ⟨_, .child hc'⟩

theorem exists_replacedAmong {nodes : List SchemaNode} {top n : SchemaNode} {names : List String}
    (htop : top ∈ nodes) (h : top.Contains names n) (n' : SchemaNode) :
    ∃ nodes', ReplacedAmong n n' names nodes nodes' := by
  obtain ⟨before, after, rfl⟩ := List.append_of_mem htop
  obtain ⟨top', htop'⟩ := exists_replaced h n'
  exact ⟨_, .tree htop'⟩

/-- From some siblings on, the node that names would lead to is not there, but its parent is. -/
def Unmatched (siblings : List SchemaNode) (names : List String) : Prop :=
  (names.dropLast = [] ∨ (reach? siblings names.dropLast).isSome) ∧ reach? siblings names = none

theorem unmatched_singleton {siblings : List SchemaNode} {name : String} :
    Unmatched siblings [name] ↔ find? siblings name = none := by
  simp [Unmatched, reach?_singleton]

/-- Below a node that is there, what is missing is missing among the children of that node. -/
theorem unmatched_cons {siblings : List SchemaNode} {name : String} {names : List String}
    (hnames : names ≠ []) :
    Unmatched siblings (name :: names) ↔
      ∃ n, find? siblings name = some n ∧ Unmatched n.children names := by
  have hlast : (name :: names).dropLast = name :: names.dropLast :=
    List.dropLast_cons_of_ne_nil hnames
  rw [Unmatched, hlast, reach?_cons hnames]
  cases hfind : find? siblings name with
  | none =>
      have hnone : reach? siblings (name :: names.dropLast) = none := by
        rw [reach?, hfind]
        rfl
      simp [hnone]
  | some n =>
      have hparent : (reach? siblings (name :: names.dropLast)).isSome ↔
          names.dropLast = [] ∨ (reach? n.children names.dropLast).isSome := by
        by_cases hnil : names.dropLast = []
        · simp [hnil, reach?_singleton, hfind]
        · simp [hnil, reach?_cons hnil, hfind]
      simp [Unmatched, hparent]

theorem Contains.ne_nil {top n : SchemaNode} {names : List String} (h : top.Contains names n) :
    names ≠ [] := by
  cases h <;> exact List.cons_ne_nil _ _

end SchemaNode

open SchemaNode

/-- The parts of a module that hold trees of nodes; augmentations are told by their target. -/
inductive Region where
  | data
  | rpcs
  | notifications
  | augmentation (target : SchemaPath)

/-- Where the trees of a part stand. -/
def Region.base : Region → SchemaPath
  | augmentation target => target
  | _ => .root

namespace Module

/-- In a part of the module, local names lead to a node. -/
inductive HasAt (m : Module) (names : List String) (n : SchemaNode) : Region → Prop where
  | data {top : SchemaNode} : top ∈ m.children → top.Contains names n → HasAt m names n .data
  | rpc {top : SchemaNode} : top ∈ m.rpcs → top.Contains names n → HasAt m names n .rpcs
  | notification {top : SchemaNode} : top ∈ m.notifications → top.Contains names n →
      HasAt m names n .notifications
  | augmentation {a : Augmentation} {top : SchemaNode} : a ∈ m.augmentations → top ∈ a.children →
      top.Contains names n → HasAt m names n (.augmentation a.target)

/-- In a part of the module, a node that local names lead to is replaced. -/
inductive Replaced (m : Module) (n n' : SchemaNode) (names : List String) :
    Region → Module → Prop where
  | data {children : List SchemaNode} : ReplacedAmong n n' names m.children children →
      Replaced m n n' names .data { m with children }
  | rpc {rpcs : List SchemaNode} : ReplacedAmong n n' names m.rpcs rpcs →
      Replaced m n n' names .rpcs { m with rpcs }
  | notification {notifications : List SchemaNode} :
      ReplacedAmong n n' names m.notifications notifications →
      Replaced m n n' names .notifications { m with notifications }
  | augmentation {before after : List Augmentation} {a : Augmentation}
      {children : List SchemaNode} : m.augmentations = before ++ a :: after →
      ReplacedAmong n n' names a.children children →
      Replaced m n n' names (.augmentation a.target)
        { m with augmentations := before ++ { a with children } :: after }

theorem exists_replaced_of_hasAt {m : Module} {names : List String} {n : SchemaNode} {r : Region}
    (h : m.HasAt names n r) (n' : SchemaNode) : ∃ m', m.Replaced n n' names r m' := by
  cases h with
  | data htop hn =>
      obtain ⟨children, h⟩ := exists_replacedAmong htop hn n'
      exact ⟨_, .data h⟩
  | rpc htop hn =>
      obtain ⟨rpcs, h⟩ := exists_replacedAmong htop hn n'
      exact ⟨_, .rpc h⟩
  | notification htop hn =>
      obtain ⟨notifications, h⟩ := exists_replacedAmong htop hn n'
      exact ⟨_, .notification h⟩
  | augmentation ha htop hn =>
      obtain ⟨before, after, hsplit⟩ := List.append_of_mem ha
      obtain ⟨children, h⟩ := exists_replacedAmong htop hn n'
      exact ⟨_, .augmentation hsplit h⟩

end Module

namespace Comparison

open Compatibility

/-- The counterpart of an old node that names lead to: a data node is looked up by its path from the
root of the new module, any other node among the children of its parent's counterpart. -/
def counterpart? (c : Comparison) (names : List String) : Region → Option SchemaNode
  | .data => c.new.findNode? (c.place .root names).new
  | .rpcs => reach? c.new.rpcs names
  | .notifications => reach? c.new.notifications names
  | .augmentation target =>
    (c.new.findAugmentation? target).bind fun b => reach? b.children names

/-- The parent has a counterpart, or the node is at the root or directly in an augmentation whose
target is augmented in the new module, too. -/
def ParentMatched (c : Comparison) (names : List String) (r : Region) : Prop :=
  if names.dropLast = [] then ∀ target, r = .augmentation target → c.new.Augments target
  else (c.counterpart? names.dropLast r).isSome

/-- What names lead to in the old module is the topmost node on its way without a counterpart. -/
structure Lost (c : Comparison) (names : List String) (r : Region) : Prop where
  parent : c.ParentMatched names r
  unmatched : c.counterpart? names r = none

variable {c : Comparison}

/-! ### Walks and lost nodes -/

theorem localNames_new_place (parent : Position) (names : List String) :
    (c.place parent names).new.localNames = parent.new.localNames ++ names := by
  induction names generalizing parent with
  | nil => simp [place]
  | cons name rest ih =>
      rw [place, List.foldl_cons, ← place, ih, localNames_new_enter]
      simp

theorem counterpart?_data (names : List String) :
    c.counterpart? names .data = reach? c.new.children names := by
  rw [counterpart?, Module.findNode?_eq_reach?, localNames_new_place]
  rfl

theorem rule_ne_missingNode {version : LanguageVersion} {p : Position} {old new : NodeData}
    {f : Finding} (h : f ∈ nodeFindings version p old new) : f.rule ≠ .missingNode := by
  have hnone : ∀ rule ∈ nodeRules, rule ≠ .missingNode := by decide
  rcases rule_of_mem_nodeFindings h with hrule | ⟨-, hrule | hrule | hrule⟩
  · exact hnone _ hrule
  · simp [hrule]
  · simp [hrule]
  · simp [hrule]

/-- The walk of a tree reports the nodes that are unmatched from the given siblings on. -/
theorem mem_nested_and_missing_iff {siblings : List SchemaNode} {parent : Position}
    {top : SchemaNode} {f : Finding} :
    f ∈ c.nested siblings parent top ∧ f.rule = .missingNode ↔
      ∃ names n, top.Contains names n ∧ Unmatched siblings names ∧
        f = missing (c.place parent names) n.data := by
  induction top using treeInduction generalizing siblings parent with
  | node data children ih =>
      rw [nested]
      cases hfind : find? siblings data.qname.localName with
      | none =>
          -- the walk ends here, and no node below has a parent with a counterpart
          constructor
          · rintro ⟨hf, -⟩
            refine ⟨_, _, .self _, unmatched_singleton.mpr hfind, ?_⟩
            exact List.mem_singleton.mp hf
          · rintro ⟨names, n, hn, hunmatched, rfl⟩
            cases hn with
            | self => exact ⟨List.mem_singleton.mpr rfl, rfl⟩
            | child hc hn =>
                obtain ⟨new, hnew, -⟩ := (unmatched_cons hn.ne_nil).mp hunmatched
                cases hfind.symm.trans hnew
      | some new =>
          simp only [List.mem_append, nestedAll_eq_flatMap, List.mem_flatMap]
          -- the rules on the two nodes themselves never report a missing node
          constructor
          · rintro ⟨hf | ⟨c', hc', hf⟩, hrule⟩
            · exact absurd hrule (rule_ne_missingNode hf)
            · obtain ⟨names, n, hn, hunmatched, rfl⟩ := (ih c' hc').mp ⟨hf, hrule⟩
              refine ⟨_, n, .child hc' hn, ?_, rfl⟩
              exact (unmatched_cons hn.ne_nil).mpr ⟨new, hfind, hunmatched⟩
          · rintro ⟨names, n, hn, hunmatched, rfl⟩
            cases hn with
            | self =>
                cases hfind.symm.trans (unmatched_singleton.mp hunmatched)
            | @child _ c' _ names hc' hn =>
                obtain ⟨new', hnew', hbelow⟩ := (unmatched_cons hn.ne_nil).mp hunmatched
                cases hfind.symm.trans hnew'
                obtain ⟨hf, hrule⟩ := (ih c' hc').mpr ⟨names, n, hn, hbelow, rfl⟩
                exact ⟨.inr ⟨c', hc', hf⟩, hrule⟩

theorem mem_nestedAll_and_missing_iff {siblings : List SchemaNode} {parent : Position}
    {nodes : List SchemaNode} {f : Finding} :
    f ∈ c.nestedAll siblings parent nodes ∧ f.rule = .missingNode ↔
      ∃ top ∈ nodes, ∃ names n, top.Contains names n ∧ Unmatched siblings names ∧
        f = missing (c.place parent names) n.data := by
  simp only [nestedAll_eq_flatMap, List.mem_flatMap, ← mem_nested_and_missing_iff]
  constructor
  · rintro ⟨⟨top, htop, hf⟩, hrule⟩
    exact ⟨top, htop, hf, hrule⟩
  · rintro ⟨top, htop, hf, hrule⟩
    exact ⟨⟨top, htop, hf⟩, hrule⟩

/-- With the siblings among which the nodes of a part are looked up, lost nodes are unmatched ones.
-/
theorem lost_iff_unmatched {r : Region} {siblings : List SchemaNode} {names : List String}
    (hsiblings : ∀ names, c.counterpart? names r = reach? siblings names)
    (htarget : ∀ target, r = .augmentation target → c.new.Augments target) :
    c.Lost names r ↔ Unmatched siblings names := by
  have hparent : c.ParentMatched names r ↔
      names.dropLast = [] ∨ (reach? siblings names.dropLast).isSome := by
    rw [ParentMatched, hsiblings]
    split
    · rename_i hnil
      exact iff_of_true htarget (.inl hnil)
    · rename_i hnil
      simp [hnil]
  constructor
  · rintro ⟨hmatched, hnone⟩
    exact ⟨hparent.mp hmatched, hsiblings names ▸ hnone⟩
  · rintro ⟨hmatched, hnone⟩
    exact ⟨hparent.mpr hmatched, hsiblings names ▸ hnone⟩

theorem lost_data_iff {names : List String} :
    c.Lost names .data ↔ Unmatched c.new.children names :=
  lost_iff_unmatched counterpart?_data nofun

theorem lost_rpcs_iff {names : List String} : c.Lost names .rpcs ↔ Unmatched c.new.rpcs names :=
  lost_iff_unmatched (fun _ => rfl) nofun

theorem lost_notifications_iff {names : List String} :
    c.Lost names .notifications ↔ Unmatched c.new.notifications names :=
  lost_iff_unmatched (fun _ => rfl) nofun

theorem lost_augmentation_iff {target : SchemaPath} {names : List String} :
    c.Lost names (.augmentation target) ↔
      ∃ b, c.new.findAugmentation? target = some b ∧ Unmatched b.children names := by
  cases hfind : c.new.findAugmentation? target with
  | some b =>
      have haugments : c.new.Augments target :=
        Module.augments_iff_isSome.mpr (by rw [hfind]; rfl)
      have hsiblings : ∀ names, c.counterpart? names (.augmentation target) =
          reach? b.children names := by
        intro names
        rw [counterpart?, hfind]
        rfl
      have hlost : c.Lost names (.augmentation target) ↔ Unmatched b.children names :=
        lost_iff_unmatched hsiblings fun _ h => by
          cases h
          exact haugments
      simp [hlost]
  | none =>
      -- nothing in the augmentation is lost, since it is missing itself
      constructor
      · rintro ⟨hparent, -⟩
        rw [ParentMatched] at hparent
        split at hparent
        · have hsome := Module.augments_iff_isSome.mp (hparent target rfl)
          rw [hfind] at hsome
          cases hsome
        · rw [counterpart?, hfind] at hparent
          cases hparent
      · rintro ⟨b, hb, -⟩
        cases hb

/-- Only walks and lost augmentations report missing nodes. -/
theorem mem_findings_and_missing_iff {f : Finding} :
    f ∈ c.findings ∧ f.rule = .missingNode ↔
      (f ∈ c.nestedAll c.new.children .root c.old.children ∧ f.rule = .missingNode) ∨
      (f ∈ c.nestedAll c.new.rpcs .root c.old.rpcs ∧ f.rule = .missingNode) ∨
      (f ∈ c.nestedAll c.new.notifications .root c.old.notifications ∧ f.rule = .missingNode) ∨
      ∃ a ∈ c.old.augmentations, f ∈ c.augmentationFindings a ∧ f.rule = .missingNode := by
  have hrpcs : c.old.rpcs.flatMap (c.operationFindings c.new.findRpc?) = _ :=
    flatMap_operationFindings c.new.rpcs c.old.rpcs
  have hnotifications : c.old.notifications.flatMap
      (c.operationFindings c.new.findNotification?) = _ :=
    flatMap_operationFindings c.new.notifications c.old.notifications
  simp only [findings, hrpcs, hnotifications, dataNodes_eq_nestedAll, List.mem_append]
  -- nine parts of the report: the others have rules of their own
  constructor
  · rintro ⟨((((((((h | h) | h) | h) | h) | h) | h) | h) | h), hrule⟩
    · simpa [hrule] using rule_of_mem_headerFindings h
    · simpa [hrule] using rule_of_mem_revisionFindings h
    · simpa [hrule] using rule_of_mem_historyFindings h
    · split at h
      · obtain ⟨i, -, h⟩ := List.mem_flatMap.mp h
        simpa [hrule] using rule_of_mem_identityFindings h
      · cases h
    · exact .inl ⟨h, hrule⟩
    · exact .inr (.inl ⟨h, hrule⟩)
    · exact .inr (.inr (.inl ⟨h, hrule⟩))
    · obtain ⟨a, ha, h⟩ := List.mem_flatMap.mp h
      exact .inr (.inr (.inr ⟨a, ha, h, hrule⟩))
    · obtain ⟨t, -, h⟩ := List.mem_flatMap.mp h
      simpa [hrule] using rule_of_mem_typedefFindings h
  · rintro (⟨h, hrule⟩ | ⟨h, hrule⟩ | ⟨h, hrule⟩ | ⟨a, ha, h, hrule⟩)
    · exact ⟨.inl (.inl (.inl (.inl (.inr h)))), hrule⟩
    · exact ⟨.inl (.inl (.inl (.inr h))), hrule⟩
    · exact ⟨.inl (.inl (.inr h)), hrule⟩
    · exact ⟨.inl (.inr (List.mem_flatMap.mpr ⟨a, ha, h⟩)), hrule⟩

theorem mem_augmentationFindings_and_missing_iff {a : Augmentation} {f : Finding} :
    f ∈ c.augmentationFindings a ∧ f.rule = .missingNode ↔
      (∃ top ∈ a.children, ∃ names n, top.Contains names n ∧ c.Lost names (.augmentation a.target) ∧
        f = missing (c.place ⟨a.target, a.target⟩ names) n.data) ∨
      ¬ c.new.Augments a.target ∧
        f = ⟨.missingNode, "missing", "augment [" ++ a.target.text ++ "]"⟩ := by
  simp only [lost_augmentation_iff, Module.augments_iff_isSome]
  cases hfind : c.new.findAugmentation? a.target with
  | none =>
      simp only [augmentationFindings, hfind, List.mem_singleton]
      constructor
      · rintro ⟨rfl, -⟩
        exact .inr ⟨Bool.false_ne_true, rfl⟩
      · rintro (⟨top, -, names, n, -, ⟨b, hb, -⟩, -⟩ | ⟨-, rfl⟩)
        · cases hb
        · exact ⟨rfl, rfl⟩
  | some b =>
      have htarget : b.target = a.target := Module.target_of_findAugmentation? hfind
      simp only [augmentationFindings, hfind, htarget, mem_nestedAll_and_missing_iff]
      simp

/-! ### What is not looked at -/

/-- A node without a counterpart matters by its kind and its local name. -/
theorem nested_of_replaced {n n' : SchemaNode} (hkind : n'.data.kind = n.data.kind)
    (hname : n'.localName = n.localName) {names : List String} {top top' : SchemaNode}
    (h : SchemaNode.Replaced n n' names top top') {siblings : List SchemaNode} {parent : Position}
    (hnone : reach? siblings names = none) :
    c.nested siblings parent top' = c.nested siblings parent top := by
  induction h generalizing siblings parent with
  | self =>
      obtain ⟨data, children⟩ := n
      obtain ⟨data', children'⟩ := n'
      have hname : data'.qname.localName = data.qname.localName := hname
      have hfind : find? siblings data.qname.localName = none := by
        rw [← reach?_singleton]
        exact hnone
      have hmissing : ∀ p, missing p data' = missing p data := by
        intro p
        rw [missing, missing, hkind]
      rw [nested, nested, hname, hfind]
      simp only [hmissing]
  | @child data before after top top' names hreplaced ih =>
      have hne : names ≠ [] := by
        cases hreplaced <;> exact List.cons_ne_nil _ _
      rw [nested, nested]
      cases hfind : find? siblings data.qname.localName with
      | none => rfl
      | some new =>
          rw [reach?_cons hne, hfind] at hnone
          simp only [nestedAll_eq_flatMap, List.flatMap_append, List.flatMap_cons]
          rw [ih hnone]

theorem nestedAll_of_replaced {n n' : SchemaNode} (hkind : n'.data.kind = n.data.kind)
    (hname : n'.localName = n.localName) {names : List String} {nodes nodes' : List SchemaNode}
    (h : ReplacedAmong n n' names nodes nodes') {siblings : List SchemaNode} {parent : Position}
    (hnone : reach? siblings names = none) :
    c.nestedAll siblings parent nodes' = c.nestedAll siblings parent nodes := by
  obtain ⟨htop⟩ := h
  simp only [nestedAll_eq_flatMap, List.flatMap_append, List.flatMap_cons]
  rw [nested_of_replaced hkind hname htop hnone]

theorem augmentationFindings_of_replaced {n n' : SchemaNode} (hkind : n'.data.kind = n.data.kind)
    (hname : n'.localName = n.localName) {names : List String} {a : Augmentation}
    {children : List SchemaNode} (h : ReplacedAmong n n' names a.children children)
    (hnone : c.counterpart? names (.augmentation a.target) = none) :
    c.augmentationFindings { a with children } = c.augmentationFindings a := by
  rw [counterpart?] at hnone
  cases hfind : c.new.findAugmentation? a.target with
  | none => simp only [augmentationFindings, hfind]
  | some b =>
      rw [hfind] at hnone
      simp only [augmentationFindings, hfind]
      exact nestedAll_of_replaced hkind hname h hnone

/-- Of the trees of the old module, only what the walks make of them matters. -/
theorem findings_congr_old {old old' new : Module} {version : LanguageVersion}
    (hrest : { old' with children := [], rpcs := [], notifications := [], augmentations := [] } =
      { old with children := [], rpcs := [], notifications := [], augmentations := [] })
    (hdata : nestedAll ⟨old, new, version⟩ new.children .root old'.children =
      nestedAll ⟨old, new, version⟩ new.children .root old.children)
    (hrpcs : nestedAll ⟨old, new, version⟩ new.rpcs .root old'.rpcs =
      nestedAll ⟨old, new, version⟩ new.rpcs .root old.rpcs)
    (hnotifications : nestedAll ⟨old, new, version⟩ new.notifications .root old'.notifications =
      nestedAll ⟨old, new, version⟩ new.notifications .root old.notifications)
    (haugmentations : old'.augmentations.flatMap (augmentationFindings ⟨old, new, version⟩) =
      old.augmentations.flatMap (augmentationFindings ⟨old, new, version⟩)) :
    findings ⟨old', new, version⟩ = findings ⟨old, new, version⟩ := by
  simp only [Module.mk.injEq] at hrest
  obtain ⟨hname, huri, -, hrevision, hrevisions, -, -, -, -, htypedefs, hidentities⟩ := hrest
  -- a walk reads only the name of the old module, to spell out places
  have hnested : ∀ siblings parent nodes, nestedAll ⟨old', new, version⟩ siblings parent nodes =
      nestedAll ⟨old, new, version⟩ siblings parent nodes := by
    intro siblings parent nodes
    rw [nestedAll_eq_flatMap, nestedAll_eq_flatMap]
    exact List.flatMap_congr fun n _ =>
      nested_congr ⟨old', new, version⟩ ⟨old, new, version⟩ rfl hname rfl siblings parent n
  have haugmentation : ∀ a, augmentationFindings ⟨old', new, version⟩ a =
      augmentationFindings ⟨old, new, version⟩ a := by
    intro a
    cases hfind : new.findAugmentation? a.target with
    | none => simp only [augmentationFindings, hfind]
    | some b => simp only [augmentationFindings, hfind, hnested]
  have hrpcs' : old'.rpcs.flatMap (operationFindings ⟨old', new, version⟩ new.findRpc?) =
      old.rpcs.flatMap (operationFindings ⟨old, new, version⟩ new.findRpc?) := by
    rw [show new.findRpc? = find? new.rpcs from rfl, flatMap_operationFindings,
      flatMap_operationFindings, hnested]
    exact hrpcs
  have hnotifications' : old'.notifications.flatMap
        (operationFindings ⟨old', new, version⟩ new.findNotification?) =
      old.notifications.flatMap (operationFindings ⟨old, new, version⟩ new.findNotification?) := by
    rw [show new.findNotification? = find? new.notifications from rfl, flatMap_operationFindings,
      flatMap_operationFindings, hnested]
    exact hnotifications
  have haugmentations' : old'.augmentations.flatMap (augmentationFindings ⟨old', new, version⟩) =
      old.augmentations.flatMap (augmentationFindings ⟨old, new, version⟩) := by
    rw [List.flatMap_congr fun a _ => haugmentation a]
    exact haugmentations
  have htypedefs' : typedefFindings ⟨old', new, version⟩ = typedefFindings ⟨old, new, version⟩ := by
    funext t
    simp only [typedefFindings, enter, hname]
  simp only [findings, headerFindings, revisionFindings, historyFindings, dataNodes_eq_nestedAll,
    hnested, hdata, hrpcs', hnotifications', haugmentations', hname, huri, hrevision, hrevisions,
    hidentities, htypedefs, htypedefs']
  rfl

/-- What a node without a counterpart says, and what is below it, leaves the catalog as it is. -/
theorem catalog_of_replaced {n n' : SchemaNode} {names : List String} {r : Region} {old' : Module}
    (h : c.old.Replaced n n' names r old') (hnone : c.counterpart? names r = none)
    (hkind : n'.data.kind = n.data.kind) (hname : n'.localName = n.localName) :
    catalog ⟨old', c.new, c.version⟩ = c.catalog := by
  obtain ⟨old, new, version⟩ := c
  rw [catalog, catalog]
  congr 1
  cases h with
  | data h =>
      rw [counterpart?_data] at hnone
      exact findings_congr_old rfl (nestedAll_of_replaced hkind hname h hnone) rfl rfl rfl
  | rpc h =>
      exact findings_congr_old rfl rfl (nestedAll_of_replaced hkind hname h hnone) rfl rfl
  | notification h =>
      exact findings_congr_old rfl rfl rfl (nestedAll_of_replaced hkind hname h hnone) rfl
  | @augmentation before after a children hsplit h =>
      refine findings_congr_old rfl rfl rfl rfl ?_
      have hsplit : old.augmentations = before ++ a :: after := hsplit
      simp only [hsplit, List.flatMap_append, List.flatMap_cons]
      rw [augmentationFindings_of_replaced hkind hname h hnone]

/-- The findings on missing nodes are those on lost nodes and on lost augmentations, and whatever a
lost node is replaced by, only its kind and its local name show in the catalog. -/
theorem missing_definitions_end_walk (c : Comparison) :
    (∀ f, f ∈ c.catalog.findings ∧ f.rule = .missingNode ↔
      (∃ r names n, c.old.HasAt names n r ∧ c.Lost names r ∧
        f = missing (c.place ⟨r.base, r.base⟩ names) n.data) ∨
      ∃ a ∈ c.old.augmentations, ¬ c.new.Augments a.target ∧
        f = ⟨.missingNode, "missing", "augment [" ++ a.target.text ++ "]"⟩) ∧
    ∀ r names n n', c.old.HasAt names n r → c.Lost names r → n'.data.kind = n.data.kind →
      n'.localName = n.localName →
      (∃ old', c.old.Replaced n n' names r old') ∧
        ∀ old', c.old.Replaced n n' names r old' →
          catalog ⟨old', c.new, c.version⟩ = c.catalog := by
  constructor
  · intro f
    rw [catalog, Catalog.mem_ofList, mem_findings_and_missing_iff]
    simp only [mem_nestedAll_and_missing_iff, mem_augmentationFindings_and_missing_iff,
      ← lost_data_iff, ← lost_rpcs_iff, ← lost_notifications_iff]
    constructor
    · rintro (⟨top, htop, names, n, hn, hlost, rfl⟩ | ⟨top, htop, names, n, hn, hlost, rfl⟩ |
        ⟨top, htop, names, n, hn, hlost, rfl⟩ |
        ⟨a, ha, ⟨top, htop, names, n, hn, hlost, rfl⟩ | ⟨haugments, rfl⟩⟩)
      · exact .inl ⟨.data, names, n, .data htop hn, hlost, rfl⟩
      · exact .inl ⟨.rpcs, names, n, .rpc htop hn, hlost, rfl⟩
      · exact .inl ⟨.notifications, names, n, .notification htop hn, hlost, rfl⟩
      · exact .inl ⟨_, names, n, .augmentation ha htop hn, hlost, rfl⟩
      · exact .inr ⟨a, ha, haugments, rfl⟩
    · rintro (⟨r, names, n, hn, hlost, rfl⟩ | ⟨a, ha, haugments, rfl⟩)
      · cases hn with
        | data htop hn => exact .inl ⟨_, htop, names, n, hn, hlost, rfl⟩
        | rpc htop hn => exact .inr (.inl ⟨_, htop, names, n, hn, hlost, rfl⟩)
        | notification htop hn => exact .inr (.inr (.inl ⟨_, htop, names, n, hn, hlost, rfl⟩))
        | augmentation ha htop hn =>
            exact .inr (.inr (.inr ⟨_, ha, .inl ⟨_, htop, names, n, hn, hlost, rfl⟩⟩))
      · exact .inr (.inr (.inr ⟨a, ha, .inr ⟨haugments, rfl⟩⟩))
  · intro r names n n' hn hlost hkind hname
    refine ⟨Module.exists_replaced_of_hasAt hn n', fun old' h => ?_⟩
    exact catalog_of_replaced h hlost.unmatched hkind hname

/-- A container for what is at a stop. -/
def facility (name : String) (status : Status) (children : List SchemaNode) : SchemaNode where
  data := { kind := .container, qname := ⟨"urn:network", none, name⟩, status, config := some true }
  children := children

/-- A network with one stop. -/
def oneStop (facilities : List SchemaNode) : Module where
  name := "network"
  uri := "urn:network"
  nsPrefix := "n"
  children := [facility "stop" .current facilities]

theorem missing_definitions_end_walk_platform :
    let c : Comparison :=
      ⟨oneStop [facility "platform" .current [facility "exit" .current []]], oneStop [], .rfc7950⟩
    (⟨.missingNode, "missing [/network:stop/network:platform]",
        "container [/network:stop/network:platform]"⟩ : Finding) ∈ c.catalog.findings ∧
      catalog ⟨oneStop [facility "platform" .obsolete []], oneStop [], .rfc7950⟩ = c.catalog := by
  intro c
  have hplatform : c.old.HasAt ["stop", "platform"]
      (facility "platform" .current [facility "exit" .current []]) .data :=
    .data List.mem_cons_self (.child List.mem_cons_self (.self _))
  have hlost : c.Lost ["stop", "platform"] .data := ⟨rfl, rfl⟩
  have hreplaced : c.old.Replaced (facility "platform" .current [facility "exit" .current []])
      (facility "platform" .obsolete []) ["stop", "platform"] .data
      (oneStop [facility "platform" .obsolete []]) :=
    .data (@ReplacedAmong.tree _ _ _ [] [] _ _
      (@Replaced.child _ _ (facility "stop" .current []).data [] [] _ _ _ .self))
  obtain ⟨hmissing, hrest⟩ := missing_definitions_end_walk c
  constructor
  · exact ((hmissing _).mpr (.inl ⟨_, _, _, hplatform, hlost, by decide⟩)).1
  · exact (hrest _ _ _ (facility "platform" .obsolete []) hplatform hlost rfl rfl).2 _ hreplaced

end Comparison

end YangEvolution
