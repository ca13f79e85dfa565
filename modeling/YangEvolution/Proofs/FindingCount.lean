import Mathlib.Data.List.Flatten
import Mathlib.Data.List.Nodup
import YangEvolution.Proofs.AugmentationSplit
import YangEvolution.Proofs.MatchedPairs
import YangEvolution.Proofs.PlaceText
import YangEvolution.Proofs.RuleFamilies

/-!
How many findings there are on status and on built-in types. Findings are told apart by their texts,
and the place of a type definition is written as that of a node at the top of the module. Main
statement: where paths and names are distinct, each pair of definitions whose status or built-in
type changes has a finding of its own, but for a type definition at whose place a node changes in
the same way.
-/

namespace YangEvolution

open SchemaNode

/-- A list without repetitions that joins two others is shorter than both by what they share. -/
theorem length_add_countP_mem {α : Type} [DecidableEq α] {l l₁ l₂ : List α} (h : l.Nodup)
    (h₁ : l₁.Nodup) (h₂ : l₂.Nodup) (hmem : ∀ x, x ∈ l ↔ x ∈ l₁ ∨ x ∈ l₂) :
    l.length + l₂.countP (· ∈ l₁) = l₁.length + l₂.length := by
  have hnodup : (l₁ ++ l₂.filter (· ∉ l₁)).Nodup := by
    refine List.nodup_append.mpr ⟨h₁, h₂.filter _, ?_⟩
    rintro x hx y hy rfl
    exact of_decide_eq_true (List.mem_filter.mp hy).2 hx
  have hperm : l.Perm (l₁ ++ l₂.filter (· ∉ l₁)) := by
    refine (List.perm_ext_iff_of_nodup h hnodup).mpr fun x => ?_
    rw [hmem, List.mem_append, List.mem_filter]
    by_cases hx : x ∈ l₁ <;> simp [hx]
  have hsplit := List.length_eq_countP_add_countP (l := l₂) (fun x => decide (x ∈ l₁))
  rw [hperm.length_eq, List.length_append, ← List.countP_eq_length_filter, hsplit]
  simp only [decide_eq_true_eq]
  omega

namespace Module

/-- The paths of the nodes of some trees at a place. -/
def pathsBelow (m : Module) (target : SchemaPath) (nodes : List SchemaNode) : List SchemaPath :=
  (entriesAll nodes).map fun e => ⟨target.segments ++ e.1.map (Segment.mk m.name)⟩

/-- The paths of all nodes, once for each occurrence. -/
def nodePaths (m : Module) : List SchemaPath :=
  m.pathsBelow .root m.children ++ m.pathsBelow .root m.rpcs ++
    m.pathsBelow .root m.notifications ++
    m.augmentations.flatMap fun a => m.pathsBelow a.target a.children

/-- All names of the module, and those on the paths that it augments, are plain; no two nodes have
the same path and no two type definitions the same name. -/
structure PlainlyNamed (m : Module) : Prop where
  name : IsPlain m.name
  node : ∀ n, m.HasNode n → IsPlain n.localName
  target : ∀ a ∈ m.augmentations, a.target.Plain
  typedef : ∀ t ∈ m.typedefs, IsPlain t.qname.localName
  nodup_nodePaths : m.nodePaths.Nodup
  nodup_typedefs : (m.typedefs.map fun t => t.qname.localName).Nodup

variable {m : Module}

theorem PlainlyNamed.plain_of_mem_pathsBelow (h : m.PlainlyNamed) {target : SchemaPath}
    (htarget : target.Plain) {nodes : List SchemaNode}
    (hnodes : ∀ n, Occurs nodes n → IsPlain n.localName) {p : SchemaPath}
    (hp : p ∈ m.pathsBelow target nodes) : p.Plain := by
  obtain ⟨e, he, rfl⟩ := List.mem_map.mp hp
  intro s hs
  rcases List.mem_append.mp hs with hs | hs
  · exact htarget s hs
  · obtain ⟨name, hname, rfl⟩ := List.mem_map.mp hs
    obtain ⟨n, hn, rfl⟩ := exists_occurs_of_mem_names he hname
    exact ⟨h.name, hnodes n hn⟩

theorem PlainlyNamed.plain_of_mem_nodePaths (h : m.PlainlyNamed) {p : SchemaPath}
    (hp : p ∈ m.nodePaths) : p.Plain := by
  have hroot : SchemaPath.root.Plain := fun s hs => absurd hs List.not_mem_nil
  simp only [nodePaths, List.mem_append, List.mem_flatMap] at hp
  obtain ((hp | hp) | hp) | ⟨a, ha, hp⟩ := hp
  · exact h.plain_of_mem_pathsBelow hroot (fun n hn => h.node n (.data hn)) hp
  · exact h.plain_of_mem_pathsBelow hroot (fun n hn => h.node n (.rpc hn)) hp
  · exact h.plain_of_mem_pathsBelow hroot (fun n hn => h.node n (.notification hn)) hp
  · exact h.plain_of_mem_pathsBelow (h.target a ha) (fun n hn => h.node n (.augmentation ha hn)) hp

end Module

namespace Comparison

open Compatibility

variable {c : Comparison}

/-! ### The places of pairs -/

theorem segments_old_place (parent : Position) (names : List String) :
    (c.place parent names).old.segments =
      parent.old.segments ++ names.map (Segment.mk c.old.name) := by
  induction names generalizing parent with
  | nil => simp [place]
  | cons name rest ih =>
      rw [place, List.foldl_cons, ← place, ih]
      simp [enter, Position.enter]

theorem sublist_pathsBelow (siblings : List SchemaNode) (parent : Position)
    (nodes : List SchemaNode) :
    ((c.pairsAmong siblings parent nodes).map fun q => q.position.old).Sublist
      (c.old.pathsBelow parent.old nodes) := by
  unfold pairsAmong Module.pathsBelow
  induction entriesAll nodes with
  | nil => exact .slnil
  | cons e rest ih =>
      cases hpair : c.pair? siblings parent e with
      | none => simpa [List.filterMap_cons, hpair] using ih.cons _
      | some q =>
          obtain ⟨n, -, rfl⟩ := Option.map_eq_some_iff.mp hpair
          have hpath : (c.place parent e.1).old =
              ⟨parent.old.segments ++ e.1.map (Segment.mk c.old.name)⟩ :=
            congrArg SchemaPath.mk (segments_old_place parent e.1)
          simpa [List.filterMap_cons, hpair, hpath] using ih

theorem sublist_nodePaths :
    (c.nodePairs.map fun q => q.position.old).Sublist c.old.nodePaths := by
  simp only [nodePairs, Module.nodePaths, List.map_append, List.map_flatMap]
  have haugmentations : (c.old.augmentations.flatMap fun a =>
      (c.augmentationPairs a).map fun q => q.position.old).Sublist
        (c.old.augmentations.flatMap fun a => c.old.pathsBelow a.target a.children) := by
    refine List.Sublist.flatMap_right _ fun a _ => ?_
    unfold augmentationPairs
    split
    · exact sublist_pathsBelow _ _ _
    · exact List.nil_sublist _
  exact (((sublist_pathsBelow _ _ _).append (sublist_pathsBelow _ _ _)).append
    (sublist_pathsBelow _ _ _)).append haugmentations

/-- The two paths of a pair of nodes have the same target of augmentation, if any, and the same
names behind it. -/
theorem exists_place_of_mem_nodePairs {q : NodePair} (h : q ∈ c.nodePairs) :
    ∃ target names, names ≠ [] ∧ q.position = c.place ⟨target, target⟩ names := by
  have hamong : ∀ siblings target nodes, q ∈ c.pairsAmong siblings ⟨target, target⟩ nodes →
      ∃ target names, names ≠ [] ∧ q.position = c.place ⟨target, target⟩ names := by
    intro siblings target nodes hq
    obtain ⟨e, he, hpair⟩ := List.mem_filterMap.mp hq
    obtain ⟨n, -, rfl⟩ := Option.map_eq_some_iff.mp hpair
    exact ⟨target, e.1, names_ne_nil he, rfl⟩
  simp only [nodePairs, List.mem_append, List.mem_flatMap] at h
  obtain ((h | h) | h) | ⟨a, -, h⟩ := h
  · exact hamong _ _ _ h
  · exact hamong _ _ _ h
  · exact hamong _ _ _ h
  · unfold augmentationPairs at h
    split at h
    · rename_i b hb
      rw [Module.target_of_findAugmentation? hb] at h
      exact hamong _ _ _ h
    · cases h

/-- A node whose old path is that of a type definition has its new path, too. -/
theorem position_eq_of_old_eq {q : NodePair} (hq : q ∈ c.nodePairs) {name : String}
    (h : q.position.old = (c.enter .root name).old) : q.position = c.enter .root name := by
  obtain ⟨target, names, hnames, hplace⟩ := exists_place_of_mem_nodePairs hq
  have hsegments : target.segments ++ names.map (Segment.mk c.old.name) =
      [⟨c.old.name, name⟩] := by
    rw [← segments_old_place ⟨target, target⟩, ← hplace, h]
    rfl
  obtain ⟨segments⟩ := target
  cases segments with
  | nil =>
      obtain ⟨name', rfl, hname⟩ := List.map_eq_singleton_iff.mp hsegments
      obtain rfl : name' = name := congrArg Segment.localName hname
      exact hplace
  | cons s rest =>
      -- a target of an augmentation takes the only step of the path; no name is left for the node
      obtain ⟨-, hrest⟩ := List.cons.inj hsegments
      exact absurd (List.map_eq_nil_iff.mp (List.append_eq_nil_iff.mp hrest).2) hnames

/-! ### Rules of findings -/

theorem mem_typeFindings_or {version : LanguageVersion} {p : Position} {old new : TypeDef}
    {f : Finding} (h : f ∈ typeFindings version p old new) :
    f ∈ builtinFindings p old new ∨ f.rule ≠ .type ∧ f.rule ≠ .status := by
  have hfacet : ∀ rule ∈ facetRules, rule ≠ .type ∧ rule ≠ .status := by decide
  rcases mem_typeFindings_cases h with h | h | ⟨-, h⟩
  · exact .inl h
  · exact .inr (hfacet _ h)
  · simp [h]

theorem mem_nodeFindings_or {version : LanguageVersion} {p : Position} {old new : NodeData}
    {f : Finding} (h : f ∈ nodeFindings version p old new) :
    f ∈ statusFindings p old.status new.status ∨
      f ∈ nodeTypeFindings version p old.type new.type ∨
        f.rule ≠ .type ∧ f.rule ≠ .status := by
  have hproperty : ∀ rule ∈ propertyRules, rule ≠ .type ∧ rule ≠ .status := by decide
  rcases mem_nodeFindings_cases h with h | h | h | ⟨-, h | h⟩
  · exact .inl h
  · exact .inr (.inl h)
  · exact .inr (.inr (hproperty _ h))
  · simp [h]
  · simp [h]

/-! ### What findings say -/

/-- The finding at a position, if there is anything to say. -/
def report? (p : Position) (rule : Rule) (said : Option (String × String)) : Option Finding :=
  said.map fun texts => p.finding rule texts.1 texts.2

/-- A finding tells its old path. -/
theorem report?_inj {p q : Position} {rule : Rule} {said said' : Option (String × String)}
    {f : Finding} (hp : p.old.Plain) (hq : q.old.Plain) (h : report? p rule said = some f)
    (h' : report? q rule said' = some f) : p.old = q.old := by
  obtain ⟨texts, -, rfl⟩ := Option.map_eq_some_iff.mp h
  obtain ⟨texts', -, heq⟩ := Option.map_eq_some_iff.mp h'
  exact (Position.locate_injective hp hq (congrArg Finding.old heq).symm).1

theorem report?_right_inj {p : Position} {rule : Rule} {said said' : Option (String × String)}
    {f : Finding} (h : report? p rule said = some f) (h' : report? p rule said' = some f) :
    said = said' := by
  obtain ⟨⟨new, old⟩, rfl, rfl⟩ := Option.map_eq_some_iff.mp h
  obtain ⟨⟨new', old'⟩, rfl, heq⟩ := Option.map_eq_some_iff.mp h'
  obtain rfl : new' = new := Position.locate_right_injective (congrArg Finding.new heq)
  obtain rfl : old' = old := Position.locate_right_injective (congrArg Finding.old heq)
  rfl

theorem nodup_filterMap_report? {ι : Type} {l : List ι} {position : ι → Position} {rule : Rule}
    {said : ι → Option (String × String)} (hplain : ∀ x ∈ l, (position x).old.Plain)
    (hnodup : (l.map fun x => (position x).old).Nodup) :
    (l.filterMap fun x => report? (position x) rule (said x)).Nodup := by
  have hpairs : l.Pairwise fun x y => (position x).old.Plain ∧ (position y).old.Plain ∧
      (position x).old ≠ (position y).old :=
    (List.pairwise_map.mp hnodup).imp_of_mem fun hx hy hne => ⟨hplain _ hx, hplain _ hy, hne⟩
  refine hpairs.filterMap _ ?_
  rintro x y ⟨hx, hy, hne⟩ f hf g hg rfl
  exact hne (report?_inj hx hy hf hg)

def statusSaid (old new : Status) : Option (String × String) :=
  if old < new then some (new.text, old.text) else none

def builtinSaid (old new : TypeDef) : Option (String × String) :=
  if old.builtinName = new.builtinName then none else some (new.builtinName, old.builtinName)

theorem mem_statusFindings {p : Position} {old new : Status} {f : Finding} :
    f ∈ statusFindings p old new ↔ report? p .status (statusSaid old new) = some f := by
  unfold statusFindings statusSaid report?
  split <;> simp [eq_comm]

theorem mem_builtinFindings {p : Position} {old new : TypeDef} {f : Finding} :
    f ∈ builtinFindings p old new ↔ report? p .type (builtinSaid old new) = some f := by
  unfold builtinFindings builtinSaid report?
  split <;> simp [eq_comm]

theorem rule_of_report? {p : Position} {rule : Rule} {said : Option (String × String)} {f : Finding}
    (h : report? p rule said = some f) : f.rule = rule := by
  obtain ⟨texts, -, rfl⟩ := Option.map_eq_some_iff.mp h
  rfl

/-- Of findings by two rules, the rule tells which one a finding is. -/
theorem or_report?_and_rule {p : Position} {rule rule' : Rule} (hne : rule ≠ rule')
    {said said' : Option (String × String)} {f : Finding} :
    (report? p rule said = some f ∨ report? p rule' said' = some f) ∧ f.rule = rule ↔
      report? p rule said = some f := by
  constructor
  · rintro ⟨h | h, hrule⟩
    · exact h
    · exact absurd (hrule.symm.trans (rule_of_report? h)) hne
  · intro h
    exact ⟨.inl h, rule_of_report? h⟩

def NodePair.statusSaid (q : NodePair) : Option (String × String) :=
  Comparison.statusSaid q.old.status q.new.status

def NodePair.builtinSaid (q : NodePair) : Option (String × String) :=
  match q.old.type, q.new.type with
  | some s, some t => Comparison.builtinSaid s t
  | _, _ => none

theorem mem_nodeTypeFindings_or {version : LanguageVersion} {q : NodePair} {f : Finding}
    (h : f ∈ nodeTypeFindings version q.position q.old.type q.new.type) :
    report? q.position .type q.builtinSaid = some f ∨ f.rule ≠ .type ∧ f.rule ≠ .status := by
  unfold nodeTypeFindings at h
  split at h
  · rename_i s t hs ht
    rw [NodePair.builtinSaid, hs, ht]
    exact (mem_typeFindings_or h).imp_left mem_builtinFindings.mp
  · cases h

theorem mem_nodeTypeFindings_of_report? {version : LanguageVersion} {q : NodePair} {f : Finding}
    (h : report? q.position .type q.builtinSaid = some f) :
    f ∈ nodeTypeFindings version q.position q.old.type q.new.type := by
  unfold NodePair.builtinSaid at h
  split at h
  · rename_i s t hs ht
    have hne : s.builtinName ≠ t.builtinName := by
      intro heq
      simp [builtinSaid, heq, report?] at h
    rw [hs, ht, nodeTypeFindings, typeFindings, if_neg hne]
    exact mem_builtinFindings.mpr h
  · cases h

/-- The findings on a pair of nodes that are on status or on built-in types. -/
theorem mem_pairFindings_iff {rule : Rule} (hrule : rule = .status ∨ rule = .type) {q : NodePair}
    {f : Finding} : f ∈ c.pairFindings rule q ↔
      (report? q.position .status q.statusSaid = some f ∨
        report? q.position .type q.builtinSaid = some f) ∧ f.rule = rule := by
  rw [pairFindings, List.mem_filter, beq_iff_eq]
  refine and_congr_left ?_
  rintro rfl
  constructor
  · intro hf
    rcases mem_nodeFindings_or hf with hf | hf | ⟨htype, hstatus⟩
    · exact .inl (mem_statusFindings.mp hf)
    · rcases mem_nodeTypeFindings_or hf with hf | ⟨htype, hstatus⟩
      · exact .inr hf
      · exact absurd hrule (by simp [htype, hstatus])
    · exact absurd hrule (by simp [htype, hstatus])
  · rintro (hf | hf)
    · have hmem : f ∈ statusFindings q.position q.old.status q.new.status :=
        mem_statusFindings.mpr hf
      simp [nodeFindings, hmem]
    · simp [nodeFindings, mem_nodeTypeFindings_of_report? hf]

/-! ### Counting -/

def TypedefPair.statusSaid (q : TypedefPair) : Option (String × String) :=
  Comparison.statusSaid q.old.status q.new.status

def TypedefPair.builtinSaid (q : TypedefPair) : Option (String × String) :=
  Comparison.builtinSaid q.old q.new

theorem exists_typedefFindings_iff {f : Finding} :
    (∃ t ∈ c.old.typedefs, f ∈ c.typedefFindings t) ↔ ∃ q ∈ c.typedefPairs,
      report? q.position .status q.statusSaid = some f ∨
        report? q.position .type q.builtinSaid = some f := by
  simp only [typedefPairs, List.mem_filterMap, typedefFindings]
  constructor
  · rintro ⟨t, ht, hf⟩
    split at hf
    · cases hf
    · rename_i u hu
      rw [List.mem_append, mem_builtinFindings, mem_statusFindings] at hf
      exact ⟨⟨c.enter .root t.qname.localName, t, u⟩, ⟨t, ht, by rw [hu, Option.map_some]⟩, hf.symm⟩
  · rintro ⟨q, ⟨t, ht, hq⟩, hf⟩
    obtain ⟨u, hu, rfl⟩ := Option.map_eq_some_iff.mp hq
    refine ⟨t, ht, ?_⟩
    rw [hu]
    exact List.mem_append.mpr (hf.symm.imp mem_builtinFindings.mpr mem_statusFindings.mpr)

theorem mem_catalog_and_rule {rule : Rule} (hrule : rule = .status ∨ rule = .type) {f : Finding} :
    f ∈ c.catalog.findings ∧ f.rule = rule ↔
      (∃ q ∈ c.nodePairs, (report? q.position .status q.statusSaid = some f ∨
        report? q.position .type q.builtinSaid = some f) ∧ f.rule = rule) ∨
      ∃ t ∈ c.typedefPairs, (report? t.position .status t.statusSaid = some f ∨
        report? t.position .type t.builtinSaid = some f) ∧ f.rule = rule := by
  have hpairs : rule.isAboutPairs = true := by
    rcases hrule with rfl | rfl <;> rfl
  have hfilter : f ∈ c.catalog.findings ∧ f.rule = rule ↔
      f ∈ c.findings.filter fun f => f.rule == rule := by
    rw [catalog, Catalog.mem_ofList, List.mem_filter, beq_iff_eq]
  rw [hfilter, filter_findings hpairs, List.mem_append, List.mem_flatMap, List.mem_flatMap]
  simp only [mem_pairFindings_iff hrule, List.mem_filter, beq_iff_eq, ← and_assoc,
    exists_and_right, exists_typedefFindings_iff]

theorem of_mem_typedefPairs {q : TypedefPair} (h : q ∈ c.typedefPairs) :
    q.old ∈ c.old.typedefs ∧ q.position = c.enter .root q.old.qname.localName := by
  obtain ⟨t, ht, hq⟩ := List.mem_filterMap.mp h
  obtain ⟨u, -, rfl⟩ := Option.map_eq_some_iff.mp hq
  exact ⟨ht, rfl⟩

theorem plain_of_mem_nodePairs (h : c.old.PlainlyNamed) {q : NodePair}
    (hq : q ∈ c.nodePairs) : q.position.old.Plain :=
  h.plain_of_mem_nodePaths (sublist_nodePaths.subset (List.mem_map_of_mem hq))

theorem plain_of_mem_typedefPairs (h : c.old.PlainlyNamed) {q : TypedefPair}
    (hq : q ∈ c.typedefPairs) : q.position.old.Plain := by
  obtain ⟨hold, hposition⟩ := of_mem_typedefPairs hq
  rw [hposition]
  intro s hs
  obtain rfl := List.mem_singleton.mp hs
  exact ⟨h.name, h.typedef _ hold⟩

theorem nodup_typedefPairs (h : c.old.PlainlyNamed) :
    (c.typedefPairs.map fun q => q.position.old).Nodup := by
  refine List.pairwise_map.mpr ((List.pairwise_map.mp h.nodup_typedefs).filterMap _ ?_)
  intro t u hne q hq q' hq'
  obtain ⟨_, -, rfl⟩ := Option.map_eq_some_iff.mp hq
  obtain ⟨_, -, rfl⟩ := Option.map_eq_some_iff.mp hq'
  intro heq
  apply hne
  simpa [enter, Position.enter, SchemaPath.child, Position.root] using heq

/-- A pair of nodes has the finding of a pair of type definitions when both have the same position
and the same to say. -/
theorem exists_report?_iff {rule : Rule} {onNode : NodePair → Option (String × String)}
    {said : Option (String × String)} (hnames : c.old.PlainlyNamed) {t : TypedefPair}
    (ht : t ∈ c.typedefPairs) {f : Finding} (hf : report? t.position rule said = some f) :
    (∃ q ∈ c.nodePairs, report? q.position rule (onNode q) = some f) ↔
      ∃ q ∈ c.nodePairs, q.position = t.position ∧ onNode q = said := by
  constructor
  · rintro ⟨q, hq, hfound⟩
    have hold := report?_inj (plain_of_mem_nodePairs hnames hq)
      (plain_of_mem_typedefPairs hnames ht) hfound hf
    have hposition : q.position = t.position := by
      rw [(of_mem_typedefPairs ht).2] at hold ⊢
      exact position_eq_of_old_eq hq hold
    rw [hposition] at hfound
    exact ⟨q, hq, hposition, report?_right_inj hfound hf⟩
  · rintro ⟨q, hq, hposition, rfl⟩
    exact ⟨q, hq, by rw [hposition, hf]⟩

/-- Each pair with something to say has a finding of its own, but for the pairs of type definitions
that share theirs with a pair of nodes. -/
theorem countOf_add_countP_shared {rule : Rule} {onNode : NodePair → Option (String × String)}
    {onTypedef : TypedefPair → Option (String × String)} (hnames : c.old.PlainlyNamed)
    (hmem : ∀ f, f ∈ c.catalog.findings ∧ f.rule = rule ↔
      (∃ q ∈ c.nodePairs, report? q.position rule (onNode q) = some f) ∨
        ∃ t ∈ c.typedefPairs, report? t.position rule (onTypedef t) = some f) :
    c.catalog.countOf rule + c.typedefPairs.countP (fun t => (onTypedef t).isSome &&
        c.nodePairs.any fun q => q.position = t.position ∧ onNode q = onTypedef t) =
      c.nodePairs.countP (fun q => (onNode q).isSome) +
        c.typedefPairs.countP fun t => (onTypedef t).isSome := by
  let onNodes := c.nodePairs.filterMap fun q => report? q.position rule (onNode q)
  let onTypedefs := c.typedefPairs.filterMap fun t => report? t.position rule (onTypedef t)
  have hnodes : onNodes.Nodup := nodup_filterMap_report?
    (fun _ => plain_of_mem_nodePairs hnames) (hnames.nodup_nodePaths.sublist sublist_nodePaths)
  have hdefs : onTypedefs.Nodup := nodup_filterMap_report?
    (fun _ => plain_of_mem_typedefPairs hnames) (nodup_typedefPairs hnames)
  -- a finding is in both lists where a pair of each kind has the same position and the same to say
  have hshared : onTypedefs.countP (· ∈ onNodes) = c.typedefPairs.countP fun t =>
      (onTypedef t).isSome &&
        c.nodePairs.any fun q => q.position = t.position ∧ onNode q = onTypedef t := by
    rw [List.countP_filterMap]
    refine List.countP_congr fun t ht => ?_
    cases hsaid : onTypedef t with
    | none => simp [report?]
    | some texts =>
        have htwin : (∃ q ∈ c.nodePairs, report? q.position rule (onNode q) =
            some (t.position.finding rule texts.1 texts.2)) ↔
              ∃ q ∈ c.nodePairs, q.position = t.position ∧ onNode q = some texts :=
          exists_report?_iff hnames ht rfl
        simp only [Option.isSome_some, Bool.true_and, List.any_eq_true, decide_eq_true_eq, ← htwin]
        rw [report?, Option.map_some, Option.map_some, Option.getD_some, decide_eq_true_eq,
          List.mem_filterMap]
  have hjoined := length_add_countP_mem (c.catalog.nodup.filter fun f => f.rule == rule) hnodes
    hdefs fun f => by
      rw [List.mem_filter, beq_iff_eq, hmem, List.mem_filterMap, List.mem_filterMap]
  rw [hshared, ← List.countP_eq_length_filter, List.length_filterMap_eq_countP,
    List.length_filterMap_eq_countP] at hjoined
  simpa only [Catalog.countOf, report?, Option.isSome_map] using hjoined

/-- Whether a node at the place of a type definition has the same change of status. -/
def sharesStatus (c : Comparison) (t : TypedefPair) : Bool :=
  c.nodePairs.any fun q => q.position = t.position ∧ q.old.status = t.old.status ∧
    q.new.status = t.new.status

/-- Whether a node at the place of a type definition has the same change of built-in type. -/
def sharesBuiltin (c : Comparison) (t : TypedefPair) : Bool :=
  c.nodePairs.any fun q => q.position = t.position ∧
    q.old.type.map TypeDef.builtinName = some t.old.builtinName ∧
    q.new.type.map TypeDef.builtinName = some t.new.builtinName

/-- Whether both nodes of a pair have a type, of different built-in types. -/
def NodePair.changesBuiltin (q : NodePair) : Bool :=
  match q.old.type, q.new.type with
  | some s, some t => s.builtinName ≠ t.builtinName
  | _, _ => false

theorem isSome_statusSaid (old new : Status) :
    (statusSaid old new).isSome = decide (old < new) := by
  unfold statusSaid
  split <;> simp_all

theorem isSome_builtinSaid (old new : TypeDef) :
    (builtinSaid old new).isSome = decide (old.builtinName ≠ new.builtinName) := by
  unfold builtinSaid
  split <;> simp_all

theorem NodePair.isSome_builtinSaid (q : NodePair) : q.builtinSaid.isSome = q.changesBuiltin := by
  unfold NodePair.builtinSaid NodePair.changesBuiltin
  split
  · exact Comparison.isSome_builtinSaid _ _
  · rfl

theorem mem_status_iff {f : Finding} : f ∈ c.catalog.findings ∧ f.rule = .status ↔
    (∃ q ∈ c.nodePairs, report? q.position .status q.statusSaid = some f) ∨
      ∃ t ∈ c.typedefPairs, report? t.position .status t.statusSaid = some f := by
  have hside : ∀ p status type, (report? p .status status = some f ∨
      report? p .type type = some f) ∧ f.rule = .status ↔ report? p .status status = some f := by
    intro p status type
    exact or_report?_and_rule (by decide)
  rw [mem_catalog_and_rule (.inl rfl)]
  simp only [hside]

theorem mem_type_iff {f : Finding} : f ∈ c.catalog.findings ∧ f.rule = .type ↔
    (∃ q ∈ c.nodePairs, report? q.position .type q.builtinSaid = some f) ∨
      ∃ t ∈ c.typedefPairs, report? t.position .type t.builtinSaid = some f := by
  have hside : ∀ p status type, (report? p .status status = some f ∨
      report? p .type type = some f) ∧ f.rule = .type ↔ report? p .type type = some f := by
    intro p status type
    rw [or_comm]
    exact or_report?_and_rule (by decide)
  rw [mem_catalog_and_rule (.inr rfl)]
  simp only [hside]

theorem statusSaid_eq_iff {old new old' new' : Status} (h : old' < new') :
    statusSaid old new = statusSaid old' new' ↔ old = old' ∧ new = new' := by
  have htext : ∀ a b : Status, a.text = b.text → a = b := by
    intro a b
    cases a <;> cases b <;> simp [Status.text]
  unfold statusSaid
  rw [if_pos h]
  constructor
  · split
    · intro hsaid
      obtain ⟨hnew, hold⟩ := Prod.mk.inj (Option.some.inj hsaid)
      exact ⟨htext _ _ hold, htext _ _ hnew⟩
    · exact nofun
  · rintro ⟨rfl, rfl⟩
    rw [if_pos h]

theorem builtinSaid_eq_iff {old new old' new' : TypeDef} (h : old'.builtinName ≠ new'.builtinName) :
    builtinSaid old new = builtinSaid old' new' ↔
      old.builtinName = old'.builtinName ∧ new.builtinName = new'.builtinName := by
  unfold builtinSaid
  rw [if_neg h]
  constructor
  · split
    · exact nofun
    · intro hsaid
      obtain ⟨hnew, hold⟩ := Prod.mk.inj (Option.some.inj hsaid)
      exact ⟨hold, hnew⟩
  · rintro ⟨hold, hnew⟩
    rw [hold, hnew, if_neg h]

theorem NodePair.builtinSaid_eq_iff {q : NodePair} {old new : TypeDef}
    (h : old.builtinName ≠ new.builtinName) :
    q.builtinSaid = Comparison.builtinSaid old new ↔
      q.old.type.map TypeDef.builtinName = some old.builtinName ∧
        q.new.type.map TypeDef.builtinName = some new.builtinName := by
  unfold NodePair.builtinSaid
  split
  · rename_i s t hs ht
    simp [hs, ht, Comparison.builtinSaid_eq_iff h]
  · rename_i hnone
    constructor
    · simp [Comparison.builtinSaid, h]
    · rintro ⟨hs, ht⟩
      obtain ⟨s, hs, -⟩ := Option.map_eq_some_iff.mp hs
      obtain ⟨t, ht, -⟩ := Option.map_eq_some_iff.mp ht
      exact absurd ht (hnone s t hs)

/-- The findings on status are as many as the pairs whose status moves on, less the pairs of type
definitions that share a finding with a node; and likewise those on built-in types. -/
theorem countOf_status_and_type (c : Comparison) (hnames : c.old.PlainlyNamed) :
    c.catalog.countOf .status +
          c.typedefPairs.countP (fun t => t.old.status < t.new.status ∧ c.sharesStatus t) =
        c.nodePairs.countP (fun q => q.old.status < q.new.status) +
          c.typedefPairs.countP (fun t => t.old.status < t.new.status) ∧
      c.catalog.countOf .type +
          c.typedefPairs.countP (fun t => t.old.builtinName ≠ t.new.builtinName ∧
            c.sharesBuiltin t) =
        c.nodePairs.countP NodePair.changesBuiltin +
          c.typedefPairs.countP (fun t => t.old.builtinName ≠ t.new.builtinName) := by
  constructor
  · have hcount := countOf_add_countP_shared hnames fun _ => mem_status_iff
    simp only [NodePair.statusSaid, TypedefPair.statusSaid, isSome_statusSaid] at hcount
    rw [← hcount]
    refine congrArg _ (List.countP_congr fun t _ => ?_)
    by_cases hlt : t.old.status < t.new.status <;>
      simp [hlt, sharesStatus, statusSaid_eq_iff]
  · have hcount := countOf_add_countP_shared hnames fun _ => mem_type_iff
    simp only [NodePair.isSome_builtinSaid, TypedefPair.builtinSaid, isSome_builtinSaid] at hcount
    rw [← hcount]
    refine congrArg _ (List.countP_congr fun t _ => ?_)
    by_cases hne : t.old.builtinName = t.new.builtinName
    · simp [hne]
    · simp [hne, sharesBuiltin, NodePair.builtinSaid_eq_iff]

/-- A leaf that tells the line of a stop. -/
def lineLeaf (type : Builtin) : SchemaNode :=
  ⟨{ kind := .leaf
     qname := ⟨"urn:stops", none, "line"⟩
     config := some true
     mandatory := some false
     type := some (.ofBuiltin type) }, []⟩

/-- A module with a container and a type definition of the same name, and leaves in the container.
-/
def stopping (date : String) (node typedef : Status) (lines : List Builtin) : Module where
  name := "stops"
  uri := "urn:stops"
  nsPrefix := "s"
  revision := Revision.read? date
  children :=
    [⟨{ kind := .container
        qname := ⟨"urn:stops", none, "stop"⟩
        status := node
        config := some true }, lines.map lineLeaf⟩]
  typedefs :=
    [{ TypeDef.derived ⟨"urn:stops", none, "stop"⟩ (.ofBuiltin .string) with status := typedef }]

theorem plainlyNamed_stopping (date : String) (node typedef : Status) {lines : List Builtin}
    (h : (stopping date node typedef lines).nodePaths.Nodup) :
    (stopping date node typedef lines).PlainlyNamed where
  name := (by decide : IsPlain "stops")
  node n hn := by
    have hline : Occurs (lines.map lineLeaf) n → IsPlain n.localName := by
      rintro ⟨top, htop, names, hn⟩
      obtain ⟨type, -, rfl⟩ := List.mem_map.mp htop
      cases hn with
      | self => exact (by decide : IsPlain "line")
      | child hc _ => cases hc
    cases hn with
    | data hn =>
        rcases occurs_cons.mp hn with rfl | hn | hn
        · exact (by decide : IsPlain "stop")
        · exact hline hn
        · exact absurd hn (not_occurs_nil n)
    | rpc hn => exact absurd hn (not_occurs_nil n)
    | notification hn => exact absurd hn (not_occurs_nil n)
    | augmentation ha => cases ha
  target a ha := by cases ha
  typedef t ht := by
    obtain rfl := List.mem_singleton.mp ht
    exact (by decide : IsPlain "stop")
  nodup_nodePaths := h
  nodup_typedefs := List.nodup_singleton _

/-- What was current in the module gets a status, and the leaves get other types. -/
def stoppingChange (node typedef : Status) (lines lines' : List Builtin) : Comparison where
  old := stopping "2020-01-01" .current .current lines
  new := stopping "2021-01-01" node typedef lines'
  version := .rfc7950

theorem countOf_status_and_type_stopping :
    (stoppingChange .obsolete .deprecated [.string] [.boolean]).catalog.countOf .status = 2 ∧
      (stoppingChange .obsolete .deprecated [.string] [.boolean]).catalog.countOf .type = 1 := by
  obtain ⟨hstatus, htype⟩ := countOf_status_and_type
    (stoppingChange .obsolete .deprecated [.string] [.boolean])
    (plainlyNamed_stopping _ _ _ (by decide))
  constructor
  · rw [← Nat.add_zero (Catalog.countOf _ _)]
    exact hstatus
  · rw [← Nat.add_zero (Catalog.countOf _ _)]
    exact htype

/-- A container and a type definition of the same name become obsolete, and one finding is left for
both. -/
theorem one_finding_for_node_and_typedef :
    (stoppingChange .obsolete .obsolete [] []).old.PlainlyNamed ∧
      (stoppingChange .obsolete .obsolete [] []).new.PlainlyNamed ∧
      (stoppingChange .obsolete .obsolete [] []).catalog.countOf .status = 1 ∧
      (stoppingChange .obsolete .obsolete [] []).nodePairs.countP
        (fun q => q.old.status < q.new.status) = 1 ∧
      (stoppingChange .obsolete .obsolete [] []).typedefPairs.countP
        (fun t => t.old.status < t.new.status) = 1 := by
  refine ⟨plainlyNamed_stopping _ _ _ (by decide), plainlyNamed_stopping _ _ _ (by decide),
    ?_, ?_, ?_⟩
  all_goals decide

end Comparison

end YangEvolution
