import YangEvolution.Proofs.Counterparts

/-!
The order of definitions. A module is reordered when siblings change places, at every level of its
trees, and so do its type definitions, identities and augmentations. The old module is walked in
order and the new one is looked into by names. Main statement: reordering the new module changes
nothing, where names tell its definitions apart, and reordering the old one changes no more than the
order of the findings.
-/

namespace YangEvolution

/-- The elements are related one by one and then put in another order. -/
def ReorderedBy {α : Type} (R : α → α → Prop) (l l' : List α) : Prop :=
  ∃ related, List.Forall₂ R l related ∧ related.Perm l'

/-- The nodes below a node change places among their siblings. -/
inductive SchemaNode.Reordered : SchemaNode → SchemaNode → Prop where
  | node {data : NodeData} {children related children' : List SchemaNode} :
      List.Forall₂ Reordered children related → related.Perm children' →
      Reordered ⟨data, children⟩ ⟨data, children'⟩

structure Augmentation.Reordered (a a' : Augmentation) : Prop where
  target : a.target = a'.target
  when : a.when = a'.when
  status : a.status = a'.status
  children : ReorderedBy SchemaNode.Reordered a.children a'.children

/-- The definitions of a module change places among those of their kind, and nodes at each level
among their siblings. -/
structure Module.Reordered (m m' : Module) : Prop where
  name : m.name = m'.name
  uri : m.uri = m'.uri
  nsPrefix : m.nsPrefix = m'.nsPrefix
  revision : m.revision = m'.revision
  revisions : m.revisions = m'.revisions
  children : ReorderedBy SchemaNode.Reordered m.children m'.children
  rpcs : ReorderedBy SchemaNode.Reordered m.rpcs m'.rpcs
  notifications : ReorderedBy SchemaNode.Reordered m.notifications m'.notifications
  augmentations : ReorderedBy Augmentation.Reordered m.augmentations m'.augmentations
  typedefs : m.typedefs.Perm m'.typedefs
  identities : m.identities.Perm m'.identities

open SchemaNode

/-- Names tell siblings apart, at every level, and the definitions of each other kind. -/
structure Module.Unambiguous (m : Module) : Prop where
  children : DistinctNames m.children
  rpcs : DistinctNames m.rpcs
  notifications : DistinctNames m.notifications
  augmented : ∀ a ∈ m.augmentations, DistinctNames a.children
  targets : (m.augmentations.map Augmentation.target).Nodup
  typedefs : (m.typedefs.map fun t => t.qname.localName).Nodup
  identities : (m.identities.map fun i => i.qname.localName).Nodup

theorem SchemaNode.reordered_iff {n n' : SchemaNode} :
    n.Reordered n' ↔ n.data = n'.data ∧ ReorderedBy Reordered n.children n'.children := by
  constructor
  · rintro ⟨hrelated, hperm⟩
    exact ⟨rfl, _, hrelated, hperm⟩
  · obtain ⟨data, children⟩ := n
    obtain ⟨data', children'⟩ := n'
    rintro ⟨rfl, related, hrelated, hperm⟩
    exact .node hrelated hperm

theorem SchemaNode.Reordered.localName {n n' : SchemaNode} (h : n.Reordered n') :
    n.localName = n'.localName := by
  rw [SchemaNode.localName, SchemaNode.localName, (reordered_iff.mp h).1]

/-! ### A new module in another order -/

section LookUps

variable {α β : Type} [BEq β] [LawfulBEq β] {R : α → α → Prop} {key : α → β}

/-- Where keys are different and kept, a look-up leads to related elements. -/
theorem find?_of_reorderedBy {l l' : List α} (h : ReorderedBy R l l')
    (hkey : ∀ x y, R x y → key x = key y) (hnodup : (l.map key).Nodup) (k : β) :
    Option.Rel (fun x y => x ∈ l ∧ R x y) (l.find? fun x => key x == k)
      (l'.find? fun x => key x == k) := by
  obtain ⟨related, hrelated, hperm⟩ := h
  have hkeys : l.map key = related.map key := by
    rw [← List.forall₂_eq_eq_eq, List.forall₂_map_left_iff, List.forall₂_map_right_iff]
    exact hrelated.imp hkey
  rw [← find?_key_of_perm hperm (hkeys ▸ hnodup)]
  refine find?_of_forall₂ ((List.forall₂_and_left _ _).mpr ⟨fun _ hx => hx, hrelated⟩) ?_
  rintro x y ⟨-, hxy⟩
  rw [hkey x y hxy]

end LookUps

namespace SchemaNode

theorem alikeForAll_of_reordered_of_forall {nodes siblings siblings' : List SchemaNode}
    (hdistinct : DistinctNames siblings) (h : ReorderedBy Reordered siblings siblings')
    (halike : ∀ n ∈ nodes, ∀ m m' : SchemaNode, DistinctNames m.children → m.Reordered m' →
      n.AlikeFor m m') : AlikeForAll nodes siblings siblings' := by
  intro n hn
  have hfind := find?_of_reorderedBy h (fun _ _ hxy => hxy.localName) hdistinct.top n.localName
  exact optionRel_imp hfind fun m m' hm => halike n hn m m' (hdistinct.children hm.1) hm.2

theorem alikeFor_of_reordered (n : SchemaNode) {m m' : SchemaNode}
    (hdistinct : DistinctNames m.children) (h : m.Reordered m') : n.AlikeFor m m' := by
  induction n using treeInduction generalizing m m' with
  | node data children ih =>
      obtain ⟨hdata, hchildren⟩ := reordered_iff.mp h
      refine alikeFor_iff.mpr ⟨hdata ▸ .refl _, ?_⟩
      exact alikeForAll_of_reordered_of_forall hdistinct hchildren fun c hc _ _ => ih c hc

theorem alikeForAll_of_reordered (nodes : List SchemaNode) {siblings siblings' : List SchemaNode}
    (hdistinct : DistinctNames siblings) (h : ReorderedBy Reordered siblings siblings') :
    AlikeForAll nodes siblings siblings' :=
  alikeForAll_of_reordered_of_forall hdistinct h fun n _ _ _ => alikeFor_of_reordered n

end SchemaNode

/-- For any old module, a module is alike in any order. -/
theorem Module.AlikeFor.of_reordered (old : Module) {m m' : Module} (hdistinct : m.Unambiguous)
    (h : m.Reordered m') : old.AlikeFor m m' := by
  have hsame := AlikeFor.refl old m
  exact {
    name := h.name
    uri := h.uri
    revision := h.revision
    revisions := h.revisions
    children := alikeForAll_of_reordered _ hdistinct.children h.children
    rpcs := alikeForAll_of_reordered _ hdistinct.rpcs h.rpcs
    notifications := alikeForAll_of_reordered _ hdistinct.notifications h.notifications
    augmentations := by
      intro a _
      have hfind := find?_of_reorderedBy h.augmentations (fun _ _ hb => hb.target)
        hdistinct.targets a.target
      exact optionRel_imp hfind fun b _ hb =>
        alikeForAll_of_reordered _ (hdistinct.augmented b hb.1) hb.2.children
    typedefs := by
      intro t ht
      have hfind : m.findTypedef? t.qname.localName = m'.findTypedef? t.qname.localName :=
        find?_key_of_perm h.typedefs hdistinct.typedefs t.qname.localName
      rw [← hfind]
      exact hsame.typedefs t ht
    identities := by
      intro i hi
      have hfind : m.findIdentity? i.qname.localName = m'.findIdentity? i.qname.localName :=
        find?_key_of_perm h.identities hdistinct.identities i.qname.localName
      rw [← hfind]
      exact hsame.identities i hi }

/-! ### An old module in another order -/

theorem flatMap_perm_of_reorderedBy {α β : Type} {R : α → α → Prop} {l l' : List α}
    {f g : α → List β} (h : ReorderedBy R l l')
    (hfg : ∀ x ∈ l, ∀ y, R x y → (f x).Perm (g y)) : (l.flatMap f).Perm (l'.flatMap g) := by
  obtain ⟨related, hrelated, hperm⟩ := h
  refine List.Perm.trans ?_ (hperm.flatMap_right g)
  clear hperm
  induction hrelated with
  | nil => exact .nil
  | cons hxy _ ih =>
      rw [List.flatMap_cons, List.flatMap_cons]
      refine (hfg _ List.mem_cons_self _ hxy).append (ih ?_)
      exact fun x hx => hfg x (List.mem_cons_of_mem _ hx)

theorem Catalog.findings_ofList_perm {l l' : List Finding} (h : l.Perm l') :
    (ofList l).findings.Perm (ofList l').findings := by
  refine (List.perm_ext_iff_of_nodup (ofList l).nodup (ofList l').nodup).mpr fun f => ?_
  rw [mem_ofList, mem_ofList]
  exact h.mem_iff

namespace Comparison

open Compatibility

variable {old old' new : Module} {version : LanguageVersion}

/-- Where children change places, so do the findings on them. -/
theorem nested_perm_of_reordered (hname : old.name = old'.name) {n n' : SchemaNode}
    (h : n.Reordered n') (siblings : List SchemaNode) (parent : Position) :
    (nested ⟨old, new, version⟩ siblings parent n).Perm
      (nested ⟨old', new, version⟩ siblings parent n') := by
  induction n using treeInduction generalizing n' siblings parent with
  | node data children ih =>
      obtain ⟨data', children'⟩ := n'
      obtain ⟨rfl, hchildren⟩ := reordered_iff.mp h
      have henter : enter ⟨old', new, version⟩ parent data.qname.localName =
          enter ⟨old, new, version⟩ parent data.qname.localName := by
        simp only [enter, hname]
      rw [nested, nested, henter]
      cases find? siblings data.qname.localName with
      | none => exact .refl _
      | some counterpart =>
          simp only [nestedAll_eq_flatMap]
          refine List.Perm.append_left _ ?_
          exact flatMap_perm_of_reorderedBy hchildren fun c hc c' hcc' => ih c hc hcc' _ _

theorem nestedAll_perm_of_reordered (hname : old.name = old'.name)
    {nodes nodes' : List SchemaNode} (h : ReorderedBy Reordered nodes nodes')
    (siblings : List SchemaNode) (parent : Position) :
    (nestedAll ⟨old, new, version⟩ siblings parent nodes).Perm
      (nestedAll ⟨old', new, version⟩ siblings parent nodes') := by
  rw [nestedAll_eq_flatMap, nestedAll_eq_flatMap]
  exact flatMap_perm_of_reorderedBy h fun n _ n' hn =>
    nested_perm_of_reordered hname hn siblings parent

theorem augmentationFindings_perm_of_reordered (hname : old.name = old'.name)
    {a a' : Augmentation} (h : a.Reordered a') :
    (augmentationFindings ⟨old, new, version⟩ a).Perm
      (augmentationFindings ⟨old', new, version⟩ a') := by
  simp only [augmentationFindings, h.target]
  cases new.findAugmentation? a'.target with
  | none => exact .refl _
  | some b => exact nestedAll_perm_of_reordered hname h.children _ _

/-- Reordering the old module puts the findings in another order. -/
theorem findings_perm_of_reordered (h : old.Reordered old') :
    (findings ⟨old, new, version⟩).Perm (findings ⟨old', new, version⟩) := by
  have hidentity : identityFindings ⟨old, new, version⟩ =
      identityFindings ⟨old', new, version⟩ := rfl
  have htypedef : typedefFindings ⟨old, new, version⟩ = typedefFindings ⟨old', new, version⟩ := by
    funext t
    simp only [typedefFindings, enter, h.name]
  have hidentities : (if version.is7950 then
        old.identities.flatMap (identityFindings ⟨old, new, version⟩) else []).Perm
      (if version.is7950 then
        old'.identities.flatMap (identityFindings ⟨old', new, version⟩) else []) := by
    split
    · exact hidentity ▸ h.identities.flatMap_right _
    · exact .refl _
  simp only [findings_eq_walks, headerFindings, revisionFindings, historyFindings, h.name, h.uri,
    h.revision, h.revisions]
  refine .append (.append (.append (.append (.append (.append (.refl _) hidentities) ?_) ?_) ?_)
    ?_) ?_
  · exact nestedAll_perm_of_reordered h.name h.children _ _
  · exact nestedAll_perm_of_reordered h.name h.rpcs _ _
  · exact nestedAll_perm_of_reordered h.name h.notifications _ _
  · exact flatMap_perm_of_reorderedBy h.augmentations fun a _ a' ha =>
      augmentationFindings_perm_of_reordered h.name ha
  · exact htypedef ▸ h.typedefs.flatMap_right _

/-- Reordering a new module whose definitions are told apart by names leaves the list of findings as
it is; reordering an old module gives the same findings in some order. -/
theorem order_of_definitions_immaterial (version : LanguageVersion) :
    (∀ old new new' : Module, new.Unambiguous → new.Reordered new' →
      (catalog ⟨old, new', version⟩).findings = (catalog ⟨old, new, version⟩).findings) ∧
    ∀ old old' new : Module, old.Reordered old' →
      (catalog ⟨old', new, version⟩).findings.Perm (catalog ⟨old, new, version⟩).findings := by
  constructor
  · intro old new new' hdistinct h
    rw [catalog, catalog, findings_of_alikeFor (.of_reordered old hdistinct h)]
  · intro old old' new h
    exact (Catalog.findings_ofList_perm (findings_perm_of_reordered h)).symm

/-- A station with containers of one status, each with the names of what is in it. -/
def station (status : Status) (parts : List (String × List String)) : Module where
  name := "station"
  uri := "urn:station"
  nsPrefix := "s"
  children := parts.map fun part => ⟨container part.1, part.2.map fun name => ⟨container name, []⟩⟩
where
  container (name : String) : NodeData :=
    { kind := .container, qname := ⟨"urn:station", none, name⟩, status, config := some true }

theorem station_reordered (status : Status) :
    (station status [("hall", ["platform", "exit"]), ("kiosk", [])]).Reordered
      (station status [("kiosk", []), ("hall", ["exit", "platform"])]) where
  name := rfl
  uri := rfl
  nsPrefix := rfl
  revision := rfl
  revisions := rfl
  children := by
    have hleaf : ∀ data, SchemaNode.Reordered ⟨data, []⟩ ⟨data, []⟩ := fun _ => .node .nil .nil
    have hhall : ∀ data n m, (∀ k ∈ [n, m], SchemaNode.Reordered k k) →
        SchemaNode.Reordered ⟨data, [n, m]⟩ ⟨data, [m, n]⟩ := fun _ n m hk =>
      .node (.cons (hk n (by simp)) (.cons (hk m (by simp)) .nil)) (.swap _ _ _)
    refine ⟨_, .cons (hhall _ _ _ ?_) (.cons (hleaf _) .nil), .swap _ _ _⟩
    simpa using ⟨hleaf _, hleaf _⟩
  rpcs := ⟨_, .nil, .nil⟩
  notifications := ⟨_, .nil, .nil⟩
  augmentations := ⟨_, .nil, .nil⟩
  typedefs := .nil
  identities := .nil

theorem station_unambiguous (status : Status) :
    (station status [("hall", ["platform", "exit"]), ("kiosk", [])]).Unambiguous where
  children := by
    refine ⟨by simp [station, station.container, localName], fun n hn => ?_⟩
    simp [station, station.container] at hn
    rcases hn with rfl | (rfl | rfl) | rfl <;> simp [localName]
  rpcs := ⟨.nil, by simp [station]⟩
  notifications := ⟨.nil, by simp [station]⟩
  augmented := by simp [station]
  targets := .nil
  typedefs := .nil
  identities := .nil

/-- Everything becomes obsolete, and the platform is told of before or after the kiosk. -/
theorem order_of_definitions_immaterial_station :
    let parts := [("hall", ["platform", "exit"]), ("kiosk", [])]
    let parts' := [("kiosk", []), ("hall", ["exit", "platform"])]
    let old := station .current parts
    let new := station .obsolete parts
    new.Unambiguous ∧ new.Reordered (station .obsolete parts') ∧
      old.Reordered (station .current parts') ∧
      (catalog ⟨old, station .obsolete parts', .rfc7950⟩).findings =
        (catalog ⟨old, new, .rfc7950⟩).findings ∧
      (catalog ⟨station .current parts', new, .rfc7950⟩).findings.Perm
        (catalog ⟨old, new, .rfc7950⟩).findings ∧
      (catalog ⟨station .current parts', new, .rfc7950⟩).findings ≠
        (catalog ⟨old, new, .rfc7950⟩).findings := by
  intro parts parts' old new
  obtain ⟨hnew, hold⟩ := order_of_definitions_immaterial .rfc7950
  refine ⟨station_unambiguous _, station_reordered _, station_reordered _, ?_, ?_, ?_⟩
  · exact hnew old new _ (station_unambiguous _) (station_reordered _)
  · exact hold old _ new (station_reordered _)
  · decide

end Comparison

end YangEvolution
