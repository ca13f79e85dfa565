import Mathlib.Data.List.Dedup
import YangEvolution.Proofs.Reflexivity

/-!
Several augmentations of one target. What a module adds at a target is what all its augmentations
of the target add together. How the old module divides this among augmentations never matters. Of
the new module only the first augmentation of a target is looked at, so that it matters there, and
the main statement tells when: exactly where some later augmentation of a target adds a name that
the first one does not have.
-/

namespace YangEvolution

namespace Module

/-- All nodes that the augmentations of a target add, in order. -/
def added (m : Module) (target : SchemaPath) : List SchemaNode :=
  (m.augmentations.filter fun a => a.target == target).flatMap Augmentation.children

def Augments (m : Module) (target : SchemaPath) : Prop :=
  ∃ a ∈ m.augmentations, a.target = target

/-- The modules have the same augmented targets and add the same nodes at each, and they do not
differ otherwise. -/
structure SameAdditions (m m' : Module) : Prop where
  rest : { m with augmentations := [] } = { m' with augmentations := [] }
  targets : ∀ target, m.Augments target ↔ m'.Augments target
  added : ∀ target, m.added target = m'.added target

/-- The first augmentation of a target has every name that the module adds there. -/
def FirstAddsAll (m : Module) : Prop :=
  ∀ target a, m.findAugmentation? target = some a →
    ∀ n ∈ m.added target, (SchemaNode.find? a.children n.localName).isSome

/-- The module with one augmentation for each of its targets. -/
def joined (m : Module) : Module :=
  { m with
    augmentations := (m.augmentations.map Augmentation.target).dedup.map fun target =>
      { target, children := m.added target } }

variable {m m' : Module} {target : SchemaPath}

theorem SameAdditions.name (h : m.SameAdditions m') : m.name = m'.name := by
  have hname := congrArg Module.name h.rest
  exact hname

theorem mem_added {n : SchemaNode} :
    n ∈ m.added target ↔ ∃ a ∈ m.augmentations, a.target = target ∧ n ∈ a.children := by
  simp [added, and_assoc]

theorem target_of_findAugmentation? {a : Augmentation}
    (h : m.findAugmentation? target = some a) : a.target = target := by
  simpa using List.find?_some h

theorem augments_iff_isSome : m.Augments target ↔ (m.findAugmentation? target).isSome := by
  simp [Augments, findAugmentation?]

/-- What the first augmentation of a target adds comes first in what the module adds there. -/
theorem exists_added_eq {a : Augmentation} (h : m.findAugmentation? target = some a) :
    ∃ later, m.added target = a.children ++ later := by
  obtain ⟨ha, before, after, hsplit, hbefore⟩ := List.find?_eq_some_iff_append.mp h
  refine ⟨(after.filter fun b => b.target == target).flatMap Augmentation.children, ?_⟩
  have hnone : before.filter (fun b => b.target == target) = [] :=
    List.filter_eq_nil_iff.mpr fun b hb => by simpa using hbefore b hb
  simp only [added, hsplit, List.filter_append, hnone, List.filter_cons, ha, if_true,
    List.nil_append, List.flatMap_cons]

/-- The first augmentation of a target leads to the same nodes as all of them together. -/
theorem find?_added (hfirst : m.FirstAddsAll) {a : Augmentation}
    (h : m.findAugmentation? target = some a) (name : String) :
    SchemaNode.find? (m.added target) name = SchemaNode.find? a.children name := by
  obtain ⟨later, hadded⟩ := exists_added_eq h
  have happend : SchemaNode.find? (m.added target) name =
      (SchemaNode.find? a.children name).or (SchemaNode.find? later name) := by
    rw [hadded]
    exact List.find?_append
  cases hfind : SchemaNode.find? a.children name with
  | some n => rw [happend, hfind, Option.some_or]
  | none =>
      refine List.find?_eq_none.mpr fun n hn hname => ?_
      have hsome := hfirst target a h n hn
      rw [beq_iff_eq.mp hname, hfind] at hsome
      cases hsome

/-- With one augmentation for each target there is nothing to divide. -/
theorem firstAddsAll_of_nodup (h : (m.augmentations.map Augmentation.target).Nodup) :
    m.FirstAddsAll := by
  intro t a ha n hn
  obtain ⟨b, hb, rfl, hmem⟩ := mem_added.mp hn
  cases (find?_key_of_mem h hb).symm.trans ha
  exact List.find?_isSome.mpr ⟨n, hmem, beq_self_eq_true _⟩

/-! ### One augmentation for each target -/

theorem filter_target_map {targets : List SchemaPath} (hnodup : targets.Nodup)
    (make : SchemaPath → Augmentation) (hmake : ∀ t, (make t).target = t) :
    (targets.map make).filter (fun a => a.target == target) =
      if target ∈ targets then [make target] else [] := by
  induction targets with
  | nil => rfl
  | cons t rest ih =>
      obtain ⟨ht, hrest⟩ := List.nodup_cons.mp hnodup
      rw [List.map_cons, List.filter_cons, ih hrest, hmake]
      by_cases h : t = target
      · subst h
        simp [ht]
      · simp [h, Ne.symm h]

theorem added_joined : m.joined.added target = m.added target := by
  rw [added]
  change (List.filter _ (List.map _ _)).flatMap _ = _
  rw [filter_target_map (List.nodup_dedup _) _ fun _ => rfl]
  split
  · simp
  · rename_i hnone
    refine Eq.symm (List.eq_nil_iff_forall_not_mem.mpr fun n hn => hnone ?_)
    obtain ⟨a, ha, htarget, -⟩ := mem_added.mp hn
    exact List.mem_dedup.mpr (List.mem_map.mpr ⟨a, ha, htarget⟩)

theorem sameAdditions_joined (m : Module) : m.SameAdditions m.joined where
  rest := rfl
  targets t := by simp [Augments, joined]
  added _ := added_joined.symm

theorem firstAddsAll_joined (m : Module) : m.joined.FirstAddsAll := by
  refine firstAddsAll_of_nodup ?_
  simp only [joined, List.map_map]
  exact (List.nodup_dedup _).map fun _ _ h => h

end Module

namespace Comparison

open Compatibility

/-! ### What the walks depend on -/

/-- Below known siblings, only the names of the two modules and the version matter. -/
theorem nested_congr (c c' : Comparison) (hversion : c.version = c'.version)
    (hold : c.old.name = c'.old.name) (hnew : c.new.name = c'.new.name)
    (siblings : List SchemaNode) (parent : Position) (n : SchemaNode) :
    c.nested siblings parent n = c'.nested siblings parent n := by
  induction n using SchemaNode.treeInduction generalizing siblings parent with
  | node data children ih =>
      have henter : c.enter parent data.qname.localName = c'.enter parent data.qname.localName := by
        simp only [enter, hold, hnew]
      rw [nested, nested, henter]
      cases SchemaNode.find? siblings data.qname.localName with
      | none => rfl
      | some new =>
          simp only [hversion, nestedAll_eq_flatMap]
          rw [List.flatMap_congr fun n hn => ih n hn _ _]

theorem dataNode_congr (c c' : Comparison) (hversion : c.version = c'.version)
    (hold : c.old.name = c'.old.name) (hnew : c.new.name = c'.new.name)
    (hchildren : c.new.children = c'.new.children) (parent : Position) (n : SchemaNode) :
    c.dataNode parent n = c'.dataNode parent n := by
  induction n using SchemaNode.treeInduction generalizing parent with
  | node data children ih =>
      have henter : c.enter parent data.qname.localName = c'.enter parent data.qname.localName := by
        simp only [enter, hold, hnew]
      have hfind : ∀ path, c.new.findNode? path = c'.new.findNode? path := by
        intro path
        simp only [Module.findNode?, hchildren]
      rw [dataNode, dataNode, henter, hfind]
      cases c'.new.findNode? (c'.enter parent data.qname.localName).new with
      | none => rfl
      | some new =>
          simp only [hversion, dataNodes_eq_flatMap]
          rw [List.flatMap_congr fun n hn => ih n hn _]

/-- Siblings matter by the node that is found among them. -/
theorem nested_siblings_congr (c : Comparison) {siblings siblings' : List SchemaNode}
    {n : SchemaNode}
    (h : SchemaNode.find? siblings n.localName = SchemaNode.find? siblings' n.localName)
    (parent : Position) : c.nested siblings parent n = c.nested siblings' parent n := by
  obtain ⟨data, children⟩ := n
  have h : SchemaNode.find? siblings data.qname.localName =
      SchemaNode.find? siblings' data.qname.localName := h
  rw [nested, nested, h]

/-- The comparison without the augmentations of the two modules. -/
def bare (c : Comparison) : Comparison where
  old := { c.old with augmentations := [] }
  new := { c.new with augmentations := [] }
  version := c.version

theorem mem_findings_iff {c : Comparison} {f : Finding} :
    f ∈ c.findings ↔
      f ∈ c.bare.findings ∨ ∃ a ∈ c.old.augmentations, f ∈ c.augmentationFindings a := by
  have hdata : c.dataNodes .root c.old.children = c.bare.dataNodes .root c.old.children := by
    simp only [dataNodes_eq_flatMap]
    exact List.flatMap_congr fun n _ => dataNode_congr c c.bare rfl rfl rfl rfl .root n
  have hoperations : ∀ operations nodes : List SchemaNode,
      nodes.flatMap (c.operationFindings (SchemaNode.find? operations)) =
        nodes.flatMap (c.bare.operationFindings (SchemaNode.find? operations)) := by
    intro operations nodes
    refine List.flatMap_congr fun n _ => ?_
    rw [operationFindings_eq_nested, operationFindings_eq_nested]
    exact nested_congr c c.bare rfl rfl rfl operations .root n
  have hmove : ∀ before augmented after : List Finding,
      f ∈ before ++ augmented ++ after ↔ f ∈ before ++ [] ++ after ∨ f ∈ augmented := by
    intro before augmented after
    simp only [List.mem_append, List.append_nil]
    exact or_right_comm
  have hbare : f ∈ c.bare.findings ↔ f ∈ c.headerFindings ++ c.revisionFindings ++
      c.historyFindings ++
      (if c.version.is7950 then c.old.identities.flatMap c.identityFindings else []) ++
      c.dataNodes .root c.old.children ++
      c.old.rpcs.flatMap (c.operationFindings (SchemaNode.find? c.new.rpcs)) ++
      c.old.notifications.flatMap (c.operationFindings (SchemaNode.find? c.new.notifications)) ++
      [] ++ c.old.typedefs.flatMap c.typedefFindings := by
    rw [hdata, hoperations, hoperations]
    rfl
  rw [hbare, ← List.mem_flatMap]
  exact hmove _ _ _

/-- The old augmentations of a target are compared as one that adds all their nodes. -/
theorem exists_augmentationFindings_iff {c : Comparison} {f : Finding} :
    (∃ a ∈ c.old.augmentations, f ∈ c.augmentationFindings a) ↔
      ∃ target, c.old.Augments target ∧
        f ∈ c.augmentationFindings { target, children := c.old.added target } := by
  constructor
  · rintro ⟨a, ha, hf⟩
    refine ⟨a.target, ⟨a, ha, rfl⟩, ?_⟩
    cases hfind : c.new.findAugmentation? a.target with
    | none => simpa [augmentationFindings, hfind] using hf
    | some b =>
        simp only [augmentationFindings, hfind, nestedAll_eq_flatMap, List.mem_flatMap] at hf ⊢
        obtain ⟨n, hn, hf⟩ := hf
        exact ⟨n, Module.mem_added.mpr ⟨a, ha, rfl, hn⟩, hf⟩
  · rintro ⟨target, ⟨a, ha, rfl⟩, hf⟩
    cases hfind : c.new.findAugmentation? a.target with
    | none => exact ⟨a, ha, by simpa [augmentationFindings, hfind] using hf⟩
    | some b =>
        simp only [augmentationFindings, hfind, nestedAll_eq_flatMap, List.mem_flatMap] at hf
        obtain ⟨n, hn, hf⟩ := hf
        obtain ⟨a', ha', htarget, hn⟩ := Module.mem_added.mp hn
        refine ⟨a', ha', ?_⟩
        simp only [augmentationFindings, htarget, hfind, nestedAll_eq_flatMap, List.mem_flatMap]
        exact ⟨n, hn, hf⟩

theorem mem_catalog_iff {c : Comparison} {f : Finding} :
    f ∈ c.catalog.findings ↔
      f ∈ c.bare.findings ∨ ∃ target, c.old.Augments target ∧
        f ∈ c.augmentationFindings { target, children := c.old.added target } := by
  rw [catalog, Catalog.mem_ofList, mem_findings_iff, exists_augmentationFindings_iff]

/-- The augmentations of the new module matter by what is found among the nodes of the first one of
a target. -/
theorem augmentationFindings_congr {old old' new new' : Module} {version : LanguageVersion}
    (hold : old.name = old'.name) (hnew : new.name = new'.name)
    (htargets : ∀ target, new.Augments target ↔ new'.Augments target)
    (hlookup : ∀ target b b', new.findAugmentation? target = some b →
      new'.findAugmentation? target = some b' →
      ∀ name, SchemaNode.find? b.children name = SchemaNode.find? b'.children name)
    (a : Augmentation) :
    augmentationFindings ⟨old, new, version⟩ a = augmentationFindings ⟨old', new', version⟩ a := by
  have htargets := htargets a.target
  rw [Module.augments_iff_isSome, Module.augments_iff_isSome] at htargets
  cases hfind : new.findAugmentation? a.target with
  | none =>
      have hfind' : new'.findAugmentation? a.target = none := by
        simpa [hfind] using htargets
      simp only [augmentationFindings, hfind, hfind']
  | some b =>
      obtain ⟨b', hfind'⟩ : ∃ b', new'.findAugmentation? a.target = some b' :=
        Option.isSome_iff_exists.mp (htargets.mp (by rw [hfind]; rfl))
      have htarget : b.target = b'.target :=
        (Module.target_of_findAugmentation? hfind).trans
          (Module.target_of_findAugmentation? hfind').symm
      simp only [augmentationFindings, hfind, hfind', nestedAll_eq_flatMap, htarget]
      refine List.flatMap_congr fun n _ => ?_
      rw [nested_congr ⟨old, new, version⟩ ⟨old', new', version⟩ rfl hold hnew]
      exact nested_siblings_congr _ (hlookup _ b b' hfind hfind' _) _

/-- The findings of two comparisons, without regard to their order. -/
def SameFindings (c c' : Comparison) : Prop :=
  ∀ f, f ∈ c.catalog.findings ↔ f ∈ c'.catalog.findings

theorem sameFindings_of_additions {old old' new new' : Module} {version : LanguageVersion}
    (hold : old.SameAdditions old') (hrest : { new with augmentations := [] } =
      { new' with augmentations := [] })
    (hnew : ∀ a, (Comparison.mk old new version).augmentationFindings a =
      (Comparison.mk old' new' version).augmentationFindings a) :
    SameFindings ⟨old, new, version⟩ ⟨old', new', version⟩ := by
  intro f
  have hbare : bare ⟨old, new, version⟩ = bare ⟨old', new', version⟩ := by
    simp only [bare, hold.rest, hrest]
  refine mem_catalog_iff.trans (Iff.trans ?_ mem_catalog_iff.symm)
  rw [hbare]
  refine or_congr_right (exists_congr fun target => ?_)
  rw [hnew]
  change old.Augments target ∧ f ∈ augmentationFindings _ { target, children := old.added target } ↔
    old'.Augments target ∧ f ∈ augmentationFindings _ { target, children := old'.added target }
  rw [hold.targets, hold.added]

/-! ### Where a later augmentation adds a name -/

/-- A module that has nothing but an augmentation with one node, of which it says no type. -/
def probe (new : Module) (target : SchemaPath) (data : NodeData) : Module where
  name := new.name
  uri := new.uri
  nsPrefix := new.nsPrefix
  augmentations := [{ target, children := [⟨{ data with type := none }, []⟩] }]

theorem nodeCompatible_untyped {version : LanguageVersion} (d : NodeData) :
    NodeCompatible version { d with type := none } d := by
  have h : NodeCompatible version { d with type := none } { d with type := none } :=
    .refl fun t ht => by cases ht
  exact { h with type := fun t ht => by cases ht }

theorem rule_of_mem_bare_probe {new new' : Module} {target : SchemaPath} {data : NodeData}
    {version : LanguageVersion} {f : Finding} (hname : new'.name = new.name)
    (huri : new'.uri = new.uri)
    (hf : f ∈ (bare ⟨probe new target data, new', version⟩).findings) :
    f.rule = .missingRevision := by
  have hrevision : (bare ⟨probe new target data, new', version⟩).findings =
      (bare ⟨probe new target data, new', version⟩).revisionFindings := by
    simp [findings, headerFindings, historyFindings, dataNodes, bare, probe, hname, huri]
  rw [hrevision] at hf
  cases hnew : new'.revision with
  | none =>
      simp only [revisionFindings, bare, hnew, List.mem_singleton] at hf
      rw [hf]
  | some r => simp [revisionFindings, bare, probe, hnew] at hf

theorem augmentationFindings_probe_of_found {new new' : Module} {target : SchemaPath}
    {version : LanguageVersion} {b : Augmentation} {n : SchemaNode}
    (hb : new'.findAugmentation? target = some b)
    (hn : SchemaNode.find? b.children n.localName = some n) :
    (Comparison.mk (probe new target n.data) new' version).augmentationFindings
      { target, children := [⟨{ n.data with type := none }, []⟩] } = [] := by
  refine augmentationFindings_eq_nil_iff.mpr ⟨b, find?_key_eq_some_iff.mp hb, ?_⟩
  intro m hm
  obtain rfl := List.mem_singleton.mp hm
  refine ⟨n, SchemaNode.find?_eq_some_iff.mp hn,
    subtreeCompatible_iff.mpr ⟨nodeCompatible_untyped n.data, ?_⟩⟩
  intro c hc
  cases hc

/-- The probe's node is reported as missing where the first augmentation lacks it, and not where all
that is added at the target counts. -/
theorem exists_missing_probe (version : LanguageVersion) {new : Module}
    (h : ¬ new.FirstAddsAll) :
    ∃ target data, ∃ f ∈ (catalog ⟨probe new target data, new, version⟩).findings,
      f.rule = .missingNode ∧
        f ∉ (catalog ⟨probe new target data, new.joined, version⟩).findings := by
  simp only [Module.FirstAddsAll, not_forall] at h
  obtain ⟨target, a, ha, n, hn, hnone⟩ := h
  obtain ⟨first, hfirst⟩ : ∃ first, SchemaNode.find? (new.added target) n.localName = some first :=
    Option.isSome_iff_exists.mp (List.find?_isSome.mpr ⟨n, hn, beq_self_eq_true _⟩)
  have hname : first.localName = n.localName := by
    simpa using List.find?_some hfirst
  rw [← hname] at hnone hfirst
  refine ⟨target, first.data, missing ((Comparison.mk (probe new target first.data) new
    version).enter ⟨target, a.target⟩ first.localName) { first.data with type := none },
    ?_, rfl, ?_⟩
  · have hlost : SchemaNode.find? a.children first.data.qname.localName = none :=
      Option.not_isSome_iff_eq_none.mp hnone
    rw [catalog, Catalog.mem_ofList, mem_findings_iff]
    refine .inr ⟨_, List.mem_cons_self, ?_⟩
    simp [augmentationFindings, ha, nestedAll, nested, hlost, SchemaNode.localName]
  · intro hmem
    rw [catalog, Catalog.mem_ofList, mem_findings_iff] at hmem
    rcases hmem with hmem | ⟨b, hb, hmem⟩
    · have hrule := rule_of_mem_bare_probe rfl rfl hmem
      cases hrule
    · obtain rfl := List.mem_singleton.mp hb
      have haugments : new.joined.Augments target :=
        (new.sameAdditions_joined.targets target).mp
          (Module.augments_iff_isSome.mpr (by rw [ha]; rfl))
      obtain ⟨b, hb⟩ := Option.isSome_iff_exists.mp (Module.augments_iff_isSome.mp haugments)
      have hfound : SchemaNode.find? b.children first.localName = some first := by
        rw [← Module.find?_added new.firstAddsAll_joined hb, Module.added_joined]
        exact hfirst
      rw [augmentationFindings_probe_of_found hb hfound] at hmem
      cases hmem

/-- Whatever the old module adds at a target may be divided among augmentations in any way. The new
module may divide it so that the first augmentation of a target still has all names; if it does not,
there is an old module with a node that is reported as missing although the new module adds it. -/
theorem augmentations_compared_by_additions (version : LanguageVersion) :
    (∀ old old' new : Module, old.SameAdditions old' →
      SameFindings ⟨old, new, version⟩ ⟨old', new, version⟩) ∧
    (∀ old old' new new' : Module, old.SameAdditions old' → new.SameAdditions new' →
      new.FirstAddsAll → new'.FirstAddsAll →
      SameFindings ⟨old, new, version⟩ ⟨old', new', version⟩) ∧
    (∀ new : Module, ¬ new.FirstAddsAll →
      ∃ old new' : Module, new.SameAdditions new' ∧ new'.FirstAddsAll ∧
        ∃ f ∈ (catalog ⟨old, new, version⟩).findings, f.rule = .missingNode ∧
          f ∉ (catalog ⟨old, new', version⟩).findings) := by
  refine ⟨?_, ?_, ?_⟩
  · intro old old' new hold
    refine sameFindings_of_additions hold rfl ?_
    refine augmentationFindings_congr hold.name rfl (fun _ => Iff.rfl) ?_
    intro target b b' hb hb' name
    cases hb.symm.trans hb'
    rfl
  · intro old old' new new' hold hnew hfirst hfirst'
    refine sameFindings_of_additions hold hnew.rest ?_
    refine augmentationFindings_congr hold.name hnew.name hnew.targets ?_
    intro target b b' hb hb' name
    rw [← Module.find?_added hfirst hb, ← Module.find?_added hfirst' hb', hnew.added target]
  · intro new hnot
    obtain ⟨target, data, hmissing⟩ := exists_missing_probe version hnot
    exact ⟨probe new target data, new.joined, new.sameAdditions_joined, new.firstAddsAll_joined,
      hmissing⟩

/-- A module that adds nodes below the stops of a network. -/
def stops (revision : Option Revision) (additions : List (List String)) : Module where
  name := "stops"
  uri := "urn:stops"
  nsPrefix := "s"
  revision := revision
  augmentations := additions.map fun names =>
    { target := ⟨[⟨"network", "stop"⟩]⟩
      children := names.map fun name =>
        ⟨{ kind := .container, qname := ⟨"urn:stops", none, name⟩, config := some true }, []⟩ }

theorem sameAdditions_stops (revision : Option Revision) :
    (stops revision [["exit", "platform"]]).SameAdditions
      (stops revision [["exit"], ["platform"]]) where
  rest := rfl
  targets target := by simp [Module.Augments, stops]
  added target := by
    by_cases h : (⟨[⟨"network", "stop"⟩]⟩ : SchemaPath) = target
    · simp [Module.added, stops, h]
    · simp [Module.added, stops, h]

theorem not_firstAddsAll_stops (revision : Option Revision) :
    ¬ (stops revision [["exit"], ["platform"]]).FirstAddsAll := by
  intro h
  have hplatform := h ⟨[⟨"network", "stop"⟩]⟩ _ rfl
    ⟨{ kind := .container, qname := ⟨"urn:stops", none, "platform"⟩, config := some true }, []⟩
    (by simp [Module.added, stops])
  revert hplatform
  decide

theorem augmentations_compared_by_additions_stops :
    SameFindings
        ⟨stops none [["exit", "platform"]], stops none [["exit"], ["platform"]], .rfc7950⟩
        ⟨stops none [["exit"], ["platform"]], stops none [["exit"], ["platform"]], .rfc7950⟩ ∧
      SameFindings
        ⟨stops none [["exit", "platform"]], stops none [["exit", "platform"]], .rfc7950⟩
        ⟨stops none [["exit"], ["platform"]], (stops none [["exit", "platform"]]).joined,
          .rfc7950⟩ ∧
      ∃ old new' : Module, (stops none [["exit"], ["platform"]]).SameAdditions new' ∧
        new'.FirstAddsAll ∧
        ∃ f ∈ (catalog ⟨old, stops none [["exit"], ["platform"]], .rfc7950⟩).findings,
          f.rule = .missingNode ∧ f ∉ (catalog ⟨old, new', .rfc7950⟩).findings := by
  refine ⟨?_, ?_, ?_⟩
  · exact (augmentations_compared_by_additions .rfc7950).1 _ _ _ (sameAdditions_stops none)
  · exact (augmentations_compared_by_additions .rfc7950).2.1 _ _ _ _ (sameAdditions_stops none)
      (Module.sameAdditions_joined _) (Module.firstAddsAll_of_nodup (by decide))
      (Module.firstAddsAll_joined _)
  · exact (augmentations_compared_by_additions .rfc7950).2.2 _ (not_firstAddsAll_stops none)

/-- Of two modules that add the same nodes, one is reported to have lost a node. -/
theorem split_augmentation_reported :
    let later : Revision := ⟨2021, 1, 1, by decide, by decide⟩
    (stops later [["exit", "platform"]]).SameAdditions (stops later [["exit"], ["platform"]]) ∧
      (catalog ⟨stops none [["exit", "platform"]], stops later [["exit", "platform"]],
        .rfc7950⟩).isEmpty = true ∧
      (catalog ⟨stops none [["exit", "platform"]], stops later [["exit"], ["platform"]],
        .rfc7950⟩).isEmpty = false := by
  refine ⟨sameAdditions_stops _, ?_, ?_⟩
  · decide
  · decide

end Comparison

end YangEvolution
