import YangEvolution.Proofs.FirstMatch
import YangEvolution.Proofs.Verdict

/-!
A module compared with itself. Where names tell definitions of the same place apart, every look-up
finds the definition that it starts from, and no rule has anything to say of a definition and
itself. Main statement: apart from its revision, a module has no finding against itself.
-/

namespace YangEvolution

namespace SchemaNode

/-- Siblings have different local names, among the nodes themselves and everywhere below. -/
structure DistinctNames (nodes : List SchemaNode) : Prop where
  top : (nodes.map localName).Nodup
  below : ∀ n, Occurs nodes n → (n.children.map localName).Nodup

theorem DistinctNames.children {nodes : List SchemaNode} {n : SchemaNode}
    (h : DistinctNames nodes) (hn : n ∈ nodes) : DistinctNames n.children :=
  ⟨h.below n (.of_mem hn), fun m hm => h.below m (.below hn hm)⟩

theorem firstNamed_of_distinct {nodes : List SchemaNode} {n : SchemaNode}
    (h : DistinctNames nodes) (hn : n ∈ nodes) : FirstNamed nodes n.localName n :=
  isFirst_of_mem h.top hn

/-- The names on the way to a node lead to it by first matches too. -/
theorem resolves_of_contains {nodes : List SchemaNode} (hdistinct : DistinctNames nodes)
    {top n : SchemaNode} {names : List String} (htop : top ∈ nodes) (h : top.Contains names n) :
    Resolves nodes names n := by
  induction h generalizing nodes with
  | self n => exact .last (firstNamed_of_distinct hdistinct htop)
  | child hc _ ih =>
      exact .child (firstNamed_of_distinct hdistinct htop) (ih (hdistinct.children htop) hc)

end SchemaNode

open SchemaNode

/-- Names tell the definitions of a module apart, and an `identityref` has a base. -/
structure Module.WellNamed (m : Module) : Prop where
  children : DistinctNames m.children
  rpcs : DistinctNames m.rpcs
  notifications : DistinctNames m.notifications
  augmented : ∀ a ∈ m.augmentations, DistinctNames a.children
  targets : (m.augmentations.map Augmentation.target).Nodup
  typedefs : (m.typedefs.map fun t => t.qname.localName).Nodup
  identities : (m.identities.map fun i => i.qname.localName).Nodup
  bases : ∀ n, m.HasNode n → ∀ t, n.data.type = some t → t.identityBases? ≠ some []

namespace Compatibility

variable {version : LanguageVersion}

theorem TypeCompatible.refl {t : TypeDef} (h : t.identityBases? ≠ some []) :
    TypeCompatible version t t where
  builtin := ⟨_, t.isRootedIn_builtinName, t.isRootedIn_builtinName⟩
  default _ hd := hd
  units hu := hu
  reference hr := hr
  bases _ s s' hs hs' := by
    cases hs.symm.trans hs'
    exact ⟨fun hnil => h (TypeDef.identityBases?_eq_some_iff.mpr (hnil ▸ hs)), Nat.le_refl _⟩
  length l hl l' hl' := by
    rw [← TypeDef.length?_eq_some_iff] at hl hl'
    cases hl.symm.trans hl'
    exact Interval.covers_self _
  lengthGone l hl hnone := absurd hl (hnone l)
  range r hr := ⟨r, hr, r.includes_self⟩
  enums e he := ⟨e, he, rfl, rfl⟩
  bits b hb := ⟨b, hb, rfl, rfl⟩
  patterns := ⟨t.patterns, TypeDef.patterns_eq_iff.mp rfl, TypeDef.patterns_eq_iff.mp rfl⟩

/-- A type of `identityref` without a base is the one thing that is not compatible with itself. -/
theorem NodeCompatible.refl {d : NodeData}
    (h : ∀ t, d.type = some t → t.identityBases? ≠ some []) : NodeCompatible version d d where
  reference hr := hr
  mustsAdded := Nat.le_refl _
  mustsChanged _ _ hm := hm
  condition _ _ hw := hw
  mandatory hm := hm
  configuration ht hf := by
    cases ht.symm.trans hf
  state hf ht := by
    cases hf.symm.trans ht
  status := Nat.le_refl _
  minElements n hn := ⟨n, hn, Nat.le_refl _⟩
  maxElements m hm n hn := by
    cases hm.symm.trans hn
    exact Nat.le_refl _
  type s hs t ht := by
    cases hs.symm.trans ht
    exact .refl (h s hs)

theorem SubtreeCompatible.refl (n : SchemaNode) (hdistinct : DistinctNames n.children)
    (hbases : ∀ m, Occurs [n] m → ∀ t, m.data.type = some t → t.identityBases? ≠ some []) :
    SubtreeCompatible version n n := by
  induction n using treeInduction with
  | node data children ih =>
      refine subtreeCompatible_iff.mpr ⟨.refl (hbases _ (.of_mem List.mem_cons_self)), ?_⟩
      intro c hc
      refine ⟨c, firstNamed_of_distinct hdistinct hc, ih c hc (hdistinct.children hc) ?_⟩
      intro m hm
      obtain ⟨top, htop, names, hm⟩ := hm
      obtain rfl := List.mem_singleton.mp htop
      exact hbases m (.below List.mem_cons_self ⟨top, hc, names, hm⟩)

theorem ForestCompatible.refl {nodes : List SchemaNode} (hdistinct : DistinctNames nodes)
    (hbases : ∀ m, Occurs nodes m → ∀ t, m.data.type = some t → t.identityBases? ≠ some []) :
    ForestCompatible version nodes nodes := by
  intro n hn
  refine ⟨n, firstNamed_of_distinct hdistinct hn, .refl n (hdistinct.children hn) ?_⟩
  rintro m ⟨top, htop, names, hm⟩
  obtain rfl := List.mem_singleton.mp htop
  exact hbases m ⟨top, hn, names, hm⟩

end Compatibility

namespace Comparison

open Compatibility

/-- A module against itself with another revision and another history. -/
def selfComparison (m : Module) (version : LanguageVersion) (revision : Option Revision)
    (revisions : List Revision) : Comparison where
  old := m
  new := { m with revision := revision, revisions := revisions }
  version := version

variable {m : Module} {version : LanguageVersion} {revision : Option Revision}
  {revisions : List Revision}

/-- All rules but the one on the revision are silent. -/
theorem findings_selfComparison (h : m.WellNamed) (hhistory : ∀ r ∈ m.revisions, r ∈ revisions) :
    (selfComparison m version revision revisions).findings =
      (selfComparison m version revision revisions).revisionFindings := by
  let c := selfComparison m version revision revisions
  have hheader : c.headerFindings = [] := headerFindings_eq_nil_iff.mpr ⟨rfl, rfl⟩
  have hold : c.historyFindings = [] := historyFindings_eq_nil_iff.mpr hhistory
  have hidentities : m.identities.flatMap c.identityFindings = [] := by
    refine List.flatMap_eq_nil_iff.mpr fun i hi => identityFindings_eq_nil_iff.mpr ?_
    exact ⟨i, isFirst_of_mem h.identities hi, Nat.le_refl _, fun b hb => ⟨b, hb, rfl⟩⟩
  have hdata : c.dataNodes .root m.children = [] := by
    refine dataNodes_root_eq_nil_iff.mpr fun top htop names n hn => ⟨n, ?_, .refl ?_⟩
    · exact resolves_of_contains h.children htop hn
    · exact h.bases n (.data ⟨top, htop, _, hn⟩)
  have hrpcs : m.rpcs.flatMap (c.operationFindings c.new.findRpc?) = [] :=
    operationFindings_eq_nil_iff.mpr (.refl h.rpcs fun n hn => h.bases n (.rpc hn))
  have hnotifications :
      m.notifications.flatMap (c.operationFindings c.new.findNotification?) = [] :=
    operationFindings_eq_nil_iff.mpr
      (.refl h.notifications fun n hn => h.bases n (.notification hn))
  have haugmentations : m.augmentations.flatMap c.augmentationFindings = [] := by
    refine List.flatMap_eq_nil_iff.mpr fun a ha => augmentationFindings_eq_nil_iff.mpr ?_
    refine ⟨a, isFirst_of_mem h.targets ha, .refl (h.augmented a ha) ?_⟩
    exact fun n hn => h.bases n (.augmentation ha hn)
  have htypedefs : m.typedefs.flatMap c.typedefFindings = [] := by
    refine List.flatMap_eq_nil_iff.mpr fun t ht => typedefFindings_eq_nil_iff.mpr fun u hu => ?_
    rw [← find?_key_eq_some_iff] at hu
    cases (find?_key_of_mem h.typedefs ht).symm.trans hu
    exact ⟨⟨_, t.isRootedIn_builtinName, t.isRootedIn_builtinName⟩, Nat.le_refl _⟩
  change c.findings = c.revisionFindings
  have holdModule : c.old = m := rfl
  simp only [findings, holdModule, hheader, hold, hidentities, hdata, hrpcs, hnotifications,
    haugmentations, htypedefs, ite_self, List.nil_append, List.append_nil]

/-- The only finding of a module against itself is about the new revision: that there is none, or
that it is not later than the old one. -/
theorem findings_against_itself (m : Module) (h : m.WellNamed) (version : LanguageVersion)
    (revision : Option Revision) (revisions : List Revision)
    (hhistory : ∀ r ∈ m.revisions, r ∈ revisions) :
    (revision = none →
      (selfComparison m version revision revisions).catalog.findings =
        [⟨.missingRevision, "none", orNone (m.revision.map Revision.text)⟩]) ∧
    (∀ r s, revision = some r → m.revision = some s → r ≤ s →
      (selfComparison m version revision revisions).catalog.findings =
        [⟨.revision, r.text, s.text⟩]) ∧
    (∀ r, revision = some r → (∀ s, m.revision = some s → s < r) →
      (selfComparison m version revision revisions).catalog.findings = []) := by
  rw [catalog, findings_selfComparison h hhistory]
  refine ⟨?_, ?_, ?_⟩
  · rintro rfl
    exact Catalog.findings_ofList_singleton _
  · rintro r s rfl hs hle
    have hfinding : (selfComparison m version (some r) revisions).revisionFindings =
        [⟨.revision, r.text, s.text⟩] := by
      simp [revisionFindings, selfComparison, hs, hle]
    rw [hfinding]
    exact Catalog.findings_ofList_singleton _
  · rintro r rfl hlater
    have hsilent : (selfComparison m version (some r) revisions).revisionFindings = [] :=
      revisionFindings_eq_nil_iff.mpr ⟨r, rfl, hlater⟩
    rw [hsilent]
    rfl

/-- A definition of each kind, with names that occur again at other places. -/
def timetable : Module where
  name := "timetable"
  uri := "urn:timetable"
  nsPrefix := "tt"
  revision := some ⟨2020, 1, 1, by decide, by decide⟩
  revisions := [⟨2020, 1, 1, by decide, by decide⟩]
  children := [
    ⟨{ kind := .list, qname := ⟨"urn:timetable", none, "line"⟩, config := some true,
       count := some { min := some 1 } }, [
      ⟨{ kind := .leaf, qname := ⟨"urn:timetable", none, "line"⟩, mandatory := some true,
         type := some { TypeDef.ofBuiltin .string with
           facets := .string (some ⟨[⟨5, 9⟩, ⟨1, 4⟩]⟩) [] } }, []⟩,
      ⟨{ kind := .leaf, qname := ⟨"urn:timetable", none, "mode"⟩, mandatory := some false,
         type := some { TypeDef.ofBuiltin .identityref with
           facets := .identityref [⟨"urn:timetable", none, "mode"⟩] } }, []⟩]⟩]
  rpcs := [⟨{ kind := .rpc, qname := ⟨"urn:timetable", none, "line"⟩ }, []⟩]
  notifications := [⟨{ kind := .notification, qname := ⟨"urn:timetable", none, "line"⟩ }, []⟩]
  augmentations := [
    { target := ⟨[⟨"network", "stop"⟩]⟩
      children := [⟨{ kind := .container, qname := ⟨"urn:timetable", none, "line"⟩ }, []⟩] }]
  typedefs := [TypeDef.derived ⟨"urn:timetable", none, "line"⟩ (.ofBuiltin .string)]
  identities := [{ qname := ⟨"urn:timetable", none, "mode"⟩ }]

theorem timetable_wellNamed : timetable.WellNamed where
  children := ⟨by decide, by simp [timetable, localName]⟩
  rpcs := ⟨by decide, by simp [timetable]⟩
  notifications := ⟨by decide, by simp [timetable]⟩
  augmented := by
    intro a ha
    obtain rfl := List.mem_singleton.mp ha
    exact ⟨by decide, by simp⟩
  targets := by decide
  typedefs := by decide
  identities := by decide
  bases := by
    rintro n (hn | hn | hn | ⟨ha, hn⟩)
    · simp [timetable] at hn
      rcases hn with rfl | rfl | rfl <;> simp [TypeDef.identityBases?]
    · simp [timetable] at hn
      simp [hn]
    · simp [timetable] at hn
      simp [hn]
    · obtain rfl := List.mem_singleton.mp ha
      simp at hn
      simp [hn]

theorem findings_against_itself_timetable :
    timetable.WellNamed ∧
      (selfComparison timetable .rfc7950 none timetable.revisions).catalog.findings =
        [⟨.missingRevision, "none", orNone (timetable.revision.map Revision.text)⟩] ∧
      (selfComparison timetable .rfc7950 (some ⟨2021, 1, 1, by decide, by decide⟩)
        timetable.revisions).catalog.findings = [] := by
  refine ⟨timetable_wellNamed, ?_, ?_⟩
  · exact (findings_against_itself timetable timetable_wellNamed .rfc7950 none
      timetable.revisions fun _ hr => hr).1 rfl
  · refine (findings_against_itself timetable timetable_wellNamed .rfc7950 _
      timetable.revisions fun _ hr => hr).2.2 _ rfl ?_
    intro s hs
    cases hs
    decide

end Comparison

end YangEvolution
