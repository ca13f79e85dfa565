import YangEvolution.Compatibility.ModuleChange
import YangEvolution.Proofs.CompatibleTree

/-!
The verdict of a comparison. `Comparison.Compatible` says which changes from one revision of a
module to the next are compatible, one field for each kind of definition. Main statement: the
catalog of a comparison is empty exactly when the change is compatible, so that no rule is missed
and none is applied where it should not be.
-/

namespace YangEvolution

/-! ### Catalogs -/

theorem Catalog.mem_foldl_add {f : Finding} {l : List Finding} {c : Catalog} :
    f ∈ (l.foldl add c).findings ↔ f ∈ c.findings ∨ f ∈ l := by
  induction l generalizing c with
  | nil => simp
  | cons g rest ih => simp [ih, mem_add, or_assoc]

theorem Catalog.mem_ofList {f : Finding} {l : List Finding} :
    f ∈ (ofList l).findings ↔ f ∈ l := by
  simp [ofList, mem_foldl_add]

theorem Catalog.isEmpty_ofList_iff {l : List Finding} : (ofList l).isEmpty = true ↔ l = [] := by
  simp only [isEmpty, List.isEmpty_iff, List.eq_nil_iff_forall_not_mem, mem_ofList]

theorem Catalog.findings_ofList_singleton (f : Finding) : (ofList [f]).findings = [f] := by
  simp [ofList, findings_add_of_not_mem]

namespace Comparison

open Compatibility SchemaNode

/-- The new module can stand for the old one. -/
structure Compatible (c : Comparison) : Prop where
  name : c.old.name = c.new.name
  uri : c.old.uri = c.new.uri
  revision : ∃ r, c.new.revision = some r ∧ ∀ s, c.old.revision = some s → s < r
  history : ∀ r ∈ c.old.revisions, r ∈ c.new.revisions
  identities : c.version = .rfc7950 → ∀ i ∈ c.old.identities,
    ∃ j, IsFirst (fun j => j.qname.localName = i.qname.localName) c.new.identities j ∧
      i.bases.length ≤ j.bases.length ∧ ∀ b ∈ i.bases, ∃ b' ∈ j.bases, b'.localName = b.localName
  data : ∀ top ∈ c.old.children, ∀ names n, top.Contains names n →
    ∃ n', Resolves c.new.children names n' ∧ NodeCompatible c.version n.data n'.data
  rpcs : ForestCompatible c.version c.new.rpcs c.old.rpcs
  notifications : ForestCompatible c.version c.new.notifications c.old.notifications
  augmentations : ∀ a ∈ c.old.augmentations,
    ∃ b, IsFirst (fun b => b.target = a.target) c.new.augmentations b ∧
      ForestCompatible c.version b.children a.children
  typedefs : ∀ t ∈ c.old.typedefs,
    ∀ u, IsFirst (fun u => u.qname.localName = t.qname.localName) c.new.typedefs u →
      (∃ name, t.IsRootedIn name ∧ u.IsRootedIn name) ∧ u.status ≤ t.status

variable {c : Comparison}

/-! ### The rules on modules -/

theorem headerFindings_eq_nil_iff :
    c.headerFindings = [] ↔ c.old.name = c.new.name ∧ c.old.uri = c.new.uri := by
  simp [headerFindings]

theorem revisionFindings_eq_nil_iff :
    c.revisionFindings = [] ↔
      ∃ r, c.new.revision = some r ∧ ∀ s, c.old.revision = some s → s < r := by
  cases hnew : c.new.revision with
  | none => simp [revisionFindings, hnew]
  | some r =>
      cases hold : c.old.revision with
      | none => simp [revisionFindings, hnew, hold]
      | some s => simp [revisionFindings, hnew, hold, Revision.le_def, Revision.lt_def]

theorem historyFindings_eq_nil_iff :
    c.historyFindings = [] ↔ ∀ r ∈ c.old.revisions, r ∈ c.new.revisions := by
  simp [historyFindings]

theorem identityFindings_eq_nil_iff {i : Identity} :
    c.identityFindings i = [] ↔
      ∃ j, IsFirst (fun j => j.qname.localName = i.qname.localName) c.new.identities j ∧
        i.bases.length ≤ j.bases.length ∧
        ∀ b ∈ i.bases, ∃ b' ∈ j.bases, b'.localName = b.localName := by
  simp only [← find?_key_eq_some_iff]
  change _ ↔ ∃ j, c.new.findIdentity? i.qname.localName = some j ∧ _
  cases hfind : c.new.findIdentity? i.qname.localName with
  | none => simp [identityFindings, hfind]
  | some j => simp [identityFindings, hfind]

theorem dataNodes_root_eq_nil_iff {nodes : List SchemaNode} :
    c.dataNodes .root nodes = [] ↔
      ∀ top ∈ nodes, ∀ names n, top.Contains names n →
        ∃ n', Resolves c.new.children names n' ∧ NodeCompatible c.version n.data n'.data := by
  rw [dataNodes_eq_nil_iff]
  exact forall_congr' fun top => forall_congr' fun _ => c.dataNode_eq_nil_iff .root top

/-- An operation is compared as a node among the operations of the new module. -/
theorem operationFindings_eq_nested (operations : List SchemaNode) (old : SchemaNode) :
    c.operationFindings (SchemaNode.find? operations) old = c.nested operations .root old := by
  obtain ⟨data, children⟩ := old
  rw [nested]
  rfl

theorem operationFindings_eq_nil_iff {operations nodes : List SchemaNode} :
    nodes.flatMap (c.operationFindings (SchemaNode.find? operations)) = [] ↔
      ForestCompatible c.version operations nodes := by
  simp only [List.flatMap_eq_nil_iff, operationFindings_eq_nested, nested_eq_nil_iff]
  rfl

theorem augmentationFindings_eq_nil_iff {a : Augmentation} :
    c.augmentationFindings a = [] ↔
      ∃ b, IsFirst (fun b => b.target = a.target) c.new.augmentations b ∧
        ForestCompatible c.version b.children a.children := by
  simp only [← find?_key_eq_some_iff]
  change _ ↔ ∃ b, c.new.findAugmentation? a.target = some b ∧ _
  cases hfind : c.new.findAugmentation? a.target with
  | none => simp [augmentationFindings, hfind]
  | some b => simp [augmentationFindings, hfind, forestCompatible_iff]

theorem typedefFindings_eq_nil_iff {t : TypeDef} :
    c.typedefFindings t = [] ↔
      ∀ u, IsFirst (fun u => u.qname.localName = t.qname.localName) c.new.typedefs u →
        (∃ name, t.IsRootedIn name ∧ u.IsRootedIn name) ∧ u.status ≤ t.status := by
  simp only [← find?_key_eq_some_iff]
  change _ ↔ ∀ u, c.new.findTypedef? t.qname.localName = some u → _
  cases hfind : c.new.findTypedef? t.qname.localName with
  | none => simp [typedefFindings, hfind]
  | some u =>
      simp [typedefFindings, hfind, builtinFindings_eq_nil_iff, statusFindings_eq_nil_iff]

theorem findings_eq_nil_iff : c.findings = [] ↔ c.Compatible := by
  have hrpcs : c.old.rpcs.flatMap (c.operationFindings c.new.findRpc?) = [] ↔
      ForestCompatible c.version c.new.rpcs c.old.rpcs :=
    operationFindings_eq_nil_iff
  have hnotifications :
      c.old.notifications.flatMap (c.operationFindings c.new.findNotification?) = [] ↔
        ForestCompatible c.version c.new.notifications c.old.notifications :=
    operationFindings_eq_nil_iff
  simp only [findings, List.append_eq_nil_iff, since7950_eq_nil_iff, hrpcs, hnotifications,
    headerFindings_eq_nil_iff, revisionFindings_eq_nil_iff, historyFindings_eq_nil_iff,
    dataNodes_root_eq_nil_iff, List.flatMap_eq_nil_iff, identityFindings_eq_nil_iff,
    augmentationFindings_eq_nil_iff, typedefFindings_eq_nil_iff]
  constructor
  · rintro ⟨⟨⟨⟨⟨⟨⟨⟨⟨hname, huri⟩, hrevision⟩, hhistory⟩, hidentities⟩, hdata⟩, hrpcs⟩, hnotes⟩,
      haugmentations⟩, htypedefs⟩
    exact ⟨hname, huri, hrevision, hhistory, hidentities, hdata, hrpcs, hnotes, haugmentations,
      htypedefs⟩
  · intro h
    exact ⟨⟨⟨⟨⟨⟨⟨⟨⟨h.name, h.uri⟩, h.revision⟩, h.history⟩, h.identities⟩, h.data⟩, h.rpcs⟩,
      h.notifications⟩, h.augmentations⟩, h.typedefs⟩

theorem isEmpty_catalog_iff : c.catalog.isEmpty = true ↔ c.Compatible := by
  rw [catalog, Catalog.isEmpty_ofList_iff, findings_eq_nil_iff]

end Comparison

end YangEvolution
