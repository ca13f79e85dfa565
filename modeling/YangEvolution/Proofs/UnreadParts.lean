import YangEvolution.Proofs.Counterparts

/-!
What a comparison does not read. Two modules agree when their trees have the same shape, with nodes
that agree at the same places, and their other definitions agree one by one. This leaves open the
prefix of a module, all descriptions, the namespaces and revisions in qualified names, the names of
types and the chains of their base types up to the built-in type at the end, the status of the type
of a node, the members of unions, the status and references of enums, bits and identities, and the
condition and status of augmentations. Main statement: modules that agree have the same findings, in
the same order, and the kinds of nodes matter on the old side only.
-/

namespace YangEvolution

/-- Old nodes agree in their kinds too, which show where a node is missing. -/
structure NodeData.AgreesAsOld (d e : NodeData) : Prop extends d.Agrees e where
  kind : d.kind = e.kind

/-- Trees of one shape, with related nodes at the same places. -/
inductive SchemaNode.AgreesBy (R : NodeData → NodeData → Prop) :
    SchemaNode → SchemaNode → Prop where
  | node {data data' : NodeData} {children children' : List SchemaNode} : R data data' →
      List.Forall₂ (AgreesBy R) children children' →
      AgreesBy R ⟨data, children⟩ ⟨data', children'⟩

/-- Augmentations of one target agree by their trees. -/
structure Augmentation.AgreesBy (R : NodeData → NodeData → Prop) (a b : Augmentation) : Prop where
  target : a.target = b.target
  children : List.Forall₂ (SchemaNode.AgreesBy R) a.children b.children

/-- Modules agree, with a relation between the nodes at the same places. -/
structure Module.AgreesBy (R : NodeData → NodeData → Prop) (m m' : Module) : Prop where
  name : m.name = m'.name
  uri : m.uri = m'.uri
  revision : m.revision = m'.revision
  revisions : m.revisions = m'.revisions
  children : List.Forall₂ (SchemaNode.AgreesBy R) m.children m'.children
  rpcs : List.Forall₂ (SchemaNode.AgreesBy R) m.rpcs m'.rpcs
  notifications : List.Forall₂ (SchemaNode.AgreesBy R) m.notifications m'.notifications
  augmentations : List.Forall₂ (Augmentation.AgreesBy R) m.augmentations m'.augmentations
  typedefs : List.Forall₂ TypeDef.AgreesAsTypedef m.typedefs m'.typedefs
  identities : List.Forall₂ Identity.Agrees m.identities m'.identities

open SchemaNode

/-! ### New modules that agree -/

namespace SchemaNode

theorem find?_of_agrees {siblings siblings' : List SchemaNode}
    (h : List.Forall₂ (AgreesBy NodeData.Agrees) siblings siblings') (name : String) :
    Option.Rel (AgreesBy NodeData.Agrees) (find? siblings name) (find? siblings' name) := by
  refine find?_of_forall₂ h ?_
  rintro _ _ ⟨hdata, -⟩
  simp only [localName, hdata.name]

theorem alikeFor_of_agrees (n : SchemaNode) {m m' : SchemaNode}
    (h : AgreesBy NodeData.Agrees m m') : n.AlikeFor m m' := by
  induction n using treeInduction generalizing m m' with
  | node data children ih =>
      obtain ⟨hdata, hchildren⟩ := h
      refine alikeFor_iff.mpr ⟨hdata, fun c hc => ?_⟩
      exact optionRel_imp (find?_of_agrees hchildren c.localName) fun _ _ hm => ih c hc hm

theorem alikeForAll_of_agrees (nodes : List SchemaNode) {siblings siblings' : List SchemaNode}
    (h : List.Forall₂ (AgreesBy NodeData.Agrees) siblings siblings') :
    AlikeForAll nodes siblings siblings' :=
  fun n _ => optionRel_imp (find?_of_agrees h n.localName) fun _ _ hm => alikeFor_of_agrees n hm

end SchemaNode

/-- For any old module, modules that agree are alike. -/
theorem Module.AlikeFor.of_agrees (old : Module) {m m' : Module}
    (h : m.AgreesBy NodeData.Agrees m') : old.AlikeFor m m' where
  name := h.name
  uri := h.uri
  revision := h.revision
  revisions := h.revisions
  children := alikeForAll_of_agrees _ h.children
  rpcs := alikeForAll_of_agrees _ h.rpcs
  notifications := alikeForAll_of_agrees _ h.notifications
  augmentations a _ := by
    have hfind := find?_of_forall₂ (p := fun b : Augmentation => b.target == a.target)
      h.augmentations fun b b' hb => by rw [hb.target]
    exact optionRel_imp hfind fun b b' hb => alikeForAll_of_agrees _ hb.children
  typedefs t _ := find?_of_forall₂ h.typedefs fun u u' hu => by rw [hu.name]
  identities i _ := find?_of_forall₂ h.identities fun j j' hj => by rw [hj.name]

/-! ### Old modules that agree -/

theorem flatMap_of_forall₂ {α β : Type} {R : α → α → Prop} {l l' : List α} {f g : α → List β}
    (h : List.Forall₂ R l l') (hfg : ∀ x ∈ l, ∀ y, R x y → f x = g y) :
    l.flatMap f = l'.flatMap g := by
  induction h with
  | nil => rfl
  | cons hxy _ ih =>
      rw [List.flatMap_cons, List.flatMap_cons, hfg _ List.mem_cons_self _ hxy,
        ih fun x hx => hfg x (List.mem_cons_of_mem _ hx)]

namespace Comparison

open Compatibility

variable {old old' new : Module} {version : LanguageVersion}

theorem nested_of_agrees (hname : old.name = old'.name) {n n' : SchemaNode}
    (h : AgreesBy NodeData.AgreesAsOld n n') (siblings : List SchemaNode) (parent : Position) :
    nested ⟨old, new, version⟩ siblings parent n =
      nested ⟨old', new, version⟩ siblings parent n' := by
  induction n using treeInduction generalizing n' siblings parent with
  | node data children ih =>
      obtain ⟨hdata, hchildren⟩ := h
      rename_i data' children'
      have henter : enter ⟨old, new, version⟩ parent data.qname.localName =
          enter ⟨old', new, version⟩ parent data'.qname.localName := by
        simp only [enter, hname, hdata.name]
      rw [nested, nested, henter, hdata.name]
      cases find? siblings data'.qname.localName with
      | none => simp only [missing, hdata.kind]
      | some counterpart =>
          simp only [nestedAll_eq_flatMap, nodeFindings_congr hdata.toAgrees (.refl _)]
          rw [flatMap_of_forall₂ hchildren fun c hc c' hcc' => ih c hc hcc' _ _]

theorem nestedAll_of_agrees (hname : old.name = old'.name) {nodes nodes' : List SchemaNode}
    (h : List.Forall₂ (AgreesBy NodeData.AgreesAsOld) nodes nodes') (siblings : List SchemaNode)
    (parent : Position) :
    nestedAll ⟨old, new, version⟩ siblings parent nodes =
      nestedAll ⟨old', new, version⟩ siblings parent nodes' := by
  rw [nestedAll_eq_flatMap, nestedAll_eq_flatMap]
  exact flatMap_of_forall₂ h fun n _ n' hn => nested_of_agrees hname hn siblings parent

theorem augmentationFindings_of_agrees (hname : old.name = old'.name) {a a' : Augmentation}
    (h : a.AgreesBy NodeData.AgreesAsOld a') :
    augmentationFindings ⟨old, new, version⟩ a = augmentationFindings ⟨old', new, version⟩ a' := by
  simp only [augmentationFindings, h.target]
  cases new.findAugmentation? a'.target with
  | none => rfl
  | some b => exact nestedAll_of_agrees hname h.children _ _

theorem findings_of_agrees (h : old.AgreesBy NodeData.AgreesAsOld old') :
    findings ⟨old, new, version⟩ = findings ⟨old', new, version⟩ := by
  have hidentities : old.identities.flatMap (identityFindings ⟨old, new, version⟩) =
      old'.identities.flatMap (identityFindings ⟨old', new, version⟩) := by
    refine flatMap_of_forall₂ h.identities fun i _ j hij => ?_
    simp only [identityFindings_eq_names, hij.name, hij.bases]
  have haugmentations : old.augmentations.flatMap (augmentationFindings ⟨old, new, version⟩) =
      old'.augmentations.flatMap (augmentationFindings ⟨old', new, version⟩) :=
    flatMap_of_forall₂ h.augmentations fun a _ a' ha => augmentationFindings_of_agrees h.name ha
  have htypedefs : old.typedefs.flatMap (typedefFindings ⟨old, new, version⟩) =
      old'.typedefs.flatMap (typedefFindings ⟨old', new, version⟩) := by
    refine flatMap_of_forall₂ h.typedefs fun t _ u htu => ?_
    simp only [typedefFindings, builtinFindings, enter, h.name, htu.name, htu.builtin, htu.status]
  simp only [findings_eq_walks, headerFindings, revisionFindings, historyFindings, hidentities,
    haugmentations, htypedefs, nestedAll_of_agrees h.name h.children,
    nestedAll_of_agrees h.name h.rpcs, nestedAll_of_agrees h.name h.notifications, h.name, h.uri,
    h.revision, h.revisions]

/-- Two pairs of modules that agree, the old ones in the kinds of their nodes too, have the same
findings in the same order. -/
theorem unread_parts_immaterial (version : LanguageVersion) (old old' new new' : Module)
    (hold : old.AgreesBy NodeData.AgreesAsOld old') (hnew : new.AgreesBy NodeData.Agrees new') :
    (catalog ⟨old', new', version⟩).findings = (catalog ⟨old, new, version⟩).findings := by
  have hfindings : findings ⟨old, new, version⟩ = findings ⟨old', new', version⟩ := calc
    findings ⟨old, new, version⟩ = findings ⟨old, new', version⟩ :=
      findings_of_alikeFor (.of_agrees old hnew)
    _ = findings ⟨old', new', version⟩ := findings_of_agrees hold
  rw [catalog, catalog, hfindings]

/-- A module with fares. Nothing reads `text`, `mark` and `members` where they stand, nor `kind` on
the new side. -/
def fares (status : Status) (kind : NodeKind) (text : String) (mark : Status)
    (members : List TypeDef) : Module where
  name := "fares"
  uri := "urn:fares"
  nsPrefix := text
  children := [
    ⟨{ kind, qname := ⟨text, none, "fare"⟩, status, description := some text, config := some true,
       type := some (typed text mark (.ofBuiltin .enumeration) (.enumeration [
         { name := "single", value := 0, status := mark, description := some text,
           reference := some text }])) }, []⟩,
    ⟨{ kind, qname := ⟨text, none, "zone"⟩, config := some true,
       type := some (typed text mark (.derived ⟨text, none, text⟩ (.ofBuiltin .union))
         (.union members)) }, []⟩]
  augmentations := [
    { target := ⟨[⟨"network", "stop"⟩]⟩, when := some text, status := mark, children := [] }]
  identities := [
    { qname := ⟨text, none, "card"⟩, bases := [⟨text, none, "medium"⟩], status := mark,
      description := some text, reference := some text }]
where
  typed (text : String) (mark : Status) (base : TypeDef) (facets : Facets TypeDef) : TypeDef :=
    { TypeDef.derived ⟨text, none, text⟩ base with
      status := mark, description := some text, facets := facets }

theorem fares_agree {R : NodeData → NodeData → Prop} (status : Status) {kind kind' : NodeKind}
    (hR : ∀ d e, d.Agrees e → d.kind = kind → e.kind = kind' → R d e) (text text' : String)
    (mark mark' : Status) (members members' : List TypeDef) :
    (fares status kind text mark members).AgreesBy R (fares status kind' text' mark' members') where
  name := rfl
  uri := rfl
  revision := rfl
  revisions := rfl
  children := by
    refine .cons (.node (hR _ _ ?_ rfl rfl) .nil) (.cons (.node (hR _ _ ?_ rfl rfl) .nil) .nil)
    · exact ⟨rfl, rfl, rfl, rfl, rfl, rfl, rfl, rfl,
        .some ⟨rfl, rfl, rfl, rfl, .enumeration rfl⟩⟩
    · exact ⟨rfl, rfl, rfl, rfl, rfl, rfl, rfl, rfl, .some ⟨rfl, rfl, rfl, rfl, .union _ _⟩⟩
  rpcs := .nil
  notifications := .nil
  augmentations := .cons ⟨rfl, .nil⟩ .nil
  typedefs := .nil
  identities := .cons ⟨rfl, rfl⟩ .nil

/-- A leaf that becomes an obsolete container has the finding of one that becomes obsolete. -/
theorem unread_parts_immaterial_fares :
    let old := fares .current .leaf "a" .current []
    let old' := fares .current .leaf "b" .obsolete [.ofBuiltin .string]
    let new := fares .obsolete .leaf "a" .current []
    let new' := fares .obsolete .container "b" .deprecated [.ofBuiltin .int8]
    old.AgreesBy NodeData.AgreesAsOld old' ∧ new.AgreesBy NodeData.Agrees new' ∧
      (catalog ⟨old', new', .rfc7950⟩).findings = (catalog ⟨old, new, .rfc7950⟩).findings ∧
      (catalog ⟨old', new', .rfc7950⟩).countOf .status = 1 := by
  intro old old' new new'
  have hold : old.AgreesBy NodeData.AgreesAsOld old' :=
    fares_agree _ (fun _ _ h hkind hkind' => ⟨h, hkind.trans hkind'.symm⟩) _ _ _ _ _ _
  have hnew : new.AgreesBy NodeData.Agrees new' :=
    fares_agree _ (fun _ _ h _ _ => h) _ _ _ _ _ _
  have hsame := unread_parts_immaterial .rfc7950 old old' new new' hold hnew
  refine ⟨hold, hnew, hsame, ?_⟩
  rw [Catalog.countOf, hsame]
  decide

end Comparison

end YangEvolution
