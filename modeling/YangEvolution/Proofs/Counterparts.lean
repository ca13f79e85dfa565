import YangEvolution.Proofs.AugmentationSplit
import YangEvolution.Proofs.MatchedPairs

/-!
What a comparison reads. Definitions agree when the rules read the same in them, whatever else they
say. The walks of the old module reach the new one by look-ups only, so that two new modules are
alike for an old one when these look-ups lead to definitions that agree. Main statement: new modules
that are alike for an old one have the same findings against it, in the same order.
-/

namespace YangEvolution

/-! ### Definitions that agree -/

/-- What tells an enum: its name and its value. -/
def EnumValue.key (e : EnumValue) : String × Int :=
  (e.name, e.value)

/-- What tells a bit: its name and its position. -/
def Bit.key (b : Bit) : String × Nat :=
  (b.name, b.position)

/-- Facets agree in all but the status, the texts and the references of enums and bits, the module
that a base identity is from, and the members of a union. -/
inductive Facets.Agrees {Member : Type} : Facets Member → Facets Member → Prop where
  | none : Agrees .none .none
  | binary (length : Option LengthRestriction) : Agrees (.binary length) (.binary length)
  | string (length : Option LengthRestriction) (patterns : List Pattern) :
      Agrees (.string length patterns) (.string length patterns)
  | numeric (range : Option RangeRestriction) : Agrees (.numeric range) (.numeric range)
  | enumeration {enums enums' : List EnumValue} :
      enums.map EnumValue.key = enums'.map EnumValue.key →
      Agrees (.enumeration enums) (.enumeration enums')
  | bits {bits bits' : List Bit} : bits.map Bit.key = bits'.map Bit.key →
      Agrees (.bits bits) (.bits bits')
  | identityref {bases bases' : List QName} :
      bases.map QName.localName = bases'.map QName.localName →
      Agrees (.identityref bases) (.identityref bases')
  | union (members members' : List Member) : Agrees (.union members) (.union members')

/-- Types of nodes agree: of their names and of the chains of their base types only the built-in
types at the end matter. -/
structure TypeDef.Agrees (t u : TypeDef) : Prop where
  builtin : t.builtinName = u.builtinName
  default : t.default = u.default
  units : t.units = u.units
  reference : t.reference = u.reference
  facets : t.facets.Agrees u.facets

/-- Type definitions agree, which are looked up by their names. -/
structure TypeDef.AgreesAsTypedef (t u : TypeDef) : Prop where
  name : t.qname.localName = u.qname.localName
  builtin : t.builtinName = u.builtinName
  status : t.status = u.status

structure Identity.Agrees (i j : Identity) : Prop where
  name : i.qname.localName = j.qname.localName
  bases : i.bases.map QName.localName = j.bases.map QName.localName

/-- Nodes agree, whatever their kinds. -/
structure NodeData.Agrees (d e : NodeData) : Prop where
  name : d.qname.localName = e.qname.localName
  status : d.status = e.status
  reference : d.reference = e.reference
  config : d.config = e.config
  mandatory : d.mandatory = e.mandatory
  count : d.count = e.count
  musts : d.musts = e.musts
  when : d.when = e.when
  type : Option.Rel TypeDef.Agrees d.type e.type

theorem Facets.Agrees.refl {Member : Type} (f : Facets Member) : f.Agrees f := by
  cases f with
  | none => exact .none
  | binary length => exact .binary length
  | string length patterns => exact .string length patterns
  | numeric range => exact .numeric range
  | enumeration enums => exact .enumeration rfl
  | bits bits => exact .bits rfl
  | identityref bases => exact .identityref rfl
  | union members => exact .union members members

theorem TypeDef.Agrees.refl (t : TypeDef) : t.Agrees t :=
  ⟨rfl, rfl, rfl, rfl, .refl _⟩

theorem NodeData.Agrees.refl (d : NodeData) : d.Agrees d where
  name := rfl
  status := rfl
  reference := rfl
  config := rfl
  mandatory := rfl
  count := rfl
  musts := rfl
  when := rfl
  type := optionRel_refl .refl d.type

theorem NodeData.Agrees.isMandatory {d e : NodeData} (h : d.Agrees e) :
    d.isMandatory = e.isMandatory := by
  rw [NodeData.isMandatory, NodeData.isMandatory, h.mandatory]

theorem TypeDef.AgreesAsTypedef.refl (t : TypeDef) : t.AgreesAsTypedef t :=
  ⟨rfl, rfl, rfl⟩

theorem Identity.Agrees.refl (i : Identity) : i.Agrees i :=
  ⟨rfl, rfl⟩

/-! ### What is read of a type -/

namespace TypeDef.Agrees

variable {t u : TypeDef}

theorem length? (h : t.Agrees u) : t.length? = u.length? := by
  have hfacets := h.facets
  simp only [TypeDef.length?]
  generalize t.facets = f, u.facets = g at hfacets
  cases hfacets <;> rfl

theorem range? (h : t.Agrees u) : t.range? = u.range? := by
  have hfacets := h.facets
  simp only [TypeDef.range?]
  generalize t.facets = f, u.facets = g at hfacets
  cases hfacets <;> rfl

theorem patterns (h : t.Agrees u) : t.patterns = u.patterns := by
  have hfacets := h.facets
  simp only [TypeDef.patterns]
  generalize t.facets = f, u.facets = g at hfacets
  cases hfacets <;> rfl

theorem enums (h : t.Agrees u) : t.enums.map EnumValue.key = u.enums.map EnumValue.key := by
  have hfacets := h.facets
  simp only [TypeDef.enums]
  generalize t.facets = f, u.facets = g at hfacets
  cases hfacets with
  | enumeration hkeys => exact hkeys
  | _ => rfl

theorem bits (h : t.Agrees u) : t.bits.map Bit.key = u.bits.map Bit.key := by
  have hfacets := h.facets
  simp only [TypeDef.bits]
  generalize t.facets = f, u.facets = g at hfacets
  cases hfacets with
  | bits hkeys => exact hkeys
  | _ => rfl

theorem identityBases? (h : t.Agrees u) :
    t.identityBases?.map (List.map QName.localName) =
      u.identityBases?.map (List.map QName.localName) := by
  have hfacets := h.facets
  simp only [TypeDef.identityBases?]
  generalize t.facets = f, u.facets = g at hfacets
  cases hfacets with
  | identityref hnames => exact congrArg some hnames
  | _ => rfl

end TypeDef.Agrees

namespace Compatibility

variable {version : LanguageVersion} {p : Position}

/-- An enum is missing or not by the keys of the two sides. -/
theorem enumFindings_eq_keys (old new : TypeDef) :
    enumFindings p old new =
      if (old.enums.map EnumValue.key).all fun k => (new.enums.map EnumValue.key).contains k then []
      else
        [p.finding .missingEnum
          (listing ((new.enums.map EnumValue.key).map fun k => k.1 ++ "=" ++ Text.intText k.2))
          (listing ((old.enums.map EnumValue.key).map fun k => k.1 ++ "=" ++ Text.intText k.2))]
    := by
  have hkeys : (old.enums.all fun e => new.enums.any fun e' => e'.same e) =
      (old.enums.map EnumValue.key).all fun k => (new.enums.map EnumValue.key).contains k := by
    rw [Bool.eq_iff_iff]
    simp [EnumValue.same, EnumValue.key]
  have htexts : ∀ t : TypeDef, t.enums.map EnumValue.text =
      (t.enums.map EnumValue.key).map fun k => k.1 ++ "=" ++ Text.intText k.2 := by
    intro t
    rw [List.map_map]
    rfl
  rw [enumFindings, hkeys, htexts old, htexts new]

theorem bitFindings_eq_keys (old new : TypeDef) :
    bitFindings p old new =
      ((old.bits.map Bit.key).filter fun k => !(new.bits.map Bit.key).contains k).map fun k =>
        p.finding .missingBit
          (listing ((new.bits.map Bit.key).map fun k => k.1 ++ "@" ++ Text.natText k.2))
          (k.1 ++ "@" ++ Text.natText k.2) := by
  have hkeys : (fun b : Bit => !new.bits.any fun b' => b'.same b) =
      (fun k => !(new.bits.map Bit.key).contains k) ∘ Bit.key := by
    funext b
    simp only [Function.comp_apply, Bool.not_inj_iff]
    rw [Bool.eq_iff_iff]
    simp [Bit.same, Bit.key]
  have htexts : new.bits.map Bit.text =
      (new.bits.map Bit.key).map fun k => k.1 ++ "@" ++ Text.natText k.2 := by
    rw [List.map_map]
    rfl
  simp only [bitFindings, hkeys, htexts, List.filter_map, List.map_map]
  rfl

/-- Base identities are compared by their local names. -/
theorem identityrefFindings_eq_names (old new : TypeDef) :
    identityrefFindings p old new =
      match old.identityBases?.map (List.map QName.localName),
        new.identityBases?.map (List.map QName.localName) with
      | some oldNames, some newNames =>
        if oldNames.isEmpty || newNames.length < oldNames.length then
          [p.finding .identityrefBase (listing newNames) (listing oldNames)]
        else []
      | _, _ => [] := by
  rw [identityrefFindings]
  cases old.identityBases? with
  | none => rfl
  | some oldBases =>
      cases new.identityBases? with
      | none => rfl
      | some newBases => simp [nameListing]

theorem typeFindings_congr {old old' new new' : TypeDef} (hold : old.Agrees old')
    (hnew : new.Agrees new') :
    typeFindings version p old new = typeFindings version p old' new' := by
  simp only [typeFindings, builtinFindings, defaultFindings, unitsFindings, lengthFindings,
    rangeFindings, patternFindings, enumFindings_eq_keys, bitFindings_eq_keys,
    identityrefFindings_eq_names, hold.identityBases?, hnew.identityBases?, hold.builtin,
    hnew.builtin, hold.default, hnew.default, hold.units, hnew.units, hold.reference,
    hnew.reference, hold.length?, hnew.length?, hold.range?, hnew.range?, hold.patterns,
    hnew.patterns, hold.enums, hnew.enums, hold.bits, hnew.bits]

theorem nodeTypeFindings_congr {old old' new new' : Option TypeDef}
    (hold : Option.Rel TypeDef.Agrees old old') (hnew : Option.Rel TypeDef.Agrees new new') :
    nodeTypeFindings version p old new = nodeTypeFindings version p old' new' := by
  cases hold with
  | none => rfl
  | some hold =>
      cases hnew with
      | none => rfl
      | some hnew => exact typeFindings_congr hold hnew

theorem nodeFindings_congr {old old' new new' : NodeData} (hold : old.Agrees old')
    (hnew : new.Agrees new') :
    nodeFindings version p old new = nodeFindings version p old' new' := by
  have hmandatory : mandatoryFindings p old new = mandatoryFindings p old' new' := by
    simp only [mandatoryFindings, hold.isMandatory, hnew.isMandatory]
  have hconfig : configFindings p old new = configFindings p old' new' := by
    simp only [configFindings, hold.config, hnew.config, hnew.isMandatory]
  simp only [nodeFindings, hmandatory, hconfig, nodeTypeFindings_congr hold.type hnew.type,
    hold.reference, hnew.reference, hold.musts, hnew.musts, hold.when, hnew.when, hold.status,
    hnew.status, hold.count, hnew.count]

end Compatibility

/-! ### Counterparts that are alike -/

open SchemaNode

/-- As counterparts of an old node, two nodes are alike: they agree, and for each child of the old
node they have both a counterpart or both none, and what they have is alike. -/
inductive SchemaNode.AlikeFor : SchemaNode → SchemaNode → SchemaNode → Prop where
  | node {old new new' : SchemaNode} : new.data.Agrees new'.data →
      (∀ n ∈ old.children, (find? new.children n.localName).isSome =
        (find? new'.children n.localName).isSome) →
      (∀ n ∈ old.children, ∀ m m', find? new.children n.localName = some m →
        find? new'.children n.localName = some m' → AlikeFor n m m') →
      AlikeFor old new new'

/-- Among two lists of siblings, the counterparts of each of the old nodes are alike. -/
def SchemaNode.AlikeForAll (nodes siblings siblings' : List SchemaNode) : Prop :=
  ∀ n ∈ nodes, Option.Rel n.AlikeFor (find? siblings n.localName) (find? siblings' n.localName)

theorem SchemaNode.alikeFor_iff {old new new' : SchemaNode} :
    old.AlikeFor new new' ↔
      new.data.Agrees new'.data ∧ AlikeForAll old.children new.children new'.children := by
  constructor
  · rintro ⟨hdata, hsome, hchildren⟩
    refine ⟨hdata, fun n hn => ?_⟩
    have hsome := hsome n hn
    have hchildren := hchildren n hn
    generalize find? new.children n.localName = found,
      find? new'.children n.localName = found' at hsome hchildren ⊢
    cases found with
    | none =>
        cases found' with
        | none => exact .none
        | some m' => cases hsome
    | some m =>
        cases found' with
        | none => cases hsome
        | some m' => exact .some (hchildren m m' rfl rfl)
  · rintro ⟨hdata, hchildren⟩
    refine .node hdata (fun n hn => ?_) (fun n hn m m' hm hm' => ?_)
    · have h := hchildren n hn
      generalize find? new.children n.localName = found,
        find? new'.children n.localName = found' at h ⊢
      cases h <;> rfl
    · have h := hchildren n hn
      rw [hm, hm'] at h
      cases h with
      | some h => exact h

theorem SchemaNode.AlikeFor.refl (n m : SchemaNode) : n.AlikeFor m m := by
  induction n using treeInduction generalizing m with
  | node data children ih =>
      refine alikeFor_iff.mpr ⟨.refl _, fun c hc => ?_⟩
      exact optionRel_refl (ih c hc) _

theorem SchemaNode.AlikeForAll.refl (nodes siblings : List SchemaNode) :
    AlikeForAll nodes siblings siblings :=
  fun n _ => optionRel_refl (.refl n) _

/-- For an old module, two new ones are alike: their headers are the same, and each look-up that
starts from a definition of the old module leads to definitions that are alike. -/
structure Module.AlikeFor (old new new' : Module) : Prop where
  name : new.name = new'.name
  uri : new.uri = new'.uri
  revision : new.revision = new'.revision
  revisions : new.revisions = new'.revisions
  children : AlikeForAll old.children new.children new'.children
  rpcs : AlikeForAll old.rpcs new.rpcs new'.rpcs
  notifications : AlikeForAll old.notifications new.notifications new'.notifications
  augmentations : ∀ a ∈ old.augmentations,
    Option.Rel (fun b b' => AlikeForAll a.children b.children b'.children)
      (new.findAugmentation? a.target) (new'.findAugmentation? a.target)
  typedefs : ∀ t ∈ old.typedefs, Option.Rel TypeDef.AgreesAsTypedef
    (new.findTypedef? t.qname.localName) (new'.findTypedef? t.qname.localName)
  identities : ∀ i ∈ old.identities, Option.Rel Identity.Agrees
    (new.findIdentity? i.qname.localName) (new'.findIdentity? i.qname.localName)

theorem Module.AlikeFor.refl (old new : Module) : old.AlikeFor new new where
  name := rfl
  uri := rfl
  revision := rfl
  revisions := rfl
  children := .refl _ _
  rpcs := .refl _ _
  notifications := .refl _ _
  augmentations a _ := optionRel_refl (fun b => .refl a.children b.children) _
  typedefs _ _ := optionRel_refl .refl _
  identities _ _ := optionRel_refl .refl _

namespace Comparison

open Compatibility

/-- The report with all its walks made from the siblings in the new module. -/
theorem findings_eq_walks (c : Comparison) :
    c.findings = c.headerFindings ++ c.revisionFindings ++ c.historyFindings ++
      (if c.version.is7950 then c.old.identities.flatMap c.identityFindings else []) ++
      c.nestedAll c.new.children .root c.old.children ++
      c.nestedAll c.new.rpcs .root c.old.rpcs ++
      c.nestedAll c.new.notifications .root c.old.notifications ++
      c.old.augmentations.flatMap c.augmentationFindings ++
      c.old.typedefs.flatMap c.typedefFindings := by
  have hrpcs : c.old.rpcs.flatMap (c.operationFindings c.new.findRpc?) = _ :=
    flatMap_operationFindings c.new.rpcs c.old.rpcs
  have hnotifications : c.old.notifications.flatMap
      (c.operationFindings c.new.findNotification?) = _ :=
    flatMap_operationFindings c.new.notifications c.old.notifications
  rw [findings, dataNodes_eq_nestedAll, hrpcs, hnotifications]

variable {old new new' : Module} {version : LanguageVersion}

/-- The walk asks for the children of the old node only, so that it finds what is alike for it. -/
theorem nested_of_alikeFor (hname : new.name = new'.name) {siblings siblings' : List SchemaNode}
    {n : SchemaNode}
    (h : Option.Rel n.AlikeFor (find? siblings n.localName) (find? siblings' n.localName))
    (parent : Position) :
    nested ⟨old, new, version⟩ siblings parent n =
      nested ⟨old, new', version⟩ siblings' parent n := by
  induction n using treeInduction generalizing siblings siblings' parent with
  | node data children ih =>
      have hlocal : (SchemaNode.mk data children).localName = data.qname.localName := rfl
      have henter : enter ⟨old, new, version⟩ parent data.qname.localName =
          enter ⟨old, new', version⟩ parent data.qname.localName := by
        simp only [enter, hname]
      rw [hlocal] at h
      rw [nested, nested, henter]
      generalize find? siblings data.qname.localName = found,
        find? siblings' data.qname.localName = found' at h ⊢
      cases h with
      | none => rfl
      | some h =>
          obtain ⟨hdata, hchildren⟩ := alikeFor_iff.mp h
          simp only [nestedAll_eq_flatMap, nodeFindings_congr (.refl data) hdata]
          rw [List.flatMap_congr fun c hc => ih c hc (hchildren c hc) _]

theorem nestedAll_of_alikeFor (hname : new.name = new'.name)
    {nodes siblings siblings' : List SchemaNode} (h : AlikeForAll nodes siblings siblings')
    (parent : Position) :
    nestedAll ⟨old, new, version⟩ siblings parent nodes =
      nestedAll ⟨old, new', version⟩ siblings' parent nodes := by
  rw [nestedAll_eq_flatMap, nestedAll_eq_flatMap]
  exact List.flatMap_congr fun n hn => nested_of_alikeFor hname (h n hn) parent

theorem augmentationFindings_of_alikeFor (hname : new.name = new'.name) {a : Augmentation}
    (h : Option.Rel (fun b b' => AlikeForAll a.children b.children b'.children)
      (new.findAugmentation? a.target) (new'.findAugmentation? a.target)) :
    augmentationFindings ⟨old, new, version⟩ a = augmentationFindings ⟨old, new', version⟩ a := by
  simp only [augmentationFindings]
  have htarget : ∀ b b', new.findAugmentation? a.target = some b →
      new'.findAugmentation? a.target = some b' → b.target = b'.target := by
    intro b b' hb hb'
    rw [Module.target_of_findAugmentation? hb, Module.target_of_findAugmentation? hb']
  generalize new.findAugmentation? a.target = found,
    new'.findAugmentation? a.target = found' at h htarget ⊢
  cases h with
  | none => rfl
  | some h =>
      simp only [htarget _ _ rfl rfl]
      exact nestedAll_of_alikeFor hname h _

theorem typedefFindings_of_agrees (hname : new.name = new'.name) {t : TypeDef}
    (h : Option.Rel TypeDef.AgreesAsTypedef (new.findTypedef? t.qname.localName)
      (new'.findTypedef? t.qname.localName)) :
    typedefFindings ⟨old, new, version⟩ t = typedefFindings ⟨old, new', version⟩ t := by
  simp only [typedefFindings, enter, hname]
  generalize new.findTypedef? t.qname.localName = found,
    new'.findTypedef? t.qname.localName = found' at h ⊢
  cases h with
  | none => rfl
  | some h => simp only [builtinFindings, h.builtin, h.status]

/-- The findings on an identity, by the local names of its bases. -/
def baseFindings (name : String) (old new : List String) : List Finding :=
  (if new.length < old.length then
    [⟨.baseIdentity, name ++ " " ++ listing new, name ++ " " ++ listing old⟩]
  else []) ++
    (old.filter fun b => !new.contains b).map fun b =>
      ⟨.missingBaseIdentity, name ++ " " ++ listing new, name ++ " " ++ b⟩

theorem identityFindings_eq_names (c : Comparison) (i : Identity) :
    c.identityFindings i =
      match (c.new.findIdentity? i.qname.localName).map fun j =>
        j.bases.map QName.localName with
      | none => [⟨.missingIdentity, "missing", i.qname.localName⟩]
      | some names => baseFindings i.qname.localName (i.bases.map QName.localName) names := by
  rw [identityFindings]
  cases c.new.findIdentity? i.qname.localName with
  | none => rfl
  | some j =>
      have hkept : (fun b : QName => !j.bases.any fun b' => b'.localName == b.localName) =
          (fun b => !(j.bases.map QName.localName).contains b) ∘ QName.localName := by
        funext b
        simp only [Function.comp_apply, Bool.not_inj_iff]
        rw [Bool.eq_iff_iff]
        simp
      simp only [Option.map_some, baseFindings, List.length_map, nameListing, hkept,
        List.filter_map, List.map_map]
      rfl

theorem identityFindings_of_agrees {i : Identity}
    (h : Option.Rel Identity.Agrees (new.findIdentity? i.qname.localName)
      (new'.findIdentity? i.qname.localName)) :
    identityFindings ⟨old, new, version⟩ i = identityFindings ⟨old, new', version⟩ i := by
  simp only [identityFindings_eq_names]
  generalize new.findIdentity? i.qname.localName = found,
    new'.findIdentity? i.qname.localName = found' at h ⊢
  cases h with
  | none => rfl
  | some h => simp only [Option.map_some, h.bases]

/-- New modules that are alike for an old one have the same findings against it. -/
theorem findings_of_alikeFor (h : old.AlikeFor new new') :
    findings ⟨old, new, version⟩ = findings ⟨old, new', version⟩ := by
  have hidentities : old.identities.flatMap (identityFindings ⟨old, new, version⟩) =
      old.identities.flatMap (identityFindings ⟨old, new', version⟩) :=
    List.flatMap_congr fun i hi => identityFindings_of_agrees (h.identities i hi)
  have haugmentations : old.augmentations.flatMap (augmentationFindings ⟨old, new, version⟩) =
      old.augmentations.flatMap (augmentationFindings ⟨old, new', version⟩) :=
    List.flatMap_congr fun a ha => augmentationFindings_of_alikeFor h.name (h.augmentations a ha)
  have htypedefs : old.typedefs.flatMap (typedefFindings ⟨old, new, version⟩) =
      old.typedefs.flatMap (typedefFindings ⟨old, new', version⟩) :=
    List.flatMap_congr fun t ht => typedefFindings_of_agrees h.name (h.typedefs t ht)
  simp only [findings_eq_walks, headerFindings, revisionFindings, historyFindings, hidentities,
    haugmentations, htypedefs, nestedAll_of_alikeFor h.name h.children,
    nestedAll_of_alikeFor h.name h.rpcs, nestedAll_of_alikeFor h.name h.notifications, h.name,
    h.uri, h.revision, h.revisions]

end Comparison

end YangEvolution
