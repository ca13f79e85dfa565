import Mathlib.Data.List.Forall2
import YangEvolution.Proofs.FirstMatch
import YangEvolution.Yin.NodeStatement

/-!
Statements that read the same. A reading relates statements by what is read off them: their texts,
their attributes other than those that hold prefixes, and for each tag that is read the
substatements of that tag, one by one. Main statement: every reader of a statement gives the same
for statements that are related by a reading.
-/

namespace YangEvolution.Yin

open Text Markup

/-- The tags of the substatements that are read off a statement itself, and not as statements of
nodes or as definitions. -/
def readTags : List String :=
  ["namespace", "prefix", "revision", "import", "revision-date", "status", "description", "text",
    "reference", "when", "error-message", "value", "error-app-tag", "default", "must",
    "min-elements", "max-elements", "config", "mandatory", "units", "type", "length", "pattern",
    "modifier", "range", "fraction-digits", "enum", "bit", "base", "position", "refine", "input",
    "output"]

/-- Whether an attribute of a statement is a prefix or a reference, which may begin with one. -/
def holdsPrefix (tag key : String) : Bool :=
  key == "name" && ["type", "uses", "base"].contains tag ||
    key == "target-node" && ["augment", "refine"].contains tag || key == "value" && tag == "prefix"

theorem child?_eq_head? (e : Element) (tag : String) : e.child? tag = (e.childrenOf tag).head? :=
  List.head?_filter.symm

/-- What statements that read the same have in common. -/
structure SameReading (R : Element → Element → Prop) : Prop where
  tag : ∀ {e e'}, R e e' → e'.tag = e.tag
  text : ∀ {e e'}, R e e' → e'.text = e.text
  attribute? : ∀ {e e' key}, R e e' → holdsPrefix e.tag key = false →
    e'.attribute? key = e.attribute? key
  childrenOf : ∀ {e e' tag}, R e e' → tag ∈ readTags →
    List.Forall₂ R (e.childrenOf tag) (e'.childrenOf tag)

namespace SameReading

variable {R : Element → Element → Prop} (hR : SameReading R) {e e' : Element}

include hR

/-! ### Substatements -/

/-- The substatements of a tag, with their tag. -/
theorem tagged {tag : String} (h : R e e') (htag : tag ∈ readTags) :
    List.Forall₂ (fun c c' => c.tag = tag ∧ R c c') (e.childrenOf tag) (e'.childrenOf tag) := by
  refine (List.forall₂_and_left _ _).mpr ⟨fun c hc => ?_, hR.childrenOf h htag⟩
  simpa using (List.mem_filter.mp hc).2

theorem child? (h : R e e') (tag : String) (htag : tag ∈ readTags) :
    Option.Rel (fun c c' => c.tag = tag ∧ R c c') (e.child? tag) (e'.child? tag) := by
  rw [child?_eq_head?, child?_eq_head?]
  have hall := hR.tagged h htag
  generalize e.childrenOf tag = stmts at hall ⊢
  generalize e'.childrenOf tag = stmts' at hall ⊢
  cases hall with
  | nil => exact .none
  | cons hc _ => exact .some hc

theorem childAttribute? (h : R e e') (tag key : String) (htag : tag ∈ readTags)
    (hkey : holdsPrefix tag key = false) :
    e'.childAttribute? tag key = e.childAttribute? tag key := by
  refine bind_eq_of_optionRel ?_ (hR.child? h tag htag)
  rintro c c' ⟨rfl, hc⟩
  exact hR.attribute? hc hkey

theorem childText? (h : R e e') (tag inner : String) (htag : tag ∈ readTags)
    (hinner : inner ∈ readTags) : e'.childText? tag inner = e.childText? tag inner := by
  have hbelow : ∀ c c', R c c' → c'.textAt? [inner] = c.textAt? [inner] := fun c c' hc => by
    simp only [Element.textAt?, Element.descend?, Option.bind_assoc, Option.bind_some]
    exact bind_eq_of_optionRel (fun _ _ hd => hR.text hd.2) (hR.child? hc inner hinner)
  have hsplit : ∀ e : Element, e.textAt? [tag, inner] =
      (e.child? tag).bind fun c => c.textAt? [inner] := fun e => by
    simp only [Element.textAt?, Element.descend?, Option.bind_assoc]
  rw [Element.childText?, Element.childText?, hsplit, hsplit]
  exact congrArg _ (bind_eq_of_optionRel (fun c c' hc => hbelow c c' hc.2) (hR.child? h tag htag))

theorem childrenOf_map {β : Type} {f : Element → β} {tag : String} (h : R e e')
    (htag : tag ∈ readTags) (hf : ∀ c c', c.tag = tag → R c c' → f c' = f c) :
    (e'.childrenOf tag).map f = (e.childrenOf tag).map f :=
  map_eq_of_forall₂ ((hR.tagged h htag).imp fun _ _ hc => hf _ _ hc.1 hc.2)

theorem childrenOf_mapM {β : Type} {f : Element → Except LoadFault β} {tag : String} (h : R e e')
    (htag : tag ∈ readTags) (hf : ∀ c c', c.tag = tag → R c c' → f c' = f c) :
    (e'.childrenOf tag).mapM f = (e.childrenOf tag).mapM f := by
  have hid : ∀ l : List Element, l.mapM f = (l.map f).mapM id := fun l => by
    rw [List.mapM_map]
    rfl
  rw [hid, hid, hR.childrenOf_map h htag hf]

/-! ### Statements in general -/

theorem argument (h : R e e') (owner key : String)
    (hkey : holdsPrefix e.tag key = false) :
    Yin.argument owner e' key = Yin.argument owner e key := by
  rw [Yin.argument, Yin.argument, hR.attribute? h hkey, hR.tag h]

theorem statusOf (h : R e e') (owner : String) : Yin.statusOf owner e' = Yin.statusOf owner e := by
  rw [Yin.statusOf, Yin.statusOf, hR.childAttribute? h "status" "value" (by decide) (by decide)]

theorem descriptionOf (h : R e e') : Yin.descriptionOf e' = Yin.descriptionOf e :=
  hR.childText? h "description" "text" (by decide) (by decide)

theorem referenceOf (h : R e e') : Yin.referenceOf e' = Yin.referenceOf e :=
  hR.childText? h "reference" "text" (by decide) (by decide)

theorem whenOf (h : R e e') : Yin.whenOf e' = Yin.whenOf e :=
  hR.childAttribute? h "when" "condition" (by decide) (by decide)

theorem errorMessageOf (h : R e e') : Yin.errorMessageOf e' = Yin.errorMessageOf e :=
  hR.childText? h "error-message" "value" (by decide) (by decide)

theorem errorAppTagOf (h : R e e') : Yin.errorAppTagOf e' = Yin.errorAppTagOf e :=
  hR.childAttribute? h "error-app-tag" "value" (by decide) (by decide)

theorem defaultOf (h : R e e') : Yin.defaultOf e' = Yin.defaultOf e := by
  have hvalues : (e'.childrenOf "default").filterMap (fun d => d.attribute? "value") =
      (e.childrenOf "default").filterMap fun d => d.attribute? "value" := by
    have hid : ∀ l : List Element, l.filterMap (fun d => d.attribute? "value") =
        (l.map fun d => d.attribute? "value").filterMap id := fun l => by
      rw [List.filterMap_map]
      rfl
    rw [hid, hid, hR.childrenOf_map h (by decide)]
    intro c c' htag hc
    exact hR.attribute? hc (by rw [htag]; decide)
  rw [Yin.defaultOf, Yin.defaultOf, hvalues]

theorem mustOf (h : R e e') (owner : String) : Yin.mustOf owner e' = Yin.mustOf owner e := by
  rw [Yin.mustOf, Yin.mustOf, hR.argument h owner "condition" (by simp [holdsPrefix]),
    hR.errorMessageOf h, hR.errorAppTagOf h, hR.descriptionOf h, hR.referenceOf h]

theorem mustsOf (h : R e e') (owner : String) : Yin.mustsOf owner e' = Yin.mustsOf owner e :=
  hR.childrenOf_mapM h (by decide) fun _ _ _ hc => hR.mustOf hc owner

theorem elementCountOf (h : R e e') (owner : String) :
    Yin.elementCountOf owner e' = Yin.elementCountOf owner e := by
  simp only [Yin.elementCountOf, minElementsOf, maxElementsOf,
    hR.childAttribute? h "min-elements" "value" (by decide) (by decide),
    hR.childAttribute? h "max-elements" "value" (by decide) (by decide)]

/-! ### Types -/

theorem isRestricted (h : R e e') : Yin.isRestricted e' = Yin.isRestricted e := by
  have hany : ∀ e : Element,
      Yin.isRestricted e = true ↔ ∃ tag ∈ restrictionTags, (e.childrenOf tag).length ≠ 0 := by
    intro e
    simp only [Yin.isRestricted, Element.childrenOf, List.any_eq_true, List.contains_iff_mem, ne_eq,
      List.length_eq_zero_iff, List.filter_eq_nil_iff, beq_iff_eq, not_forall, not_not]
    constructor
    · rintro ⟨c, hc, htag⟩
      exact ⟨c.tag, htag, c, hc, rfl⟩
    · rintro ⟨_, htag, c, hc, rfl⟩
      exact ⟨c, hc, htag⟩
  -- restrictions of different tags may stand in another order, but each tag has as many
  have hread : ∀ tag ∈ restrictionTags, tag ∈ readTags := by decide
  rw [Bool.eq_iff_iff, hany, hany]
  refine exists_congr fun tag => and_congr_right fun htag => ?_
  rw [(hR.childrenOf h (hread tag htag)).length_eq]

theorem patternOf (h : R e e') (owner : String) (htag : e.tag = "pattern") :
    Yin.patternOf owner e' = Yin.patternOf owner e := by
  rw [Yin.patternOf, Yin.patternOf, hR.argument h owner "value" (by rw [htag]; decide),
    hR.childAttribute? h "modifier" "value" (by decide) (by decide), hR.errorMessageOf h,
    hR.errorAppTagOf h, hR.descriptionOf h, hR.referenceOf h]

theorem enumValue (h : R e e') (owner : String) (inherited : List EnumValue) (next : Int)
    (name : String) :
    Yin.enumValue owner inherited next name e' = Yin.enumValue owner inherited next name e := by
  rw [Yin.enumValue, Yin.enumValue, hR.childAttribute? h "value" "value" (by decide) (by decide)]

theorem enumsFrom {stmts stmts' : List Element}
    (h : List.Forall₂ (fun c c' => c.tag = "enum" ∧ R c c') stmts stmts') (owner : String)
    (inherited : List EnumValue) (next : Int) :
    Yin.enumsFrom owner inherited next stmts' = Yin.enumsFrom owner inherited next stmts := by
  induction h generalizing next with
  | nil => rfl
  | cons hc _ ih =>
      obtain ⟨htag, hc⟩ := hc
      simp only [Yin.enumsFrom, hR.argument hc owner "name" (by rw [htag]; decide),
        hR.enumValue hc owner inherited next, hR.statusOf hc owner, hR.descriptionOf hc,
        hR.referenceOf hc, ih]

theorem bitPosition (h : R e e') (owner : String) (inherited : List Bit) (next : Nat)
    (name : String) :
    Yin.bitPosition owner inherited next name e' = Yin.bitPosition owner inherited next name e := by
  rw [Yin.bitPosition, Yin.bitPosition,
    hR.childAttribute? h "position" "value" (by decide) (by decide)]

theorem bitsFrom {stmts stmts' : List Element}
    (h : List.Forall₂ (fun c c' => c.tag = "bit" ∧ R c c') stmts stmts') (owner : String)
    (inherited : List Bit) (next : Nat) :
    Yin.bitsFrom owner inherited next stmts' = Yin.bitsFrom owner inherited next stmts := by
  induction h generalizing next with
  | nil => rfl
  | cons hc _ ih =>
      obtain ⟨htag, hc⟩ := hc
      simp only [Yin.bitsFrom, hR.argument hc owner "name" (by rw [htag]; decide),
        hR.bitPosition hc owner inherited next, hR.referenceOf hc, ih]

theorem restrictLength (h : R e e') (owner : String) (length : Option LengthRestriction) :
    Yin.restrictLength owner e' length = Yin.restrictLength owner e length := by
  rw [Yin.restrictLength, Yin.restrictLength,
    hR.childAttribute? h "length" "value" (by decide) (by decide)]

theorem scaleRange (h : R e e') (owner : String) (builtin : Option Builtin)
    (range : Option RangeRestriction) :
    Yin.scaleRange owner e' builtin range = Yin.scaleRange owner e builtin range := by
  simp only [Yin.scaleRange, hR.childAttribute? h "fraction-digits" "value" (by decide) (by decide)]

theorem restrictRange (h : R e e') (owner : String) (range : Option RangeRestriction) :
    Yin.restrictRange owner e' range = Yin.restrictRange owner e range := by
  simp only [Yin.restrictRange, hR.childAttribute? h "range" "value" (by decide) (by decide)]

/-- Restrictions that hold no references are the same wherever the statements belong to the same
module. -/
theorem restrict (h : R e e') {env env' : Environment} {s s' : Scope} (howner : s'.owner = s.owner)
    (builtin : Option Builtin) {members members' : Unit → Except LoadFault (List TypeDef)}
    {inherited : Facets TypeDef} (hbases : ∀ bases, inherited ≠ .identityref bases)
    (hunion : ∀ ts, inherited ≠ .union ts) :
    Yin.restrict env' s' e' builtin members' inherited =
      Yin.restrict env s e builtin members inherited := by
  cases inherited with
  | none => rfl
  | binary length => rw [Yin.restrict, Yin.restrict, howner, hR.restrictLength h]
  | string length patterns =>
      have hpatterns := hR.childrenOf_mapM h (by decide) fun c c' htag hc =>
        hR.patternOf hc s.owner htag
      rw [Yin.restrict, Yin.restrict, howner, hR.restrictLength h, hpatterns]
  | numeric range =>
      simp only [Yin.restrict, howner, hR.scaleRange h, hR.restrictRange h]
  | enumeration enums =>
      have hdeclared := hR.tagged h (show "enum" ∈ readTags by decide)
      rw [Yin.restrict, Yin.restrict, howner]
      generalize e.childrenOf "enum" = declared at hdeclared ⊢
      generalize e'.childrenOf "enum" = declared' at hdeclared ⊢
      cases hdeclared with
      | nil => rfl
      | cons hc hrest => simp only [enumsOf, hR.enumsFrom (.cons hc hrest)]
  | bits bits =>
      have hdeclared := hR.tagged h (show "bit" ∈ readTags by decide)
      rw [Yin.restrict, Yin.restrict, howner]
      generalize e.childrenOf "bit" = declared at hdeclared ⊢
      generalize e'.childrenOf "bit" = declared' at hdeclared ⊢
      cases hdeclared with
      | nil => rfl
      | cons hc hrest => simp only [bitsOf, hR.bitsFrom (.cons hc hrest)]
  | identityref bases => exact absurd rfl (hbases bases)
  | union ts => exact absurd rfl (hunion ts)

/-! ### Nodes -/

theorem configOf (h : R e e') (owner : String) (inherited : Option Bool) :
    Yin.configOf owner e' inherited = Yin.configOf owner e inherited := by
  cases inherited with
  | none => rfl
  | some value =>
      rw [Yin.configOf, Yin.configOf, hR.childAttribute? h "config" "value" (by decide) (by decide)]

theorem mandatoryOf (h : R e e') (owner : String) :
    Yin.mandatoryOf owner e' = Yin.mandatoryOf owner e := by
  rw [Yin.mandatoryOf, Yin.mandatoryOf,
    hR.childAttribute? h "mandatory" "value" (by decide) (by decide)]

theorem nodeNameOf (h : R e e') (owner : String) {kind : NodeKind} (htag : e.tag = kind.keyword) :
    Yin.nodeNameOf owner kind e' = Yin.nodeNameOf owner kind e := by
  have hname : Yin.argument owner e' "name" = Yin.argument owner e "name" := by
    refine hR.argument h owner "name" ?_
    rw [htag]
    cases kind <;> decide
  cases kind with
  | input | output => rfl
  | _ => exact hname

theorem refineNode (h : R e e') (owner : String) (n : SchemaNode) :
    Yin.refineNode owner e' n = Yin.refineNode owner e n := by
  have hstated : ∀ tag ∈ readTags, (e'.child? tag).isSome = (e.child? tag).isSome :=
    fun tag htag => isSome_eq_of_optionRel (hR.child? h tag htag)
  simp only [Yin.refineNode, refineTexts, refineConfig, refineMandatory, refineCount, refineDefault,
    refineMusts, hR.descriptionOf h, hR.referenceOf h, hR.defaultOf h, hR.mustsOf h,
    hR.elementCountOf h, hstated "min-elements" (by decide), hstated "max-elements" (by decide),
    hR.childAttribute? h "config" "value" (by decide) (by decide),
    hR.childAttribute? h "mandatory" "value" (by decide) (by decide)]

/-! ### Headers of modules -/

theorem revisionOf (h : R e e') (owner : String) :
    Yin.revisionOf owner e' = Yin.revisionOf owner e := by
  rw [Yin.revisionOf, Yin.revisionOf, hR.argument h owner "date" (by simp [holdsPrefix])]

theorem importedRevision (h : R e e') (owner : String) :
    Yin.importedRevision owner e' = Yin.importedRevision owner e := by
  rw [Yin.importedRevision, Yin.importedRevision,
    hR.childAttribute? h "revision-date" "date" (by decide) (by decide)]

end SameReading

end YangEvolution.Yin
