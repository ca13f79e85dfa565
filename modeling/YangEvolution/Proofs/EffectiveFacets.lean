import YangEvolution.Proofs.StatedFacets
import YangEvolution.Proofs.TypeShape

/-!
The effective facets of a type. A type statement leads by way of typedefs to a built-in type, and
each type statement on the way may add to the facets beneath it or replace them. Main statement: the
patterns of a resolved type are those of all type statements on the way, from the built-in type on;
any other facet is what the nearest type statement says that states it, in view of what is effective
beneath that statement; and the default and the units are those of the nearest typedef that states
them.
-/

namespace YangEvolution.Yin

open Text Markup Outcome

/-- A type statement in its scope. -/
structure Layer where
  scope : Scope
  stmt : Element

/-- A typedef in its scope, with its type statement. -/
structure Passage where
  scope : Scope
  typedef : Element
  type : Element

/-- A typedef and its type statement are in one scope. -/
def Passage.layer (p : Passage) : Layer := ⟨p.scope, p.type⟩

/-- A type statement leads to a built-in type by way of typedefs, the nearest of which comes first.
-/
inductive Layer.Chain (env : Environment) : Layer → List Passage → Builtin → Prop where
  | builtin {l : Layer} {name : String} {b : Builtin} :
      argument l.scope.owner l.stmt "name" = .ok name → Builtin.ofName? (trim name) = some b →
      Chain env l [] b
  | typedef {l : Layer} {p : Passage} {passed : List Passage} {b : Builtin} :
      NamesTypedef env l.scope l.stmt p.typedef p.scope → p.typedef.child? "type" = some p.type →
      Chain env p.layer passed b → Chain env l (p :: passed) b

/-- The substatements of a tag, where there are any. -/
def statementsOf? (tag : String) (stmt : Element) : Option (List Element) :=
  if (stmt.childrenOf tag).isEmpty then none else some (stmt.childrenOf tag)

section Nearest

variable {α β : Type} (stated : Element → Option β) (reading : Layer → β → α → α → Prop)
  (initial : α)

/-- The value at the top of layers: `initial` where none of them states one, and otherwise what the
nearest layer that states one says in view of the value beneath it. -/
inductive OfNearest : List Layer → α → Prop where
  | initial {layers : List Layer} : (∀ l ∈ layers, stated l.stmt = none) →
      OfNearest layers initial
  | nearest {nearer beneath : List Layer} {l : Layer} {x : β} {inherited value : α} :
      (∀ k ∈ nearer, stated k.stmt = none) → stated l.stmt = some x →
      OfNearest beneath inherited → reading l x inherited value →
      OfNearest (nearer ++ l :: beneath) value

variable {stated reading initial} {l : Layer} {beneath : List Layer} {inherited : α}

theorem OfNearest.pass (h : OfNearest stated reading initial beneath inherited)
    (hnone : stated l.stmt = none) : OfNearest stated reading initial (l :: beneath) inherited := by
  cases h with
  | initial hlayers => exact .initial (List.forall_mem_cons.mpr ⟨hnone, hlayers⟩)
  | nearest hnearer hstated hbeneath hread =>
      rw [← List.cons_append]
      exact .nearest (List.forall_mem_cons.mpr ⟨hnone, hnearer⟩) hstated hbeneath hread

theorem OfNearest.state (h : OfNearest stated reading initial beneath inherited) {x : β} {value : α}
    (hstated : stated l.stmt = some x) (hread : reading l x inherited value) :
    OfNearest stated reading initial (l :: beneath) value := by
  rw [← List.nil_append (l :: beneath)]
  exact .nearest (List.forall_mem_nil _) hstated h hread

theorem OfNearest.of_nil : OfNearest stated reading initial [] initial :=
  .initial (List.forall_mem_nil _)

end Nearest

/-! ### Facets by layers -/

/-- The length at the top of layers; without one, all lengths are allowed. -/
def EffectiveLength : List Layer → Option LengthRestriction → Prop :=
  OfNearest (·.childAttribute? "length" "value")
    (fun _ expr inherited length => ∃ l, length = some l ∧
      IsExpression LengthNumber (lengthsBeneath inherited) expr.toList l.intervals) none

/-- The intervals of an integer type at the top of layers. -/
def EffectiveRange (bounds : Interval) : List Layer → List Interval → Prop :=
  OfNearest (·.childAttribute? "range" "value")
    (fun _ expr inherited intervals => IsExpression RangeNumber inherited expr.toList intervals)
    [bounds]

/-- The patterns of all layers, beginning with the undermost. -/
def EffectivePatterns (layers : List Layer) (patterns : List Pattern) : Prop :=
  ∃ added, List.Forall₂
      (fun l ps => List.Forall₂ StatesPattern (l.stmt.childrenOf "pattern") ps)
      layers.reverse added ∧
    patterns = added.flatten

def EffectiveEnums : List Layer → List EnumValue → Prop :=
  OfNearest (statementsOf? "enum")
    (fun _ stmts inherited enums => StatesInTurn (StatesEnum inherited) stmts enums) []

def EffectiveBits : List Layer → List Bit → Prop :=
  OfNearest (statementsOf? "bit")
    (fun _ stmts inherited bits => StatesInTurn (StatesBit inherited) stmts bits) []

/-- Base identities replace those beneath, whatever these are. -/
def EffectiveBases (env : Environment) : List Layer → List QName → Prop :=
  OfNearest (statementsOf? "base")
    (fun l stmts _ bases => List.Forall₂ (StatesBase env l.scope) stmts bases) []

/-- The facets of a type that layers make of a built-in type. -/
inductive Effective (env : Environment) (layers : List Layer) :
    Builtin → Facets TypeDef → Prop where
  | binary {length : Option LengthRestriction} : EffectiveLength layers length →
      Effective env layers .binary (.binary length)
  | string {length : Option LengthRestriction} {patterns : List Pattern} :
      EffectiveLength layers length → EffectivePatterns layers patterns →
      Effective env layers .string (.string length patterns)
  | integer {b : Builtin} {bounds : Interval} {intervals : List Interval} :
      b.integerBounds? = some bounds → EffectiveRange bounds layers intervals →
      Effective env layers b (.numeric (some ⟨intervals, 0⟩))
  | decimal {range : Option RangeRestriction} : Effective env layers .decimal64 (.numeric range)
  | enumeration {enums : List EnumValue} : EffectiveEnums layers enums →
      Effective env layers .enumeration (.enumeration enums)
  | bits {bits : List Bit} : EffectiveBits layers bits → Effective env layers .bits (.bits bits)
  | identityref {bases : List QName} : EffectiveBases env layers bases →
      Effective env layers .identityref (.identityref bases)
  | union {members : List TypeDef} : Effective env layers .union (.union members)
  | none {b : Builtin} : b ∈ [.boolean, .empty, .instanceIdentifier, .leafref] →
      Effective env layers b .none

variable {env : Environment} {scope : Scope} {stmt : Element} {l : Layer} {beneath : List Layer}

theorem effective_ofBuiltin (b : Builtin) : Effective env [] b (.ofBuiltin b) := by
  cases b with
  | binary => exact .binary .of_nil
  | string => exact .string .of_nil ⟨[], .nil, rfl⟩
  | decimal64 => exact .decimal
  | enumeration => exact .enumeration .of_nil
  | bits => exact .bits .of_nil
  | identityref => exact .identityref .of_nil
  | union => exact .union
  | boolean | empty | instanceIdentifier | leafref => exact .none (by decide)
  | int8 | int16 | int32 | int64 | uint8 | uint16 | uint32 | uint64 =>
      exact .integer rfl .of_nil

/-! ### One more layer -/

theorem statementsOf?_eq_none {tag : String} (h : stmt.childrenOf tag = []) :
    statementsOf? tag stmt = none := by
  rw [statementsOf?, h]
  rfl

theorem statementsOf?_eq_some {tag : String} (h : stmt.childrenOf tag ≠ []) :
    statementsOf? tag stmt = some (stmt.childrenOf tag) := by
  rw [statementsOf?, if_neg]
  simpa using h

theorem EffectiveLength.restrict {length restricted : Option LengthRestriction}
    (h : EffectiveLength beneath length)
    (hrestrict : restrictLength l.scope.owner l.stmt length = .ok restricted) :
    EffectiveLength (l :: beneath) restricted := by
  unfold restrictLength at hrestrict
  split at hrestrict
  · rename_i expr hexpr
    obtain ⟨k, hk, rfl⟩ := map_eq_ok_iff.mp hrestrict
    exact OfNearest.state h hexpr ⟨k, rfl, isExpression_of_readLength hk⟩
  · rename_i hnone
    cases hrestrict
    exact OfNearest.pass h hnone

theorem EffectivePatterns.add {patterns added : List Pattern}
    (h : EffectivePatterns beneath patterns)
    (hadded : (l.stmt.childrenOf "pattern").mapM (patternOf l.scope.owner) = .ok added) :
    EffectivePatterns (l :: beneath) (patterns ++ added) := by
  obtain ⟨below, hbelow, rfl⟩ := h
  refine ⟨below ++ [added], ?_, by simp⟩
  rw [List.reverse_cons]
  have hstated : List.Forall₂ StatesPattern (l.stmt.childrenOf "pattern") added :=
    (forall₂_of_mapM_eq_ok hadded).imp fun _ _ => statesPattern_of_patternOf
  exact List.rel_append hbelow (.cons hstated .nil)

/-- Only a decimal has its scale changed, so that a range of an integer is read against what it
restricts. -/
theorem EffectiveRange.restrict {b : Builtin} {bounds : Interval} {intervals : List Interval}
    {scaled restricted : Option RangeRestriction} (hb : b.integerBounds? = some bounds)
    (h : EffectiveRange bounds beneath intervals)
    (hscaled : scaleRange l.scope.owner l.stmt (some b) (some ⟨intervals, 0⟩) = .ok scaled)
    (hrestrict : restrictRange l.scope.owner l.stmt scaled = .ok restricted) :
    ∃ intervals', restricted = some ⟨intervals', 0⟩ ∧
      EffectiveRange bounds (l :: beneath) intervals' := by
  have hsame : scaled = some ⟨intervals, 0⟩ := by
    unfold scaleRange at hscaled
    split at hscaled
    · rename_i hdecimal _
      cases hdecimal
      cases hb
    · exact (Except.ok.inj hscaled).symm
  subst hsame
  unfold restrictRange at hrestrict
  split at hrestrict
  · rename_i hnone
    cases hrestrict
    exact ⟨intervals, rfl, OfNearest.pass h hnone⟩
  · rename_i expr base hexpr hbase
    cases hbase
    obtain ⟨⟨intervals', digits⟩, hr, rfl⟩ := map_eq_ok_iff.mp hrestrict
    obtain ⟨hdigits, hread⟩ := isExpression_of_readRange rfl hr
    cases hdigits
    exact ⟨intervals', rfl, OfNearest.state h hexpr hread⟩
  · rename_i hbase
    cases hbase

theorem EffectiveBases.restrict {bases declared : List QName} (h : EffectiveBases env beneath bases)
    (hdeclared : baseIdentities env l.scope l.stmt = .ok declared) :
    EffectiveBases env (l :: beneath) (if declared.isEmpty then bases else declared) := by
  by_cases hnil : l.stmt.childrenOf "base" = []
  · have hempty : declared = [] := by
      rw [baseIdentities, hnil] at hdeclared
      exact (Except.ok.inj hdeclared).symm
    subst hempty
    exact OfNearest.pass h (statementsOf?_eq_none hnil)
  · have hcons : declared.isEmpty = false := by
      obtain ⟨first, rest, hfirst⟩ := List.exists_cons_of_ne_nil hnil
      rw [baseIdentities, hfirst, List.mapM_cons] at hdeclared
      obtain ⟨q, -, hdeclared⟩ := exists_of_bind_eq_ok hdeclared
      obtain ⟨qs, -, hdeclared⟩ := exists_of_bind_eq_ok hdeclared
      cases hdeclared
      rfl
    rw [hcons]
    exact OfNearest.state h (statementsOf?_eq_some hnil) (statesBase_of_baseIdentities hdeclared)

/-- A type statement makes effective facets of the facets that are effective beneath it. -/
theorem Effective.restrict {b : Builtin} {members : Unit → Except LoadFault (List TypeDef)}
    {inherited facets : Facets TypeDef} (h : Effective env beneath b inherited)
    (hrestrict : Yin.restrict env l.scope l.stmt (some b) members inherited = .ok facets) :
    Effective env (l :: beneath) b facets := by
  cases h with
  | binary hlength =>
      obtain ⟨restricted, hrestricted, rfl⟩ := map_eq_ok_iff.mp hrestrict
      exact .binary (hlength.restrict hrestricted)
  | string hlength hpatterns =>
      obtain ⟨restricted, hrestricted, hrestrict⟩ := exists_of_bind_eq_ok hrestrict
      obtain ⟨added, hadded, hrestrict⟩ := exists_of_bind_eq_ok hrestrict
      cases hrestrict
      exact .string (hlength.restrict hrestricted) (hpatterns.add hadded)
  | integer hb hrange =>
      obtain ⟨scaled, hscaled, hrestrict⟩ := exists_of_bind_eq_ok hrestrict
      obtain ⟨restricted, hrestricted, rfl⟩ := map_eq_ok_iff.mp hrestrict
      obtain ⟨r, rfl, hr⟩ := hrange.restrict hb hscaled hrestricted
      exact .integer hb hr
  | decimal =>
      obtain ⟨scaled, -, hrestrict⟩ := exists_of_bind_eq_ok hrestrict
      obtain ⟨restricted, -, rfl⟩ := map_eq_ok_iff.mp hrestrict
      exact .decimal
  | enumeration henums =>
      rw [Yin.restrict] at hrestrict
      split at hrestrict
      · rename_i hnil
        cases hrestrict
        exact .enumeration (OfNearest.pass henums (statementsOf?_eq_none hnil))
      · rename_i hcons
        obtain ⟨enums, hread, rfl⟩ := map_eq_ok_iff.mp hrestrict
        exact .enumeration
          (OfNearest.state henums (statementsOf?_eq_some hcons) (statesEnum_of_enumsOf hread))
  | bits hbits =>
      rw [Yin.restrict] at hrestrict
      split at hrestrict
      · rename_i hnil
        cases hrestrict
        exact .bits (OfNearest.pass hbits (statementsOf?_eq_none hnil))
      · rename_i hcons
        obtain ⟨bits, hread, rfl⟩ := map_eq_ok_iff.mp hrestrict
        exact .bits
          (OfNearest.state hbits (statementsOf?_eq_some hcons) (statesBit_of_bitsOf hread))
  | identityref hbases =>
      obtain ⟨declared, hdeclared, hrestrict⟩ := exists_of_bind_eq_ok hrestrict
      have hrestricted := hbases.restrict hdeclared
      cases declared with
      | nil =>
          cases hrestrict
          exact .identityref hrestricted
      | cons first rest =>
          cases hrestrict
          exact .identityref hrestricted
  | union =>
      obtain ⟨added, -, rfl⟩ := restrict_union hrestrict
      exact .union
  | none hb =>
      cases hrestrict
      exact .none hb

/-! ### Resolved types -/

theorem builtin?_of_base {t base : TypeDef} (h : t.base = some base) :
    t.builtin? = base.builtin? := by
  rw [TypeDef.builtin?, TypeDef.builtin?, TypeDef.builtinName, TypeDef.builtinName,
    TypeDef.root_of_base_some h]

/-- What states no restriction leaves the facets as they are. -/
theorem restrict_of_not_isRestricted {follow : TypedefResolver} (h : ¬ isRestricted stmt)
    (builtin : Option Builtin) (facets : Facets TypeDef) :
    restrict env scope stmt builtin (fun _ => membersVia env follow scope stmt.children) facets =
      .ok facets := by
  have htag : ∀ tag ∈ restrictionTags, ∀ c ∈ stmt.children, (c.tag == tag) = false := by
    intro tag htag c hc
    refine beq_eq_false_iff_ne.mpr fun heq => h (List.any_eq_true.mpr ⟨c, hc, ?_⟩)
    exact List.contains_iff_mem.mpr (heq ▸ htag)
  have hchildren : ∀ tag ∈ restrictionTags, stmt.childrenOf tag = [] := fun tag hmem =>
    List.filter_eq_nil_iff.mpr fun c hc => by simp [htag tag hmem c hc]
  have hvalue : ∀ tag ∈ restrictionTags, stmt.childAttribute? tag "value" = none := by
    intro tag hmem
    have hnone : stmt.child? tag = none :=
      List.find?_eq_none.mpr fun c hc => by simp [htag tag hmem c hc]
    rw [Element.childAttribute?, hnone]
    rfl
  cases facets with
  | none => rfl
  | binary length =>
      rw [restrict, restrictLength, hvalue "length" (by decide)]
      rfl
  | string length patterns =>
      rw [restrict, restrictLength, hvalue "length" (by decide), ok_bind,
        hchildren "pattern" (by decide), List.mapM_nil, pure_bind, List.append_nil]
  | numeric range =>
      have hscaled : scaleRange scope.owner stmt builtin range = .ok range := by
        unfold scaleRange
        rw [hvalue "fraction-digits" (by decide)]
        split
        · rename_i hsome
          cases hsome
        · rfl
      have hrestricted : restrictRange scope.owner stmt range = .ok range := by
        unfold restrictRange
        rw [hvalue "range" (by decide)]
      rw [restrict, hscaled, ok_bind, hrestricted]
      rfl
  | enumeration enums => rw [restrict, hchildren "enum" (by decide)]
  | bits bits => rw [restrict, hchildren "bit" (by decide)]
  | identityref bases =>
      rw [restrict, baseIdentities, hchildren "base" (by decide)]
      rfl
  | union members =>
      have hmembers : membersVia env follow scope stmt.children = .ok [] := by
        have htypes : (stmt.children.filter fun c => c.tag == "type") = [] :=
          hchildren "type" (by decide)
        rw [membersVia_eq_mapM, htypes]
        rfl
      rw [restrict, hmembers, ok_bind, List.append_nil]

/-- A type statement restricts the type that it names, of which it keeps the default and the
units. -/
theorem exists_named_of_typeOf {depth : Nat} {t : TypeDef}
    (h : typeOf env depth scope stmt = .ok t) :
    ∃ base, namedType env (typedefResolver env depth) scope stmt = .ok base ∧
      restrict env scope stmt base.builtin?
        (fun _ => membersVia env (typedefResolver env depth) scope stmt.children) base.facets =
          .ok t.facets ∧
      t.builtin? = base.builtin? ∧ t.default = base.default ∧ t.units = base.units := by
  rw [typeOf_eq_typeVia] at h
  obtain ⟨base, hbase, h⟩ := typeVia_eq_ok h
  refine ⟨base, hbase, ?_⟩
  split at h
  · obtain ⟨facets, hfacets, rfl⟩ := h
    exact ⟨hfacets, builtin?_of_base rfl, rfl, rfl⟩
  · rename_i hrestricted
    subst h
    exact ⟨restrict_of_not_isRestricted hrestricted _ _, rfl, rfl, rfl⟩

theorem exists_of_namedType {depth : Nat} {base : TypeDef}
    (h : namedType env (typedefResolver env depth) scope stmt = .ok base) :
    (∃ name b, argument scope.owner stmt "name" = .ok name ∧
        Builtin.ofName? (trim name) = some b ∧ base = .ofBuiltin b) ∨
      ∃ d typedef inner, depth = d + 1 ∧ NamesTypedef env scope stmt typedef inner ∧
        typedefOf env d inner typedef = .ok base := by
  unfold namedType at h
  obtain ⟨name, hname, h⟩ := exists_of_bind_eq_ok h
  split at h
  · rename_i b hb
    exact .inl ⟨name, b, hname, hb, (Except.ok.inj h).symm⟩
  · rename_i hnone
    obtain ⟨found, hfound, h⟩ := exists_of_bind_eq_ok h
    cases found with
    | none => cases h
    | some found =>
        obtain ⟨d, hdepth, hbase⟩ := typedefResolver_eq_ok h
        exact .inr ⟨d, found.1, found.2, hdepth, ⟨name, hname, hnone, hfound⟩, hbase⟩

theorem NamesTypedef.unique {typedef typedef' : Element} {inner inner' : Scope}
    (h : NamesTypedef env scope stmt typedef inner)
    (h' : NamesTypedef env scope stmt typedef' inner') : typedef = typedef' ∧ inner = inner' := by
  obtain ⟨name, hname, -, hfound⟩ := h
  obtain ⟨name', hname', -, hfound'⟩ := h'
  cases hname.symm.trans hname'
  cases hfound.symm.trans hfound'
  exact ⟨rfl, rfl⟩

theorem Layer.Chain.unique {passed passed' : List Passage} {b b' : Builtin}
    (h : l.Chain env passed b) (h' : l.Chain env passed' b') : passed = passed' ∧ b = b' := by
  induction h generalizing passed' b' with
  | builtin hname hb =>
      cases h' with
      | builtin hname' hb' =>
          cases hname.symm.trans hname'
          cases hb.symm.trans hb'
          exact ⟨rfl, rfl⟩
      | typedef hnames =>
          obtain ⟨name', hname', hnone, -⟩ := hnames
          cases hname.symm.trans hname'
          cases hb.symm.trans hnone
  | @typedef l p passed b hnames htype _ ih =>
      cases h' with
      | builtin hname' hb' =>
          obtain ⟨name, hname, hnone, -⟩ := hnames
          cases hname.symm.trans hname'
          cases hnone.symm.trans hb'
      | @typedef _ p' passed' _ hnames' htype' hchain' =>
          obtain ⟨htypedef, hscope⟩ := hnames.unique hnames'
          have hp : p = p' := by
            obtain ⟨s, d, t⟩ := p
            obtain ⟨s', d', t'⟩ := p'
            cases htypedef
            cases hscope
            cases htype.symm.trans htype'
            rfl
          subst hp
          obtain ⟨rfl, rfl⟩ := ih hchain'
          exact ⟨rfl, rfl⟩

theorem effective_of_typeOf {depth : Nat} {t : TypeDef} (h : typeOf env depth scope stmt = .ok t) :
    ∃ passed b, (Layer.mk scope stmt).Chain env passed b ∧ t.builtin? = some b ∧
      Effective env (⟨scope, stmt⟩ :: passed.map Passage.layer) b t.facets ∧
      t.default = passed.findSome? (fun p => p.typedef.childAttribute? "default" "value") ∧
      t.units = passed.findSome? (fun p => p.typedef.childAttribute? "units" "name") := by
  -- a typedef on the chain is resolved with one reference less
  induction depth using Nat.strongRecOn generalizing scope stmt t with
  | _ depth ih =>
      obtain ⟨base, hbase, hrestrict, hbuiltin, hdefault, hunits⟩ := exists_named_of_typeOf h
      rcases exists_of_namedType hbase with
        ⟨name, b, hname, hb, rfl⟩ | ⟨d, typedef, inner, rfl, hnames, hbase⟩
      · have hroot := (TypeDef.grounded_ofBuiltin b).builtin?
        rw [hroot] at hrestrict
        refine ⟨[], b, .builtin hname hb, hbuiltin.trans hroot, ?_, hdefault, hunits⟩
        exact (effective_ofBuiltin b).restrict hrestrict
      · obtain ⟨type, t₀, htype, ht₀, hbased, hsame, hdefault', hunits'⟩ := typedefVia_eq_ok hbase
        obtain ⟨passed, b, hchain, hb, hfacets, hdefault₀, hunits₀⟩ :=
          ih d (Nat.lt_succ_self d) ht₀
        have hroot : base.builtin? = some b := (builtin?_of_base hbased).trans hb
        rw [hroot, hsame] at hrestrict
        refine ⟨⟨inner, typedef, type⟩ :: passed, b, .typedef hnames htype hchain,
          hbuiltin.trans hroot, hfacets.restrict hrestrict, ?_, ?_⟩
        · rw [hdefault, hdefault', hdefault₀, List.findSome?_cons]
          cases typedef.childAttribute? "default" "value" <;> rfl
        · rw [hunits, hunits', hunits₀, List.findSome?_cons]
          cases typedef.childAttribute? "units" "name" <;> rfl

/-- A resolved type statement leads to one built-in type by one chain of typedefs. Its facets are
effective along the chain; its default and its units are those of the nearest typedef on the chain
that has them. -/
theorem facets_effective_along_chain {depth : Nat} {t : TypeDef}
    (h : typeOf env depth scope stmt = .ok t) :
    ∃ passed b, (Layer.mk scope stmt).Chain env passed b ∧
      (∀ passed' b', (Layer.mk scope stmt).Chain env passed' b' → passed' = passed ∧ b' = b) ∧
      t.builtin? = some b ∧
      Effective env (⟨scope, stmt⟩ :: passed.map Passage.layer) b t.facets ∧
      t.default = passed.findSome? (fun p => p.typedef.childAttribute? "default" "value") ∧
      t.units = passed.findSome? (fun p => p.typedef.childAttribute? "units" "name") := by
  obtain ⟨passed, b, hchain, hfacets⟩ := effective_of_typeOf h
  exact ⟨passed, b, hchain, fun passed' b' h' => h'.unique hchain, hfacets⟩

/-- A module of identities of vehicles. -/
def vehicles : ModuleSource where
  name := "vehicles"
  uri := "urn:vehicles"
  nsPrefix := "v"
  revision := none
  revisions := []
  imports := []
  root := { tag := "module" }
  dir := none

/-- A module of types for tickets, which restrict or complete built-in types. -/
def ticketTypes : Environment where
  main :=
    { name := "tickets"
      uri := "urn:tickets"
      nsPrefix := "t"
      revision := none
      revisions := []
      imports := [⟨"vehicles", "w", none⟩]
      root :=
        { tag := "module"
          children := [
            stmtOf "typedef" "code" [
              typeNamed "string" [valued "pattern" "[a-z]*", valued "length" "1..9"],
              valued "default" "stop", stmtOf "units" "letters" []],
            stmtOf "typedef" "short" [typeNamed "code" [valued "length" "min..5"],
              valued "default" "line"],
            stmtOf "typedef" "zone" [typeNamed "uint8" [valued "range" "60..90 | 1..40"]],
            stmtOf "typedef" "class" [typeNamed "enumeration" [stmtOf "enum" "first" [],
              stmtOf "enum" "second" [valued "value" "5"], stmtOf "enum" "third" []]],
            stmtOf "typedef" "extra" [typeNamed "bits" [
              stmtOf "bit" "seat" [valued "position" "3"], stmtOf "bit" "meal" []]],
            stmtOf "typedef" "vehicle" [typeNamed "identityref" [stmtOf "base" "vehicle" []]]] }
      dir := none }
  imports := [("vehicles", vehicles)]

/-- At the top of `ticketTypes`, `stmt` resolves to a type on `b` such that its facets are effective
along a chain of typedefs and it satisfies `P`. -/
def IsTicketType (stmt : Element) (b : Builtin) (P : TypeDef → Prop) : Prop :=
  ∃ t passed, typeOf ticketTypes maxDepth (.top ticketTypes.main) stmt = .ok t ∧
    (Layer.mk (.top ticketTypes.main) stmt).Chain ticketTypes passed b ∧
    Effective ticketTypes (⟨.top ticketTypes.main, stmt⟩ :: passed.map Passage.layer) b t.facets ∧
    P t

/-- A type for each kind of facets: the short codes with a certain first letter, the outer zones,
two of the classes, the extras with one that is new, and the vehicles that are of two kinds at once.
-/
theorem facets_effective_along_chain_tickets :
    IsTicketType (typeNamed "short" [valued "length" "2..max", valued "pattern" "s.*"]) .string
      (fun t => t.patterns.map Pattern.regex = ["[a-z]*", "s.*"] ∧ t.length? = some ⟨[⟨2, 5⟩]⟩ ∧
        t.default = some "line" ∧ t.units = some "letters") ∧
    IsTicketType (typeNamed "zone" [valued "range" "min..5|+80 .. max"]) .uint8
      (fun t => t.range? = some ⟨[⟨1, 5⟩, ⟨80, 90⟩], 0⟩) ∧
    IsTicketType (typeNamed "class" [stmtOf "enum" "third" [], stmtOf "enum" "first" []])
      .enumeration
      (fun t => t.enums = [{ name := "third", value := 6 }, { name := "first", value := 0 }]) ∧
    IsTicketType (typeNamed "extra" [stmtOf "bit" "meal" [], stmtOf "bit" "bed" []]) .bits
      (fun t => t.bits = [{ name := "meal", position := 4 }, { name := "bed", position := 5 }]) ∧
    IsTicketType (typeNamed "vehicle" [stmtOf "base" "t:night" [], stmtOf "base" " w:train" []])
      .identityref
      (fun t => t.identityBases? =
        some [⟨"urn:tickets", none, "night"⟩, ⟨"urn:vehicles", none, "train"⟩]) := by
  have htype : ∀ (stmt : Element) (b : Builtin) (P : TypeDef → Prop) [DecidablePred P],
      (typeOf ticketTypes maxDepth (.top ticketTypes.main) stmt).toOption.any
        (fun t => t.builtin? = some b ∧ P t) = true → IsTicketType stmt b P := by
    intro stmt b P _ hchecked
    cases hok : typeOf ticketTypes maxDepth (.top ticketTypes.main) stmt with
    | error fault =>
        rw [hok] at hchecked
        cases hchecked
    | ok t =>
        rw [hok] at hchecked
        obtain ⟨hbuiltin, hvalues⟩ := of_decide_eq_true hchecked
        obtain ⟨passed, b', hchain, -, hb, heffective, -⟩ := facets_effective_along_chain hok
        cases hbuiltin.symm.trans hb
        exact ⟨t, passed, hok, hchain, heffective, hvalues⟩
  refine ⟨htype _ _ _ ?_, htype _ _ _ ?_, htype _ _ _ ?_, htype _ _ _ ?_, htype _ _ _ ?_⟩ <;>
    decide +kernel

end YangEvolution.Yin
