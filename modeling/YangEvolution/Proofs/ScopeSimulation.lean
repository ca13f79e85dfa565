import Mathlib.Data.List.Forall2
import YangEvolution.Proofs.Address
import YangEvolution.Proofs.Skeleton

/-!
Resolving in two environments. A simulation relates scopes of one environment to scopes of another
in which every reference that leads somewhere leads to the same, definitions apart that no reference
leads to. Main statement: what is resolved in a scope is resolved to the same in a related scope, as
long as the way to it does not enter a statement whose counterpart holds other definitions.
-/

namespace YangEvolution

namespace Yin

open Text Markup Outcome

open Element (plain isDefinitionTag reading_skeleton)

/-! ### Definitions are passed over -/

section Plain

variable {env : Environment} {refs : References} {scope : Scope} {inherited : Option Bool}

theorem membersVia_plain {follow : TypedefResolver} (stmts : List Element) :
    membersVia env follow scope (plain stmts) = membersVia env follow scope stmts := by
  rw [membersVia_eq_mapM, membersVia_eq_mapM, Element.filter_plain]
  intro c hc
  rw [beq_iff_eq.mp hc]
  rfl

theorem isDefinitionTag_of_isNodeStatement (c : Element) (h : isNodeStatement c = true) :
    isDefinitionTag c.tag = false := by
  refine Bool.eq_false_iff.mpr fun hc => ?_
  rw [isDefinitionTag, Bool.or_eq_true, beq_iff_eq, beq_iff_eq] at hc
  rcases hc with hc | hc
  · rw [isNodeStatement, hc] at h
    revert h
    decide
  · rw [isNodeStatement, hc] at h
    revert h
    decide

theorem nodesVia_plain (stmts : List Element) :
    nodesVia env refs scope inherited (plain stmts) = nodesVia env refs scope inherited stmts := by
  rw [← nodesVia_filter, Element.filter_plain isDefinitionTag_of_isNodeStatement, nodesVia_filter]

theorem casesVia_plain (stmts : List Element) :
    casesVia env refs scope inherited (plain stmts) = casesVia env refs scope inherited stmts := by
  rw [← casesVia_filter, Element.filter_plain isDefinitionTag_of_isNodeStatement, casesVia_filter]

theorem find?_plain (kind : NodeKind) (stmts : List Element) :
    ((plain stmts).find? fun c => c.tag == kind.keyword) =
      stmts.find? fun c => c.tag == kind.keyword := by
  rw [← List.head?_filter, Element.filter_plain, List.head?_filter]
  intro c hc
  rw [beq_iff_eq.mp hc]
  cases kind <;> rfl

theorem partVia_plain (kind : NodeKind) (stmts : List Element) :
    partVia env refs scope kind (plain stmts) = partVia env refs scope kind stmts := by
  rw [partVia_eq_find?, partVia_eq_find?, find?_plain]

end Plain

/-! ### What statements say of a node -/

/-- Statements that say the same of a node but for its `config`. -/
structure SaysSame (e e' : Element) : Prop where
  name : ∀ owner kind, nodeNameOf owner kind e' = nodeNameOf owner kind e
  status : ∀ owner, statusOf owner e' = statusOf owner e
  musts : ∀ owner, mustsOf owner e' = mustsOf owner e
  mandatory : ∀ owner, mandatoryOf owner e' = mandatoryOf owner e
  count : ∀ owner, elementCountOf owner e' = elementCountOf owner e
  description : descriptionOf e' = descriptionOf e
  reference : referenceOf e' = referenceOf e
  condition : whenOf e' = whenOf e
  default : defaultOf e' = defaultOf e
  units : e'.childAttribute? "units" "name" = e.childAttribute? "units" "name"
  type : ∀ type, e.child? "type" = some type →
    ∃ type', e'.child? "type" = some type' ∧ type'.skeleton = type.skeleton

theorem saysSame_of_skeleton {e e' : Element} (h : e'.skeleton = e.skeleton) : SaysSame e e' where
  name := nodeNameOf_of_skeleton h
  status := reading_skeleton.statusOf h
  musts := reading_skeleton.mustsOf h
  mandatory := reading_skeleton.mandatoryOf h
  count := reading_skeleton.elementCountOf h
  description := reading_skeleton.descriptionOf h
  reference := reading_skeleton.referenceOf h
  condition := reading_skeleton.whenOf h
  default := reading_skeleton.defaultOf h
  units := reading_skeleton.childAttribute? h _ _ (by decide) (by decide)
  type _ := Element.exists_child?_of_skeleton (by decide) h

/-- A reference leads to a definition of the keyword. -/
theorem tag_of_findDefinition {env : Environment} {s i : Scope} {keyword reference : String}
    {d : Element} (h : env.findDefinition keyword s reference = .ok (some (d, i))) :
    d.tag = keyword := by
  obtain ⟨parent, rest, -, hnamed⟩ := (declares_of_findDefinition h).parent
  have hfits := List.find?_some hnamed
  simp only [Bool.and_eq_true, beq_iff_eq] at hfits
  exact hfits.1

theorem Constituent.keyword_ne_grouping (b : Constituent) : b.keyword ≠ "grouping" := by
  obtain ⟨kind | kind, stmt⟩ := b
  · show "uses" ≠ "grouping"
    decide
  · show kind.keyword ≠ "grouping"
    cases kind <;> decide

/-- Scopes and statements of two environments that correspond. A reference in one of the scopes
that leads somewhere leads to corresponding definitions; but a statement that is marked may hold
other statements than its counterpart, and is not to be entered. -/
structure Simulation (env env' : Environment) where
  scopes : Scope → Scope → Prop
  stmts : Scope → Scope → Element → Element → Prop
  marked : Scope → Element → Prop
  owner : ∀ {s s'}, scopes s s' → s'.owner = s.owner
  uri : ∀ {s s'}, scopes s s' → s'.source.uri = s.source.uri
  revision : ∀ {s s'}, scopes s s' → s'.source.revision = s.source.revision
  qualify : ∀ {s s' reference name}, scopes s s' → env.qualify s reference = .ok name →
    env'.qualify s' reference = .ok name
  find : ∀ {s s' keyword reference d i}, scopes s s' → isDefinitionTag keyword = true →
    env.findDefinition keyword s reference = .ok (some (d, i)) →
    ∃ d' i', env'.findDefinition keyword s' reference = .ok (some (d', i')) ∧ stmts i i' d d'
  scope : ∀ {s s' e e'}, stmts s s' e e' → scopes s s'
  tag : ∀ {s s' e e'}, stmts s s' e e' → e'.tag = e.tag
  skeleton : ∀ {s s' e e'}, stmts s s' e e' → e.tag ≠ "grouping" → e'.skeleton = e.skeleton
  enter : ∀ {s s' e e'}, stmts s s' e e' → ¬ marked s e → scopes (s.enter e) (s'.enter e')
  children : ∀ {s s' e e'}, stmts s s' e e' → ¬ marked s e →
    List.Forall₂ (stmts (s.enter e) (s'.enter e')) (plain e.children) (plain e'.children)

namespace Simulation

variable {env env' : Environment} (S : Simulation env env') {s s' : Scope} {e e' : Element}

/-! ### Types -/

section Types

theorem baseIdentities (hs : S.scopes s s') (he : e'.skeleton = e.skeleton) {names : List QName}
    (h : Yin.baseIdentities env s e = .ok names) : Yin.baseIdentities env' s' e' = .ok names := by
  rw [baseIdentities_of_skeleton he]
  refine mapM_eq_ok_of_forall (fun b _ name hname => ?_) h
  obtain ⟨reference, hreference, hname⟩ := exists_of_bind_eq_ok hname
  rw [S.owner hs, hreference]
  exact S.qualify hs hname

theorem restrict (hs : S.scopes s s') (he : e'.skeleton = e.skeleton)
    {builtin : Option Builtin} {members members' : Unit → Except LoadFault (List TypeDef)}
    (hmembers : ∀ ts, members () = .ok ts → members' () = .ok ts)
    {inherited facets : Facets TypeDef}
    (h : Yin.restrict env s e builtin members inherited = .ok facets) :
    Yin.restrict env' s' e' builtin members' inherited = .ok facets := by
  cases inherited with
  | identityref bases =>
      obtain ⟨declared, hdeclared, h⟩ := exists_of_bind_eq_ok h
      rw [Yin.restrict, S.baseIdentities hs he hdeclared]
      exact h
  | union inherited =>
      obtain ⟨added, hadded, rfl⟩ := restrict_union h
      rw [Yin.restrict, hmembers added hadded]
      rfl
  | none | binary _ | string _ _ | numeric _ | enumeration _ | bits _ =>
      rw [← h]
      refine reading_skeleton.restrict he (S.owner hs) builtin ?_ ?_
      all_goals exact fun _ heq => by cases heq

theorem membersVia_of_forall₂ {follow follow' : TypedefResolver} {stmts stmts' : List Element}
    (hstmts : List.Forall₂ (fun c c' : Element => c'.skeleton = c.skeleton) stmts stmts')
    (htypes : ∀ c ∈ stmts, ∀ c' t, c'.skeleton = c.skeleton →
      Yin.typeVia env follow s c = .ok t → Yin.typeVia env' follow' s' c' = .ok t)
    {ts : List TypeDef} (h : Yin.membersVia env follow s stmts = .ok ts) :
    Yin.membersVia env' follow' s' stmts' = .ok ts := by
  induction hstmts generalizing ts with
  | nil => exact h
  | @cons c c' rest rest' hc _ ih =>
      have htag : c'.tag = c.tag := reading_skeleton.tag hc
      have hrest : ∀ ts, Yin.membersVia env follow s rest = .ok ts →
          Yin.membersVia env' follow' s' rest' = .ok ts := fun ts hts =>
        ih (fun c hc => htypes c (List.mem_cons_of_mem _ hc)) hts
      rw [Yin.membersVia] at h ⊢
      rw [htag]
      split at h
      · rename_i htype
        rw [if_pos htype]
        obtain ⟨t, ht, h⟩ := exists_of_bind_eq_ok h
        obtain ⟨others, hothers, h⟩ := exists_of_bind_eq_ok h
        rw [htypes c List.mem_cons_self c' t hc ht, hrest others hothers]
        exact h
      · rename_i htype
        rw [if_neg htype]
        exact hrest ts h

/-- Typedefs that correspond are followed to the same types. -/
def Follows (follow follow' : TypedefResolver) : Prop :=
  ∀ name d d' i i' t, S.stmts i i' d d' → d.tag = "typedef" →
    follow name d i = .ok t → follow' name d' i' = .ok t

variable {S} {follow follow' : TypedefResolver} (hfollow : S.Follows follow follow')

include hfollow

theorem namedType (hs : S.scopes s s') (he : e'.skeleton = e.skeleton) {t : TypeDef}
    (h : Yin.namedType env follow s e = .ok t) : Yin.namedType env' follow' s' e' = .ok t := by
  obtain ⟨name, hname, h⟩ := exists_of_bind_eq_ok h
  have hname' : argument s'.owner e' "name" = .ok name := by
    rw [S.owner hs, argument_of_skeleton he, hname]
  rw [Yin.namedType, hname', ok_bind]
  cases hb : Builtin.ofName? (trim name) with
  | some b =>
    simp only [hb] at h ⊢
    exact h
  | none =>
    simp only [hb] at h ⊢
    obtain ⟨found, hfound, h⟩ := exists_of_bind_eq_ok h
    cases found with
    | none => cases h
    | some found =>
        obtain ⟨d', i', hfound', hstmts⟩ := S.find hs rfl hfound
        simp only [hfound', ok_bind]
        exact hfollow name _ _ _ _ t hstmts (tag_of_findDefinition hfound) h

theorem typeVia (hs : S.scopes s s') (he : e'.skeleton = e.skeleton) {t : TypeDef}
    (h : Yin.typeVia env follow s e = .ok t) : Yin.typeVia env' follow' s' e' = .ok t := by
  -- the members of a union are in the statement itself and are resolved in the same scope
  induction e using Element.treeInduction generalizing e' t with
  | element e ih =>
      have hmembers : ∀ ts, Yin.membersVia env follow s e.children = .ok ts →
          Yin.membersVia env' follow' s' e'.children = .ok ts := by
        intro ts hts
        rw [← membersVia_plain] at hts ⊢
        refine membersVia_of_forall₂ (Element.forall₂_skeleton he) ?_ hts
        exact fun c hc c' t hskeleton ht => ih c (List.mem_of_mem_filter hc) hskeleton ht
      have hrestricted : isRestricted e' = isRestricted e := reading_skeleton.isRestricted he
      obtain ⟨tag, nsPrefix, attributes, children, text⟩ := e
      obtain ⟨tag', nsPrefix', attributes', children', text'⟩ := e'
      rw [Yin.typeVia] at h ⊢
      obtain ⟨base, hbase, h⟩ := exists_of_bind_eq_ok h
      simp only [namedType hfollow hs he hbase, ok_bind, hrestricted, S.owner hs]
      split at h
      · rename_i hyes
        rw [if_pos hyes]
        obtain ⟨facets, hfacets, h⟩ := exists_of_bind_eq_ok h
        rw [S.restrict hs he hmembers hfacets]
        exact h
      · rename_i hno
        rw [if_neg hno]
        exact h

end Types

theorem typedefVia (hs : S.scopes s s') (he : e'.skeleton = e.skeleton)
    {resolve resolve' : Element → Except LoadFault TypeDef}
    (hresolve : ∀ c c' t, c'.skeleton = c.skeleton → resolve c = .ok t → resolve' c' = .ok t)
    {t : TypeDef} (h : Yin.typedefVia resolve s e = .ok t) :
    Yin.typedefVia resolve' s' e' = .ok t := by
  obtain ⟨name, hname, h⟩ := exists_of_bind_eq_ok h
  have hname' : argument s'.owner e' "name" = .ok name := by
    rw [S.owner hs, argument_of_skeleton he, hname]
  cases htype : e.child? "type" with
  | none =>
      rw [htype] at h
      cases h
  | some type =>
      rw [htype] at h
      obtain ⟨base, hbase, h⟩ := exists_of_bind_eq_ok h
      obtain ⟨status, hstatus, h⟩ := exists_of_bind_eq_ok h
      obtain ⟨type', htype', hskeleton⟩ := Element.exists_child?_of_skeleton (by decide) he htype
      have hstatus' : statusOf s'.owner e' = .ok status := by
        rw [S.owner hs, reading_skeleton.statusOf he, hstatus]
      have hdefault : e'.childAttribute? "default" "value" = e.childAttribute? "default" "value" :=
        reading_skeleton.childAttribute? he _ _ (by decide) (by decide)
      have hunits : e'.childAttribute? "units" "name" = e.childAttribute? "units" "name" :=
        reading_skeleton.childAttribute? he _ _ (by decide) (by decide)
      simp only [Yin.typedefVia, hname', htype', hresolve type type' base hskeleton hbase,
        hstatus', hdefault, hunits, reading_skeleton.descriptionOf he,
        reading_skeleton.referenceOf he, S.uri hs, S.revision hs, ok_bind]
      exact h

theorem typeOf {depth : Nat} (hs : S.scopes s s') (he : e'.skeleton = e.skeleton) {t : TypeDef}
    (h : Yin.typeOf env depth s e = .ok t) : Yin.typeOf env' depth s' e' = .ok t := by
  -- a typedef is followed with one reference less, from a pair of definitions that correspond
  induction depth generalizing s s' e e' t with
  | zero =>
      rw [Yin.typeOf] at h ⊢
      exact typeVia (fun _ _ _ _ _ _ _ _ h => by cases h) hs he h
  | succ depth ih =>
      rw [Yin.typeOf] at h ⊢
      refine typeVia (fun name d d' i i' t hstmts htag h => ?_) hs he h
      have hother : d.tag ≠ "grouping" := by
        rw [htag]
        decide
      exact S.typedefVia (S.scope hstmts) (S.skeleton hstmts hother)
        (fun c c' t hskeleton ht => ih (S.scope hstmts) hskeleton ht) h

/-- A typedef that corresponds to another defines the same type. -/
theorem typedefOf {depth : Nat} (hs : S.scopes s s') (he : e'.skeleton = e.skeleton) {t : TypeDef}
    (h : Yin.typedefOf env depth s e = .ok t) : Yin.typedefOf env' depth s' e' = .ok t :=
  S.typedefVia hs he (fun _ _ _ hskeleton ht => S.typeOf hs hskeleton ht) h

/-! ### Nodes -/

/-- A site that is entered and must not be. -/
def Blocked : Site → Prop
  | .constituent scope ⟨some _, stmt⟩ => S.marked scope stmt
  | .grouping scope stmt => S.marked scope stmt
  | _ => False

/-- Nothing that is resolved with a site is blocked. -/
def Clear (t : Site) : Prop :=
  ∀ n u, Yin.Follows env t n u → ¬ S.Blocked u

variable {S}

theorem Clear.self {t : Site} (h : S.Clear t) : ¬ S.Blocked t :=
  h 0 t (.refl t)

theorem Clear.part {t u : Site} (h : S.Clear t) (hpart : Part env t u) : S.Clear u :=
  fun n v hv => h n v (.part hpart hv)

theorem Clear.link {t u : Site} (h : S.Clear t) (hlink : Link env t u) : S.Clear u :=
  fun n v hv => h (n + 1) v (.link hlink hv)

/-- Names of nodes are the same, and references to corresponding statements are resolved to the
same. -/
structure Refers (S : Simulation env env') (refs refs' : References) : Prop where
  nodeName : ∀ name, env'.nodeName name = env.nodeName name
  type : ∀ {s s' e e' t}, S.scopes s s' → e'.skeleton = e.skeleton →
    refs.type s e = .ok t → refs'.type s' e' = .ok t
  grouping : ∀ {i i' d d' name inherited nodes}, S.stmts i i' d d' → S.Clear (.grouping i d) →
    refs.grouping name d i inherited = .ok nodes → refs'.grouping name d' i' inherited = .ok nodes

/-- A constituent and its counterpart are resolved to the same nodes. -/
def Carries (S : Simulation env env') (refs refs' : References) (s s' : Scope) (b : Constituent) :
    Prop :=
  ∀ e' inherited nodes, S.stmts s s' b.stmt e' → b.nodes env refs s inherited = .ok nodes →
    Constituent.nodes env' refs' s' inherited ⟨b.kind, e'⟩ = .ok nodes

variable {refs refs' : References} {inherited : Option Bool} {stmts stmts' : List Element}
  {nodes : List SchemaNode}

theorem nodeVia_of_carries {kind : NodeKind} (h : S.Carries refs refs' s s' ⟨some kind, e⟩)
    (he : S.stmts s s' e e') {n : SchemaNode}
    (hn : nodeVia env refs s inherited kind e = .ok n) :
    nodeVia env' refs' s' inherited kind e' = .ok n := by
  obtain ⟨n', hn', heq⟩ := map_eq_ok_iff.mp (h e' inherited [n] he (map_eq_ok_iff.mpr ⟨n, hn, rfl⟩))
  cases heq
  exact hn'

theorem nodesVia_of_forall₂ (hstmts : List.Forall₂ (S.stmts s s') stmts stmts')
    (hcarries : ∀ b ∈ stmts.filterMap bodyConstituent?, S.Carries refs refs' s s' b)
    (h : nodesVia env refs s inherited stmts = .ok nodes) :
    nodesVia env' refs' s' inherited stmts' = .ok nodes := by
  induction hstmts generalizing nodes with
  | nil => exact h
  | @cons c c' rest rest' hc _ ih =>
      have hhead : ∀ b, bodyConstituent? c = some b → S.Carries refs refs' s s' b := fun b hb =>
        hcarries b (List.mem_filterMap.mpr ⟨c, List.mem_cons_self, hb⟩)
      have hrest : ∀ nodes, nodesVia env refs s inherited rest = .ok nodes →
          nodesVia env' refs' s' inherited rest' = .ok nodes := fun nodes hnodes => by
        refine ih (fun b hb => hcarries b ?_) hnodes
        obtain ⟨d, hd, hb⟩ := List.mem_filterMap.mp hb
        exact List.mem_filterMap.mpr ⟨d, List.mem_cons_of_mem _ hd, hb⟩
      rw [nodesVia] at h ⊢
      rw [S.tag hc]
      cases hkind : dataKind? c.tag with
      | some kind =>
          simp only [hkind] at h ⊢
          obtain ⟨n, hn, h⟩ := exists_of_bind_eq_ok h
          obtain ⟨others, hothers, h⟩ := exists_of_bind_eq_ok h
          have hb : bodyConstituent? c = some ⟨some kind, c⟩ := by
            simp [bodyConstituent?, hkind]
          rw [nodeVia_of_carries (hhead _ hb) hc hn, hrest others hothers]
          exact h
      | none =>
          simp only [hkind] at h ⊢
          split at h
          · rename_i huses
            obtain ⟨used, hused, h⟩ := exists_of_bind_eq_ok h
            obtain ⟨others, hothers, h⟩ := exists_of_bind_eq_ok h
            have hb : bodyConstituent? c = some ⟨none, c⟩ := by
              rw [bodyConstituent?, hkind]
              exact if_pos huses
            have hused' : usedNodes env' refs' s' inherited c' = .ok used :=
              hhead _ hb c' inherited used hc hused
            rw [if_pos huses, hused', hrest others hothers]
            exact h
          · rename_i huses
            rw [if_neg huses]
            exact hrest nodes h

theorem casesVia_of_forall₂ (hstmts : List.Forall₂ (S.stmts s s') stmts stmts')
    (hcarries : ∀ b ∈ stmts.filterMap caseConstituent?, S.Carries refs refs' s s' b)
    (h : casesVia env refs s inherited stmts = .ok nodes) :
    casesVia env' refs' s' inherited stmts' = .ok nodes := by
  induction hstmts generalizing nodes with
  | nil => exact h
  | @cons c c' rest rest' hc _ ih =>
      have hrest : ∀ nodes, casesVia env refs s inherited rest = .ok nodes →
          casesVia env' refs' s' inherited rest' = .ok nodes := fun nodes hnodes => by
        refine ih (fun b hb => hcarries b ?_) hnodes
        obtain ⟨d, hd, hb⟩ := List.mem_filterMap.mp hb
        exact List.mem_filterMap.mpr ⟨d, List.mem_cons_of_mem _ hd, hb⟩
      rw [casesVia] at h ⊢
      rw [S.tag hc]
      cases hkind : dataKind? c.tag with
      | none =>
          simp only [hkind] at h ⊢
          exact hrest nodes h
      | some kind =>
          simp only [hkind] at h ⊢
          split at h
          · rename_i hdata
            obtain ⟨n, hn, h⟩ := exists_of_bind_eq_ok h
            obtain ⟨others, hothers, h⟩ := exists_of_bind_eq_ok h
            have hb : caseConstituent? c = some ⟨some kind, c⟩ := by
              simp [caseConstituent?, hkind, hdata]
            have hhead := hcarries _ (List.mem_filterMap.mpr ⟨c, List.mem_cons_self, hb⟩)
            rw [if_pos hdata, nodeVia_of_carries hhead hc hn, hrest others hothers]
            exact h
          · rename_i hdata
            rw [if_neg hdata]
            exact hrest nodes h

theorem partVia_of_forall₂ {kind : NodeKind} (hrefs : S.Refers refs refs')
    (hstmts : List.Forall₂ (S.stmts s s') stmts stmts')
    (hcarries : ∀ b ∈ (partConstituent? kind stmts).toList, S.Carries refs refs' s s' b)
    {n : SchemaNode} (h : partVia env refs s kind stmts = .ok n) :
    partVia env' refs' s' kind stmts' = .ok n := by
  induction hstmts with
  | nil =>
      rw [partVia] at h ⊢
      rw [← h, emptyPart, emptyPart, hrefs.nodeName]
  | @cons c c' rest rest' hc _ ih =>
      rw [partVia] at h ⊢
      rw [S.tag hc]
      split at h
      · rename_i htag
        have hb : partConstituent? kind (c :: rest) = some ⟨some kind, c⟩ := by
          simp [partConstituent?, htag]
        rw [if_pos htag]
        exact nodeVia_of_carries (hcarries _ (by simp [hb])) hc h
      · rename_i htag
        have hb : partConstituent? kind (c :: rest) = partConstituent? kind rest := by
          simp [partConstituent?, htag]
        rw [if_neg htag]
        exact ih (hb ▸ hcarries) h

/-! Definitions among the statements do not matter. -/

theorem nodesVia_plain_of_forall₂
    (hstmts : List.Forall₂ (S.stmts s s') (plain stmts) (plain stmts'))
    (hcarries : ∀ b ∈ stmts.filterMap bodyConstituent?, S.Carries refs refs' s s' b)
    (h : nodesVia env refs s inherited stmts = .ok nodes) :
    nodesVia env' refs' s' inherited stmts' = .ok nodes := by
  rw [← nodesVia_plain] at h ⊢
  refine nodesVia_of_forall₂ hstmts (fun b hb => hcarries b ?_) h
  exact (List.filter_sublist.filterMap _).mem hb

theorem casesVia_plain_of_forall₂
    (hstmts : List.Forall₂ (S.stmts s s') (plain stmts) (plain stmts'))
    (hcarries : ∀ b ∈ stmts.filterMap caseConstituent?, S.Carries refs refs' s s' b)
    (h : casesVia env refs s inherited stmts = .ok nodes) :
    casesVia env' refs' s' inherited stmts' = .ok nodes := by
  rw [← casesVia_plain] at h ⊢
  refine casesVia_of_forall₂ hstmts (fun b hb => hcarries b ?_) h
  exact (List.filter_sublist.filterMap _).mem hb

theorem partConstituent?_plain (kind : NodeKind) (stmts : List Element) :
    partConstituent? kind (plain stmts) = partConstituent? kind stmts := by
  rw [partConstituent?, partConstituent?, find?_plain]

theorem partVia_plain_of_forall₂ {kind : NodeKind} (hrefs : S.Refers refs refs')
    (hstmts : List.Forall₂ (S.stmts s s') (plain stmts) (plain stmts'))
    (hcarries : ∀ b ∈ (partConstituent? kind stmts).toList, S.Carries refs refs' s s' b)
    {n : SchemaNode} (h : partVia env refs s kind stmts = .ok n) :
    partVia env' refs' s' kind stmts' = .ok n := by
  rw [← partVia_plain] at h ⊢
  exact partVia_of_forall₂ hrefs hstmts (by rwa [partConstituent?_plain]) h

theorem nodeType_of_says {kind : NodeKind} {name : String} (hrefs : S.Refers refs refs')
    (hs : S.scopes (s.enter e) (s'.enter e')) (he : SaysSame e e') {t : TypeDef}
    (h : nodeType refs s kind name e = .ok t) : nodeType refs' s' kind name e' = .ok t := by
  cases htype : e.child? "type" with
  | none =>
      rw [nodeType, htype] at h
      cases h
  | some type =>
      rw [nodeType, htype] at h
      obtain ⟨resolved, hresolved, h⟩ := exists_of_bind_eq_ok h
      obtain ⟨type', htype', hskeleton⟩ := he.type type htype
      simp only [nodeType, htype', hrefs.type hs hskeleton hresolved, he.units, he.default, ok_bind]
      exact h

/-- What a statement says of a node, if not of its `config`, its counterpart says, too. -/
theorem nodeDataOf_of_says {kind : NodeKind} (hrefs : S.Refers refs refs')
    (howner : s'.owner = s.owner) (hs : S.scopes (s.enter e) (s'.enter e')) (he : SaysSame e e')
    {inherited' config : Option Bool}
    (hconfig : configOf s'.owner e' (inheritedConfig kind inherited') = .ok config)
    {data : NodeData} (h : nodeDataOf env refs s inherited kind e = .ok data) :
    nodeDataOf env' refs' s' inherited' kind e' = .ok { data with config } := by
  obtain ⟨name, hname, h⟩ := exists_of_bind_eq_ok h
  obtain ⟨status, hstatus, h⟩ := exists_of_bind_eq_ok h
  obtain ⟨musts, hmusts, h⟩ := exists_of_bind_eq_ok h
  obtain ⟨_, -, h⟩ := exists_of_bind_eq_ok h
  obtain ⟨mandatory, hmandatory, h⟩ := exists_of_bind_eq_ok h
  obtain ⟨count, hcount, h⟩ := exists_of_bind_eq_ok h
  obtain ⟨type, htype, h⟩ := exists_of_bind_eq_ok h
  cases h
  have htype' : (if kind.isTyped then some <$> nodeType refs' s' kind name e' else .ok none) =
      .ok type := by
    split at htype
    · rename_i htyped
      obtain ⟨t, ht, rfl⟩ := map_eq_ok_iff.mp htype
      rw [if_pos htyped, nodeType_of_says hrefs hs he ht]
      rfl
    · rename_i htyped
      rw [if_neg htyped, htype]
  rw [howner] at hconfig
  simp only [nodeDataOf, howner, he.name, he.status, he.musts, he.mandatory, he.count,
    he.description, he.reference, he.condition, hrefs.nodeName, hname, hstatus, hmusts, hconfig,
    hmandatory, hcount, htype', ok_bind]

theorem nodeDataOf_of_refers {kind : NodeKind} (hrefs : S.Refers refs refs')
    (he : S.stmts s s' e e') (htag : e.tag ≠ "grouping") (hclear : ¬ S.marked s e)
    {data : NodeData} (h : nodeDataOf env refs s inherited kind e = .ok data) :
    nodeDataOf env' refs' s' inherited kind e' = .ok data := by
  have hskeleton := S.skeleton he htag
  have howner := S.owner (S.scope he)
  have hconfig := (nodeDataOf_eq_ok h).2.1
  rw [← howner, ← reading_skeleton.configOf hskeleton] at hconfig
  exact nodeDataOf_of_says hrefs howner (S.enter he hclear) (saysSame_of_skeleton hskeleton)
    hconfig h

theorem childrenVia_plain_of_forall₂ {kind : NodeKind} (hrefs : S.Refers refs refs')
    (hstmts : List.Forall₂ (S.stmts s s') (plain stmts) (plain stmts'))
    (hcarries : ∀ b ∈ constituents kind stmts, S.Carries refs refs' s s' b)
    (h : childrenVia env refs s inherited kind stmts = .ok nodes) :
    childrenVia env' refs' s' inherited kind stmts' = .ok nodes := by
  cases kind with
  | container | list | branch | input | output | notification =>
      exact nodesVia_plain_of_forall₂ hstmts hcarries h
  | choice => exact casesVia_plain_of_forall₂ hstmts hcarries h
  | rpc | action =>
      obtain ⟨input, hinput, h⟩ := exists_of_bind_eq_ok h
      obtain ⟨output, houtput, h⟩ := exists_of_bind_eq_ok h
      have hinput' := partVia_plain_of_forall₂ hrefs hstmts
        (fun b hb => hcarries b (List.mem_append_left _ hb)) hinput
      have houtput' := partVia_plain_of_forall₂ hrefs hstmts
        (fun b hb => hcarries b (List.mem_append_right _ hb)) houtput
      simp only [childrenVia, ok_bind, hinput', houtput']
      exact h
  | leaf | leafList | anydata | anyxml => exact h

/-- A node and its counterpart are the same where their constituents are. -/
theorem carries_node {kind : NodeKind} (hrefs : S.Refers refs refs')
    (htag : e.tag ≠ "grouping") (hclear : S.Clear (.constituent s ⟨some kind, e⟩))
    (hbelow : ∀ b ∈ constituents kind e.children, ∀ s₁ s₂, S.Clear (.constituent s₁ b) →
      S.Carries refs refs' s₁ s₂ b) :
    S.Carries refs refs' s s' ⟨some kind, e⟩ := by
  rintro e' inherited nodes he h
  obtain ⟨n, hn, rfl⟩ := map_eq_ok_iff.mp h
  refine map_eq_ok_iff.mpr ⟨n, ?_, rfl⟩
  have hmarked : ¬ S.marked s e := hclear.self
  have hcarries : ∀ b ∈ constituents kind e.children,
      S.Carries refs refs' (s.enter e) (s'.enter e') b := fun b hb =>
    hbelow b hb _ _ (hclear.part (.below hb))
  rw [nodeVia_eq] at hn ⊢
  obtain ⟨data, hdata, hn⟩ := exists_of_bind_eq_ok hn
  obtain ⟨children, hchildren, hn⟩ := exists_of_bind_eq_ok hn
  -- the definitions among the children are passed over, so the others are enough
  have hchildren' :=
    childrenVia_plain_of_forall₂ hrefs (S.children he hmarked) hcarries hchildren
  simp only [nodeDataOf_of_refers hrefs he htag hmarked hdata, hchildren', ok_bind]
  exact hn

theorem carries_uses (hrefs : S.Refers refs refs') (htag : e.tag ≠ "grouping")
    (hclear : S.Clear (.constituent s ⟨none, e⟩)) : S.Carries refs refs' s s' ⟨none, e⟩ := by
  rintro e' inherited used he h
  have hskeleton := S.skeleton he htag
  obtain ⟨name, hname, h⟩ := exists_of_bind_eq_ok h
  obtain ⟨found, hfound, h⟩ := exists_of_bind_eq_ok h
  cases found with
  | none => cases h
  | some found =>
      obtain ⟨grouping, inner⟩ := found
      obtain ⟨nodes, hnodes, h⟩ := exists_of_bind_eq_ok h
      obtain ⟨grouping', inner', hfound', hstmts⟩ := S.find (S.scope he) rfl hfound
      have hnodes' := hrefs.grouping hstmts (hclear.link (.uses ⟨name, hname, hfound⟩)) hnodes
      have hname' : argument s.owner e' "name" = .ok name := by
        rw [argument_of_skeleton hskeleton, hname]
      simp only [Constituent.nodes, usedNodes, S.owner (S.scope he), hname', hfound', hnodes',
        reading_skeleton.whenOf hskeleton, foldlM_refine_of_skeleton hskeleton, ok_bind]
      exact h

/-- While at most `depth` references are followed, what is resolved with a constituent is resolved
to the same with its counterpart, if nothing on the way is blocked. -/
theorem carries_of_refers {depth : Nat}
    (hrefs : S.Refers (.upTo env depth) (.upTo env' depth)) (b : Constituent)
    (htag : b.stmt.tag ≠ "grouping") (hclear : S.Clear (.constituent s b)) :
    S.Carries (.upTo env depth) (.upTo env' depth) s s' b := by
  obtain ⟨kind, e⟩ := b
  -- a `uses` statement ends the descent: what it leads to is up to `hrefs`
  induction e using Element.treeInduction generalizing kind s s' with
  | element e ih =>
      cases kind with
      | none => exact carries_uses hrefs htag hclear
      | some kind =>
          refine carries_node hrefs htag hclear fun b hb s₁ s₂ hb' => ?_
          refine ih b.stmt (mem_of_mem_constituents hb) b.kind ?_ hb'
          exact tag_of_mem_constituents hb ▸ b.keyword_ne_grouping

theorem body_of_refers {depth : Nat} (hrefs : S.Refers (.upTo env depth) (.upTo env' depth))
    (he : S.stmts s s' e e') (hclear : S.Clear (.grouping s e))
    (h : nodesVia env (.upTo env depth) (s.enter e) inherited e.children = .ok nodes) :
    nodesVia env' (.upTo env' depth) (s'.enter e') inherited e'.children = .ok nodes :=
  nodesVia_plain_of_forall₂ (S.children he hclear.self)
    (fun b hb => carries_of_refers hrefs b (tag_of_mem_body hb ▸ b.keyword_ne_grouping)
      (hclear.part (.body hb))) h

theorem refers_upTo (S : Simulation env env')
    (hnames : ∀ name, env'.nodeName name = env.nodeName name) (depth : Nat) :
    S.Refers (.upTo env depth) (.upTo env' depth) := by
  induction depth with
  | zero => exact ⟨hnames, fun hs he h => S.typeOf hs he h, fun _ _ h => by cases h⟩
  | succ depth ih =>
      exact ⟨hnames, fun hs he h => S.typeOf hs he h,
        fun he hclear h => body_of_refers ih he hclear h⟩

/-- The body of a grouping is resolved to the same nodes as that of its counterpart. -/
theorem body (S : Simulation env env')
    (hnames : ∀ name, env'.nodeName name = env.nodeName name) {depth : Nat} (he : S.stmts s s' e e')
    (hclear : S.Clear (.grouping s e))
    (h : nodesVia env (.upTo env depth) (s.enter e) inherited e.children = .ok nodes) :
    nodesVia env' (.upTo env' depth) (s'.enter e') inherited e'.children = .ok nodes :=
  body_of_refers (S.refers_upTo hnames depth) he hclear h

end Simulation

end Yin

end YangEvolution
