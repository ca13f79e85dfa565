import Mathlib.Data.List.Find
import YangEvolution.Proofs.Agreement
import YangEvolution.Proofs.NodeBuilding
import YangEvolution.Proofs.Reading

/-!
Modules that are told in another way: with other prefixes, in another order, or with statements
between that are not read. A retelling relates the statements of a module to the statements of
another text of it. Main statement: in the two texts, references lead to definitions that are
related again, and types are resolved to the same or both to a fault; where the retelling is strict,
the fault is the same, too.
-/

namespace YangEvolution.Yin

open Text Markup Outcome

/-! ### References with other prefixes -/

/-- A reference with another prefix, where it has one; the prefix is among the known ones. -/
structure Renamed (known : String → Prop) (rename : String → String) (given given' : String) :
    Prop where
  split : splitReference given' = ((splitReference given).1.map rename, (splitReference given).2)
  known : ∀ p, (splitReference given).1 = some p → known p

theorem Renamed.refl (given : String) : Renamed (fun _ => True) id given given :=
  ⟨by simp, fun _ _ => trivial⟩

theorem splitReference_of_cut {given : String} {lead rest : List Char}
    (h : cut [':'] (trimChars given.toList) = some (lead, rest)) :
    splitReference given = (some (String.ofList lead), String.ofList rest) := by
  simp only [splitReference, h]

theorem splitReference_of_no_cut {given : String} (h : cut [':'] (trimChars given.toList) = none) :
    splitReference given = (none, trim given) := by
  simp only [splitReference, h]
  rfl

theorem trim_eq_of_splitReference {given : String} (h : (splitReference given).1 = none) :
    trim given = (splitReference given).2 := by
  cases hcut : cut [':'] (trimChars given.toList) with
  | none => rw [splitReference_of_no_cut hcut]
  | some parts =>
      rw [splitReference_of_cut hcut] at h
      cases h

/-- The name of a built-in type has no prefix. -/
theorem ofName?_trim_of_splitReference {given p : String} (h : (splitReference given).1 = some p) :
    Builtin.ofName? (trim given) = none := by
  cases hcut : cut [':'] (trimChars given.toList) with
  | none =>
      rw [splitReference_of_no_cut hcut] at h
      cases h
  | some parts =>
      have hplain : ∀ b ∈ Builtin.all, ':' ∉ b.name.toList := by decide
      refine List.find?_eq_none.mpr fun b hb heq => hplain b hb ?_
      rw [beq_iff_eq.mp heq, trim, String.toList_ofList, eq_append_of_cut hcut]
      simp

theorem Renamed.builtin {known : String → Prop} {rename : String → String} {given given' : String}
    (h : Renamed known rename given given') :
    Builtin.ofName? (trim given') = Builtin.ofName? (trim given) := by
  have hfirst : (splitReference given').1 = (splitReference given).1.map rename := by rw [h.split]
  cases hgiven : (splitReference given).1 with
  | none =>
      have hgiven' : (splitReference given').1 = none := by rw [hfirst, hgiven, Option.map_none]
      rw [trim_eq_of_splitReference hgiven', trim_eq_of_splitReference hgiven, h.split]
  | some p =>
      have hgiven' : (splitReference given').1 = some (rename p) := by
        rw [hfirst, hgiven, Option.map_some]
      rw [ofName?_trim_of_splitReference hgiven', ofName?_trim_of_splitReference hgiven]

/-! ### Retellings -/

/-- The tags of definitions, in which order plays no part. -/
def definitionTags : List String :=
  ["typedef", "grouping", "identity", "augment", "rpc"]

/-- The tags of the statements at the top of a module that become definitions of it. -/
def topTags : List String :=
  ["rpc", "augment", "typedef", "identity"]

def isDefinition (stmt : Element) : Bool :=
  topTags.contains stmt.tag

/-- How the statements of a module are told in another text of it. What may differ is what is not
read, the prefixes, and the order of statements of different tags apart from those that nodes are
built from. A strict retelling keeps the prefixes and the order of definitions. -/
structure Retelling (strict : Prop) where
  stmt : Element → Element → Prop
  rename : String → String
  known : String → Prop
  reading : SameReading stmt
  rename_eq : ∀ p, strict → rename p = p
  attribute? : ∀ {e e' key}, stmt e e' → strict → e'.attribute? key = e.attribute? key
  reference : ∀ {e e'}, stmt e e' → e.tag ∈ ["type", "uses", "base"] →
    Option.Rel (Renamed known rename) (e.attribute? "name") (e'.attribute? "name")
  path : ∀ {e e'}, stmt e e' → e.tag ∈ ["augment", "refine"] →
    Option.Rel (fun path path' =>
      List.Forall₂ (Renamed known rename) (pathSteps path) (pathSteps path'))
      (e.attribute? "target-node") (e'.attribute? "target-node")
  declared : ∀ {e e'}, stmt e e' → e.tag = "prefix" →
    e'.attribute? "value" = (e.attribute? "value").map rename
  definitions : ∀ {e e' tag}, stmt e e' → tag ∈ definitionTags →
    List.Forall₂ stmt (e.childrenOf tag) (e'.childrenOf tag)
  nodes : ∀ {e e'}, stmt e e' →
    List.Forall₂ stmt (e.children.filter isNodeStatement) (e'.children.filter isNodeStatement)
  inOrder : ∀ {e e'}, stmt e e' → strict →
    List.Forall₂ stmt (e.children.filter isDefinition) (e'.children.filter isDefinition)

variable {strict : Prop}

namespace Retelling

/-- A retelling that keeps all attributes. -/
def ofAttributes (stmt : Element → Element → Prop)
    (htag : ∀ {e e'}, stmt e e' → e'.tag = e.tag) (htext : ∀ {e e'}, stmt e e' → e'.text = e.text)
    (hattributes : ∀ {e e'}, stmt e e' → e'.attributes = e.attributes)
    (hchildren : ∀ {e e' tag}, stmt e e' → tag ∈ readTags ++ definitionTags →
      List.Forall₂ stmt (e.childrenOf tag) (e'.childrenOf tag))
    (hnodes : ∀ {e e'}, stmt e e' →
      List.Forall₂ stmt (e.children.filter isNodeStatement) (e'.children.filter isNodeStatement))
    (hinOrder : ∀ {e e'}, stmt e e' → strict →
      List.Forall₂ stmt (e.children.filter isDefinition) (e'.children.filter isDefinition)) :
    Retelling strict where
  stmt
  rename := id
  known _ := True
  reading := {
    tag := htag
    text := htext
    attribute? := fun h _ => congrArg (List.lookup _) (hattributes h)
    childrenOf := fun h htag => hchildren h (List.mem_append_left _ htag) }
  rename_eq _ _ := rfl
  attribute? h _ := congrArg (List.lookup _) (hattributes h)
  reference h _ := by
    rw [Element.attribute?, Element.attribute?, hattributes h]
    exact optionRel_refl Renamed.refl _
  path h _ := by
    rw [Element.attribute?, Element.attribute?, hattributes h]
    refine optionRel_refl ?_ _
    intro path
    exact List.forall₂_same.mpr fun step _ => Renamed.refl step
  declared h _ := by
    rw [Element.attribute?, Element.attribute?, hattributes h, Option.map_id]
    rfl
  definitions h htag := hchildren h (List.mem_append_right _ htag)
  nodes := hnodes
  inOrder := hinOrder

/-- The retelling of other modules, which are the same. -/
def same : Retelling strict :=
  ofAttributes Eq (fun h => by rw [h]) (fun h => by rw [h]) (fun h => by rw [h])
    (fun h _ => h ▸ List.forall₂_refl _) (fun h => h ▸ List.forall₂_refl _)
    fun h _ => h ▸ List.forall₂_refl _

variable (t : Retelling strict) {e e' : Element}

/-- What a statement refers to is told with another prefix, or the statement has no argument in
both texts. -/
theorem argument_reference (h : t.stmt e e') (owner : String)
    (htag : e.tag ∈ ["type", "uses", "base"]) :
    Agree strict (fun given given' => Renamed t.known t.rename given given' ∧
      (strict → given' = given)) (argument owner e "name") (argument owner e' "name") := by
  have hsame : strict → e'.attribute? "name" = e.attribute? "name" := t.attribute? h
  have hrel := t.reference h htag
  rw [argument, argument, t.reading.tag h]
  generalize e.attribute? "name" = found at hrel hsame ⊢
  generalize e'.attribute? "name" = found' at hrel hsame ⊢
  cases hrel with
  | none => exact .error fun _ => rfl
  | some hgiven => exact .ok ⟨hgiven, fun hstrict => Option.some.inj (hsame hstrict)⟩

theorem argument_path (h : t.stmt e e') (owner : String) (htag : e.tag ∈ ["augment", "refine"]) :
    Agree strict (fun path path' =>
      List.Forall₂ (Renamed t.known t.rename) (pathSteps path) (pathSteps path') ∧
        (strict → path' = path)) (argument owner e "target-node")
      (argument owner e' "target-node") := by
  have hsame : strict → e'.attribute? "target-node" = e.attribute? "target-node" := t.attribute? h
  have hrel := t.path h htag
  rw [argument, argument, t.reading.tag h]
  generalize e.attribute? "target-node" = found at hrel hsame ⊢
  generalize e'.attribute? "target-node" = found' at hrel hsame ⊢
  cases hrel with
  | none => exact .error fun _ => rfl
  | some hpath => exact .ok ⟨hpath, fun hstrict => Option.some.inj (hsame hstrict)⟩

end Retelling

/-! ### Two texts of the module that is being loaded -/

namespace ModuleSource

/-- The prefixes that a module declares: its own and those of its imports. -/
def prefixes (m : ModuleSource) : List String :=
  m.nsPrefix :: m.imports.map Import.nsPrefix

/-- The header of another text of a module. -/
def retell (m : ModuleSource) (rename : String → String) (root : Element) : ModuleSource :=
  { m with
    nsPrefix := rename m.nsPrefix
    imports := m.imports.map fun i => { i with nsPrefix := rename i.nsPrefix }
    root }

end ModuleSource

/-- Environments of two texts of one module, with the same imported modules. Prefixes that are told
apart in one text are told apart in the other. -/
structure Retold (t : Retelling strict) (env env' : Environment) : Prop where
  main : env'.main = env.main.retell t.rename env'.main.root
  root : t.stmt env.main.root env'.main.root
  imports : env'.imports = env.imports
  apart : ∀ p q, t.known p → q ∈ env.main.prefixes → t.rename p = t.rename q → p = q

/-- The modules that statements come from: the two texts of the main module, or another module,
which is the same in both environments. -/
inductive Voice (t : Retelling strict) (env env' : Environment) :
    Retelling strict → ModuleSource → ModuleSource → Prop where
  | main : Voice t env env' t env.main env'.main
  | other (m : ModuleSource) : Voice t env env' .same m m

/-- Scopes of the two environments in which corresponding statements stand. -/
structure Hears (t : Retelling strict) (env env' : Environment) (u : Retelling strict)
    (s s' : Scope) : Prop where
  voice : Voice t env env' u s.source s'.source
  ancestors : List.Forall₂ u.stmt s.ancestors s'.ancestors

variable {t u : Retelling strict} {env env' : Environment} {m m' : ModuleSource} {s s' : Scope}
  {e e' : Element}

theorem Hears.enter (hs : Hears t env env' u s s') (he : u.stmt e e') :
    Hears t env env' u (s.enter e) (s'.enter e') :=
  ⟨hs.voice, .cons he hs.ancestors⟩

namespace Retold

variable (h : Retold t env env')

include h

theorem name (hv : Voice t env env' u m m') : m'.name = m.name := by
  cases hv with
  | main => rw [h.main]; rfl
  | other => rfl

theorem uri (hv : Voice t env env' u m m') : m'.uri = m.uri := by
  cases hv with
  | main => rw [h.main]; rfl
  | other => rfl

theorem revision (hv : Voice t env env' u m m') : m'.revision = m.revision := by
  cases hv with
  | main => rw [h.main]; rfl
  | other => rfl

theorem nodeName (name : String) : env'.nodeName name = env.nodeName name := by
  rw [Environment.nodeName, Environment.nodeName, h.uri (u := t) .main, h.revision (u := t) .main]

theorem owner (hs : Hears t env env' u s s') : s'.owner = s.owner :=
  h.name hs.voice

/-- A prefix is the own one of a module in both texts or in none. -/
theorem isOwn_iff (hv : Voice t env env' u m m') {p : String} (hp : u.known p) :
    u.rename p = m'.nsPrefix ↔ p = m.nsPrefix := by
  cases hv with
  | main =>
      rw [h.main]
      constructor
      · exact h.apart p _ hp List.mem_cons_self
      · exact congrArg t.rename
  | other => exact Iff.rfl

theorem imported? (hv : Voice t env env' u m m') {p : String} (hp : u.known p) :
    m'.imported? (u.rename p) = m.imported? p := by
  cases hv with
  | main =>
      rw [h.main, ModuleSource.imported?, ModuleSource.imported?, ModuleSource.retell]
      simp only [List.find?_map, Option.map_map]
      have hsame : env.main.imports.find? ((fun i : Import => i.nsPrefix == t.rename p) ∘
          fun i => { i with nsPrefix := t.rename i.nsPrefix }) =
          env.main.imports.find? fun i => i.nsPrefix == p := by
        refine List.find?_congr fun i hi => ?_
        rw [Function.comp_apply, Bool.eq_iff_iff, beq_iff_eq, beq_iff_eq]
        constructor
        · intro heq
          exact (h.apart p _ hp (List.mem_cons_of_mem _ (List.mem_map_of_mem hi)) heq.symm).symm
        · exact congrArg t.rename
      rw [hsame]
      rfl
  | other => rfl

theorem moduleOfPrefix (hv : Voice t env env' u m m') {p : String} (hp : u.known p) :
    Agree strict (fun k k' => ∃ v, Voice t env env' v k k') (env.moduleOfPrefix m p)
      (env'.moduleOfPrefix m' (u.rename p)) := by
  have hfault : strict → LoadFault.unknownPrefix m'.name (u.rename p) = .unknownPrefix m.name p :=
    fun hstrict => by rw [h.name hv, u.rename_eq p hstrict]
  rw [Environment.moduleOfPrefix, Environment.moduleOfPrefix, h.imported? hv hp, h.imports,
    h.name (u := t) .main]
  by_cases hown : p = m.nsPrefix
  · rw [if_pos hown, if_pos ((h.isOwn_iff hv hp).mpr hown)]
    exact .ok ⟨u, hv⟩
  · rw [if_neg hown, if_neg (mt (h.isOwn_iff hv hp).mp hown)]
    cases m.imported? p with
    | none => exact .error hfault
    | some name =>
        by_cases hmain : name = env.main.name
        · simp only [if_pos hmain]
          exact .ok ⟨t, .main⟩
        · simp only [if_neg hmain]
          cases env.imports.lookup name with
          | none => exact .error hfault
          | some k => exact .ok ⟨.same, .other k⟩

theorem splitOwner (hv : Voice t env env' u m m') {given given' : String}
    (hgiven : Renamed u.known u.rename given given') :
    Agree strict (fun k k' => (∃ v, Voice t env env' v k.1 k'.1) ∧ k'.2 = k.2)
      (env.splitOwner m given) (env'.splitOwner m' given') := by
  rw [Environment.splitOwner, Environment.splitOwner, hgiven.split]
  have hknown := hgiven.known
  generalize splitReference given = parts at hknown ⊢
  obtain ⟨lead, rest⟩ := parts
  cases lead with
  | none => exact .ok ⟨⟨u, hv⟩, rfl⟩
  | some p =>
      refine (h.moduleOfPrefix hv (hknown p rfl)).bind fun k k' hk => ?_
      exact .ok ⟨hk, rfl⟩

theorem qualify (hs : Hears t env env' u s s') {given given' : String}
    (hgiven : Renamed u.known u.rename given given') :
    Agree strict Eq (env.qualify s given) (env'.qualify s' given') := by
  refine (h.splitOwner hs.voice hgiven).bind ?_
  rintro ⟨k, rest⟩ ⟨k', _⟩ ⟨⟨v, hk⟩, rfl⟩
  exact .ok (by rw [h.uri hk, h.revision hk])

/-! ### Definitions -/

/-- Definitions that correspond, with scopes that do. -/
def Found (t : Retelling strict) (env env' : Environment) (keyword : String)
    (d d' : Element × Scope) : Prop :=
  d.1.tag = keyword ∧ ∃ v : Retelling strict, v.stmt d.1 d'.1 ∧ Hears t env env' v d.2 d'.2

omit h in
theorem findNamed? (he : u.stmt e e') {keyword : String}
    (hkeyword : keyword ∈ ["typedef", "grouping"]) (name : String) :
    Option.Rel (fun d d' => d.tag = keyword ∧ u.stmt d d') (Yin.findNamed? e keyword name)
      (Yin.findNamed? e' keyword name) := by
  have hfilter : ∀ e : Element, Yin.findNamed? e keyword name =
      (e.childrenOf keyword).find? fun c => c.attribute? "name" == some name := fun e => by
    rw [Element.childrenOf, List.find?_filter, Yin.findNamed?]
    simp only [Bool.decide_and, Bool.decide_eq_true]
  have htags : ["typedef", "grouping"] ⊆ definitionTags := by decide
  have hboth := (List.forall₂_and_left (p := fun c : Element => c.tag = keyword) _ _).mpr
    ⟨fun c hc => by simpa using (List.mem_filter.mp hc).2, u.definitions he (htags hkeyword)⟩
  rw [hfilter, hfilter]
  refine find?_of_forall₂ hboth ?_
  rintro d d' ⟨rfl, hd⟩
  have hplain : ∀ tag ∈ ["typedef", "grouping"], holdsPrefix tag "name" = false := by decide
  rw [u.reading.attribute? hd (hplain d.tag hkeyword)]

omit h in
theorem findEnclosed? {keyword : String} (hkeyword : keyword ∈ ["typedef", "grouping"])
    (name : String) {ancestors ancestors' : List Element}
    (ha : List.Forall₂ u.stmt ancestors ancestors') :
    Option.Rel (fun d d' => d.1.tag = keyword ∧ u.stmt d.1 d'.1 ∧ List.Forall₂ u.stmt d.2 d'.2)
      (Yin.findEnclosed? keyword name ancestors) (Yin.findEnclosed? keyword name ancestors') := by
  induction ha with
  | nil => exact .none
  | @cons a a' rest rest' hab hrest ih =>
      rw [Yin.findEnclosed?, Yin.findEnclosed?]
      have hnamed := findNamed? hab hkeyword name
      generalize Yin.findNamed? a keyword name = found at hnamed ⊢
      generalize Yin.findNamed? a' keyword name = found' at hnamed ⊢
      cases hnamed with
      | none => exact ih
      | some hd => exact .some ⟨hd.1, hd.2, .cons hab hrest⟩

theorem top (hv : Voice t env env' u m m') : Hears t env env' u (Scope.top m) (Scope.top m') := by
  refine ⟨hv, .cons ?_ .nil⟩
  cases hv with
  | main => exact h.root
  | other => exact rfl

theorem findDefinition (hs : Hears t env env' u s s') {keyword : String}
    (hkeyword : keyword ∈ ["typedef", "grouping"]) {given given' : String}
    (hgiven : Renamed u.known u.rename given given') :
    Agree strict (Option.Rel (Found t env env' keyword)) (env.findDefinition keyword s given)
      (env'.findDefinition keyword s' given') := by
  have henclosed : ∀ name, Option.Rel (Found t env env' keyword)
      ((Yin.findEnclosed? keyword name s.ancestors).map fun d => (d.1, ⟨s.source, d.2⟩))
      ((Yin.findEnclosed? keyword name s'.ancestors).map fun d => (d.1, ⟨s'.source, d.2⟩)) := by
    intro name
    refine optionRel_map (findEnclosed? hkeyword name hs.ancestors) ?_
    rintro d d' ⟨htag, hd, hancestors⟩
    exact ⟨htag, u, hd, hs.voice, hancestors⟩
  have hknown := hgiven.known
  simp only [Environment.findDefinition, hgiven.split]
  generalize splitReference given = parts at hknown ⊢
  obtain ⟨lead, name⟩ := parts
  cases lead with
  | none => exact .ok (henclosed name)
  | some p =>
      by_cases hown : p = s.source.nsPrefix
      · have hown' := (h.isOwn_iff hs.voice (hknown p rfl)).mpr hown
        simp only [Option.map_some, if_pos hown, if_pos hown']
        exact .ok (henclosed name)
      · simp only [Option.map_some, if_neg hown,
          if_neg (mt (h.isOwn_iff hs.voice (hknown p rfl)).mp hown)]
        refine (h.moduleOfPrefix hs.voice (hknown p rfl)).bind ?_
        rintro k k' ⟨v, hk⟩
        have htop := h.top hk
        refine .ok (optionRel_map
          (findNamed? (List.forall₂_cons.mp htop.ancestors).1 hkeyword name) ?_)
        rintro d d' ⟨htag, hd⟩
        exact ⟨htag, v, hd, htop⟩

/-! ### Types -/

theorem baseIdentities (hs : Hears t env env' u s s') (he : u.stmt e e') :
    Agree strict Eq (Yin.baseIdentities env s e) (Yin.baseIdentities env' s' e') := by
  refine .mapM_eq ((u.reading.tagged he (by decide)).imp ?_)
  rintro b b' ⟨htag, hb⟩
  rw [h.owner hs]
  refine (u.argument_reference hb s.owner (by rw [htag]; decide)).bind ?_
  rintro given given' ⟨hgiven, -⟩
  exact h.qualify hs hgiven

theorem restrict (hs : Hears t env env' u s s') (he : u.stmt e e') (builtin : Option Builtin)
    {members members' : Unit → Except LoadFault (List TypeDef)}
    (hmembers : Agree strict Eq (members ()) (members' ())) (inherited : Facets TypeDef) :
    Agree strict Eq (Yin.restrict env s e builtin members inherited)
      (Yin.restrict env' s' e' builtin members' inherited) := by
  cases inherited with
  | identityref bases => exact (h.baseIdentities hs he).bind_eq fun _ => .refl _
  | union inherited => exact hmembers.bind_eq fun _ => .refl _
  | none | binary _ | string _ _ | numeric _ | enumeration _ | bits _ =>
      refine .of_eq (u.reading.restrict he (h.owner hs) builtin ?_ ?_)
      all_goals exact fun _ heq => by cases heq

/-- Typedefs that correspond are followed to the same. -/
def Follows (t : Retelling strict) (env env' : Environment) (follow follow' : TypedefResolver) :
    Prop :=
  ∀ (v : Retelling strict) (name name' : String) (d d' : Element) (i i' : Scope),
    (strict → name' = name) → v.stmt d d' → d.tag = "typedef" → Hears t env env' v i i' →
    Agree strict Eq (follow name d i) (follow' name' d' i')

section Following

variable {follow follow' : TypedefResolver} (hfollow : Follows t env env' follow follow')

include hfollow

theorem namedType (hs : Hears t env env' u s s') (he : u.stmt e e') (htag : e.tag = "type") :
    Agree strict Eq (Yin.namedType env follow s e) (Yin.namedType env' follow' s' e') := by
  rw [Yin.namedType, Yin.namedType, h.owner hs]
  refine (u.argument_reference he s.owner (by rw [htag]; decide)).bind ?_
  rintro name name' ⟨hgiven, hsame⟩
  rw [hgiven.builtin]
  cases Builtin.ofName? (trim name) with
  | some b => exact .refl _
  | none =>
      refine (h.findDefinition hs (by decide) hgiven).bind fun found found' hfound => ?_
      cases hfound with
      | none => exact .error fun hstrict => by rw [hsame hstrict]
      | some hd =>
          obtain ⟨hkeyword, v, hstmt, hinner⟩ := hd
          exact hfollow v name name' _ _ _ _ hsame hstmt hkeyword hinner

theorem typeVia (hs : Hears t env env' u s s') (he : u.stmt e e') (htag : e.tag = "type") :
    Agree strict Eq (Yin.typeVia env follow s e) (Yin.typeVia env' follow' s' e') := by
  -- the members of a union are in the statement itself and are resolved in the same scope
  induction e using Element.treeInduction generalizing e' with
  | element e ih =>
      have hmembers : Agree strict Eq (membersVia env follow s e.children)
          (membersVia env' follow' s' e'.children) := by
        rw [membersVia_eq_mapM, membersVia_eq_mapM]
        have htypes := (List.forall₂_and_left (p := fun c : Element => c ∈ e.children) _ _).mpr
          ⟨fun c hc => List.mem_of_mem_filter hc,
            u.reading.tagged he (show "type" ∈ readTags by decide)⟩
        refine .mapM_eq (htypes.imp ?_)
        rintro c c' ⟨hmem, hctag, hc⟩
        exact ih c hmem hc hctag
      have hnamed := h.namedType hfollow hs he htag
      have hrestrict : ∀ base : TypeDef, Agree strict Eq
          (Yin.restrict env s e base.builtin? (fun _ => membersVia env follow s e.children)
            base.facets)
          (Yin.restrict env' s' e' base.builtin? (fun _ => membersVia env' follow' s' e'.children)
            base.facets) :=
        fun base => h.restrict hs he base.builtin? hmembers base.facets
      have hrestricted := u.reading.isRestricted he
      obtain ⟨tag, nsPrefix, attributes, children, text⟩ := e
      obtain ⟨tag', nsPrefix', attributes', children', text'⟩ := e'
      rw [Yin.typeVia, Yin.typeVia]
      refine hnamed.bind_eq fun base => ?_
      rw [hrestricted, h.owner hs]
      split
      · exact (hrestrict base).bind_eq fun _ => .refl _
      · exact .refl _

end Following

theorem typedefVia (hs : Hears t env env' u s s') (he : u.stmt e e') (htag : e.tag = "typedef")
    {resolve resolve' : Element → Except LoadFault TypeDef}
    (hresolve : ∀ c c', u.stmt c c' → c.tag = "type" →
      Agree strict Eq (resolve c) (resolve' c')) :
    Agree strict Eq (Yin.typedefVia resolve s e) (Yin.typedefVia resolve' s' e') := by
  have hR := u.reading
  have htype := hR.child? he "type" (by decide)
  rw [Yin.typedefVia, Yin.typedefVia, h.owner hs,
    hR.argument he s.owner "name" (by rw [htag]; decide)]
  refine (Agree.refl _).bind_eq fun name => ?_
  generalize e.child? "type" = found at htype ⊢
  generalize e'.child? "type" = found' at htype ⊢
  cases htype with
  | none => exact .refl _
  | some hc =>
      refine (hresolve _ _ hc.2 hc.1).bind_eq fun base => ?_
      rw [hR.statusOf he, hR.childAttribute? he "default" "value" (by decide) (by decide),
        hR.childAttribute? he "units" "name" (by decide) (by decide), hR.descriptionOf he,
        hR.referenceOf he, h.uri hs.voice, h.revision hs.voice]
      exact .refl _

theorem typeOf {depth : Nat} (hs : Hears t env env' u s s') (he : u.stmt e e')
    (htag : e.tag = "type") :
    Agree strict Eq (Yin.typeOf env depth s e) (Yin.typeOf env' depth s' e') := by
  -- a typedef is followed with one reference less, in scopes that correspond again
  induction depth generalizing u s s' e e' with
  | zero =>
      rw [Yin.typeOf, Yin.typeOf]
      refine h.typeVia ?_ hs he htag
      intro v name name' d d' i i' hsame _ _ hi
      exact .error fun hstrict => by rw [hsame hstrict, h.owner hi]
  | succ depth ih =>
      rw [Yin.typeOf, Yin.typeOf]
      refine h.typeVia ?_ hs he htag
      intro v name name' d d' i i' _ hd hkeyword hi
      exact h.typedefVia hi hd hkeyword fun c c' hc hctag => ih hi hc hctag

theorem typedefOf {depth : Nat} (hs : Hears t env env' u s s') (he : u.stmt e e')
    (htag : e.tag = "typedef") :
    Agree strict Eq (Yin.typedefOf env depth s e) (Yin.typedefOf env' depth s' e') :=
  h.typedefVia hs he htag fun _ _ hc hctag => h.typeOf hs hc hctag

end Retold

end YangEvolution.Yin
