import Mathlib.Logic.Relation
import YangEvolution.Proofs.Expansion

/-!
Static scoping. What a definition stands for is fixed where it is declared: by its statement, the
statements around it and the definitions that are visible from there. Main statement: it is the same
at all places of use and in all sets of modules with the same visible modules; and where a module is
resolved, definitions of any name can be added to a statement around a use, and the definition that
the use leads to stands for the same as before if the statement is not around that definition. Only
at the top of a module that the definition sees, they must not come first under their names.
-/

namespace YangEvolution.Yin

open Text Markup Outcome

open Element (isDefinitionTag)

namespace Environment

/-- References lead, in some steps, from one module to another. -/
def Reaches (env : Environment) : ModuleSource → ModuleSource → Prop :=
  Relation.ReflTransGen fun m o => ∃ given, env.moduleOfPrefix m given = .ok o

/-- References lead, in some steps, from a module to the one that is found under `key`. -/
def Sees (env : Environment) (source : ModuleSource) (key : Option String) : Prop :=
  ∃ m given name, env.Reaches source m ∧ given ≠ m.nsPrefix ∧ m.imported? given = some name ∧
    env.keyOf name = key ∧ (env.source? key).isSome

/-- Where definitions are added at the top of a module that can be seen from `source`, none comes
before the first one of its keyword and name. -/
def Harmless (env : Environment) (added : List Element) (k : Nat) (a : Address)
    (source : ModuleSource) : Prop :=
  a.path = [] → env.Sees source a.module →
    ∀ target, env.source? a.module = some target → target.root.Undisturbed added k

/-- Prefixes that lead somewhere lead to the same module in `env'`, in all modules that references
lead to from one. -/
def Agrees (env env' : Environment) (source : ModuleSource) : Prop :=
  ∀ m, env.Reaches source m → ∀ given o, env.moduleOfPrefix m given = .ok o →
    env'.moduleOfPrefix m given = .ok o

end Environment

/-- The nodes that a grouping in the scope `inner` stands for. -/
def groupingNodes (env : Environment) (depth : Nat) (inner : Scope) (grouping : Element)
    (inherited : Option Bool) : Except LoadFault (List SchemaNode) :=
  nodesVia env (.upTo env depth) (inner.enter grouping) inherited grouping.children

/-- The grouping at an address stands for the same nodes in `env'` as in `env`. -/
def Keeps (env env' : Environment) (d : Address) (inner : Scope) (grouping : Element) : Prop :=
  ∃ inner' grouping', env'.scopeAt? d = some (inner'.enter grouping') ∧
    ∀ depth inherited nodes, groupingNodes env depth inner grouping inherited = .ok nodes →
      groupingNodes env' depth inner' grouping' inherited = .ok nodes

/-- The nodes that a `uses` statement in `scope` brings in, before its condition and its
refinements. -/
def broughtIn (env : Environment) (depth : Nat) (scope : Scope) (inherited : Option Bool)
    (stmt : Element) : Except LoadFault (List SchemaNode) := do
  let name ← argument scope.owner stmt "name"
  match ← env.findDefinition "grouping" scope name with
  | none => .error (.unresolvedGrouping scope.owner name)
  | some (grouping, inner) => (References.upTo env depth).grouping name grouping inner inherited

variable {env env' : Environment} {scope inner : Scope} {stmt : Element}

/-! ### Places of use -/

theorem usedNodes_eq_broughtIn (depth : Nat) (scope : Scope) (inherited : Option Bool)
    (stmt : Element) :
    usedNodes env (.upTo env depth) scope inherited stmt =
      broughtIn env depth scope inherited stmt >>= fun nodes =>
        (stmt.childrenOf "refine").foldlM (refine scope.owner) (conditioned stmt nodes) := by
  simp only [usedNodes, broughtIn, bind_assoc]
  congr 1
  funext name
  congr 1
  funext found
  cases found <;> rfl

theorem broughtIn_eq_ok_iff {grouping : Element} (h : LeadsTo env scope stmt grouping inner)
    {depth : Nat} {inherited : Option Bool} {nodes : List SchemaNode} :
    broughtIn env depth scope inherited stmt = .ok nodes ↔
      ∃ d, depth = d + 1 ∧ groupingNodes env d inner grouping inherited = .ok nodes := by
  obtain ⟨name, hname, hfound⟩ := h
  simp only [broughtIn, hname, ok_bind, hfound]
  constructor
  · exact grouping_upTo_eq_ok
  · rintro ⟨d, rfl, hnodes⟩
    exact hnodes

theorem namedType_eq_ok_iff {typedef : Element} (h : NamesTypedef env scope stmt typedef inner)
    {depth : Nat} {t : TypeDef} :
    namedType env (typedefResolver env depth) scope stmt = .ok t ↔
      ∃ d, depth = d + 1 ∧ typedefOf env d inner typedef = .ok t := by
  constructor
  · intro ht
    obtain ⟨name, hfollow⟩ := namedType_eq_ok h ht
    exact typedefResolver_eq_ok hfollow
  · rintro ⟨d, rfl, ht⟩
    obtain ⟨name, hname, hbuiltin, hfound⟩ := h
    simp only [namedType, hname, ok_bind, hbuiltin, hfound]
    exact ht

/-! ### Visible modules -/

section Agreement

variable {source : ModuleSource}

theorem reaches_of_findDefinition {keyword reference : String} {s i : Scope} {d : Element}
    (hs : env.Reaches source s.source)
    (hd : env.findDefinition keyword s reference = .ok (some (d, i))) :
    env.Reaches source i.source := by
  rcases (declares_of_findDefinition hd).cut with ⟨hsame, -⟩ | ⟨given, hgiven, -⟩
  · exact hsame ▸ hs
  · exact hs.tail ⟨given, hgiven⟩

theorem Environment.Agrees.qualify (h : env.Agrees env' source) {s : Scope}
    (hs : env.Reaches source s.source) {reference : String} {name : QName}
    (hname : env.qualify s reference = .ok name) : env'.qualify s reference = .ok name := by
  unfold Environment.qualify Environment.splitOwner at hname ⊢
  generalize splitReference reference = parts at hname ⊢
  obtain ⟨given | given, localName⟩ := parts
  · exact hname
  · obtain ⟨owner, howner, hqname⟩ := exists_of_bind_eq_ok hname
    obtain ⟨m, hm, heq⟩ := exists_of_bind_eq_ok howner
    cases heq
    simp only [h _ hs given m hm, ok_bind]
    exact hqname

theorem Environment.Agrees.findDefinition (h : env.Agrees env' source) {s : Scope}
    (hs : env.Reaches source s.source) {keyword reference : String} {found : Element × Scope}
    (hfound : env.findDefinition keyword s reference = .ok (some found)) :
    env'.findDefinition keyword s reference = .ok (some found) := by
  unfold Environment.findDefinition at hfound ⊢
  dsimp only at hfound ⊢
  generalize splitReference reference = parts at hfound ⊢
  obtain ⟨given | given, name⟩ := parts
  · exact hfound
  · dsimp only at hfound ⊢
    split at hfound
    · rename_i hgiven
      rw [if_pos hgiven]
      exact hfound
    · rename_i hgiven
      rw [if_neg hgiven]
      obtain ⟨m, hm, hfound⟩ := exists_of_bind_eq_ok hfound
      simp only [h _ hs given m hm, ok_bind]
      exact hfound

/-- Scopes of visible modules are the same where these modules are. -/
def Environment.Agrees.simulation (h : env.Agrees env' source) : Simulation env env' where
  scopes s s' := s' = s ∧ env.Reaches source s.source
  stmts s s' e e' := (s' = s ∧ env.Reaches source s.source) ∧ e' = e
  marked _ _ := False
  owner hs := by rw [hs.1]
  uri hs := by rw [hs.1]
  revision hs := by rw [hs.1]
  qualify := by
    rintro s _ reference name ⟨rfl, hs⟩ hname
    exact h.qualify hs hname
  find := by
    rintro s _ keyword reference d i ⟨rfl, hs⟩ - hd
    exact ⟨d, i, h.findDefinition hs hd, ⟨rfl, reaches_of_findDefinition hs hd⟩, rfl⟩
  scope he := he.1
  tag he := by rw [he.2]
  skeleton he _ := by rw [he.2]
  enter := by
    rintro s _ e _ ⟨⟨rfl, hs⟩, rfl⟩ -
    exact ⟨rfl, hs⟩
  children := by
    rintro s _ e _ ⟨⟨rfl, hs⟩, rfl⟩ -
    exact List.forall₂_same.mpr fun _ _ => ⟨⟨rfl, hs⟩, rfl⟩

theorem Environment.Agrees.typedefOf (h : env.Agrees env' inner.source) {depth : Nat}
    {typedef : Element} {t : TypeDef} (ht : Yin.typedefOf env depth inner typedef = .ok t) :
    Yin.typedefOf env' depth inner typedef = .ok t :=
  h.simulation.typedefOf ⟨rfl, .refl⟩ rfl ht

theorem Environment.Agrees.groupingNodes (h : env.Agrees env' inner.source)
    (hnames : ∀ name, env'.nodeName name = env.nodeName name) {depth : Nat} {grouping : Element}
    {inherited : Option Bool} {nodes : List SchemaNode}
    (hnodes : Yin.groupingNodes env depth inner grouping inherited = .ok nodes) :
    Yin.groupingNodes env' depth inner grouping inherited = .ok nodes := by
  refine h.simulation.body hnames ⟨⟨rfl, .refl⟩, rfl⟩ (fun n u _ hblocked => ?_) hnodes
  obtain _ | _ | ⟨_, _ | _, _⟩ | _ := u <;> exact hblocked

theorem agrees_of_eq (h : ∀ m, env.Reaches source m → ∀ given,
    env'.moduleOfPrefix m given = env.moduleOfPrefix m given) :
    env.Agrees env' source ∧ env'.Agrees env source := by
  have hreaches : ∀ m, env'.Reaches source m → env.Reaches source m := by
    intro m hm
    induction hm with
    | refl => exact .refl
    | tail _ hstep ih =>
        obtain ⟨given, hgiven⟩ := hstep
        exact ih.tail ⟨given, h _ ih given ▸ hgiven⟩
  exact ⟨fun m hm given o ho => (h m hm given).trans ho,
    fun m hm given o ho => (h m (hreaches m hm) given).symm.trans ho⟩

end Agreement

/-! ### Added definitions -/

section Insertion

variable {added : List Element} {k : Nat} {a d : Address}

/-- Where a module cannot be seen, definitions can be added in it. -/
theorem agrees_insertAt {source : ModuleSource} (h : ¬ env.Sees source a.module) :
    env.Agrees (env.insertAt added k a) source := by
  intro m hm given o ho
  by_cases hgiven : given = m.nsPrefix
  · rw [Environment.moduleOfPrefix, if_pos hgiven] at ho ⊢
    exact ho
  · obtain ⟨name, hname, ho⟩ := (moduleOfPrefix_eq_ok_iff hgiven).mp ho
    refine (moduleOfPrefix_eq_ok_iff hgiven).mpr ⟨name, hname, ?_⟩
    have hkey : env.keyOf name ≠ a.module := fun hkey =>
      h ⟨m, given, name, hm, hgiven, hname, hkey, by rw [← hkey, ho]; rfl⟩
    rw [keyOf_insertAt, source?_insertAt_of_ne hkey]
    exact ho

/-- What is added cannot be seen from `inner`, or it does not come before anything that a name leads
to at the top of a module. -/
theorem agrees_or_adds (hadded : ∀ x ∈ added, isDefinitionTag x.tag = true)
    (hd : env.scopeAt? d = some (inner.enter stmt)) (hinner : inner.ancestors ≠ [])
    (hencloses : ¬ a.Encloses d) (hroot : env.Harmless added k a inner.source) :
    (env.Agrees (env.insertAt added k a) inner.source ∧
      (env.insertAt added k a).scopeAt? d = some (inner.enter stmt)) ∨
      ∃ source, Adds env added k a source := by
  obtain ⟨hsource, hchain⟩ := scopeAt?_eq_some_iff.mp hd
  have hother : d.module ≠ a.module →
      (env.insertAt added k a).scopeAt? d = some (inner.enter stmt) := by
    intro hmodule
    refine scopeAt?_eq_some_iff.mpr ⟨?_, hchain⟩
    rw [source?_insertAt_of_ne hmodule]
    exact hsource
  cases htarget : env.source? a.module with
  | none =>
      refine .inl ⟨agrees_insertAt ?_, hother ?_⟩
      · rintro ⟨_, _, _, -, -, -, -, hsome⟩
        rw [htarget] at hsome
        cases hsome
      · intro hmodule
        rw [hmodule, htarget] at hsource
        cases hsource
  | some source =>
      by_cases hpath : a.path = []
      · by_cases hsees : env.Sees inner.source a.module
        · exact .inr ⟨source, htarget, hadded, fun hpath => hroot hpath hsees source htarget⟩
        · -- a whole module encloses all of its definitions, so this one is in another module
          refine .inl ⟨agrees_insertAt hsees, hother fun hmodule => ?_⟩
          refine hencloses ⟨hmodule.symm, hpath ▸ List.nil_prefix, fun heq => hinner ?_⟩
          rw [← heq, hpath] at hchain
          exact (List.cons.inj (Option.some.inj hchain)).2.symm
      · exact .inr ⟨source, htarget, hadded, fun hnil => absurd hnil hpath⟩

/-- A typedef stands for the same wherever definitions are added to a statement not around it. -/
theorem typedefOf_insertAt {typedef : Element}
    (hadded : ∀ x ∈ added, isDefinitionTag x.tag = true)
    (hd : env.scopeAt? d = some (inner.enter typedef)) (hinner : inner.ancestors ≠ [])
    (hencloses : ¬ a.Encloses d) (hroot : env.Harmless added k a inner.source) :
    ∃ inner' typedef', (env.insertAt added k a).scopeAt? d = some (inner'.enter typedef') ∧
      ∀ depth t, typedefOf env depth inner typedef = .ok t →
        typedefOf (env.insertAt added k a) depth inner' typedef' = .ok t := by
  rcases agrees_or_adds hadded hd hinner hencloses hroot with ⟨hagrees, hd'⟩ | ⟨source, h⟩
  · exact ⟨inner, typedef, hd', fun _ _ ht => hagrees.typedefOf ht⟩
  · obtain ⟨inner', typedef', hd', hmatched⟩ := h.exists_matched hd hinner hencloses
    refine ⟨inner', typedef', hd', fun _ _ ht => ?_⟩
    exact h.simulation.typedefOf hmatched.related (h.skeleton hmatched) ht

/-- Around a statement there is all that encloses its address. -/
theorem inside_of_encloses {u : Address} (h : a.Encloses u)
    (hu : env.scopeAt? u = some (scope.enter stmt)) :
    ∃ target above, chain? [scope.source.root] a.path = some (target :: above) ∧
      target :: above <:+ scope.ancestors ∧ env.source? a.module = some scope.source := by
  obtain ⟨hmodule, ⟨rest, hrest⟩, hne⟩ := h
  obtain ⟨hsource, hchain⟩ := scopeAt?_eq_some_iff.mp hu
  rw [← hrest, chain?_append] at hchain
  obtain ⟨chain, hbefore, hafter⟩ := Option.bind_eq_some_iff.mp hchain
  rcases List.eq_nil_or_concat rest with rfl | ⟨way, i, rfl⟩
  · exact absurd (by simpa using hrest) hne
  · rw [List.concat_eq_append] at hafter
    obtain ⟨_, _, _, hway, -, heq⟩ := chain?_concat hafter
    obtain ⟨-, hancestors⟩ := List.cons.inj heq
    have hsuffix : chain <:+ scope.ancestors := hancestors ▸ suffix_of_chain? hway
    cases chain with
    | nil => exact absurd (length_of_chain? hbefore) (by simp; omega)
    | cons target above => exact ⟨target, above, hbefore, hsuffix, hmodule ▸ hsource⟩

/-- The grouping that a `uses` statement leads to stands for the same with definitions added to a
statement around the `uses` statement that is not around the grouping. -/
theorem groupingNodes_insertAt {m : Module} (hm : env.module = .ok m) {u : Address}
    {grouping : Element} (hadded : ∀ x ∈ added, isDefinitionTag x.tag = true)
    (hbuilt : Built env (.constituent scope ⟨none, stmt⟩))
    (hu : env.scopeAt? u = some (scope.enter stmt)) (haround : a.Encloses u)
    (hleads : LeadsTo env scope stmt grouping inner)
    (hd : env.scopeAt? d = some (inner.enter grouping)) (hencloses : ¬ a.Encloses d)
    (hroot : env.Harmless added k a inner.source) :
    Keeps env (env.insertAt added k a) d inner grouping := by
  have hinner : inner.ancestors ≠ [] := by
    obtain ⟨name, -, hfound⟩ := hleads
    obtain ⟨parent, rest, hparent, -⟩ := (declares_of_findDefinition hfound).parent
    rw [hparent]
    exact List.cons_ne_nil _ _
  rcases agrees_or_adds hadded hd hinner hencloses hroot with ⟨hagrees, hd'⟩ | ⟨source, h⟩
  · exact ⟨inner, grouping, hd', fun _ _ _ => hagrees.groupingNodes nodeName_insertAt⟩
  · obtain ⟨inner', grouping', hd', hmatched⟩ := h.exists_matched hd hinner hencloses
    obtain ⟨target, above, htarget, hsuffix, hsource⟩ := inside_of_encloses haround hu
    rw [h.module] at hsource
    obtain rfl := Option.some.inj hsource
    have hclear : h.simulation.Clear (.grouping inner grouping) := by
      -- a whole module is never entered, and any other statement would lead back to itself
      by_cases hpath : a.path = []
      · exact fun _ _ _ hblocked => (isTarget_of_blocked h hblocked).1 hpath
      · exact clear_of_built h htarget hpath hm hbuilt ⟨rfl, hsuffix⟩ hleads
    exact ⟨inner', grouping', hd', fun _ _ _ => h.simulation.body nodeName_insertAt hmatched hclear⟩

end Insertion

theorem Built.exists_resolved {m : Module} (hm : env.module = .ok m) {s : Site}
    (hs : Built env s) : ∃ depth ≤ maxDepth, Resolved env depth s := by
  obtain ⟨top, n, hstated, hreached⟩ := hs
  obtain ⟨depth, hdepth, hresolved⟩ := exists_resolved_of_stated hm hstated
  obtain ⟨d, rfl, hd⟩ := hresolved.follows hreached
  exact ⟨d, by omega, hd⟩

/-- What definitions stand for is fixed where they are declared. -/
structure StaticallyScoped (env : Environment) : Prop where
  /-- All that the module is built of is resolved in the scope of the statements around it. -/
  scopes : ∀ s, Built env s → ∃ a, env.scopeAt? a = some s.scope
  /-- A reference leads to the first definition of its name in the innermost statement around it
  that has one, or at the top of the module of its prefix; it is resolved in the scope of the
  statement that declares it. -/
  declared : ∀ a scope keyword reference stmt inner, env.scopeAt? a = some scope →
    env.findDefinition keyword scope reference = .ok (some (stmt, inner)) →
    Declares env keyword reference scope stmt inner ∧
      ∃ b i, env.scopeAt? b = some inner ∧
        env.scopeAt? ⟨b.module, b.path ++ [i]⟩ = some (inner.enter stmt) ∧
        (b.module = a.module ∧ b.path <+: a.path ∨ b.path = [])
  /-- The condition and the refinements of a `uses` statement are applied to what it brings in. -/
  uses : ∀ depth scope inherited stmt,
    usedNodes env (.upTo env depth) scope inherited stmt =
      broughtIn env depth scope inherited stmt >>= fun nodes =>
        (stmt.childrenOf "refine").foldlM (refine scope.owner) (conditioned stmt nodes)
  /-- What it brings in is the grouping where it is declared. -/
  grouping : ∀ depth scope inherited stmt grouping inner nodes,
    LeadsTo env scope stmt grouping inner →
    (broughtIn env depth scope inherited stmt = .ok nodes ↔
      ∃ d, depth = d + 1 ∧ groupingNodes env d inner grouping inherited = .ok nodes)
  /-- Two `uses` statements that lead to one grouping bring in the same. -/
  alike : ∀ depth inherited scope stmt scope' stmt' grouping inner nodes,
    LeadsTo env scope stmt grouping inner → LeadsTo env scope' stmt' grouping inner →
    broughtIn env depth scope inherited stmt = .ok nodes →
    broughtIn env depth scope' inherited stmt' = .ok nodes
  /-- The type that a type statement names is the typedef where it is declared. -/
  type : ∀ depth scope stmt typedef inner t, NamesTypedef env scope stmt typedef inner →
    (namedType env (typedefResolver env depth) scope stmt = .ok t ↔
      ∃ d, depth = d + 1 ∧ typedefOf env d inner typedef = .ok t)
  /-- A definition stands for the same wherever the modules are the same that can be seen from it;
  the nodes of a grouping are named for the module that is being loaded. -/
  visible : ∀ env' inner, (∀ m, env.Reaches inner.source m → ∀ given,
      env'.moduleOfPrefix m given = env.moduleOfPrefix m given) →
    (∀ depth typedef t, typedefOf env' depth inner typedef = .ok t ↔
      typedefOf env depth inner typedef = .ok t) ∧
    ((∀ name, env'.nodeName name = env.nodeName name) → ∀ depth grouping inherited nodes,
      groupingNodes env' depth inner grouping inherited = .ok nodes ↔
        groupingNodes env depth inner grouping inherited = .ok nodes)
  /-- Where the module is resolved, so is all that it is built of. -/
  resolved : ∀ m s, env.module = .ok m → Built env s → ∃ depth ≤ maxDepth, Resolved env depth s
  /-- A document with more definitions is read as the module with more definitions. -/
  read : ∀ origin dir root added k path, (∀ x ∈ added, isDefinitionTag x.tag = true) →
    ModuleSource.ofElement origin dir (root.insertAt added k path) =
      (·.insertAt added k path) <$> ModuleSource.ofElement origin dir root
  /-- A typedef stands for the same when definitions are added to a statement not around it. -/
  typedefKept : ∀ added k a d inner typedef, (∀ x ∈ added, isDefinitionTag x.tag = true) →
    env.scopeAt? d = some (inner.enter typedef) → inner.ancestors ≠ [] → ¬ a.Encloses d →
    env.Harmless added k a inner.source →
    ∃ inner' typedef', (env.insertAt added k a).scopeAt? d = some (inner'.enter typedef') ∧
      ∀ depth t, typedefOf env depth inner typedef = .ok t →
        typedefOf (env.insertAt added k a) depth inner' typedef' = .ok t
  /-- Where the module is resolved and built of a `uses` statement, the grouping that this leads to
  stands for the same when definitions are added to a statement around it and not around the
  grouping. -/
  groupingKept : ∀ m added k a u d scope stmt inner grouping, env.module = .ok m →
    (∀ x ∈ added, isDefinitionTag x.tag = true) →
    Built env (.constituent scope ⟨none, stmt⟩) →
    env.scopeAt? u = some (scope.enter stmt) → a.Encloses u →
    LeadsTo env scope stmt grouping inner →
    env.scopeAt? d = some (inner.enter grouping) → ¬ a.Encloses d →
    env.Harmless added k a inner.source →
    Keeps env (env.insertAt added k a) d inner grouping

/-- Typedefs and groupings are statically scoped in every set of modules. -/
theorem definitions_staticallyScoped (env : Environment) : StaticallyScoped env where
  scopes _ hs := hs.placed.1
  declared _ _ _ _ _ _ ha hfound :=
    have hdeclares := declares_of_findDefinition hfound
    ⟨hdeclares, hdeclares.exists_scopeAt? ha⟩
  uses := usedNodes_eq_broughtIn
  grouping _ _ _ _ _ _ _ hleads := broughtIn_eq_ok_iff hleads
  alike _ _ _ _ _ _ _ _ _ hleads hleads' hnodes :=
    (broughtIn_eq_ok_iff hleads').mpr ((broughtIn_eq_ok_iff hleads).mp hnodes)
  type _ _ _ _ _ _ hnames := namedType_eq_ok_iff hnames
  visible _ _ hsame :=
    have ⟨hagrees, hagrees'⟩ := agrees_of_eq hsame
    ⟨fun _ _ _ => ⟨hagrees'.typedefOf, hagrees.typedefOf⟩, fun hnames _ _ _ _ =>
      ⟨hagrees'.groupingNodes fun name => (hnames name).symm, hagrees.groupingNodes hnames⟩⟩
  resolved _ _ hm hs := hs.exists_resolved hm
  read origin dir root _ _ path hadded := ofElement_insertAt hadded origin dir path root
  typedefKept _ _ _ _ _ _ hadded hd hinner hencloses hroot :=
    typedefOf_insertAt hadded hd hinner hencloses hroot
  groupingKept _ _ _ _ _ _ _ _ _ _ hm hadded hbuilt hu haround hleads hd hencloses hroot :=
    groupingNodes_insertAt hm hadded hbuilt hu haround hleads hd hencloses hroot

/-! ### Modules of stops -/

/-- A definition of the type of stop codes. -/
def codeOf (type : String) : Element :=
  typedefNamed "code" (typeNamed type [])

def moduleOf (name : String) (imports : List Import) (children : List Element) :
    ModuleSource where
  name := name
  uri := "urn:" ++ name
  nsPrefix := name
  revision := none
  revisions := []
  imports := imports
  root := stmtOf "module" name children
  dir := none

/-- The built-in types of nodes, in order. -/
def nodeTypes (nodes : List SchemaNode) : List (Option String) :=
  nodes.map fun n => n.data.type.map TypeDef.builtinName

theorem exists_of_nodeTypes (result : Except LoadFault (List SchemaNode))
    (types : List (Option String)) (h : result.toOption.map nodeTypes = some types) :
    ∃ nodes, result = .ok nodes ∧ nodeTypes nodes = types := by
  cases result with
  | error _ => cases h
  | ok nodes => exact ⟨nodes, rfl, Option.some.inj h⟩

/-- A leaf with a stop code. -/
def idLeaf : Element :=
  stmtOf "leaf" "id" [typeNamed "code" []]

/-- A trip that uses a grouping with a stop code. -/
def tripOfStops : Environment where
  main := moduleOf "stops" []
    [codeOf "string", stmtOf "grouping" "stop" [idLeaf],
      stmtOf "container" "trip" [stmtOf "uses" "stop" []]]
  imports := []

/-- Stop codes are defined anew around a use of the grouping, and the grouping keeps its own. -/
theorem definitions_staticallyScoped_trip :
    ∃ nodes, groupingNodes tripOfStops 1 (.top tripOfStops.main)
        (stmtOf "grouping" "stop" [idLeaf]) (some true) = .ok nodes ∧
      nodeTypes nodes = [some "string"] ∧
      Keeps tripOfStops (tripOfStops.insertAt [codeOf "int8"] 0 ⟨none, [2]⟩) ⟨none, [1]⟩
        (.top tripOfStops.main) (stmtOf "grouping" "stop" [idLeaf]) := by
  obtain ⟨nodes, hnodes, htypes⟩ := exists_of_nodeTypes
    (groupingNodes tripOfStops 1 (.top tripOfStops.main) (stmtOf "grouping" "stop" [idLeaf])
      (some true)) [some "string"] (by decide +kernel)
  have hbuilt : Built tripOfStops (.constituent ((Scope.top tripOfStops.main).enter
      (stmtOf "container" "trip" [stmtOf "uses" "stop" []])) ⟨none, stmtOf "uses" "stop" []⟩) :=
    ⟨_, 0, .data (b := ⟨some .container, _⟩) List.mem_cons_self,
      .part (.below List.mem_cons_self) (.refl _)⟩
  have hok : tripOfStops.module.isOk = true := by decide +kernel
  obtain ⟨m, hm⟩ := Outcome.exists_of_isOk hok
  refine ⟨nodes, hnodes, htypes, (definitions_staticallyScoped tripOfStops).groupingKept m
    [codeOf "int8"] 0 ⟨none, [2]⟩ ⟨none, [2, 0]⟩ ⟨none, [1]⟩ _ _ _ _ hm
    (List.forall_mem_singleton.mpr rfl) hbuilt rfl ⟨rfl, by decide, by decide⟩
    ⟨"stop", rfl, rfl⟩ rfl ?_ nofun⟩
  rintro ⟨-, hpath, -⟩
  exact absurd hpath (by decide)

/-- A grouping of nothing but a use of another one. -/
def relay (name used : String) : Element :=
  stmtOf "grouping" name [stmtOf "uses" used []]

/-- A grouping that is used by another one, with a use of the other one in it that no trip comes to.
-/
def spareUse : Environment where
  main := moduleOf "stops" []
    [codeOf "string", stmtOf "grouping" "line" [idLeaf, relay "spare" "stop"],
      relay "stop" "line", stmtOf "container" "trip" [stmtOf "uses" "stop" []]]
  imports := []

/-- A module of lines that refers to stops. -/
def linesModule : ModuleSource :=
  moduleOf "lines" [⟨"stops", "stops", none⟩] [relay "line" "stops:stop"]

/-- A trip that uses a grouping of another module, which refers back. -/
def linesOfStops : Environment where
  main := moduleOf "stops" [⟨"lines", "lines", none⟩]
    [codeOf "string", stmtOf "grouping" "stop" [idLeaf],
      stmtOf "container" "trip" [stmtOf "uses" "lines:line" []]]
  imports := [("lines", linesModule)]

theorem not_keeps {d : Address} {inner : Scope} {grouping : Element} (inner' : Scope)
    (grouping' : Element) {types types' : List (Option String)}
    (hd : env'.scopeAt? d = some (inner'.enter grouping'))
    (h : (groupingNodes env 2 inner grouping (some true)).toOption.map nodeTypes = some types)
    (h' : (groupingNodes env' 2 inner' grouping' (some true)).toOption.map nodeTypes = some types')
    (hne : types' ≠ types) : ¬ Keeps env env' d inner grouping := by
  rintro ⟨inner₁, grouping₁, hd₁, hkept⟩
  obtain ⟨hsource, hancestors⟩ := Scope.mk.inj (Option.some.inj (hd₁.symm.trans hd))
  obtain ⟨nodes, hnodes, htypes⟩ := exists_of_nodeTypes _ _ h
  obtain ⟨nodes', hnodes', htypes'⟩ := exists_of_nodeTypes _ _ h'
  obtain ⟨source, ancestors⟩ := inner'
  cases hsource
  cases hancestors
  cases (hkept 2 (some true) nodes hnodes).symm.trans hnodes'
  exact hne (htypes'.symm.trans htypes)

/-- Definitions that are added to a statement around a use change what a grouping stands for where
the use is not resolved, and where they come first at the top of a module that the grouping sees. -/
theorem added_definitions_change_grouping :
    (∃ m added k a u d scope stmt inner grouping, spareUse.module = .ok m ∧
      (∀ x ∈ added, isDefinitionTag x.tag = true) ∧ a.path ≠ [] ∧
      spareUse.scopeAt? u = some (scope.enter stmt) ∧ a.Encloses u ∧
      LeadsTo spareUse scope stmt grouping inner ∧
      spareUse.scopeAt? d = some (inner.enter grouping) ∧ ¬ a.Encloses d ∧
      ¬ Keeps spareUse (spareUse.insertAt added k a) d inner grouping) ∧
    ∃ m added k a u d scope stmt inner grouping, linesOfStops.module = .ok m ∧
      (∀ x ∈ added, isDefinitionTag x.tag = true) ∧
      Built linesOfStops (.constituent scope ⟨none, stmt⟩) ∧
      linesOfStops.scopeAt? u = some (scope.enter stmt) ∧ a.Encloses u ∧
      LeadsTo linesOfStops scope stmt grouping inner ∧
      linesOfStops.scopeAt? d = some (inner.enter grouping) ∧ ¬ a.Encloses d ∧
      ¬ Keeps linesOfStops (linesOfStops.insertAt added k a) d inner grouping := by
  constructor
  · have hok : spareUse.module.isOk = true := by decide +kernel
    obtain ⟨m, hm⟩ := Outcome.exists_of_isOk hok
    have hchanged : ¬ Keeps spareUse (spareUse.insertAt [codeOf "int8"] 0 ⟨none, [1]⟩) ⟨none, [2]⟩
        (.top spareUse.main) (relay "stop" "line") :=
      not_keeps (.top (spareUse.insertAt [codeOf "int8"] 0 ⟨none, [1]⟩).main)
        (relay "stop" "line") rfl (by decide +kernel) (by decide +kernel)
        (show [some "int8"] ≠ [some "string"] by decide)
    have huse : spareUse.scopeAt? ⟨none, [1, 1, 0]⟩ = some ((((Scope.top spareUse.main).enter
        (stmtOf "grouping" "line" [idLeaf, relay "spare" "stop"])).enter
        (relay "spare" "stop")).enter (stmtOf "uses" "stop" [])) := rfl
    refine ⟨m, [codeOf "int8"], 0, ⟨none, [1]⟩, ⟨none, [1, 1, 0]⟩, ⟨none, [2]⟩, _, _, _, _,
      hm, List.forall_mem_singleton.mpr rfl, List.cons_ne_nil _ _, huse,
      ⟨rfl, by decide, by decide⟩, ⟨"stop", rfl, rfl⟩, rfl, ?_, hchanged⟩
    rintro ⟨-, hpath, -⟩
    exact absurd hpath (by decide)
  · have hok : linesOfStops.module.isOk = true := by decide +kernel
    obtain ⟨m, hm⟩ := Outcome.exists_of_isOk hok
    have hchanged : ¬ Keeps linesOfStops (linesOfStops.insertAt [codeOf "int8"] 0 ⟨none, []⟩)
        ⟨some "lines", [0]⟩ (.top linesModule) (relay "line" "stops:stop") :=
      not_keeps (.top linesModule) (relay "line" "stops:stop") rfl (by decide +kernel)
        (by decide +kernel) (show [some "int8"] ≠ [some "string"] by decide)
    have hbuilt : Built linesOfStops (.constituent ((Scope.top linesOfStops.main).enter
        (stmtOf "container" "trip" [stmtOf "uses" "lines:line" []]))
        ⟨none, stmtOf "uses" "lines:line" []⟩) :=
      ⟨_, 0, .data (b := ⟨some .container, _⟩) List.mem_cons_self,
        .part (.below List.mem_cons_self) (.refl _)⟩
    refine ⟨m, [codeOf "int8"], 0, ⟨none, []⟩, ⟨none, [2, 0]⟩, ⟨some "lines", [0]⟩, _, _, _, _,
      hm, List.forall_mem_singleton.mpr rfl, hbuilt, rfl, ⟨rfl, by decide, by decide⟩,
      ⟨"lines:line", rfl, rfl⟩, rfl, ?_, hchanged⟩
    rintro ⟨hmodule, -, -⟩
    cases hmodule

end YangEvolution.Yin
