import YangEvolution.Proofs.NodeBuilding

/-!
Chains of references. To resolve a statement is to resolve statements in it and, where it refers to
a typedef or to a grouping, that definition wherever it stands. Main statement: as references are
counted, every descent ends; and from what a resolved module is built of, no chain of references has
more than `maxDepth` links, so that no definition on a chain refers to itself.
-/

namespace YangEvolution.Yin

open Text Markup Outcome

/-- A statement to resolve, with its scope. -/
inductive Site where
  | type (scope : Scope) (stmt : Element)
  | typedef (scope : Scope) (stmt : Element)
  | constituent (scope : Scope) (b : Constituent)
  | grouping (scope : Scope) (stmt : Element)

def Site.stmt : Site → Element
  | .type _ stmt => stmt
  | .typedef _ stmt => stmt
  | .constituent _ b => b.stmt
  | .grouping _ stmt => stmt

/-- A type statement in `scope` names a typedef in the scope `inner`. -/
def NamesTypedef (env : Environment) (scope : Scope) (stmt typedef : Element) (inner : Scope) :
    Prop :=
  ∃ name, argument scope.owner stmt "name" = .ok name ∧ Builtin.ofName? (trim name) = none ∧
    env.findDefinition "typedef" scope name = .ok (some (typedef, inner))

/-- A type statement names the built-in union, or a typedef whose type statement does so. -/
inductive NamesUnion (env : Environment) : Scope → Element → Prop where
  | builtin {scope : Scope} {stmt : Element} {name : String} :
      argument scope.owner stmt "name" = .ok name → Builtin.ofName? (trim name) = some .union →
      NamesUnion env scope stmt
  | typedef {scope inner : Scope} {stmt typedef type : Element} :
      NamesTypedef env scope stmt typedef inner → typedef.child? "type" = some type →
      NamesUnion env inner type → NamesUnion env scope stmt

/-- The second site is in the statement of the first and is resolved with it. -/
inductive Part (env : Environment) : Site → Site → Prop where
  | member {scope : Scope} {stmt member : Element} : NamesUnion env scope stmt →
      member ∈ stmt.children → member.tag = "type" →
      Part env (.type scope stmt) (.type scope member)
  | definedType {scope : Scope} {stmt type : Element} : stmt.child? "type" = some type →
      Part env (.typedef scope stmt) (.type scope type)
  | nodeType {scope : Scope} {kind : NodeKind} {stmt type : Element} : kind.isTyped = true →
      stmt.child? "type" = some type →
      Part env (.constituent scope ⟨some kind, stmt⟩) (.type (scope.enter stmt) type)
  | below {scope : Scope} {kind : NodeKind} {stmt : Element} {b : Constituent} :
      b ∈ constituents kind stmt.children →
      Part env (.constituent scope ⟨some kind, stmt⟩) (.constituent (scope.enter stmt) b)
  | body {scope : Scope} {stmt : Element} {b : Constituent} :
      b ∈ stmt.children.filterMap bodyConstituent? →
      Part env (.grouping scope stmt) (.constituent (scope.enter stmt) b)

/-- The first site refers to the second, which is a definition. -/
inductive Link (env : Environment) : Site → Site → Prop where
  | type {scope inner : Scope} {stmt typedef : Element} :
      NamesTypedef env scope stmt typedef inner →
      Link env (.type scope stmt) (.typedef inner typedef)
  | uses {scope inner : Scope} {stmt grouping : Element} :
      LeadsTo env scope stmt grouping inner →
      Link env (.constituent scope ⟨none, stmt⟩) (.grouping inner grouping)

/-- `Follows env s n t`: what is resolved with `s` leads to `t` by a chain of `n` references. -/
inductive Follows (env : Environment) : Site → Nat → Site → Prop where
  | refl (s : Site) : Follows env s 0 s
  | part {s t u : Site} {n : Nat} : Part env s t → Follows env t n u → Follows env s n u
  | link {s t u : Site} {n : Nat} : Link env s t → Follows env t n u → Follows env s (n + 1) u

/-- One step of resolving a site while a number of references may still be followed. -/
inductive Calls (env : Environment) : Nat × Site → Nat × Site → Prop where
  | part {s t : Site} (depth : Nat) : Part env s t → Calls env (depth, s) (depth, t)
  | link {s t : Site} (depth : Nat) : Link env s t → Calls env (depth + 1, s) (depth, t)

/-- The statements at the top of a module that it is built of. -/
inductive Stated (env : Environment) : Site → Prop where
  | data {b : Constituent} : b ∈ env.main.root.children.filterMap bodyConstituent? →
      Stated env (.constituent (.top env.main) b)
  | rpc {stmt : Element} : stmt ∈ env.main.root.children → stmt.tag = "rpc" →
      Stated env (.constituent (.top env.main) ⟨some .rpc, stmt⟩)
  | augmentation {stmt : Element} {b : Constituent} : stmt ∈ env.main.root.children →
      stmt.tag = "augment" → b ∈ stmt.children.filterMap bodyConstituent? →
      Stated env (.constituent ((Scope.top env.main).enter stmt) b)
  | typedef {stmt : Element} : stmt ∈ env.main.root.children → stmt.tag = "typedef" →
      Stated env (.typedef (.top env.main) stmt)

/-- A statement that a module is built of, in the module or where references lead. -/
def Built (env : Environment) (s : Site) : Prop :=
  ∃ top n, Stated env top ∧ Follows env top n s

variable {env : Environment} {scope : Scope}

theorem Stated.built {s : Site} (h : Stated env s) : Built env s :=
  ⟨s, 0, h, .refl s⟩

theorem Follows.trans {s t u : Site} {n k : Nat} (h : Follows env s n t)
    (h' : Follows env t k u) : Follows env s (n + k) u := by
  induction h with
  | refl => simpa using h'
  | part hpart _ ih => exact .part hpart (ih h')
  | link hlink _ ih =>
      rw [Nat.add_right_comm]
      exact .link hlink (ih h')

theorem Built.part {s t : Site} (h : Built env s) (hpart : Part env s t) : Built env t := by
  obtain ⟨top, n, htop, hs⟩ := h
  exact ⟨top, n, htop, hs.trans (.part hpart (.refl t))⟩

theorem Built.link {s t : Site} (h : Built env s) (hlink : Link env s t) : Built env t := by
  obtain ⟨top, n, htop, hs⟩ := h
  exact ⟨top, n + 1, htop, hs.trans (.link hlink (.refl t))⟩

/-- A chain from a site to itself can be followed any number of times. -/
theorem Follows.repeat {s : Site} {n : Nat} (h : Follows env s n s) (k : Nat) :
    Follows env s (k * n) s := by
  induction k with
  | zero => simpa using Follows.refl s
  | succ k ih =>
      rw [Nat.succ_mul]
      exact ih.trans h

/-! ### Every descent ends -/

theorem Part.stmt_mem {s t : Site} (h : Part env s t) : t.stmt ∈ s.stmt.children := by
  cases h with
  | member _ hmember _ => exact hmember
  | definedType htype => exact Element.mem_of_child? htype
  | nodeType _ htype => exact Element.mem_of_child? htype
  | below hb => exact mem_of_mem_constituents hb
  | @body scope stmt b hb =>
      have hcontainer : b ∈ constituents .container stmt.children := hb
      exact mem_of_mem_constituents hcontainer

/-- Parts are smaller statements; a reference may lead to any statement, but it uses up a link. -/
theorem acc_calls (depth : Nat) (s : Site) : Acc (fun t s => Calls env s t) (depth, s) := by
  have hbetween : ∀ depth, (∀ d t, depth = d + 1 → Acc (fun t s => Calls env s t) (d, t)) →
      ∀ stmt s, s.stmt = stmt → Acc (fun t s => Calls env s t) (depth, s) := by
    intro depth hlinks stmt
    induction stmt using Element.treeInduction with
    | element stmt ih =>
        rintro s rfl
        refine .intro _ ?_
        rintro _ (⟨_, hpart⟩ | ⟨d, _⟩)
        · exact ih _ hpart.stmt_mem _ rfl
        · exact hlinks d _ rfl
  induction depth generalizing s with
  | zero => exact hbetween 0 nofun _ s rfl
  | succ depth ih =>
      refine hbetween (depth + 1) ?_ _ s rfl
      rintro d t heq
      obtain rfl := Nat.succ.inj heq
      exact ih t

/-! ### Types -/

/-- How a typedef is followed while a number of references may still be followed. -/
def typedefResolver (env : Environment) : Nat → TypedefResolver
  | 0 => fun name _ inner => .error (.tooDeep inner.owner name)
  | depth + 1 => fun _ stmt inner => typedefOf env depth inner stmt

theorem typeOf_eq_typeVia (depth : Nat) :
    typeOf env depth = typeVia env (typedefResolver env depth) := by
  cases depth with
  | zero =>
      funext scope
      rw [typeOf]
      rfl
  | succ depth =>
      funext scope
      rw [typeOf]
      rfl

theorem typedefResolver_eq_ok {depth : Nat} {name : String} {stmt : Element} {inner : Scope}
    {t : TypeDef} (h : typedefResolver env depth name stmt inner = .ok t) :
    ∃ d, depth = d + 1 ∧ typedefOf env d inner stmt = .ok t := by
  cases depth with
  | zero => cases h
  | succ d => exact ⟨d, rfl, h⟩

theorem namedType_eq_ok {follow : TypedefResolver} {stmt typedef : Element} {inner : Scope}
    {t : TypeDef} (hnames : NamesTypedef env scope stmt typedef inner)
    (h : namedType env follow scope stmt = .ok t) : ∃ name, follow name typedef inner = .ok t := by
  obtain ⟨name, hname, hbuiltin, hfound⟩ := hnames
  unfold namedType at h
  obtain ⟨name', hname', h⟩ := exists_of_bind_eq_ok h
  cases hname.symm.trans hname'
  simp only [hbuiltin] at h
  obtain ⟨found, hfound', h⟩ := exists_of_bind_eq_ok h
  cases hfound.symm.trans hfound'
  exact ⟨name, h⟩

/-- A typedef has the facets of its type, which is its base, and may set a default and units. -/
theorem typedefVia_eq_ok {resolve : Element → Except LoadFault TypeDef} {stmt : Element}
    {t : TypeDef} (h : typedefVia resolve scope stmt = .ok t) :
    ∃ type base, stmt.child? "type" = some type ∧ resolve type = .ok base ∧ t.base = some base ∧
      t.facets = base.facets ∧
      t.default = (stmt.childAttribute? "default" "value").or base.default ∧
      t.units = (stmt.childAttribute? "units" "name").or base.units := by
  unfold typedefVia at h
  obtain ⟨name, -, h⟩ := exists_of_bind_eq_ok h
  cases htype : stmt.child? "type" with
  | none =>
      rw [htype] at h
      cases h
  | some type =>
      rw [htype] at h
      obtain ⟨base, hbase, h⟩ := exists_of_bind_eq_ok h
      obtain ⟨status, -, h⟩ := exists_of_bind_eq_ok h
      cases h
      exact ⟨type, base, rfl, hbase, rfl, rfl, rfl, rfl⟩

theorem typeVia_eq_ok {follow : TypedefResolver} {stmt : Element} {t : TypeDef}
    (h : typeVia env follow scope stmt = .ok t) :
    ∃ base, namedType env follow scope stmt = .ok base ∧
      if isRestricted stmt then
        ∃ facets, restrict env scope stmt base.builtin?
          (fun _ => membersVia env follow scope stmt.children) base.facets = .ok facets ∧
          t = restrictedType base facets
      else t = base := by
  have hcheck : ∀ u : TypeDef, checkIdentityref scope.owner u = .ok t → t = u := by
    intro u hu
    unfold checkIdentityref at hu
    split at hu
    · cases hu
    · exact (Except.ok.inj hu).symm
  obtain ⟨tag, nsPrefix, attributes, children, text⟩ := stmt
  rw [typeVia] at h
  obtain ⟨base, hbase, h⟩ := exists_of_bind_eq_ok h
  refine ⟨base, hbase, ?_⟩
  split at h
  · rename_i hrestricted
    rw [if_pos hrestricted]
    obtain ⟨facets, hfacets, h⟩ := exists_of_bind_eq_ok h
    exact ⟨facets, hfacets, hcheck _ h⟩
  · rename_i hrestricted
    rw [if_neg hrestricted]
    exact hcheck _ h

/-- The members of a union are resolved when something restricts it. -/
theorem restrict_union {stmt : Element} {builtin : Option Builtin}
    {members : Unit → Except LoadFault (List TypeDef)} {inherited : List TypeDef}
    {facets : Facets TypeDef}
    (h : restrict env scope stmt builtin members (.union inherited) = .ok facets) :
    ∃ added, members () = .ok added ∧ facets = .union (inherited ++ added) := by
  obtain ⟨added, hadded, h⟩ := exists_of_bind_eq_ok h
  cases h
  exact ⟨added, hadded, rfl⟩

/-- What names a union is a union, wherever references lead on the way. -/
theorem NamesUnion.facets {stmt : Element} (h : NamesUnion env scope stmt) {depth : Nat}
    {base : TypeDef} (hbase : namedType env (typedefResolver env depth) scope stmt = .ok base) :
    ∃ members, base.facets = .union members := by
  induction h generalizing depth base with
  | @builtin scope stmt name hname hbuiltin =>
      unfold namedType at hbase
      obtain ⟨name', hname', hbase⟩ := exists_of_bind_eq_ok hbase
      cases hname.symm.trans hname'
      simp only [hbuiltin] at hbase
      cases hbase
      exact ⟨[], rfl⟩
  | @typedef scope inner stmt typedef type hnames htype _ ih =>
      obtain ⟨name, hfollow⟩ := namedType_eq_ok hnames hbase
      obtain ⟨d, rfl, hdefined⟩ := typedefResolver_eq_ok hfollow
      obtain ⟨type', t, htype', ht, -, hfacets, -⟩ := typedefVia_eq_ok hdefined
      cases htype.symm.trans htype'
      rw [typeOf_eq_typeVia] at ht
      obtain ⟨named, hnamed, ht⟩ := typeVia_eq_ok ht
      obtain ⟨members, hmembers⟩ := ih hnamed
      rw [hfacets]
      split at ht
      · obtain ⟨facets, hrestrict, rfl⟩ := ht
        rw [hmembers] at hrestrict
        obtain ⟨added, -, hunion⟩ := restrict_union hrestrict
        exact ⟨members ++ added, hunion⟩
      · exact ⟨members, ht ▸ hmembers⟩

theorem exists_of_membersVia {follow : TypedefResolver} {stmts : List Element}
    {members : List TypeDef} (h : membersVia env follow scope stmts = .ok members)
    {member : Element} (hmember : member ∈ stmts) (htag : member.tag = "type") :
    ∃ t, typeVia env follow scope member = .ok t := by
  induction stmts generalizing members with
  | nil => cases hmember
  | cons stmt rest ih =>
      rw [membersVia] at h
      split at h
      · obtain ⟨t, ht, h⟩ := exists_of_bind_eq_ok h
        obtain ⟨ts, hts, -⟩ := exists_of_bind_eq_ok h
        rcases List.mem_cons.mp hmember with rfl | hmember
        · exact ⟨t, ht⟩
        · exact ih hts hmember
      · rename_i hother
        rcases List.mem_cons.mp hmember with rfl | hmember
        · exact absurd htag hother
        · exact ih h hmember

/-! ### Resolved sites -/

/-- A site is resolved while at most `depth` references are followed in a chain. -/
def Resolved (env : Environment) (depth : Nat) : Site → Prop
  | .type scope stmt => ∃ t, typeOf env depth scope stmt = .ok t
  | .typedef scope stmt => ∃ t, typedefOf env depth scope stmt = .ok t
  | .constituent scope b =>
      ∃ inherited nodes, b.nodes env (.upTo env depth) scope inherited = .ok nodes
  | .grouping scope stmt => ∃ inherited nodes,
      nodesVia env (.upTo env depth) (scope.enter stmt) inherited stmt.children = .ok nodes

theorem type_upTo (depth : Nat) : (References.upTo env depth).type = typeOf env depth := by
  cases depth <;> rfl

theorem grouping_upTo_eq_ok {depth : Nat} {name : String} {stmt : Element} {inner : Scope}
    {inherited : Option Bool} {nodes : List SchemaNode}
    (h : (References.upTo env depth).grouping name stmt inner inherited = .ok nodes) :
    ∃ d, depth = d + 1 ∧
      nodesVia env (.upTo env d) (inner.enter stmt) inherited stmt.children = .ok nodes := by
  cases depth with
  | zero => cases h
  | succ d => exact ⟨d, rfl, h⟩

theorem exists_type_of_nodeDataOf {refs : References} {inherited : Option Bool} {kind : NodeKind}
    {stmt type : Element} {data : NodeData}
    (h : nodeDataOf env refs scope inherited kind stmt = .ok data) (hkind : kind.isTyped = true)
    (htype : stmt.child? "type" = some type) :
    ∃ t, refs.type (scope.enter stmt) type = .ok t := by
  unfold nodeDataOf at h
  obtain ⟨name, -, h⟩ := exists_of_bind_eq_ok h
  obtain ⟨status, -, h⟩ := exists_of_bind_eq_ok h
  obtain ⟨musts, -, h⟩ := exists_of_bind_eq_ok h
  obtain ⟨config, -, h⟩ := exists_of_bind_eq_ok h
  obtain ⟨mandatory, -, h⟩ := exists_of_bind_eq_ok h
  obtain ⟨count, -, h⟩ := exists_of_bind_eq_ok h
  obtain ⟨typed, htyped, -⟩ := exists_of_bind_eq_ok h
  rw [if_pos hkind, map_eq_pure_bind] at htyped
  obtain ⟨t, ht, -⟩ := exists_of_bind_eq_ok htyped
  rw [nodeType, htype] at ht
  obtain ⟨t, ht, -⟩ := exists_of_bind_eq_ok ht
  exact ⟨t, ht⟩

theorem Resolved.part {depth : Nat} {s t : Site} (h : Resolved env depth s) (hpart : Part env s t) :
    Resolved env depth t := by
  cases hpart with
  | @member scope stmt member hunion hmember htag =>
      have hrestricted : isRestricted stmt = true :=
        List.any_eq_true.mpr ⟨member, hmember, by rw [htag]; decide⟩
      obtain ⟨t, ht⟩ := h
      rw [typeOf_eq_typeVia] at ht
      obtain ⟨base, hbase, ht⟩ := typeVia_eq_ok ht
      obtain ⟨inherited, hinherited⟩ := hunion.facets hbase
      rw [if_pos hrestricted] at ht
      obtain ⟨facets, hfacets, -⟩ := ht
      rw [hinherited] at hfacets
      obtain ⟨members, hmembers, -⟩ := restrict_union hfacets
      rw [Resolved, typeOf_eq_typeVia]
      exact exists_of_membersVia hmembers hmember htag
  | definedType htype =>
      obtain ⟨t, ht⟩ := h
      obtain ⟨type', base, htype', hbase, -⟩ := typedefVia_eq_ok ht
      cases htype.symm.trans htype'
      exact ⟨base, hbase⟩
  | nodeType hkind htype =>
      obtain ⟨inherited, nodes, h⟩ := h
      obtain ⟨n, hn, -⟩ := exists_of_bind_eq_ok ((map_eq_pure_bind _ _).symm.trans h)
      have htyped := exists_type_of_nodeDataOf (nodeVia_eq_ok hn) hkind htype
      rwa [type_upTo] at htyped
  | below hb =>
      obtain ⟨inherited, nodes, h⟩ := h
      obtain ⟨n, hn, -⟩ := exists_of_bind_eq_ok ((map_eq_pure_bind _ _).symm.trans h)
      obtain ⟨below, hbelow, -⟩ := (forall_children_iff (P := fun _ => True) (fun _ => Iff.rfl)
        trivial trivial hn).mp (fun _ _ => trivial) _ hb
      exact ⟨_, below, hbelow⟩
  | body hb =>
      obtain ⟨inherited, nodes, h⟩ := h
      obtain ⟨body, hbody, -⟩ := (forall_nodesVia_iff (P := fun _ => True) h).mp
        (fun _ _ => trivial) _ hb
      exact ⟨inherited, body, hbody⟩

/-- A reference is followed only while one may be. -/
theorem Resolved.link {depth : Nat} {s t : Site} (h : Resolved env depth s) (hlink : Link env s t) :
    ∃ d, depth = d + 1 ∧ Resolved env d t := by
  cases hlink with
  | type hnames =>
      obtain ⟨t, ht⟩ := h
      rw [typeOf_eq_typeVia] at ht
      obtain ⟨base, hbase, -⟩ := typeVia_eq_ok ht
      obtain ⟨name, hfollow⟩ := namedType_eq_ok hnames hbase
      obtain ⟨d, rfl, hdefined⟩ := typedefResolver_eq_ok hfollow
      exact ⟨d, rfl, base, hdefined⟩
  | uses hleads =>
      obtain ⟨inherited, nodes, h⟩ := h
      obtain ⟨name, grouping, inner, inside, hleads', hinside, -⟩ := usedNodes_eq_ok h
      obtain ⟨rfl, rfl⟩ := hleads.unique hleads'
      obtain ⟨d, rfl, hinside⟩ := grouping_upTo_eq_ok hinside
      exact ⟨d, rfl, inherited, inside, hinside⟩

/-- What is resolved with a site is resolved with one reference less for each link on the way. -/
theorem Resolved.follows {depth : Nat} {s t : Site} {n : Nat} (h : Resolved env depth s)
    (hfollows : Follows env s n t) : ∃ d, depth = d + n ∧ Resolved env d t := by
  induction hfollows generalizing depth with
  | refl s => exact ⟨depth, rfl, h⟩
  | part hpart _ ih => exact ih (h.part hpart)
  | link hlink _ ih =>
      obtain ⟨d, rfl, ht⟩ := h.link hlink
      obtain ⟨e, rfl, hu⟩ := ih ht
      exact ⟨e, rfl, hu⟩

/-! ### Modules -/

theorem exists_resolved_of_stated {m : Module} (h : env.module = .ok m) {s : Site}
    (hs : Stated env s) : ∃ depth ≤ maxDepth, Resolved env depth s := by
  have hnodes := module_eq_ok h
  have hall : ∀ {scope inherited stmts nodes} {b : Constituent},
      nodesVia env (.upTo env maxDepth) scope inherited stmts = .ok nodes →
      b ∈ stmts.filterMap bodyConstituent? → Resolved env maxDepth (.constituent scope b) := by
    intro scope inherited stmts nodes b hvia hb
    obtain ⟨below, hbelow, -⟩ := (forall_nodesVia_iff (P := fun _ => True) hvia).mp
      (fun _ _ => trivial) b hb
    exact ⟨inherited, below, hbelow⟩
  cases hs with
  | data hb =>
      obtain ⟨nodes, hvia, -⟩ := hnodes.data
      exact ⟨maxDepth, Nat.le_refl _, hall hvia hb⟩
  | rpc hstmt htag =>
      obtain ⟨definition, hdefinition⟩ := hnodes.resolved _ hstmt
      rw [definitionOf?, htag] at hdefinition
      obtain ⟨n, hn, -⟩ := exists_of_bind_eq_ok hdefinition
      exact ⟨maxDepth, Nat.le_refl _, none, [n], by rw [Constituent.nodes, hn]; rfl⟩
  | augmentation hstmt htag hb =>
      obtain ⟨definition, hdefinition⟩ := hnodes.resolved _ hstmt
      rw [definitionOf?, htag] at hdefinition
      obtain ⟨a, ha, -⟩ := exists_of_bind_eq_ok hdefinition
      exact ⟨maxDepth, Nat.le_refl _, hall (augmentationOf_eq_ok ha) hb⟩
  | typedef hstmt htag =>
      obtain ⟨definition, hdefinition⟩ := hnodes.resolved _ hstmt
      rw [definitionOf?, htag] at hdefinition
      obtain ⟨t, ht, -⟩ := exists_of_bind_eq_ok hdefinition
      exact ⟨maxDepth - 1, Nat.sub_le _ _, t, ht⟩

theorem Built.le_maxDepth {m : Module} (h : env.module = .ok m) {s t : Site} (hs : Built env s)
    {n : Nat} (hfollows : Follows env s n t) : n ≤ maxDepth := by
  obtain ⟨top, k, htop, hreached⟩ := hs
  obtain ⟨depth, hdepth, hresolved⟩ := exists_resolved_of_stated h htop
  obtain ⟨d, rfl, -⟩ := hresolved.follows (hreached.trans hfollows)
  omega

theorem Built.not_follows_self {m : Module} (h : env.module = .ok m) {s : Site} (hs : Built env s)
    (n : Nat) : ¬ Follows env s (n + 1) s := by
  intro hcycle
  -- going around once more than there may be links
  have hround := hs.le_maxDepth h (hcycle.repeat (maxDepth + 1))
  rw [Nat.mul_succ] at hround
  omega

/-- Resolving a module ends, with a fault or with a module; and where it ends with a module, the
chains of references from what the module is built of are bounded and none of them closes. -/
theorem reference_chains_bounded (env : Environment) :
    WellFounded (fun t s => Calls env s t) ∧
      ((∃ fault, env.module = .error fault) ∨
        ∃ m, env.module = .ok m ∧ ∀ s, Built env s →
          (∀ n t, Follows env s n t → n ≤ 64) ∧ ∀ n, ¬ Follows env s (n + 1) s) := by
  refine ⟨⟨fun (depth, s) => acc_calls depth s⟩, ?_⟩
  cases h : env.module with
  | error fault => exact .inl ⟨fault, rfl⟩
  | ok m =>
      exact .inr ⟨m, rfl, fun s hs => ⟨fun n t => hs.le_maxDepth h, Built.not_follows_self h hs⟩⟩

def stmtOf (tag name : String) (children : List Element) : Element where
  tag := tag
  attributes := [("name", name)]
  children := children

def valued (tag value : String) : Element where
  tag := tag
  attributes := [("value", value)]

def typeNamed (name : String) (members : List Element) : Element where
  tag := "type"
  attributes := [("name", name)]
  children := members

def typedefNamed (name : String) (type : Element) : Element where
  tag := "typedef"
  attributes := [("name", name)]
  children := [type]

/-- A union of one member type. -/
def unionStmt (member : String) : Element :=
  typedefNamed "stop" (typeNamed "union" [typeNamed member []])

/-- A module with a union of one member type, which may be the union itself. -/
def unionOf (member : String) : Environment where
  main :=
    { name := "stops"
      uri := "urn:stops"
      nsPrefix := "s"
      revision := none
      revisions := []
      imports := []
      root :=
        { tag := "module"
          children := [unionStmt member, typedefNamed "line" (typeNamed "string" [])] }
      dir := none }
  imports := []

theorem built_unionStmt (member : String) :
    Built (unionOf member) (.typedef (.top (unionOf member).main) (unionStmt member)) :=
  ⟨_, 0, .typedef List.mem_cons_self rfl, .refl _⟩

/-- A union leads to the typedef of its member. -/
theorem follows_unionStmt {member : String} {typedef : Element}
    (h : NamesTypedef (unionOf member) (.top (unionOf member).main) (typeNamed member []) typedef
      (.top (unionOf member).main)) :
    Follows (unionOf member) (.typedef (.top (unionOf member).main) (unionStmt member)) 1
      (.typedef (.top (unionOf member).main) typedef) := by
  have hunion : NamesUnion (unionOf member) (.top (unionOf member).main)
      (typeNamed "union" [typeNamed member []]) := .builtin rfl rfl
  exact .part (.definedType rfl) (.part (.member hunion List.mem_cons_self rfl)
    (.link (.type h) (.refl _)))

theorem reference_chains_bounded_union :
    (∃ m, (unionOf "line").module = .ok m ∧
      Follows (unionOf "line") (.typedef (.top (unionOf "line").main) (unionStmt "line")) 1
        (.typedef (.top (unionOf "line").main) (typedefNamed "line" (typeNamed "string" [])))) ∧
      ∃ fault, (unionOf "stop").module = .error fault := by
  constructor
  · obtain ⟨fault, herror⟩ | ⟨m, hm, -⟩ := (reference_chains_bounded (unionOf "line")).2
    · have hok : (unionOf "line").module.isOk = true := by decide +kernel
      rw [herror] at hok
      cases hok
    · exact ⟨m, hm, follows_unionStmt ⟨"line", rfl, rfl, rfl⟩⟩
  · obtain herror | ⟨m, -, hchains⟩ := (reference_chains_bounded (unionOf "stop")).2
    · exact herror
    · exact absurd (follows_unionStmt ⟨"stop", rfl, rfl, rfl⟩)
        ((hchains _ (built_unionStmt "stop")).2 0)

end YangEvolution.Yin
