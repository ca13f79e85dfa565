import YangEvolution.Proofs.ReferenceChain

/-!
Where statements stand. An address leads from the outermost statement of a module to a statement in
it, child by child; the scope at an address has the statements on the way. Main statements: all
that a module is built of is resolved in the scope at some address, and where a reference leads from
such a scope, the scope is cut off exactly at the statement that holds the definition.
-/

namespace YangEvolution.Yin

open Text Markup Outcome

/-- The way to a statement: the module that is being loaded, or an imported module by its name, and
then the positions of statements among the children of the one before. -/
structure Address where
  module : Option String
  path : List Nat

/-- The statement at one address is around the statement at another. -/
def Address.Encloses (a b : Address) : Prop :=
  a.module = b.module ∧ a.path <+: b.path ∧ a.path ≠ b.path

/-- The statements on a path from the innermost of `ancestors` on, with `ancestors` behind them. -/
def chain? : List Element → List Nat → Option (List Element)
  | ancestors, [] => some ancestors
  | [], _ :: _ => none
  | a :: rest, i :: path => a.children[i]?.bind fun c => chain? (c :: a :: rest) path

namespace Environment

def source? (env : Environment) : Option String → Option ModuleSource
  | none => some env.main
  | some name => env.imports.lookup name

/-- The scope of the statements in the statement at an address. -/
def scopeAt? (env : Environment) (a : Address) : Option Scope :=
  (env.source? a.module).bind fun source =>
    (chain? [source.root] a.path).map fun ancestors => ⟨source, ancestors⟩

/-- How the module of a name is found. -/
def keyOf (env : Environment) (name : String) : Option String :=
  if name = env.main.name then none else some name

end Environment

/-! ### Chains -/

section Chains

variable {ancestors chain : List Element} {path : List Nat}

theorem chain?_append (ancestors : List Element) (p q : List Nat) :
    chain? ancestors (p ++ q) = (chain? ancestors p).bind fun chain => chain? chain q := by
  induction p generalizing ancestors with
  | nil => simp [chain?]
  | cons i p ih =>
      cases ancestors with
      | nil => rfl
      | cons a rest =>
          simp only [List.cons_append, chain?, Option.bind_assoc]
          exact congrArg _ (funext fun c => ih (c :: a :: rest))

theorem chain?_singleton (a : Element) (rest : List Element) (i : Nat) :
    chain? (a :: rest) [i] = a.children[i]?.map fun c => c :: a :: rest := by
  cases h : a.children[i]? <;> simp [chain?, h]

/-- A step more on a path. -/
theorem chain?_concat {i : Nat} (h : chain? ancestors (path ++ [i]) = some chain) :
    ∃ a rest c, chain? ancestors path = some (a :: rest) ∧ a.children[i]? = some c ∧
      chain = c :: a :: rest := by
  rw [chain?_append] at h
  obtain ⟨found, hfound, h⟩ := Option.bind_eq_some_iff.mp h
  cases found with
  | nil => cases h
  | cons a rest =>
      rw [chain?_singleton] at h
      obtain ⟨c, hc, rfl⟩ := Option.map_eq_some_iff.mp h
      exact ⟨a, rest, c, hfound, hc, rfl⟩

theorem chain?_concat_eq_some {a c : Element} {rest : List Element} {i : Nat}
    (h : chain? ancestors path = some (a :: rest)) (hc : a.children[i]? = some c) :
    chain? ancestors (path ++ [i]) = some (c :: a :: rest) := by
  rw [chain?_append, h]
  simp [chain?_singleton, hc]

theorem suffix_of_chain? (h : chain? ancestors path = some chain) : ancestors <:+ chain := by
  induction path generalizing ancestors with
  | nil =>
      cases h
      exact List.suffix_refl _
  | cons i path ih =>
      cases ancestors with
      | nil => cases h
      | cons a rest =>
          obtain ⟨c, -, h⟩ := Option.bind_eq_some_iff.mp h
          exact (List.suffix_cons c _).trans (ih h)

theorem length_of_chain? (h : chain? ancestors path = some chain) :
    chain.length = ancestors.length + path.length := by
  induction path generalizing ancestors with
  | nil =>
      cases h
      simp
  | cons i path ih =>
      cases ancestors with
      | nil => cases h
      | cons a rest =>
          obtain ⟨c, -, h⟩ := Option.bind_eq_some_iff.mp h
          rw [ih h]
          simp only [List.length_cons]
          omega

/-- What is left of a chain without its innermost statements is at the beginning of the path. -/
theorem exists_chain?_of_suffix {root : Element} {rest : List Element}
    (h : chain? [root] path = some chain) (hsuffix : rest <:+ chain) (hne : rest ≠ []) :
    ∃ p, p <+: path ∧ chain? [root] p = some rest := by
  obtain ⟨inside, rfl⟩ := hsuffix
  -- each statement that is left out takes the last position of the path with it
  induction inside generalizing path with
  | nil => exact ⟨path, List.prefix_refl _, h⟩
  | cons c inside ih =>
      rcases List.eq_nil_or_concat path with rfl | ⟨p, i, rfl⟩
      · have hlength := length_of_chain? h
        have hrest := List.length_pos_iff.mpr hne
        simp only [List.length_append, List.length_cons, List.length_nil] at hlength
        omega
      · rw [List.concat_eq_append] at h ⊢
        obtain ⟨a, above, d, habove, -, heq⟩ := chain?_concat h
        obtain ⟨-, heq⟩ := List.cons.inj heq
        obtain ⟨q, hq, hrest⟩ := ih (habove.trans (congrArg some heq.symm))
        exact ⟨q, hq.trans (List.prefix_append _ _), hrest⟩

end Chains

/-! ### Scopes at addresses -/

section Scopes

variable {env : Environment} {scope inner : Scope} {a : Address}

theorem scopeAt?_eq_some_iff :
    env.scopeAt? a = some scope ↔ env.source? a.module = some scope.source ∧
      chain? [scope.source.root] a.path = some scope.ancestors := by
  obtain ⟨source, ancestors⟩ := scope
  simp only [Environment.scopeAt?, Option.bind_eq_some_iff, Option.map_eq_some_iff, Scope.mk.injEq]
  constructor
  · rintro ⟨_, hsource, _, hchain, rfl, rfl⟩
    exact ⟨hsource, hchain⟩
  · rintro ⟨hsource, hchain⟩
    exact ⟨source, hsource, ancestors, hchain, rfl, rfl⟩

theorem scopeAt?_top {key : Option String} {source : ModuleSource}
    (h : env.source? key = some source) : env.scopeAt? ⟨key, []⟩ = some (.top source) :=
  scopeAt?_eq_some_iff.mpr ⟨h, rfl⟩

theorem exists_scopeAt?_of_suffix (h : env.scopeAt? a = some scope)
    (hsource : inner.source = scope.source) (hsuffix : inner.ancestors <:+ scope.ancestors)
    (hne : inner.ancestors ≠ []) :
    ∃ p, p <+: a.path ∧ env.scopeAt? ⟨a.module, p⟩ = some inner := by
  obtain ⟨hkey, hchain⟩ := scopeAt?_eq_some_iff.mp h
  obtain ⟨p, hp, hinner⟩ := exists_chain?_of_suffix hchain hsuffix hne
  exact ⟨p, hp, scopeAt?_eq_some_iff.mpr ⟨hsource ▸ hkey, hsource ▸ hinner⟩⟩

/-- A child of the innermost statement of a scope has an address. -/
theorem exists_scopeAt?_enter (h : env.scopeAt? a = some scope) {parent stmt : Element}
    {rest : List Element} (hscope : scope.ancestors = parent :: rest)
    (hstmt : stmt ∈ parent.children) :
    ∃ i, env.scopeAt? ⟨a.module, a.path ++ [i]⟩ = some (scope.enter stmt) := by
  obtain ⟨hkey, hchain⟩ := scopeAt?_eq_some_iff.mp h
  obtain ⟨i, hi⟩ := List.mem_iff_getElem?.mp hstmt
  rw [hscope] at hchain
  refine ⟨i, scopeAt?_eq_some_iff.mpr ⟨hkey, ?_⟩⟩
  rw [Scope.enter, hscope]
  exact chain?_concat_eq_some hchain hi

/-! ### References -/

theorem findEnclosed?_eq_some {keyword name : String} {stmt : Element}
    {ancestors chain : List Element}
    (h : findEnclosed? keyword name ancestors = some (stmt, chain)) :
    ∃ inside parent rest, ancestors = inside ++ chain ∧ chain = parent :: rest ∧
      findNamed? parent keyword name = some stmt ∧
      ∀ b ∈ inside, findNamed? b keyword name = none := by
  induction ancestors with
  | nil => cases h
  | cons b rest ih =>
      rw [findEnclosed?] at h
      split at h
      · rename_i found hfound
        cases h
        exact ⟨[], b, rest, rfl, rfl, hfound, nofun⟩
      · rename_i hnone
        obtain ⟨inside, parent, above, rfl, hchain, hfound, hinside⟩ := ih h
        exact ⟨b :: inside, parent, above, rfl, hchain, hfound,
          List.forall_mem_cons.mpr ⟨hnone, hinside⟩⟩

/-- The module that a prefix stands for, other than the prefix of the module itself. -/
theorem moduleOfPrefix_eq_ok_iff {source m : ModuleSource} {given : String}
    (hgiven : given ≠ source.nsPrefix) :
    env.moduleOfPrefix source given = .ok m ↔
      ∃ name, source.imported? given = some name ∧ env.source? (env.keyOf name) = some m := by
  rw [Environment.moduleOfPrefix, if_neg hgiven]
  cases source.imported? given with
  | none => simp
  | some name =>
      by_cases hmain : name = env.main.name
      · simp [hmain, Environment.keyOf, Environment.source?]
      · cases hlookup : env.imports.lookup name <;>
          simp [hmain, Environment.keyOf, Environment.source?, hlookup]

theorem exists_source?_of_moduleOfPrefix {source m : ModuleSource} {given : String}
    {key : Option String} (hsource : env.source? key = some source)
    (h : env.moduleOfPrefix source given = .ok m) : ∃ key, env.source? key = some m := by
  by_cases hgiven : given = source.nsPrefix
  · rw [Environment.moduleOfPrefix, if_pos hgiven] at h
    cases h
    exact ⟨key, hsource⟩
  · obtain ⟨name, -, hm⟩ := (moduleOfPrefix_eq_ok_iff hgiven).mp h
    exact ⟨_, hm⟩

/-- Where a reference leads: to the first definition of its name in the innermost enclosing
statement that has one, or at the top of a module. -/
structure Declares (env : Environment) (keyword reference : String) (scope : Scope)
    (stmt : Element) (inner : Scope) : Prop where
  parent : ∃ parent rest, inner.ancestors = parent :: rest ∧
    findNamed? parent keyword (splitReference reference).2 = some stmt
  cut : inner.source = scope.source ∧ (∃ inside, scope.ancestors = inside ++ inner.ancestors ∧
      ∀ b ∈ inside, findNamed? b keyword (splitReference reference).2 = none) ∨
    ∃ given, env.moduleOfPrefix scope.source given = .ok inner.source ∧ inner = .top inner.source

theorem declares_of_findDefinition {keyword reference : String} {stmt : Element}
    (h : env.findDefinition keyword scope reference = .ok (some (stmt, inner))) :
    Declares env keyword reference scope stmt inner := by
  have henclosed : ∀ name, (findEnclosed? keyword name scope.ancestors).map
      (fun found => (found.1, Scope.mk scope.source found.2)) = some (stmt, inner) →
      name = (splitReference reference).2 → Declares env keyword reference scope stmt inner := by
    rintro name hfound rfl
    obtain ⟨⟨d, chain⟩, hpair, heq⟩ := Option.map_eq_some_iff.mp hfound
    cases heq
    obtain ⟨inside, parent, rest, hancestors, hchain, hnamed, hinside⟩ :=
      findEnclosed?_eq_some hpair
    exact ⟨⟨parent, rest, hchain, hnamed⟩, .inl ⟨rfl, inside, hancestors, hinside⟩⟩
  unfold Environment.findDefinition at h
  dsimp only at h
  -- only a prefix of another module leads out of the enclosing statements
  split at h
  · rename_i name hsplit
    exact henclosed name (Except.ok.inj h) (by rw [hsplit])
  · rename_i given name hsplit
    split at h
    · exact henclosed name (Except.ok.inj h) (by rw [hsplit])
    · obtain ⟨m, hm, h⟩ := exists_of_bind_eq_ok h
      obtain ⟨d, hd, heq⟩ := Option.map_eq_some_iff.mp (Except.ok.inj h)
      cases heq
      exact ⟨⟨m.root, [], rfl, by rw [hsplit]; exact hd⟩, .inr ⟨given, hm, rfl⟩⟩

/-- The definition that a reference from the scope at an address leads to has an address. -/
theorem Declares.exists_scopeAt? {keyword reference : String} {stmt : Element}
    (h : Declares env keyword reference scope stmt inner) (ha : env.scopeAt? a = some scope) :
    ∃ b i, env.scopeAt? b = some inner ∧
      env.scopeAt? ⟨b.module, b.path ++ [i]⟩ = some (inner.enter stmt) ∧
      (b.module = a.module ∧ b.path <+: a.path ∨ b.path = []) := by
  obtain ⟨⟨parent, rest, hparent, hnamed⟩, hcut⟩ := h
  have hchild : stmt ∈ parent.children := List.mem_of_find?_eq_some hnamed
  rcases hcut with ⟨hsource, inside, hancestors, -⟩ | ⟨given, hm, htop⟩
  · obtain ⟨p, hp, hinner⟩ := exists_scopeAt?_of_suffix ha hsource ⟨inside, hancestors.symm⟩
      (by rw [hparent]; exact List.cons_ne_nil _ _)
    obtain ⟨i, hi⟩ := exists_scopeAt?_enter hinner hparent hchild
    exact ⟨⟨a.module, p⟩, i, hinner, hi, .inl ⟨rfl, hp⟩⟩
  · obtain ⟨key, hkey⟩ := exists_source?_of_moduleOfPrefix (scopeAt?_eq_some_iff.mp ha).1 hm
    have hinner : env.scopeAt? ⟨key, []⟩ = some inner := htop ▸ scopeAt?_top hkey
    obtain ⟨i, hi⟩ := exists_scopeAt?_enter hinner hparent hchild
    exact ⟨⟨key, []⟩, i, hinner, hi, .inr rfl⟩

end Scopes

/-! ### What a module is built of -/

/-- The scope that a site is resolved in. -/
def Site.scope : Site → Scope
  | .type scope _ => scope
  | .typedef scope _ => scope
  | .constituent scope _ => scope
  | .grouping scope _ => scope

/-- A site is in the scope at an address; apart from the statements of types, its statement is a
child of the innermost statement of that scope. -/
def Site.Placed (env : Environment) (s : Site) : Prop :=
  (∃ a, env.scopeAt? a = some s.scope) ∧
    ((∃ scope stmt, s = .type scope stmt) ∨
      ∃ parent rest, s.scope.ancestors = parent :: rest ∧ s.stmt ∈ parent.children)

variable {env : Environment}

theorem Site.Placed.enter {s : Site} (h : s.Placed env) (hs : ∀ scope stmt, s ≠ .type scope stmt) :
    ∃ a, env.scopeAt? a = some (s.scope.enter s.stmt) := by
  obtain ⟨⟨a, ha⟩, ⟨scope, stmt, rfl⟩ | ⟨parent, rest, hparent, hstmt⟩⟩ := h
  · exact absurd rfl (hs scope stmt)
  · obtain ⟨i, hi⟩ := exists_scopeAt?_enter ha hparent hstmt
    exact ⟨_, hi⟩

theorem Site.Placed.part {s t : Site} (h : s.Placed env) (hpart : Part env s t) :
    t.Placed env := by
  have hmem := hpart.stmt_mem
  cases hpart with
  | member _ _ _ => exact ⟨h.1, .inl ⟨_, _, rfl⟩⟩
  | definedType _ => exact ⟨h.1, .inl ⟨_, _, rfl⟩⟩
  | nodeType _ _ => exact ⟨h.enter nofun, .inl ⟨_, _, rfl⟩⟩
  | below _ => exact ⟨h.enter nofun, .inr ⟨_, _, rfl, hmem⟩⟩
  | body _ => exact ⟨h.enter nofun, .inr ⟨_, _, rfl, hmem⟩⟩

theorem Site.Placed.link {s t : Site} (h : s.Placed env) (hlink : Link env s t) :
    t.Placed env := by
  obtain ⟨⟨a, ha⟩, -⟩ := h
  have hfind : ∀ {keyword reference : String} {d : Element} {inner : Scope},
      env.findDefinition keyword s.scope reference = .ok (some (d, inner)) →
      (∃ b, env.scopeAt? b = some inner) ∧
        ∃ parent rest, inner.ancestors = parent :: rest ∧ d ∈ parent.children := by
    intro keyword reference d inner hfound
    have hdeclares := declares_of_findDefinition hfound
    obtain ⟨b, -, hb, -⟩ := hdeclares.exists_scopeAt? ha
    obtain ⟨parent, rest, hparent, hnamed⟩ := hdeclares.parent
    exact ⟨⟨b, hb⟩, parent, rest, hparent, List.mem_of_find?_eq_some hnamed⟩
  cases hlink with
  | type hnames =>
      obtain ⟨name, -, -, hfound⟩ := hnames
      exact (hfind hfound).imp id .inr
  | uses hleads =>
      obtain ⟨name, -, hfound⟩ := hleads
      exact (hfind hfound).imp id .inr

theorem Site.Placed.follows {s t : Site} {n : Nat} (h : s.Placed env)
    (hfollows : Follows env s n t) : t.Placed env := by
  induction hfollows with
  | refl => exact h
  | part hpart _ ih => exact ih (h.part hpart)
  | link hlink _ ih => exact ih (h.link hlink)

theorem mem_of_mem_body {b : Constituent} {stmts : List Element}
    (h : b ∈ stmts.filterMap bodyConstituent?) : b.stmt ∈ stmts := by
  have hcontainer : b ∈ constituents .container stmts := h
  exact mem_of_mem_constituents hcontainer

theorem Stated.placed {s : Site} (h : Stated env s) : s.Placed env := by
  have htop : env.scopeAt? ⟨none, []⟩ = some (.top env.main) := scopeAt?_top rfl
  cases h with
  | data hb => exact ⟨⟨_, htop⟩, .inr ⟨_, _, rfl, mem_of_mem_body hb⟩⟩
  | rpc hstmt _ => exact ⟨⟨_, htop⟩, .inr ⟨_, _, rfl, hstmt⟩⟩
  | augmentation hstmt _ hb =>
      obtain ⟨i, hi⟩ := exists_scopeAt?_enter htop rfl hstmt
      exact ⟨⟨_, hi⟩, .inr ⟨_, _, rfl, mem_of_mem_body hb⟩⟩
  | typedef hstmt _ => exact ⟨⟨_, htop⟩, .inr ⟨_, _, rfl, hstmt⟩⟩

/-- All that a module is built of is in the scope at some address. -/
theorem Built.placed {s : Site} (h : Built env s) : s.Placed env := by
  obtain ⟨top, n, htop, hfollows⟩ := h
  exact htop.placed.follows hfollows

end YangEvolution.Yin
