import YangEvolution.Proofs.Insertion

/-!
How resolving comes into a statement. What is resolved in the scope of a statement is resolved with
that statement, or the module itself states it there. Main statement: where a module is resolved, a
`uses` statement never leads to a grouping with which a statement around it is resolved.
-/

namespace YangEvolution.Yin

open Text Markup Outcome

/-- A site has a statement of its keyword. -/
def Site.Proper : Site → Prop
  | .constituent _ ⟨some kind, stmt⟩ => stmt.tag = kind.keyword
  | .grouping _ stmt => stmt.tag = "grouping"
  | _ => True

variable {env : Environment} {s t : Site}

theorem proper_of_tag {b : Constituent} {scope : Scope} (h : b.stmt.tag = b.keyword) :
    (Site.constituent scope b).Proper := by
  obtain ⟨kind | kind, stmt⟩ := b
  · trivial
  · exact h

theorem Part.proper (h : Part env s t) : t.Proper := by
  cases h with
  | member _ _ _ => trivial
  | definedType _ => trivial
  | nodeType _ _ => trivial
  | below hb => exact proper_of_tag (tag_of_mem_constituents hb)
  | body hb => exact proper_of_tag (tag_of_mem_body hb)

theorem Link.proper (h : Link env s t) : t.Proper := by
  cases h with
  | type _ => trivial
  | uses hleads =>
      obtain ⟨name, -, hfound⟩ := hleads
      exact tag_of_findDefinition hfound

theorem Stated.proper (h : Stated env s) : s.Proper := by
  cases h with
  | data hb => exact proper_of_tag (tag_of_mem_body hb)
  | rpc _ htag => exact htag
  | augmentation _ _ hb => exact proper_of_tag (tag_of_mem_body hb)
  | typedef _ _ => trivial

theorem Follows.proper {n : Nat} (h : Follows env s n t) (hs : s.Proper) : t.Proper := by
  induction h with
  | refl => exact hs
  | part hpart _ ih => exact ih hpart.proper
  | link hlink _ ih => exact ih hlink.proper

/-! ### Into the target -/

section Target

variable {added : List Element} {k : Nat} {a : Address} {source : ModuleSource}
  (h : Adds env added k a source) {target : Element} {above : List Element}
  (htarget : chain? [source.root] a.path = some (target :: above)) (hpath : a.path ≠ [])

/-- A site is in the statement that is added to. -/
def Inside (source : ModuleSource) (chain : List Element) (s : Site) : Prop :=
  s.scope.source = source ∧ chain <:+ s.scope.ancestors

include htarget hpath

theorem above_ne_nil : above ≠ [] := by
  rintro rfl
  have hlength := length_of_chain? htarget
  have hpos := List.length_pos_iff.mpr hpath
  simp only [List.length_singleton] at hlength
  omega

/-- What is resolved in a statement is resolved with it. -/
theorem inside_of_part (hpart : Part env s t) (ht : Inside source (target :: above) t) :
    Inside source (target :: above) s ∨ h.simulation.Blocked s := by
  obtain ⟨hsource, hsuffix⟩ := ht
  have hentered : ∀ scope stmt, (Scope.enter scope stmt).source = source →
      target :: above <:+ (Scope.enter scope stmt).ancestors →
      (scope.source = source ∧ target :: above <:+ scope.ancestors) ∨
        IsTarget a source scope stmt := by
    intro scope stmt hsource hsuffix
    rcases List.suffix_cons_iff.mp hsuffix with heq | hsuffix
    · exact .inr ⟨hpath, hsource, heq ▸ htarget⟩
    · exact .inl ⟨hsource, hsuffix⟩
  cases hpart with
  | member _ _ _ => exact .inl ⟨hsource, hsuffix⟩
  | definedType _ => exact .inl ⟨hsource, hsuffix⟩
  | nodeType _ _ => exact hentered _ _ hsource hsuffix
  | below _ => exact hentered _ _ hsource hsuffix
  | body _ => exact hentered _ _ hsource hsuffix

/-- No reference leads into a statement from outside. -/
theorem inside_of_link (hlink : Link env s t) (ht : Inside source (target :: above) t) :
    Inside source (target :: above) s := by
  have hcut : ∀ {keyword reference : String} {scope inner : Scope} {stmt : Element},
      env.findDefinition keyword scope reference = .ok (some (stmt, inner)) →
      inner.source = source → target :: above <:+ inner.ancestors →
      scope.source = source ∧ target :: above <:+ scope.ancestors := by
    intro keyword reference scope inner stmt hfound hsource hsuffix
    rcases (declares_of_findDefinition hfound).cut with
      ⟨hsame, inside, hancestors, -⟩ | ⟨given, -, htop⟩
    · exact ⟨hsame ▸ hsource, hsuffix.trans ⟨inside, hancestors.symm⟩⟩
    · rw [htop] at hsuffix
      have hlength := hsuffix.length_le
      have hpos := List.length_pos_iff.mpr (above_ne_nil htarget hpath)
      simp only [Scope.top, List.length_cons, List.length_nil] at hlength
      omega
  obtain ⟨hsource, hsuffix⟩ := ht
  cases hlink with
  | type hnames =>
      obtain ⟨name, -, -, hfound⟩ := hnames
      exact hcut hfound hsource hsuffix
  | uses hleads =>
      obtain ⟨name, -, hfound⟩ := hleads
      exact hcut hfound hsource hsuffix

/-- A chain of references that ends in a statement starts in it or goes through it. -/
theorem inside_of_follows {n : Nat} (hfollows : Follows env s n t)
    (ht : Inside source (target :: above) t) :
    Inside source (target :: above) s ∨
      ∃ b i j, Follows env s i b ∧ h.simulation.Blocked b ∧ Follows env b j t := by
  induction hfollows with
  | refl => exact .inl ht
  | @part s u t n hpart hrest ih =>
      rcases ih ht with hu | ⟨b, i, j, hb, hblocked, hrest⟩
      · rcases inside_of_part h htarget hpath hpart hu with hs | hblocked
        · exact .inl hs
        · exact .inr ⟨s, 0, n, .refl s, hblocked, .part hpart hrest⟩
      · exact .inr ⟨b, i, j, .part hpart hb, hblocked, hrest⟩
  | @link s u t n hlink hrest ih =>
      rcases ih ht with hu | ⟨b, i, j, hb, hblocked, hrest⟩
      · exact .inl (inside_of_link htarget hpath hlink hu)
      · exact .inr ⟨b, i + 1, j, .link hlink hb, hblocked, hrest⟩

/-- Only what augments another module is stated at once in a statement of the module. -/
theorem tag_of_stated_inside (hs : Stated env s) (hinside : Inside source (target :: above) s) :
    target.tag = "augment" := by
  obtain ⟨-, hsuffix⟩ := hinside
  have hpos := List.length_pos_iff.mpr (above_ne_nil htarget hpath)
  have htop : ¬ target :: above <:+ [env.main.root] := by
    intro hsuffix
    have hlength := hsuffix.length_le
    simp only [List.length_cons, List.length_nil] at hlength
    omega
  cases hs with
  | data _ => exact absurd hsuffix htop
  | rpc _ _ => exact absurd hsuffix htop
  | augmentation _ htag _ =>
      rcases List.suffix_cons_iff.mp hsuffix with heq | hsuffix
      · cases heq
        exact htag
      · exact absurd hsuffix htop
  | typedef _ _ => exact absurd hsuffix htop

omit htarget hpath in
theorem isTarget_of_blocked (hs : h.simulation.Blocked s) : IsTarget a source s.scope s.stmt := by
  cases s with
  | type _ _ => exact hs.elim
  | typedef _ _ => exact hs.elim
  | constituent scope b =>
      obtain ⟨_ | kind, stmt⟩ := b
      · exact hs.elim
      · exact hs
  | grouping _ _ => exact hs

omit htarget hpath in
/-- Nothing is resolved with a statement that augments another module. -/
theorem tag_ne_of_blocked (hs : h.simulation.Blocked s) (hs' : s.Proper) :
    s.stmt.tag ≠ "augment" := by
  have hkeyword : ∀ kind : NodeKind, kind.keyword ≠ "augment" := by
    intro kind
    cases kind <;> decide
  cases s with
  | type _ _ => exact hs.elim
  | typedef _ _ => exact hs.elim
  | constituent scope b =>
      obtain ⟨_ | kind, stmt⟩ := b
      · exact hs.elim
      · exact hs' ▸ hkeyword kind
  | grouping _ _ => exact hs' ▸ by decide

omit htarget hpath in
/-- There is one site that the statement is resolved at. -/
theorem eq_of_blocked (hs : h.simulation.Blocked s) (ht : h.simulation.Blocked t)
    (hs' : s.Proper) (ht' : t.Proper) : s = t := by
  have hgrouping : ∀ kind : NodeKind, kind.keyword ≠ "grouping" := by
    intro kind
    cases kind <;> decide
  obtain ⟨-, hsource, hchain⟩ := isTarget_of_blocked h hs
  obtain ⟨-, hsource', hchain'⟩ := isTarget_of_blocked h ht
  obtain ⟨hstmt, hancestors⟩ := List.cons.inj (Option.some.inj (hchain.symm.trans hchain'))
  have hscope : s.scope = t.scope := by
    calc s.scope = ⟨s.scope.source, s.scope.ancestors⟩ := rfl
      _ = ⟨t.scope.source, t.scope.ancestors⟩ := by rw [hsource, hsource', hancestors]
      _ = t.scope := rfl
  cases s with
  | type _ _ => exact hs.elim
  | typedef _ _ => exact hs.elim
  | constituent scope b =>
      obtain ⟨_ | kind, stmt⟩ := b
      · exact hs.elim
      · cases t with
        | type _ _ => exact ht.elim
        | typedef _ _ => exact ht.elim
        | constituent scope' b' =>
            obtain ⟨_ | kind', stmt'⟩ := b'
            · exact ht.elim
            · cases hscope
              cases hstmt
              cases kind_of_keyword (hs'.symm.trans ht')
              rfl
        | grouping scope' stmt' =>
            cases hstmt
            exact absurd (hs'.symm.trans ht') (hgrouping kind)
  | grouping scope stmt =>
      cases t with
      | type _ _ => exact ht.elim
      | typedef _ _ => exact ht.elim
      | constituent scope' b' =>
          obtain ⟨_ | kind', stmt'⟩ := b'
          · exact ht.elim
          · cases hstmt
            exact absurd (ht'.symm.trans hs') (hgrouping kind')
      | grouping scope' stmt' =>
          cases hscope
          cases hstmt
          rfl

/-- A `uses` statement that the module is built of does not lead to a grouping with which a
statement around the `uses` statement is resolved. -/
theorem clear_of_built {m : Module} (hm : env.module = .ok m) {scope inner : Scope}
    {stmt grouping : Element} (hbuilt : Built env (.constituent scope ⟨none, stmt⟩))
    (hinside : Inside source (target :: above) (.constituent scope ⟨none, stmt⟩))
    (hleads : LeadsTo env scope stmt grouping inner) :
    h.simulation.Clear (.grouping inner grouping) := by
  intro n b hfollows hblocked
  have hlink : Link env (.constituent scope ⟨none, stmt⟩) (.grouping inner grouping) := .uses hleads
  have hproper : b.Proper := hfollows.proper hlink.proper
  obtain ⟨top, n', hstated, hreached⟩ := hbuilt
  rcases inside_of_follows h htarget hpath hreached hinside with
    htop | ⟨b', i, j, hbefore, hblocked', hafter⟩
  · -- the module augments another one there, and with such a statement nothing is resolved
    obtain ⟨-, -, hchain⟩ := isTarget_of_blocked h hblocked
    obtain ⟨hstmt, -⟩ := List.cons.inj (Option.some.inj (hchain.symm.trans htarget))
    refine tag_ne_of_blocked h hblocked hproper ?_
    rw [hstmt]
    exact tag_of_stated_inside htarget hpath hstated htop
  · -- the way to the grouping and back to the statement is a way around
    obtain rfl : b' = b :=
      eq_of_blocked h hblocked' hblocked (hbefore.proper hstated.proper) hproper
    have hround := hafter.trans (.link hlink hfollows)
    exact Built.not_follows_self hm ⟨top, i, hstated, hbefore⟩ (j + n) (by
      rwa [Nat.add_assoc])

end Target

end YangEvolution.Yin
