import YangEvolution.Proofs.Expansion

/-!
Replacing a grouping. Another grouping of the same name and with the same definitions is put in the
place of one in a module. Main statements: the environments before and afterwards correspond, in the
grouping, too, where the statements in it are the same; and nothing that is resolved in the grouping
leads back to it.
-/

namespace YangEvolution

namespace Markup.Element

/-- `e'` is `e` with `c'` in the place of a child `c` of the same tag and attributes. -/
structure Exchanges (e e' c c' : Element) : Prop where
  tag : c'.tag = c.tag
  attributes : c'.attributes = c.attributes
  children : ∃ before after, e.children = before ++ c :: after ∧
    e' = { e with children := before ++ c' :: after }

variable {e e' c c' : Element}

theorem Exchanges.forall₂ (h : Exchanges e e' c c') :
    List.Forall₂ (fun x x' => x' = x ∨ x = c ∧ x' = c') e.children e'.children := by
  obtain ⟨before, after, hchildren, rfl⟩ := h.children
  rw [hchildren]
  have hsame : ∀ l : List Element, List.Forall₂ (fun x x' => x' = x ∨ x = c ∧ x' = c') l l :=
    fun l => List.forall₂_same.mpr fun _ _ => .inl rfl
  exact List.rel_append (hsame before) (.cons (.inr ⟨rfl, rfl⟩) (hsame after))

theorem Exchanges.tag_eq (h : Exchanges e e' c c') {x x' : Element}
    (hx : x' = x ∨ x = c ∧ x' = c') : x'.tag = x.tag := by
  rcases hx with rfl | ⟨rfl, rfl⟩
  · rfl
  · exact h.tag

theorem Exchanges.parent (h : Exchanges e e' c c') :
    e'.tag = e.tag ∧ e'.attributes = e.attributes := by
  obtain ⟨before, after, -, rfl⟩ := h.children
  exact ⟨rfl, rfl⟩

theorem Exchanges.plain (h : Exchanges e e' c c') :
    List.Forall₂ (fun x x' => x' = x ∨ x = c ∧ x' = c') (plain e.children)
      (plain e'.children) :=
  plain_of_forall₂ h.forall₂ fun _ _ => h.tag_eq

theorem Exchanges.skeleton (h : Exchanges e e' c c')
    (hc : isDefinitionTag c.tag = false → c'.skeleton = c.skeleton) : e'.skeleton = e.skeleton := by
  have hplain := h.plain
  obtain ⟨before, after, -, rfl⟩ := h.children
  refine skeleton_eq_of_forall₂ rfl ?_
  refine ((List.forall₂_and_left _ _).mpr ⟨fun x hx => (List.mem_filter.mp hx).2, hplain⟩).imp ?_
  rintro x x' ⟨hx, rfl | ⟨rfl, rfl⟩⟩
  · rfl
  · exact hc (by simpa using hx)

end Markup.Element

namespace Yin

open Text Markup Outcome

open Element (plain isDefinitionTag Exchanges)

/-- Two statements have the same definitions in them. -/
def SharesDefinitions (e e' : Element) : Prop :=
  e'.children.filter (fun c => isDefinitionTag c.tag) =
    e.children.filter fun c => isDefinitionTag c.tag

theorem SharesDefinitions.findNamed? {e e' : Element} (h : SharesDefinitions e e')
    {keyword : String} (hkeyword : isDefinitionTag keyword = true) (name : String) :
    findNamed? e' keyword name = findNamed? e keyword name := by
  have hfilter : ∀ l : List Element,
      l.find? (fun c => c.tag == keyword && c.attribute? "name" == some name) =
        (l.filter fun c => isDefinitionTag c.tag).find?
          fun c => c.tag == keyword && c.attribute? "name" == some name := by
    intro l
    rw [List.find?_filter]
    congr 1
    funext c
    by_cases htag : c.tag = keyword
    · simp only [htag, hkeyword, true_and, Bool.decide_eq_true]
    · simp only [beq_false_of_ne htag, Bool.false_and, Bool.false_eq_true, and_false, decide_false]
  calc Yin.findNamed? e' keyword name
    _ = _ := hfilter e'.children
    _ = _ := by rw [h]
    _ = Yin.findNamed? e keyword name := (hfilter e.children).symm

theorem sharesDefinitions_of_exchanges {e e' c c' : Element} (h : Exchanges e e' c c')
    (hc : isDefinitionTag c.tag = false) : SharesDefinitions e e' := by
  have hc' := h.tag ▸ hc
  obtain ⟨before, after, hchildren, rfl⟩ := h.children
  simp [SharesDefinitions, hchildren, List.filter_append, hc, hc']

theorem findNamed?_of_exchanges {e e' c c' : Element} (h : Exchanges e e' c c')
    (keyword name : String) :
    Option.Rel (fun x x' => x' = x ∨ x = c ∧ x' = c') (findNamed? e keyword name)
      (findNamed? e' keyword name) := by
  refine find?_of_forall₂ h.forall₂ ?_
  rintro x _ (rfl | ⟨rfl, rfl⟩)
  · rfl
  · rw [h.tag, Element.attribute?, Element.attribute?, h.attributes]

/-- A grouping is reached only by a reference. -/
theorem Follows.pos_of_grouping {env : Environment} {s : Site} {n : Nat} {scope : Scope}
    {stmt : Element} (h : Follows env s n (.grouping scope stmt)) (hs : s ≠ .grouping scope stmt) :
    0 < n := by
  generalize ht : Site.grouping scope stmt = t at h hs
  induction h with
  | refl => exact absurd rfl hs
  | part hpart _ ih => exact ih ht (by subst ht; cases hpart <;> exact Site.noConfusion)
  | link _ _ _ => exact Nat.succ_pos _

/-! ### The way to the grouping -/

/-- A statement and its replacement, with the statements around them from the innermost on: each of
these has the one before it exchanged. -/
inductive Spine : Element → Element → List Element → List Element → Prop where
  | root {root root' : Element} : Spine root root' [] []
  | step {c c' a a' : Element} {above above' : List Element} : Exchanges a a' c c' →
      Spine a a' above above' → Spine c c' (a :: above) (a' :: above')

section Upwards

variable (g g' : Element) (above above' : List Element)

/-- `Upwards d d' u u'`: from the grouping upwards, one comes to `d` and its replacement `d'` with
`u` and `u'` around them. -/
inductive Upwards : Element → Element → List Element → List Element → Prop where
  | here : Upwards g g' above above'
  | up {d d' a a' : Element} {u u' : List Element} : Upwards d d' (a :: u) (a' :: u') →
      Upwards a a' u u'

/-- Statements around a scope and around its counterpart: they are on the way to the grouping, or
further inside, where they have the same definitions. -/
inductive Around : List Element → List Element → Prop where
  | way {d d' a a' : Element} {u u' : List Element} :
      Upwards g g' above above' d d' (a :: u) (a' :: u') → Around (a :: u) (a' :: u')
  | inside {e e' : Element} {u u' : List Element} : SharesDefinitions e e' → Around u u' →
      Around (e :: u) (e' :: u')

variable {g g' above above'} {d d' : Element} {u u' : List Element}

theorem Upwards.spine (hspine : Spine g g' above above') (h : Upwards g g' above above' d d' u u') :
    Spine d d' u u' := by
  induction h with
  | here => exact hspine
  | up _ ih =>
      cases ih with
      | step _ hspine => exact hspine

theorem Upwards.eq_or_up (h : Upwards g g' above above' d d' u u') :
    (d = g ∧ u = above) ∨ ∃ e e', Upwards g g' above above' e e' (d :: u) (d' :: u') := by
  cases h with
  | here => exact .inl ⟨rfl, rfl⟩
  | up hbelow => exact .inr ⟨_, _, hbelow⟩

/-- A grouping is left out of the skeleton, so that all around it keeps its own. -/
theorem Upwards.skeleton (hspine : Spine g g' above above') (hg : g.tag = "grouping")
    (h : Upwards g g' above above' d d' u u') :
    d = g ∨ d'.skeleton = d.skeleton := by
  induction h with
  | here => exact .inl rfl
  | up hbelow ih =>
      cases hbelow.spine hspine with
      | step hexchanges _ =>
          refine .inr (hexchanges.skeleton fun hplain => ?_)
          rcases ih with rfl | hskeleton
          · rw [hg] at hplain
            cases hplain
          · exact hskeleton

theorem Upwards.exists_root (hspine : Spine g g' above above') {root root' : Element}
    (hroot : above.getLast? = some root) (hroot' : above'.getLast? = some root') :
    ∃ d d', Upwards g g' above above' d d' [root] [root'] := by
  have hup : ∀ {u u' d d'}, Upwards g g' above above' d d' u u' → u.getLast? = some root →
      u'.getLast? = some root' → ∃ d d', Upwards g g' above above' d d' [root] [root'] := by
    intro u
    induction u with
    | nil => intro u' d d' _ hu; cases hu
    | cons a u ih =>
        intro u' d d' h hu hu'
        cases h.spine hspine with
        | @step _ _ _ a' _ u' _ hspine' =>
            cases hspine' with
            | root =>
                cases hu
                cases hu'
                exact ⟨d, d', h⟩
            | step _ _ => exact ih h.up (by simpa using hu) (by simpa using hu')
  exact hup .here hroot hroot'

/-- The innermost definition of a name. -/
theorem Around.findEnclosed? (hspine : Spine g g' above above') (h : Around g g' above above' u u')
    {keyword : String} (hkeyword : isDefinitionTag keyword = true) {name : String} {x : Element}
    {w : List Element} (hx : findEnclosed? keyword name u = some (x, w)) :
    ∃ x' w', findEnclosed? keyword name u' = some (x', w') ∧ Around g g' above above' w w' ∧
      (x' = x ∨ Upwards g g' above above' x x' w w') := by
  induction u generalizing u' with
  | nil => cases hx
  | cons a u ih =>
      rw [Yin.findEnclosed?] at hx
      cases h with
      | @way d d' _ a' _ u' hway =>
          cases hway.spine hspine with
          | step hexchanges hspine' =>
              have hrel := findNamed?_of_exchanges hexchanges keyword name
              rw [Yin.findEnclosed?]
              cases hfound : findNamed? a keyword name with
              | some found =>
                  rw [hfound] at hx hrel
                  cases hx
                  generalize findNamed? a' keyword name = found' at hrel ⊢
                  cases hrel with
                  | some hboth =>
                      refine ⟨_, _, rfl, .way hway, ?_⟩
                      rcases hboth with rfl | ⟨rfl, rfl⟩
                      · exact .inl rfl
                      · exact .inr hway
              | none =>
                  rw [hfound] at hx hrel
                  generalize findNamed? a' keyword name = found' at hrel ⊢
                  cases hrel
                  cases hspine' with
                  | root => cases hx
                  | step _ _ => exact ih (.way hway.up) hx
      | @inside _ e' _ u' hshares hu =>
          rw [Yin.findEnclosed?, hshares.findNamed? hkeyword]
          cases hfound : findNamed? a keyword name with
          | some found =>
              rw [hfound] at hx
              cases hx
              exact ⟨_, _, rfl, .inside hshares hu, .inl rfl⟩
          | none =>
              rw [hfound] at hx
              exact ih hu hx

end Upwards

/-! ### Corresponding scopes -/

section Scopes

variable (env env' : Environment) (inner inner' : Scope) (g g' : Element)

/-- `env'` differs from `env` in one module, where `g'` in the scope `inner'` is in the place of the
grouping `g` in the scope `inner`. -/
structure Replaces : Prop where
  header : ∃ root, inner'.source = { inner.source with root }
  sources : ∀ key, env'.source? key = env.source? key ∨
    env.source? key = some inner.source ∧ env'.source? key = some inner'.source
  spine : Spine g g' inner.ancestors inner'.ancestors
  root : inner.ancestors.getLast? = some inner.source.root
  root' : inner'.ancestors.getLast? = some inner'.source.root
  keyword : g.tag = "grouping"
  definitions : SharesDefinitions g g'

inductive Renewed : ModuleSource → ModuleSource → Prop where
  | other {m : ModuleSource} : Renewed m m
  | own : Renewed inner.source inner'.source

/-- A scope on the way to the grouping or in it, and its counterpart. -/
structure Alongside (s s' : Scope) : Prop where
  source : s.source = inner.source
  source' : s'.source = inner'.source
  around : Around g g' inner.ancestors inner'.ancestors s.ancestors s'.ancestors

/-- Scopes are as they were, or the statements around them correspond. -/
inductive Corresponds : Scope → Scope → Prop where
  | other {s : Scope} : Corresponds s s
  | own {s s' : Scope} : Alongside inner inner' g g' s s' → Corresponds s s'

/-- Statements are as they were, or they are on the way to the grouping. -/
inductive Paired : Scope → Scope → Element → Element → Prop where
  | same {s s' : Scope} {e : Element} : Corresponds inner inner' g g' s s' → Paired s s' e e
  | way {d d' a a' : Element} {u u' : List Element} :
      Upwards g g' inner.ancestors inner'.ancestors d d' (a :: u) (a' :: u') →
      Paired ⟨inner.source, a :: u⟩ ⟨inner'.source, a' :: u'⟩ d d'

variable {env env' inner inner' g g'} {s s' : Scope} {e e' : Element}

theorem Alongside.enter (hs : Alongside inner inner' g g' s s') (he : SharesDefinitions e e') :
    Alongside inner inner' g g' (s.enter e) (s'.enter e') :=
  ⟨hs.source, hs.source', .inside he hs.around⟩

theorem Corresponds.renewed (hs : Corresponds inner inner' g g' s s') :
    Renewed inner inner' s.source s'.source := by
  cases hs with
  | other => exact .other
  | own hs =>
      rw [hs.source, hs.source']
      exact .own

theorem Corresponds.enter (hs : Corresponds inner inner' g g' s s') (e : Element) :
    Corresponds inner inner' g g' (s.enter e) (s'.enter e) := by
  cases hs with
  | other => exact .other
  | own hs => exact .own (hs.enter rfl)

theorem Paired.scope (he : Paired inner inner' g g' s s' e e') :
    Corresponds inner inner' g g' s s' := by
  cases he with
  | same hs => exact hs
  | way hway => exact .own ⟨rfl, rfl, .way hway⟩

variable (h : Replaces env env' inner inner' g g')

include h

theorem Replaces.renewed {m m' : ModuleSource} (hm : Renewed inner inner' m m') :
    ∃ root, m' = { m with root } := by
  cases hm with
  | other => exact ⟨m.root, rfl⟩
  | own => exact h.header

theorem Replaces.main : ∃ root, env'.main = { env.main with root } := by
  rcases h.sources none with hmain | ⟨hmain, hmain'⟩
  · refine ⟨env.main.root, ?_⟩
    rw [Option.some.inj hmain]
  · rw [Option.some.inj hmain, Option.some.inj hmain']
    exact h.header

theorem Replaces.keyOf (name : String) : env'.keyOf name = env.keyOf name := by
  obtain ⟨root, hmain⟩ := h.main
  rw [Environment.keyOf, Environment.keyOf, hmain]

theorem Replaces.nodeName (name : String) : env'.nodeName name = env.nodeName name := by
  obtain ⟨root, hmain⟩ := h.main
  rw [Environment.nodeName, Environment.nodeName, hmain]

theorem Replaces.moduleOfPrefix {m m' o : ModuleSource} (hm : Renewed inner inner' m m')
    {given : String} (ho : env.moduleOfPrefix m given = .ok o) :
    ∃ o', env'.moduleOfPrefix m' given = .ok o' ∧ Renewed inner inner' o o' := by
  obtain ⟨root, hheader⟩ := h.renewed hm
  have hnsPrefix : m'.nsPrefix = m.nsPrefix := by rw [hheader]
  by_cases hgiven : given = m.nsPrefix
  · rw [Environment.moduleOfPrefix, if_pos hgiven] at ho
    cases ho
    exact ⟨m', if_pos (hgiven.trans hnsPrefix.symm), hm⟩
  · have hgiven' : given ≠ m'.nsPrefix := hnsPrefix ▸ hgiven
    obtain ⟨name, hname, ho⟩ := (moduleOfPrefix_eq_ok_iff hgiven).mp ho
    have hname' : m'.imported? given = some name := by
      rw [hheader]
      exact hname
    rcases h.sources (env.keyOf name) with hsame | ⟨hown, hown'⟩
    · refine ⟨o, (moduleOfPrefix_eq_ok_iff hgiven').mpr ⟨name, hname', ?_⟩, .other⟩
      rw [h.keyOf, hsame, ho]
    · cases ho.symm.trans hown
      refine ⟨_, (moduleOfPrefix_eq_ok_iff hgiven').mpr ⟨name, hname', ?_⟩, .own⟩
      rw [h.keyOf, hown']

theorem Replaces.qualify (hs : Corresponds inner inner' g g' s s') {reference : String}
    {name : QName} (hname : env.qualify s reference = .ok name) :
    env'.qualify s' reference = .ok name := by
  obtain ⟨root, hheader⟩ := h.renewed hs.renewed
  unfold Environment.qualify Environment.splitOwner at hname ⊢
  generalize splitReference reference = parts at hname ⊢
  obtain ⟨given | given, localName⟩ := parts
  · rw [hheader]
    exact hname
  · obtain ⟨owner, howner, hqname⟩ := exists_of_bind_eq_ok hname
    obtain ⟨m, hm, heq⟩ := exists_of_bind_eq_ok howner
    cases heq
    obtain ⟨m', hm', hrenewed⟩ := h.moduleOfPrefix hs.renewed hm
    obtain ⟨root', rfl⟩ := h.renewed hrenewed
    simp only [hm', ok_bind]
    exact hqname

theorem Replaces.around_root :
    Around g g' inner.ancestors inner'.ancestors [inner.source.root] [inner'.source.root] := by
  obtain ⟨d, d', hway⟩ := Upwards.exists_root h.spine h.root h.root'
  exact .way hway

theorem Replaces.paired {u u' w : List Element} {keyword name : String} {d : Element}
    (haround : Around g g' inner.ancestors inner'.ancestors u u')
    (hkeyword : isDefinitionTag keyword = true)
    (hd : findEnclosed? keyword name u = some (d, w)) :
    ∃ d' w', findEnclosed? keyword name u' = some (d', w') ∧
      Paired inner inner' g g' ⟨inner.source, w⟩ ⟨inner'.source, w'⟩ d d' := by
  obtain ⟨d', w', hd', hw, rfl | hway⟩ := haround.findEnclosed? h.spine hkeyword hd
  · exact ⟨_, w', hd', .same (.own ⟨rfl, rfl, hw⟩)⟩
  · cases hway.spine h.spine with
    | root => cases hw
    | step _ _ => exact ⟨d', _, hd', .way hway⟩

theorem Replaces.enclosed (hs : Corresponds inner inner' g g' s s') {keyword name : String}
    (hkeyword : isDefinitionTag keyword = true) {d : Element} {i : Scope}
    (hd : (findEnclosed? keyword name s.ancestors).map
      (fun found => (found.1, Scope.mk s.source found.2)) = some (d, i)) :
    ∃ d' i', (findEnclosed? keyword name s'.ancestors).map
        (fun found => (found.1, Scope.mk s'.source found.2)) = some (d', i') ∧
      Paired inner inner' g g' i i' d d' := by
  obtain ⟨⟨stmt, u⟩, hfound, heq⟩ := Option.map_eq_some_iff.mp hd
  cases heq
  cases hs with
  | other => exact ⟨_, _, hd, .same .other⟩
  | own hs =>
      obtain ⟨d', w', hd', hpaired⟩ := h.paired hs.around hkeyword hfound
      refine ⟨d', _, Option.map_eq_some_iff.mpr ⟨_, hd', rfl⟩, ?_⟩
      rw [hs.source, hs.source']
      exact hpaired

theorem Replaces.named {m m' : ModuleSource} (hm : Renewed inner inner' m m')
    {keyword name : String} (hkeyword : isDefinitionTag keyword = true) {d : Element}
    (hd : findNamed? m.root keyword name = some d) :
    ∃ d', findNamed? m'.root keyword name = some d' ∧
      Paired inner inner' g g' (.top m) (.top m') d d' := by
  cases hm with
  | other => exact ⟨d, hd, .same .other⟩
  | own =>
      have hroot : findEnclosed? keyword name [inner.source.root] =
          some (d, [inner.source.root]) := by
        rw [findEnclosed?, hd]
      obtain ⟨d', w', hd', hpaired⟩ := h.paired h.around_root hkeyword hroot
      rw [findEnclosed?] at hd'
      split at hd'
      · rename_i found hfound
        cases hd'
        exact ⟨_, hfound, hpaired⟩
      · cases hd'

/-- A reference leads to corresponding definitions. -/
theorem Replaces.findDefinition (hs : Corresponds inner inner' g g' s s')
    {keyword reference : String} (hkeyword : isDefinitionTag keyword = true) {d : Element}
    {i : Scope} (hd : env.findDefinition keyword s reference = .ok (some (d, i))) :
    ∃ d' i', env'.findDefinition keyword s' reference = .ok (some (d', i')) ∧
      Paired inner inner' g g' i i' d d' := by
  have hsame : s'.source.nsPrefix = s.source.nsPrefix := by
    obtain ⟨root, hheader⟩ := h.renewed hs.renewed
    rw [hheader]
  unfold Environment.findDefinition at hd ⊢
  dsimp only at hd ⊢
  generalize splitReference reference = parts at hd ⊢
  obtain ⟨given | given, name⟩ := parts
  · obtain ⟨d', i', hd', hpaired⟩ := h.enclosed hs hkeyword (Except.ok.inj hd)
    exact ⟨d', i', congrArg _ hd', hpaired⟩
  · dsimp only at hd ⊢
    rw [hsame]
    split at hd
    · rename_i hgiven
      rw [if_pos hgiven]
      obtain ⟨d', i', hd', hpaired⟩ := h.enclosed hs hkeyword (Except.ok.inj hd)
      exact ⟨d', i', congrArg _ hd', hpaired⟩
    · rename_i hgiven
      rw [if_neg hgiven]
      obtain ⟨m, hm, hd⟩ := exists_of_bind_eq_ok hd
      obtain ⟨stmt, hstmt, heq⟩ := Option.map_eq_some_iff.mp (Except.ok.inj hd)
      cases heq
      obtain ⟨m', hm', hrenewed⟩ := h.moduleOfPrefix hs.renewed hm
      obtain ⟨d', hd', hpaired⟩ := h.named hrenewed hkeyword hstmt
      refine ⟨d', .top m', ?_, hpaired⟩
      simp only [hm', ok_bind, hd', Option.map_some]

theorem Replaces.skeleton (he : Paired inner inner' g g' s s' e e') (htag : e.tag ≠ "grouping") :
    e'.skeleton = e.skeleton := by
  cases he with
  | same _ => rfl
  | way hway =>
      rcases hway.skeleton h.spine h.keyword with rfl | hskeleton
      · exact absurd h.keyword htag
      · exact hskeleton

theorem Replaces.tag (he : Paired inner inner' g g' s s' e e') : e'.tag = e.tag := by
  cases he with
  | same _ => rfl
  | way hway =>
      cases hway.spine h.spine with
      | step hexchanges _ => exact hexchanges.tag

/-- What is in a statement on the way to the grouping is on the way to it or as it was. -/
theorem Replaces.children (he : Paired inner inner' g g' s s' e e')
    (hother : ¬ (s = inner ∧ e = g)) :
    Corresponds inner inner' g g' (s.enter e) (s'.enter e') ∧
      List.Forall₂ (Paired inner inner' g g' (s.enter e) (s'.enter e')) (plain e.children)
        (plain e'.children) := by
  cases he with
  | same hs =>
      have hentered := hs.enter e
      exact ⟨hentered, List.forall₂_same.mpr fun _ _ => .same hentered⟩
  | way hway =>
      rcases hway.eq_or_up with ⟨heq, hancestors⟩ | ⟨c, c', hbelow⟩
      · exact absurd ⟨by rw [hancestors], heq⟩ hother
      · have hentered : Corresponds inner inner' g g' ⟨inner.source, e :: _⟩ ⟨_, e' :: _⟩ :=
          .own ⟨rfl, rfl, .way hbelow⟩
        refine ⟨hentered, ?_⟩
        cases hbelow.spine h.spine with
        | step hexchanges _ =>
            refine hexchanges.plain.imp ?_
            rintro x _ (rfl | ⟨rfl, rfl⟩)
            · exact .same hentered
            · exact .way hbelow

theorem Replaces.alongside : Alongside inner inner' g g' (inner.enter g) (inner'.enter g') := by
  refine ⟨rfl, rfl, .inside h.definitions ?_⟩
  have hway : Upwards g g' inner.ancestors inner'.ancestors g g' inner.ancestors inner'.ancestors :=
    .here
  have hspine := h.spine
  have hroot := h.root
  obtain ⟨source, ancestors⟩ := inner
  obtain ⟨source', ancestors'⟩ := inner'
  cases hspine with
  | root => cases hroot
  | step _ _ => exact .way hway

/-- Environments that differ in a grouping correspond, except in the grouping itself. -/
def Replaces.simulation : Simulation env env' where
  scopes := Corresponds inner inner' g g'
  stmts := Paired inner inner' g g'
  marked s e := s = inner ∧ e = g
  owner hs := by
    obtain ⟨root, hheader⟩ := h.renewed hs.renewed
    rw [Scope.owner, Scope.owner, hheader]
  uri hs := by
    obtain ⟨root, hheader⟩ := h.renewed hs.renewed
    rw [hheader]
  revision hs := by
    obtain ⟨root, hheader⟩ := h.renewed hs.renewed
    rw [hheader]
  qualify hs hname := h.qualify hs hname
  find hs hkeyword hd := h.findDefinition hs hkeyword hd
  scope he := he.scope
  tag he := h.tag he
  skeleton he htag := h.skeleton he htag
  enter he hother := (h.children he hother).1
  children he hother := (h.children he hother).2

/-- Nothing that is resolved in the grouping leads back to it. -/
theorem Replaces.clear {depth : Nat} (hresolved : Resolved env depth (.grouping inner g)) {t : Site}
    (hpart : Part env (.grouping inner g) t) : h.simulation.Clear t := by
  intro n u hfollows hblocked
  have hproper := hfollows.proper hpart.proper
  obtain rfl : u = .grouping inner g := by
    cases u with
    | type _ _ => exact hblocked.elim
    | typedef _ _ => exact hblocked.elim
    | constituent scope b =>
        obtain ⟨_ | kind, stmt⟩ := b
        · exact hblocked.elim
        · obtain ⟨-, rfl⟩ := hblocked
          exact absurd (hproper.symm.trans h.keyword) (by cases kind <;> decide)
    | grouping scope stmt =>
        obtain ⟨rfl, rfl⟩ := hblocked
        rfl
  have hlinks : 0 < n := hfollows.pos_of_grouping (by cases hpart; exact Site.noConfusion)
  -- going around once more than references may be followed
  obtain ⟨d, hd, -⟩ := hresolved.follows ((Follows.part hpart hfollows).repeat (depth + 1))
  have hle := Nat.le_mul_of_pos_right (depth + 1) hlinks
  omega

end Scopes

end Yin

end YangEvolution
