import YangEvolution.Proofs.EffectiveFacets
import YangEvolution.Proofs.IntervalInclusion
import YangEvolution.Proofs.LoadedTypes

/-!
Restrictions as they are written. A length or a range that a type statement writes is not compared
with what it restricts: only the bounds `min` and `max` are taken from there. Main statement: on the
chains of the types of a loaded module, what a type allows stays between the bounds of its base
exactly when the numbers in the expression do, and integers stay within the bounds of their built-in
type where the numbers in all expressions on the chain are.
-/

namespace YangEvolution

namespace Interval

/-- A value that is neither below all intervals nor above all of them. -/
def Between (intervals : List Interval) (v : Int) : Prop :=
  (∃ i ∈ intervals, i.min ≤ v) ∧ ∃ i ∈ intervals, v ≤ i.max

variable {intervals base : List Interval}

theorem between_singleton_iff {i : Interval} {v : Int} : Between [i] v ↔ Contains [i] v := by
  simp [Between, Contains, Has]

/-- Intervals whose bounds are in order are between others when their bounds are. -/
theorem forall_contains_between_iff (h : ∀ i ∈ intervals, i.min ≤ i.max) :
    (∀ v, Contains intervals v → Between base v) ↔
      ∀ i ∈ intervals, Between base i.min ∧ Between base i.max := by
  constructor
  · intro hall i hi
    have hordered := h i hi
    exact ⟨hall _ ⟨i, hi, Int.le_refl _, hordered⟩, hall _ ⟨i, hi, hordered, Int.le_refl _⟩⟩
  · rintro hbounds v ⟨i, hi, hmin, hmax⟩
    obtain ⟨⟨⟨lo, hlo, hlower⟩, -⟩, -, hi', hmem, hupper⟩ := hbounds i hi
    exact ⟨⟨lo, hlo, Int.le_trans hlower hmin⟩, hi', hmem, Int.le_trans hmax hupper⟩

theorem between_bounds (h : ∀ i ∈ base, i.min ≤ i.max) :
    ∀ i ∈ base, Between base i.min ∧ Between base i.max := by
  intro i hi
  have hordered := h i hi
  exact ⟨⟨⟨i, hi, Int.le_refl _⟩, i, hi, hordered⟩, ⟨i, hi, hordered⟩, i, hi, Int.le_refl _⟩

end Interval

namespace Yin

open Text Markup Outcome YangEvolution.Interval

/-- Intervals that restrict others by an expression with the given numbers: they stay between the
bounds of what they restrict if and only if the numbers do, and within it where it has no gaps. -/
structure AsWritten (numbers : List Int) (base intervals : List Interval) : Prop where
  between_iff : (∀ v, Contains intervals v → Between base v) ↔ ∀ n ∈ numbers, Between base n
  contains_iff : ∀ i, base = [i] →
    ((∀ v, Contains intervals v → Contains base v) ↔ ∀ n ∈ numbers, Contains base n)

theorem asWritten_of_readIntervals {base intervals : List Interval}
    {number : List Char → Option Int} {cs : List Char} (hbase : ∀ i ∈ base, i.min ≤ i.max)
    (h : readIntervals base number cs = some intervals) :
    AsWritten (numbersIn number cs) base intervals := by
  obtain ⟨-, hordered, hiff⟩ := readIntervals_iff (between_bounds hbase) h
  have hbetween := (forall_contains_between_iff hordered).trans hiff
  refine ⟨hbetween, ?_⟩
  rintro i rfl
  simpa only [between_singleton_iff] using hbetween

def lengthNumbers (expr : String) : List Int :=
  numbersIn readLengthNumber expr.toList

def rangeNumbers (digits : Nat) (expr : String) : List Int :=
  numbersIn (readRangeNumber digits) expr.toList

variable {owner expr : String}

theorem asWritten_of_readLength {k l : LengthRestriction} (hk : k.Valid)
    (h : readLength owner expr (some k) = .ok l) :
    AsWritten (lengthNumbers expr) k.intervals l.intervals := by
  unfold readLength at h
  split at h
  · rename_i intervals hread
    cases h
    exact asWritten_of_readIntervals hk.ordered hread
  · cases h

theorem asWritten_of_readRange {k r : RangeRestriction} (hk : k.Valid)
    (h : readRange owner expr k = .ok r) :
    AsWritten (rangeNumbers k.fractionDigits expr) k.intervals r.intervals := by
  unfold readRange at h
  split at h
  · rename_i intervals hread
    cases h
    exact asWritten_of_readIntervals hk.ordered hread
  · cases h

/-! ### Where types come from -/

/-- A type statement that a module is built of names the type `v` and restricts its facets. -/
structure Restricts (env : Environment) (l : Layer) (v : TypeDef) (facets : Facets TypeDef) :
    Prop where
  built : Built env (.type l.scope l.stmt)
  names : ∃ depth, namedType env (typedefResolver env depth) l.scope l.stmt = .ok v
  restricts : ∃ members, restrict env l.scope l.stmt v.builtin? members v.facets = .ok facets

/-- A type is a built-in one, or it has the facets of its base or those to which a type statement
restricts them; and so on for its base and for the members of a union. -/
inductive Traced (env : Environment) : TypeDef → Prop where
  | builtin {t : TypeDef} (b : Builtin) : t.bare = .ofBuiltin b → Traced env t
  | step {t v : TypeDef} : t.base = some v → Traced env v →
      (t.facets = v.facets ∨ ∃ l, Restricts env l v t.facets) →
      (∀ members, t.facets = .union members → ∀ w ∈ members, Traced env w) → Traced env t

variable {env : Environment} {scope : Scope} {stmt : Element} {s t u v : TypeDef}

theorem Traced.of_bare_eq (h : Traced env t) (heq : s.bare = t.bare) : Traced env s := by
  have hbase : s.bare.base = t.bare.base := by rw [heq]
  have hfacets : s.bare.facets = t.bare.facets := by rw [heq]
  simp only [TypeDef.bare] at hbase hfacets
  cases h with
  | builtin b hb => exact .builtin b (heq.trans hb)
  | step hv htraced hstep hmembers =>
      exact .step (hbase.trans hv) htraced (hfacets ▸ hstep) (hfacets ▸ hmembers)

theorem Traced.of_extends (h : Traced env t) (hchain : t.Extends u) : Traced env u := by
  induction hchain with
  | self => exact h
  | base hbase _ ih =>
      refine ih ?_
      cases h with
      | builtin b hb =>
          have hnone : _ = none := congrArg TypeDef.base hb
          cases hbase.symm.trans hnone
      | step hv htraced =>
          cases hbase.symm.trans hv
          exact htraced

theorem Traced.members (h : Traced env t) {members : List TypeDef}
    (hunion : t.facets = .union members) : ∀ w ∈ members, Traced env w := by
  cases h with
  | builtin b hb =>
      have hfacets : t.facets = .ofBuiltin b := congrArg TypeDef.facets hb
      rw [hunion] at hfacets
      cases b <;> cases hfacets
      exact List.forall_mem_nil _
  | step _ _ _ hmembers => exact hmembers members hunion

theorem Layer.Chain.namesUnion {l : Layer} {passed : List Passage} {b : Builtin}
    (h : l.Chain env passed b) (hb : b = .union) : NamesUnion env l.scope l.stmt := by
  induction h with
  | builtin hname hbuiltin => exact .builtin hname (hb ▸ hbuiltin)
  | typedef hnames htype _ ih => exact .typedef hnames htype (ih hb)

theorem namesUnion_of_namedType {depth : Nat} {members : List TypeDef}
    (h : namedType env (typedefResolver env depth) scope stmt = .ok v)
    (hunion : v.facets = .union members) : NamesUnion env scope stmt := by
  rcases exists_of_namedType h with
    ⟨name, b, hname, hb, rfl⟩ | ⟨d, typedef, inner, -, hnames, hdefined⟩
  · refine .builtin hname (hb.trans ?_)
    cases b <;> cases hunion
    rfl
  · obtain ⟨type, base, htype, hbase, -, hfacets, -⟩ := typedefVia_eq_ok hdefined
    obtain ⟨passed, b, hchain, -, heffective, -⟩ := effective_of_typeOf hbase
    rw [← hfacets, hunion] at heffective
    cases heffective
    exact .typedef hnames htype (hchain.namesUnion rfl)

theorem sound_of_typedefResolver {depth : Nat} {name : String} {typedef : Element} {inner : Scope}
    (h : typedefResolver env depth name typedef inner = .ok t) : t.Sound := by
  obtain ⟨d, -, h⟩ := typedefResolver_eq_ok h
  exact sound_of_typedefOf h

/-- A typedef is a step that restricts nothing. -/
theorem traced_of_typedefOf {depth : Nat}
    (htype : ∀ type base, Built env (.type scope type) → typeOf env depth scope type = .ok base →
      Traced env base)
    (hbuilt : Built env (.typedef scope stmt)) (h : typedefOf env depth scope stmt = .ok t) :
    Traced env t := by
  obtain ⟨type, base, hchild, hbase, hv, hfacets, -⟩ := typedefVia_eq_ok h
  have htraced := htype type base (hbuilt.part (.definedType hchild)) hbase
  refine .step hv htraced (.inl hfacets) fun members hunion => ?_
  exact htraced.members (hfacets.symm.trans hunion)

theorem traced_of_typeOf {depth : Nat} (hbuilt : Built env (.type scope stmt))
    (h : typeOf env depth scope stmt = .ok t) : Traced env t := by
  -- on the references that may be followed, and then on the statement for the members of a union
  induction depth using Nat.strongRecOn generalizing scope stmt t with
  | _ depth ih =>
      induction stmt using Element.treeInduction generalizing t with
      | element stmt ihMembers =>
          rw [typeOf_eq_typeVia] at h
          obtain ⟨base, hbase, h⟩ := typeVia_eq_ok h
          have htraced : Traced env base := by
            rcases exists_of_namedType hbase with
              ⟨-, b, -, -, rfl⟩ | ⟨d, typedef, inner, rfl, hnames, hdefined⟩
            · exact .builtin b rfl
            · exact traced_of_typedefOf (fun _ _ => ih d (Nat.lt_succ_self d))
                (hbuilt.link (.type hnames)) hdefined
          split at h
          · obtain ⟨facets, hfacets, rfl⟩ := h
            refine .step rfl htraced
              (.inr ⟨⟨scope, stmt⟩, hbuilt, ⟨depth, hbase⟩, _, hfacets⟩) ?_
            rintro members hunion w hw
            obtain ⟨⟨b, hground⟩, -⟩ :=
              grounded_of_namedType (fun _ _ _ _ => sound_of_typedefResolver) hbase
            rw [hground.builtin?] at hfacets
            obtain ⟨first, added, hfirst, hadded, rfl⟩ :=
              restrict_eq_union (hground.facets base (.self base))
                (hfacets.trans (congrArg Except.ok hunion))
            rcases List.mem_append.mp hw with hw | hw
            · exact htraced.members hfirst w hw
            · obtain ⟨member, hmember, htag, hvia⟩ := exists_of_mem_membersVia hadded hw
              rw [← typeOf_eq_typeVia] at hvia
              have hpart : Part env (.type scope stmt) (.type scope member) :=
                .member (namesUnion_of_namedType hbase hfirst) hmember htag
              exact ihMembers member hmember (hbuilt.part hpart) hvia
          · exact h ▸ htraced

theorem traced_of_hasType {m : Module} (h : env.module = .ok m) (ht : m.HasType t) :
    Traced env t :=
  forall_hasType (fun _ _ heq htraced => htraced.of_bare_eq heq)
    (fun _ _ _ _ => traced_of_typeOf)
    (fun _ _ _ _ => traced_of_typedefOf fun _ _ => traced_of_typeOf)
    (fun _ _ _ _ htraced hchain hunion hw => (htraced.of_extends hchain).members hunion _ hw) h ht

/-! ### Steps on a chain -/

/-- Where a type and its base have a length, it is the same one, or one that is written. -/
def LengthStep (env : Environment) (v u : TypeDef) : Prop :=
  ∀ k l, v.length? = some k → u.length? = some l → l = k ∨
    ∃ layer expr, Restricts env layer v u.facets ∧
      layer.stmt.childAttribute? "length" "value" = some expr ∧
      readLength layer.scope.owner expr (some k) = .ok l ∧
      AsWritten (lengthNumbers expr) k.intervals l.intervals

/-- The range that a statement restricts: that of the base, or, for a decimal of which it states the
places, all decimals with these. -/
def StartsFrom (layer : Layer) (v : TypeDef) (k start : RangeRestriction) : Prop :=
  start = k ∨ v.builtin? = some .decimal64 ∧ ∃ raw digits,
    layer.stmt.childAttribute? "fraction-digits" "value" = some raw ∧
    readFractionDigits layer.scope.owner raw = .ok digits ∧ start = decimalRange digits

/-- Where a type and its base have a range, it is the same one, or it starts from some range and is
that range or one that is written. -/
def RangeStep (env : Environment) (v u : TypeDef) : Prop :=
  ∀ k r, v.range? = some k → u.range? = some r → r = k ∨
    ∃ layer start, Restricts env layer v u.facets ∧ StartsFrom layer v k start ∧ (r = start ∨
      ∃ expr, layer.stmt.childAttribute? "range" "value" = some expr ∧
        readRange layer.scope.owner expr start = .ok r ∧
        r.fractionDigits = start.fractionDigits ∧
        AsWritten (rangeNumbers start.fractionDigits expr) start.intervals r.intervals)

theorem length?_eq_some {k : LengthRestriction} (h : t.length? = some k) :
    t.facets = .binary (some k) ∨ ∃ patterns, t.facets = .string (some k) patterns := by
  unfold TypeDef.length? at h
  split at h
  · rename_i length hfacets
    exact .inl (h ▸ hfacets)
  · rename_i length patterns hfacets
    exact .inr ⟨patterns, h ▸ hfacets⟩
  · cases h

theorem range?_eq_some {k : RangeRestriction} (h : t.range? = some k) :
    t.facets = .numeric (some k) := by
  unfold TypeDef.range? at h
  split at h
  · rename_i range hfacets
    exact h ▸ hfacets
  · cases h

theorem valid_of_length? {b : Builtin} (h : t.facets.Fits b) {k : LengthRestriction}
    (hk : t.length? = some k) : k.Valid := by
  rcases length?_eq_some hk with hfacets | ⟨patterns, hfacets⟩
  · rw [hfacets] at h
    cases h with
    | binary hlength => exact hlength k rfl
  · rw [hfacets] at h
    cases h with
    | string hlength => exact hlength k rfl

theorem valid_of_range? {b : Builtin} (h : t.facets.Fits b) {k : RangeRestriction}
    (hk : t.range? = some k) : k.Valid := by
  rw [range?_eq_some hk] at h
  cases h with
  | integer _ hvalid => exact hvalid
  | decimal hrange => exact (hrange k rfl).1

theorem Restricts.length {l : Layer} {k k' : LengthRestriction} (h : Restricts env l v u.facets)
    (hk : v.length? = some k) (hk' : u.length? = some k') :
    k' = k ∨ ∃ expr, l.stmt.childAttribute? "length" "value" = some expr ∧
      readLength l.scope.owner expr (some k) = .ok k' := by
  have hrestricted : restrictLength l.scope.owner l.stmt (some k) = .ok (some k') := by
    obtain ⟨members, hrestrict⟩ := h.restricts
    rcases length?_eq_some hk with hfacets | ⟨patterns, hfacets⟩
    · rw [hfacets] at hrestrict
      obtain ⟨restricted, hrestricted, hbinary⟩ := map_eq_ok_iff.mp hrestrict
      rw [TypeDef.length?, ← hbinary] at hk'
      exact hk' ▸ hrestricted
    · rw [hfacets] at hrestrict
      obtain ⟨restricted, hrestricted, hrestrict⟩ := exists_of_bind_eq_ok hrestrict
      obtain ⟨added, -, hrestrict⟩ := exists_of_bind_eq_ok hrestrict
      have hstring := Except.ok.inj hrestrict
      rw [TypeDef.length?, ← hstring] at hk'
      exact hk' ▸ hrestricted
  unfold restrictLength at hrestricted
  split at hrestricted
  · rename_i expr hexpr
    obtain ⟨read, hread, hsome⟩ := map_eq_ok_iff.mp hrestricted
    cases hsome
    exact .inr ⟨expr, hexpr, hread⟩
  · cases hrestricted
    exact .inl rfl

theorem Restricts.range {l : Layer} {k r : RangeRestriction} (h : Restricts env l v u.facets)
    (hk : v.range? = some k) (hr : u.range? = some r) :
    ∃ start, StartsFrom l v k start ∧
      (r = start ∨ ∃ expr, l.stmt.childAttribute? "range" "value" = some expr ∧
        readRange l.scope.owner expr start = .ok r) := by
  obtain ⟨members, hrestrict⟩ := h.restricts
  rw [range?_eq_some hk, range?_eq_some hr] at hrestrict
  obtain ⟨scaled, hscaled, hrestrict⟩ := exists_of_bind_eq_ok hrestrict
  obtain ⟨restricted, hrestricted, hnumeric⟩ := map_eq_ok_iff.mp hrestrict
  cases hnumeric
  -- the range may start anew, but there is one
  obtain ⟨start, rfl, hstart⟩ : ∃ start, scaled = some start ∧ StartsFrom l v k start := by
    unfold scaleRange at hscaled
    split at hscaled
    · rename_i raw hdecimal hraw
      obtain ⟨digits, hdigits, hscaled⟩ := exists_of_bind_eq_ok hscaled
      cases hscaled
      exact ⟨_, rfl, .inr ⟨hdecimal, raw, digits, hraw, hdigits, rfl⟩⟩
    · cases hscaled
      exact ⟨k, rfl, .inl rfl⟩
  refine ⟨start, hstart, ?_⟩
  unfold restrictRange at hrestricted
  split at hrestricted
  · cases hrestricted
    exact .inl rfl
  · rename_i expr base hexpr hbase
    cases hbase
    obtain ⟨read, hread, hsome⟩ := map_eq_ok_iff.mp hrestricted
    cases hsome
    exact .inr ⟨expr, hexpr, hread⟩
  · rename_i hnone
    cases hnone

theorem StartsFrom.valid {l : Layer} {k start : RangeRestriction} (h : StartsFrom l v k start)
    (hk : k.Valid) : start.Valid := by
  rcases h with rfl | ⟨-, raw, digits, -, -, rfl⟩
  · exact hk
  · exact valid_decimalRange digits

theorem Traced.facets_eq_or (h : Traced env t) (hbase : t.base = some v) :
    t.facets = v.facets ∨ ∃ l, Restricts env l v t.facets := by
  cases h with
  | builtin b hb =>
      have hnone : t.base = none := congrArg TypeDef.base hb
      cases hbase.symm.trans hnone
  | step hv _ hstep =>
      cases hbase.symm.trans hv
      exact hstep

theorem Traced.lengthStep {b : Builtin} (h : Traced env u) (hfits : v.facets.Fits b)
    (hbase : u.base = some v) : LengthStep env v u := by
  intro k l hk hl
  rcases h.facets_eq_or hbase with hsame | ⟨layer, hrestricts⟩
  · rw [TypeDef.length?, hsame, ← TypeDef.length?, hk] at hl
    exact .inl (Option.some.inj hl).symm
  · rcases hrestricts.length hk hl with hkept | ⟨expr, hexpr, hread⟩
    · exact .inl hkept
    · have hwritten := asWritten_of_readLength (valid_of_length? hfits hk) hread
      exact .inr ⟨layer, expr, hrestricts, hexpr, hread, hwritten⟩

theorem Traced.rangeStep {b : Builtin} (h : Traced env u) (hfits : v.facets.Fits b)
    (hbase : u.base = some v) : RangeStep env v u := by
  intro k r hk hr
  rcases h.facets_eq_or hbase with hsame | ⟨layer, hrestricts⟩
  · rw [TypeDef.range?, hsame, ← TypeDef.range?, hk] at hr
    exact .inl (Option.some.inj hr).symm
  · obtain ⟨start, hstart, hkept | ⟨expr, hexpr, hread⟩⟩ := hrestricts.range hk hr
    · exact .inr ⟨layer, start, hrestricts, hstart, .inl hkept⟩
    · have hvalid := hstart.valid (valid_of_range? hfits hk)
      exact .inr ⟨layer, start, hrestricts, hstart, .inr ⟨expr, hexpr, hread,
        (valid_of_readRange hread).2, asWritten_of_readRange hvalid hread⟩⟩

/-! ### Integers -/

/-- All numbers in the range expressions on the chain of a type are within some bounds. -/
def NumbersWithin (env : Environment) (bounds : Interval) (t : TypeDef) : Prop :=
  ∀ u v layer expr, t.Extends u → u.base = some v → Restricts env layer v u.facets →
    layer.stmt.childAttribute? "range" "value" = some expr → ∀ n ∈ rangeNumbers 0 expr, bounds.Has n

theorem exists_range_of_fits {b : Builtin} {bounds : Interval} {facets : Facets TypeDef}
    (h : facets.Fits b) (hb : b.integerBounds? = some bounds) :
    ∃ k, facets = .numeric (some k) ∧ k.Valid ∧ k.fractionDigits = 0 := by
  cases h with
  | integer _ hvalid hdigits => exact ⟨_, rfl, hvalid, hdigits⟩
  | none hnone =>
      simp only [List.mem_cons, List.not_mem_nil, or_false] at hnone
      rcases hnone with rfl | rfl | rfl | rfl <;> cases hb
  | _ => cases hb

theorem facets_ofBuiltin_of_integerBounds? {b : Builtin} {bounds : Interval}
    (hb : b.integerBounds? = some bounds) :
    (Facets.ofBuiltin b : Facets TypeDef) = .numeric (some ⟨[bounds], 0⟩) := by
  cases b <;> cases hb <;> rfl

theorem Traced.range_within {b : Builtin} {bounds : Interval} (h : Traced env t)
    (hground : t.Grounded b) (hb : b.integerBounds? = some bounds)
    (hnumbers : NumbersWithin env bounds t) {r : RangeRestriction} (hr : t.range? = some r) :
    ∀ i ∈ r.intervals, bounds.Has i.min ∧ bounds.Has i.max := by
  -- along the chain of base types, beginning with the built-in type
  induction h generalizing r with
  | @builtin t _ hbuiltin =>
      have hnone : t.base = none := congrArg TypeDef.base hbuiltin
      have hroot : t.bare = .ofBuiltin b := by
        rw [← hground.root, TypeDef.root_of_base_none hnone]
      have hfacets : t.facets = .numeric (some ⟨[bounds], 0⟩) :=
        (congrArg TypeDef.facets hroot).trans (facets_ofBuiltin_of_integerBounds? hb)
      have hvalid := valid_of_range? (hground.facets t (.self t)) hr
      cases hfacets.symm.trans (range?_eq_some hr)
      intro i hi
      obtain rfl := List.mem_singleton.mp hi
      have hordered := hvalid.ordered i hi
      exact ⟨⟨Int.le_refl _, hordered⟩, hordered, Int.le_refl _⟩
  | @step t v hbase _ hstep _ ih _ =>
      have hground' := hground.of_base_eq hbase
      obtain ⟨k, hfacets, -, hdigits⟩ := exists_range_of_fits (hground'.facets v (.self v)) hb
      have hk : v.range? = some k := by rw [TypeDef.range?, hfacets]
      have hbelow := ih hground'
        (fun u w layer expr hchain => hnumbers u w layer expr (.base hbase hchain)) hk
      rcases hstep with hsame | ⟨layer, hrestricts⟩
      · rw [TypeDef.range?, hsame, ← TypeDef.range?, hk] at hr
        cases hr
        exact hbelow
      · obtain ⟨start, hstart, hwritten⟩ := hrestricts.range hk hr
        have hkept : start = k := by
          rcases hstart with hkept | ⟨hdecimal, -⟩
          · exact hkept
          · cases hground'.builtin?.symm.trans hdecimal
            cases hb
        subst hkept
        rcases hwritten with rfl | ⟨expr, hexpr, hread⟩
        · exact hbelow
        · unfold readRange at hread
          split at hread
          · rename_i intervals hintervals
            cases hread
            refine (readIntervals_iff hbelow hintervals).2.2.mpr ?_
            rw [hdigits]
            exact hnumbers t v layer expr (.self t) hbase hrestricts hexpr
          · cases hread

end Yin

namespace Loading.Loader

open Text Yin YangEvolution.Interval

variable {loader after : Loader} {tree : FileTree} {m : Module}

/-- On the chains of the types of a loaded module, lengths and ranges are kept or are as some type
statement of the modules writes them, so that they stay between the bounds of the base exactly when
the numbers in the expression do. An integer type stays within the bounds of its built-in type where
the numbers in all range expressions on its chain are within them. -/
theorem restrictions_as_written {origin : Origin} (h : loader.load tree origin = (.ok m, after)) :
    ∃ main, origin.header tree = .ok main ∧ ∀ t, m.HasType t →
      (∀ u v, t.Extends u → u.base = some v →
        LengthStep ⟨main, after.cache⟩ v u ∧ RangeStep ⟨main, after.cache⟩ v u) ∧
      ∀ b bounds r, t.builtin? = some b → b.integerBounds? = some bounds → t.range? = some r →
        NumbersWithin ⟨main, after.cache⟩ bounds t →
        ∀ x, Contains r.intervals x → bounds.Has x := by
  obtain ⟨main, hmain, hmodule⟩ := module_of_load h
  refine ⟨main, hmain, fun t ht => ?_⟩
  have htraced := traced_of_hasType hmodule ht
  obtain ⟨b, hground⟩ := (sound_of_hasType hmodule ht).grounded
  constructor
  · intro u v hchain hbase
    have hu := htraced.of_extends hchain
    have hfits := ((hground.of_extends hchain).of_base_eq hbase).facets v (.self v)
    exact ⟨hu.lengthStep hfits hbase, hu.rangeStep hfits hbase⟩
  · rintro b' bounds r hb hbounds hr hnumbers x ⟨i, hi, hmin, hmax⟩
    cases hground.builtin?.symm.trans hb
    obtain ⟨⟨hlo, -⟩, -, hhi⟩ := htraced.range_within hground hbounds hnumbers hr i hi
    exact ⟨Int.le_trans hlo hmin, Int.le_trans hmax hhi⟩

/-- A module with an unsigned byte in a range. -/
def byteLeaf (expr : String) : Bytes :=
  ("<module name=\"a\"><namespace uri=\"u\"/><prefix value=\"a\"/><leaf name=\"c\">" ++
    "<type name=\"uint8\"><range value=\"" ++ expr ++ "\"/></type></leaf></module>").toUTF8.toList

theorem exists_of_byteLeaf (expr : String) (r : RangeRestriction) (files : FileTree)
    (h : loadsAlone (byteLeaf expr) (fun m => m.children.any fun n => n.data.type.any fun t =>
      t.base.any fun v => v.range? == some ⟨[⟨0, 255⟩], 0⟩ && t.range? == some r) = true) :
    ∃ m t v, load ⟨[], []⟩ files (.document (byteLeaf expr) none) = (.ok m, ⟨[], []⟩) ∧
      m.HasType t ∧ t.base = some v ∧ v.range? = some ⟨[⟨0, 255⟩], 0⟩ ∧ t.range? = some r := by
  obtain ⟨m, hload, hany⟩ := exists_of_loadsAlone h files
  simp only [List.any_eq_true, Option.any_eq_true, Bool.and_eq_true, beq_iff_eq] at hany
  obtain ⟨n, hn, t, ht, v, hv, hranges⟩ := hany
  exact ⟨m, t, v, hload, .node (.data (.of_mem hn)) ht, hv, hranges⟩

theorem restrictions_as_written_byteLeaf :
    ∃ m main t v, load ⟨[], []⟩ ⟨.empty, ⟨"/"⟩⟩ (.document (byteLeaf "min..9") none) =
        (.ok m, ⟨[], []⟩) ∧
      m.HasType t ∧ t.base = some v ∧ v.range? = some ⟨[⟨0, 255⟩], 0⟩ ∧
      t.range? = some ⟨[⟨0, 9⟩], 0⟩ ∧ RangeStep ⟨main, []⟩ v t := by
  obtain ⟨m, t, v, hload, ht, hv, hranges⟩ := exists_of_byteLeaf "min..9"
    ⟨[⟨0, 9⟩], 0⟩ ⟨.empty, ⟨"/"⟩⟩ (by decide +kernel)
  obtain ⟨main, -, hwritten⟩ := restrictions_as_written hload
  obtain ⟨hsteps, -⟩ := hwritten t ht
  exact ⟨m, main, t, v, hload, ht, hv, hranges.1, hranges.2, (hsteps t v (.self t) hv).2⟩

/-- A number is taken even where the built-in type does not reach it. -/
theorem range_beyond_base :
    ∃ m t v r k, load ⟨[], []⟩ ⟨.empty, ⟨"/"⟩⟩ (.document (byteLeaf "0..300") none) =
        (.ok m, ⟨[], []⟩) ∧
      m.HasType t ∧ t.base = some v ∧ t.range? = some r ∧ v.range? = some k ∧
      Contains r.intervals 300 ∧ ¬ Contains k.intervals 300 := by
  obtain ⟨m, t, v, hload, ht, hv, hbase, hrange⟩ := exists_of_byteLeaf "0..300"
    ⟨[⟨0, 300⟩], 0⟩ ⟨.empty, ⟨"/"⟩⟩ (by decide +kernel)
  refine ⟨m, t, v, _, _, hload, ht, hv, hrange, hbase, ?_, ?_⟩
  · exact ⟨_, List.mem_singleton_self _, by decide, by decide⟩
  · rintro ⟨i, hi, -, hmax⟩
    obtain rfl := List.mem_singleton.mp hi
    exact absurd hmax (by decide)

end Loading.Loader

end YangEvolution
