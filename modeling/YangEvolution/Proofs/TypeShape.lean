import Mathlib.Algebra.Group.Int.Defs
import YangEvolution.Proofs.ReferenceChain

/-!
The shape of resolved types. The chain of base types of a type ends in a built-in type, and all
types on it have the facets of that built-in type: a statement restricts what is inherited, but it
turns nothing into another kind of restriction. Main statement: a type statement is resolved to a
type of this shape, and so is each member of a union on its chain.
-/

namespace YangEvolution

open Text

/-! ### Restrictions -/

namespace LengthRestriction

structure Valid (l : LengthRestriction) : Prop where
  nonempty : l.intervals ≠ []
  ordered : ∀ i ∈ l.intervals, i.min ≤ i.max
  counted : ∀ i ∈ l.intervals, ∀ bound ∈ [i.min, i.max], 0 ≤ bound ∧ bound ≤ 2 ^ 64 - 1

theorem valid_unrestricted : unrestricted.Valid := by
  constructor <;> simp [unrestricted]

end LengthRestriction

namespace RangeRestriction

structure Valid (r : RangeRestriction) : Prop where
  nonempty : r.intervals ≠ []
  ordered : ∀ i ∈ r.intervals, i.min ≤ i.max

end RangeRestriction

/-- `f.Fits b`: the facets are of the kind that belongs to the built-in type `b`, and the
restrictions among them can be met. -/
inductive Facets.Fits {Member : Type} : Builtin → Facets Member → Prop where
  | binary {length : Option LengthRestriction} : (∀ l ∈ length, l.Valid) →
      Fits .binary (.binary length)
  | string {length : Option LengthRestriction} {patterns : List Pattern} :
      (∀ l ∈ length, l.Valid) → Fits .string (.string length patterns)
  | integer {b : Builtin} {r : RangeRestriction} : b.integerBounds?.isSome → r.Valid →
      r.fractionDigits = 0 → Fits b (.numeric (some r))
  | decimal {range : Option RangeRestriction} :
      (∀ r ∈ range, r.Valid ∧ 1 ≤ r.fractionDigits ∧ r.fractionDigits ≤ 18) →
      Fits .decimal64 (.numeric range)
  | enumeration {enums : List EnumValue} : Fits .enumeration (.enumeration enums)
  | bits {bits : List Bit} : Fits .bits (.bits bits)
  | identityref {bases : List QName} : Fits .identityref (.identityref bases)
  | union {members : List Member} : Fits .union (.union members)
  | none {b : Builtin} : b ∈ [.boolean, .empty, .instanceIdentifier, .leafref] → Fits b .none

theorem Facets.fits_ofBuiltin {Member : Type} (b : Builtin) :
    (Facets.ofBuiltin b : Facets Member).Fits b := by
  cases b with
  | binary => exact .binary nofun
  | string => exact .string nofun
  | decimal64 => exact .decimal nofun
  | enumeration => exact .enumeration
  | bits => exact .bits
  | identityref => exact .identityref
  | union => exact .union
  | boolean | empty | instanceIdentifier | leafref => exact .none (by decide)
  | int8 | int16 | int32 | int64 | uint8 | uint16 | uint32 | uint64 =>
      exact .integer rfl ⟨by simp, by simp⟩ rfl

/-! ### Chains of base types -/

namespace TypeDef

/-- A type without its default and its units. -/
def bare (t : TypeDef) : TypeDef :=
  { t with default := none, units := none }

/-- `t.Extends u`: the type `u` is on the chain of base types of `t`, which begins with `t`. -/
inductive Extends : TypeDef → TypeDef → Prop where
  | self (t : TypeDef) : Extends t t
  | base {t b u : TypeDef} : t.base = some b → Extends b u → Extends t u

/-- The chain of base types ends in the built-in type `b`, and the facets on it are those of `b`. -/
structure Grounded (t : TypeDef) (b : Builtin) : Prop where
  root : t.root.bare = ofBuiltin b
  facets : ∀ u, t.Extends u → u.facets.Fits b

/-- A type of the built-in type `b`; an `identityref` has base identities. -/
structure WellFormed (t : TypeDef) (b : Builtin) : Prop extends t.Grounded b where
  identityref : b = .identityref → ∃ first rest, t.identityBases? = some (first :: rest)

/-- A type and the members of the unions on its chain are well-formed, and so on for these. -/
inductive Sound : TypeDef → Prop where
  | intro {t : TypeDef} (b : Builtin) : t.WellFormed b →
      (∀ u members, t.Extends u → u.facets = .union members → ∀ v ∈ members, Sound v) → Sound t

/-- The members of the unions on the chain of a type are sound. -/
def MembersSound (t : TypeDef) : Prop :=
  ∀ u members, t.Extends u → u.facets = .union members → ∀ v ∈ members, Sound v

variable {t s : TypeDef} {b : Builtin}

theorem Grounded.builtin? (h : t.Grounded b) : t.builtin? = some b := by
  have hname : t.root.qname.localName = b.name :=
    congrArg (fun u => u.qname.localName) h.root
  rw [TypeDef.builtin?, builtinName, hname, Builtin.ofName?_name]

theorem grounded_ofBuiltin (b : Builtin) : (ofBuiltin b).Grounded b where
  root := rfl
  facets := by
    rintro u (_ | ⟨hbase, -⟩)
    · exact Facets.fits_ofBuiltin b
    · cases hbase

theorem membersSound_ofBuiltin (b : Builtin) : (ofBuiltin b).MembersSound := by
  rintro u members (_ | ⟨hbase, -⟩) hmembers v hv
  · cases b <;> cases hmembers
    cases hv
  · cases hbase

/-- A type on top of a chain, with facets that fit the chain. -/
theorem Grounded.of_base (h : s.Grounded b) (hbase : t.base = some s) (hfacets : t.facets.Fits b) :
    t.Grounded b where
  root := by rw [root_of_base_some hbase, h.root]
  facets := by
    rintro u (_ | ⟨hbase', hu⟩)
    · exact hfacets
    · cases hbase.symm.trans hbase'
      exact h.facets u hu

theorem MembersSound.of_base (h : s.MembersSound) (hbase : t.base = some s)
    (hmembers : ∀ members, t.facets = .union members → ∀ v ∈ members, Sound v) :
    t.MembersSound := by
  rintro u members (_ | ⟨hbase', hu⟩) hunion
  · exact hmembers members hunion
  · cases hbase.symm.trans hbase'
    exact h u members hu hunion

/-- The facets of a type that is sound are those of one built-in type. -/
theorem Sound.grounded (h : Sound t) : ∃ b, t.Grounded b := by
  obtain ⟨b, hwell, -⟩ := h
  exact ⟨b, hwell.toGrounded⟩

theorem Grounded.of_base_eq (h : t.Grounded b) (hbase : t.base = some s) : s.Grounded b where
  root := by rw [← root_of_base_some hbase, h.root]
  facets := fun u hu => h.facets u (.base hbase hu)

theorem Grounded.of_extends {u : TypeDef} (h : t.Grounded b) (hchain : t.Extends u) :
    u.Grounded b := by
  induction hchain with
  | self => exact h
  | base hbase _ ih => exact ih (h.of_base_eq hbase)

theorem Sound.members (h : Sound t) : t.MembersSound := by
  obtain ⟨_, -, hmembers⟩ := h
  exact hmembers

/-- The default and the units are not part of the shape of a type. -/
theorem Sound.of_bare_eq (h : Sound t) (heq : s.bare = t.bare) : Sound s := by
  have hbase : s.bare.base = t.bare.base := by rw [heq]
  have hfacets : s.bare.facets = t.bare.facets := by rw [heq]
  simp only [bare] at hbase hfacets
  have hroot : s.root.bare = t.root.bare := by
    cases hb : t.base with
    | none => rw [root_of_base_none hb, root_of_base_none (hbase.trans hb), heq]
    | some u => rw [root_of_base_some hb, root_of_base_some (hbase.trans hb)]
  -- above its first type, the chain is the same
  have hchain : ∀ u, s.Extends u → ∃ v, t.Extends v ∧ u.facets = v.facets := by
    rintro u (_ | ⟨hb, hu⟩)
    · exact ⟨t, .self t, hfacets⟩
    · exact ⟨u, .base (hbase.symm.trans hb) hu, rfl⟩
  obtain ⟨b, ⟨⟨hground, hfits⟩, hidentity⟩, hmembers⟩ := h
  refine ⟨b, ⟨⟨hroot.trans hground, fun u hu => ?_⟩, fun hb => ?_⟩, fun u members hu hunion => ?_⟩
  · obtain ⟨v, hv, heq⟩ := hchain u hu
    exact heq ▸ hfits v hv
  · have hbases : s.identityBases? = t.identityBases? := by
      rw [identityBases?, identityBases?, hfacets]
    exact hbases ▸ hidentity hb
  · obtain ⟨v, hv, heq⟩ := hchain u hu
    exact hmembers v members hv (heq ▸ hunion)

end TypeDef

namespace Yin

open Text Markup Outcome

/-! ### Expressions -/

/-- The number that a bound is written as, unless it is a bound of what is restricted. -/
def boundNumber? (number : List Char → Option Int) (cs : List Char) : Option Int :=
  let trimmed := trimChars cs
  if trimmed = "min".toList ∨ trimmed = "max".toList then none else number trimmed

def intervalNumbers (number : List Char → Option Int) (cs : List Char) : List Int :=
  match cut ['.', '.'] cs with
  | some (lo, hi) => (boundNumber? number lo).toList ++ (boundNumber? number hi).toList
  | none => (boundNumber? number cs).toList

/-- The numbers in an expression. -/
def numbersIn (number : List Char → Option Int) (cs : List Char) : List Int :=
  (pieces '|' cs).flatMap (intervalNumbers number)

section Expressions

variable {base : List Interval} {number : List Char → Option Int} {cs : List Char}

theorem exists_of_lowest? {v : Int} (h : lowest? base = some v) : ∃ i ∈ base, i.min = v :=
  List.mem_map.mp (List.min?_mem h)

theorem exists_of_highest? {v : Int} (h : highest? base = some v) : ∃ i ∈ base, i.max = v :=
  List.mem_map.mp (List.max?_mem h)

theorem exists_of_boundNumber? {n : Int} (h : boundNumber? number cs = some n) :
    ∃ text, number text = some n := by
  simp only [boundNumber?] at h
  split at h
  · cases h
  · exact ⟨_, h⟩

theorem exists_of_mem_numbersIn {n : Int} (h : n ∈ numbersIn number cs) :
    ∃ text, number text = some n := by
  obtain ⟨piece, -, h⟩ := List.mem_flatMap.mp h
  unfold intervalNumbers at h
  split at h
  · rcases List.mem_append.mp h with h | h
    · exact exists_of_boundNumber? (Option.mem_toList.mp h)
    · exact exists_of_boundNumber? (Option.mem_toList.mp h)
  · exact exists_of_boundNumber? (Option.mem_toList.mp h)

variable {P : Int → Prop} (hbase : ∀ i ∈ base, P i.min ∧ P i.max)

include hbase

/-- A bound is a number, or a bound of what is restricted. -/
theorem readBound_iff {v : Int} (h : readBound base number cs = some v) :
    P v ↔ ∀ n ∈ (boundNumber? number cs).toList, P n := by
  simp only [readBound] at h
  simp only [boundNumber?]
  split at h
  · rename_i hmin
    obtain ⟨i, hi, rfl⟩ := exists_of_lowest? h
    simpa [hmin] using (hbase i hi).1
  · split at h
    · rename_i hmax
      obtain ⟨i, hi, rfl⟩ := exists_of_highest? h
      simpa [hmax] using (hbase i hi).2
    · rename_i hmin hmax
      rw [if_neg (not_or.mpr ⟨hmin, hmax⟩), h]
      simp

theorem readInterval_iff {i : Interval} (h : readInterval base number cs = some i) :
    i.min ≤ i.max ∧ (P i.min ∧ P i.max ↔ ∀ n ∈ intervalNumbers number cs, P n) := by
  obtain ⟨hread, hordered⟩ := Option.filter_eq_some_iff.mp h
  refine ⟨by simpa using hordered, ?_⟩
  unfold readBounds at hread
  unfold intervalNumbers
  cases hcut : cut ['.', '.'] cs with
  | some parts =>
      rw [hcut] at hread
      obtain ⟨lo, hlo, hread⟩ := Option.bind_eq_some_iff.mp hread
      obtain ⟨hi, hhi, hread⟩ := Option.bind_eq_some_iff.mp hread
      cases hread
      simp only [List.forall_mem_append, readBound_iff hbase hlo, readBound_iff hbase hhi]
  | none =>
      rw [hcut] at hread
      obtain ⟨v, hv, rfl⟩ := Option.map_eq_some_iff.mp hread
      simp only [Interval.single, readBound_iff hbase hv, and_self]

theorem mapM_readInterval_iff {texts : List (List Char)} {intervals : List Interval}
    (h : texts.mapM (readInterval base number) = some intervals) :
    intervals.length = texts.length ∧ (∀ i ∈ intervals, i.min ≤ i.max) ∧
      ((∀ i ∈ intervals, P i.min ∧ P i.max) ↔
        ∀ n ∈ texts.flatMap (intervalNumbers number), P n) := by
  induction texts generalizing intervals with
  | nil =>
      cases h
      simp
  | cons text rest ih =>
      rw [List.mapM_cons] at h
      obtain ⟨i, hi, h⟩ := Option.bind_eq_some_iff.mp h
      obtain ⟨is, his, h⟩ := Option.bind_eq_some_iff.mp h
      cases h
      obtain ⟨hlength, hordered, hiff⟩ := ih his
      obtain ⟨hfirst, hfirstIff⟩ := readInterval_iff hbase hi
      refine ⟨by simp [hlength], List.forall_mem_cons.mpr ⟨hfirst, hordered⟩, ?_⟩
      rw [List.forall_mem_cons, List.flatMap_cons, List.forall_mem_append, hiff, hfirstIff]

/-- An expression has at least one interval, and each of them has its bounds in order. What holds of
the bounds of the restricted intervals holds of those of the intervals read exactly when it holds of
the numbers in the expression. -/
theorem readIntervals_iff {intervals : List Interval}
    (h : readIntervals base number cs = some intervals) :
    intervals ≠ [] ∧ (∀ i ∈ intervals, i.min ≤ i.max) ∧
      ((∀ i ∈ intervals, P i.min ∧ P i.max) ↔ ∀ n ∈ numbersIn number cs, P n) := by
  obtain ⟨hlength, hbounds⟩ := mapM_readInterval_iff hbase h
  refine ⟨fun hnil => pieces_ne_nil '|' cs ?_, hbounds⟩
  rw [hnil] at hlength
  exact List.length_eq_zero_iff.mp hlength.symm

end Expressions

variable {owner expr : String}

theorem readLengthNumber_mem {cs : List Char} {v : Int} (h : readLengthNumber cs = some v) :
    0 ≤ v ∧ v ≤ 2 ^ 64 - 1 := by
  obtain ⟨w, hw, rfl⟩ := Option.map_eq_some_iff.mp h
  obtain ⟨n, hn, hcast⟩ := Option.bind_eq_some_iff.mp hw
  cases hcast
  have hle : n ≤ 2 ^ 64 - 1 := readUnsigned_le hn
  omega

theorem valid_of_readLength {base : Option LengthRestriction} {l : LengthRestriction}
    (hbase : ∀ l ∈ base, l.Valid) (h : readLength owner expr base = .ok l) : l.Valid := by
  have hstart : (base.getD .unrestricted).Valid := by
    cases base with
    | none => exact LengthRestriction.valid_unrestricted
    | some b => exact hbase b rfl
  unfold readLength at h
  split at h
  · rename_i intervals hread
    cases h
    obtain ⟨hnonempty, hordered, hiff⟩ := readIntervals_iff
      (P := fun v => 0 ≤ v ∧ v ≤ 2 ^ 64 - 1)
      (fun i hi => ⟨hstart.counted i hi _ (by simp), hstart.counted i hi _ (by simp)⟩) hread
    have hbounds := hiff.mpr fun n hn => by
      obtain ⟨text, htext⟩ := exists_of_mem_numbersIn hn
      exact readLengthNumber_mem htext
    refine ⟨hnonempty, hordered, fun i hi bound hbound => ?_⟩
    obtain ⟨hmin, hmax⟩ := hbounds i hi
    simp only [List.mem_cons, List.not_mem_nil, or_false] at hbound
    rcases hbound with rfl | rfl
    · exact hmin
    · exact hmax
  · cases h

/-- A range keeps the scale of the range that it restricts. -/
theorem valid_of_readRange {base r : RangeRestriction} (h : readRange owner expr base = .ok r) :
    r.Valid ∧ r.fractionDigits = base.fractionDigits := by
  unfold readRange at h
  split at h
  · rename_i intervals hread
    cases h
    obtain ⟨hnonempty, hordered, -⟩ := readIntervals_iff (P := fun _ => True)
      (fun _ _ => ⟨trivial, trivial⟩) hread
    exact ⟨⟨hnonempty, hordered⟩, rfl⟩
  · cases h

theorem readFractionDigits_mem {raw : String} {digits : Nat}
    (h : readFractionDigits owner raw = .ok digits) : 1 ≤ digits ∧ digits ≤ 18 := by
  unfold readFractionDigits at h
  split at h
  · split at h
    · rename_i hdigits
      cases h
      exact hdigits
    · cases h
  · cases h

theorem valid_decimalRange (digits : Nat) : (decimalRange digits).Valid := by
  constructor <;> simp [decimalRange]

/-! ### Statements -/

variable {stmt : Element}

theorem valid_of_restrictLength {length restricted : Option LengthRestriction}
    (hlength : ∀ l ∈ length, l.Valid) (h : restrictLength owner stmt length = .ok restricted) :
    ∀ l ∈ restricted, l.Valid := by
  unfold restrictLength at h
  split at h
  · rw [map_eq_pure_bind] at h
    obtain ⟨l, hl, h⟩ := exists_of_bind_eq_ok h
    cases h
    rintro _ ⟨⟩
    exact valid_of_readLength hlength hl
  · cases h
    exact hlength

/-- A restricted range is there where it was before, at the same scale. -/
theorem restrictRange_eq_ok {range restricted : Option RangeRestriction}
    (h : restrictRange owner stmt range = .ok restricted) :
    restricted = range ∨ ∃ r s, range = some r ∧ restricted = some s ∧ s.Valid ∧
      s.fractionDigits = r.fractionDigits := by
  unfold restrictRange at h
  split at h
  · cases h
    exact .inl rfl
  · rename_i r _
    rw [map_eq_pure_bind] at h
    obtain ⟨s, hs, h⟩ := exists_of_bind_eq_ok h
    cases h
    exact .inr ⟨r, s, rfl, rfl, valid_of_readRange hs⟩
  · cases h

theorem fits_of_restrictRange {b : Builtin} {range scaled restricted : Option RangeRestriction}
    (hfits : (Facets.numeric range : Facets TypeDef).Fits b)
    (hscaled : scaleRange owner stmt (some b) range = .ok scaled)
    (h : restrictRange owner stmt scaled = .ok restricted) :
    (Facets.numeric restricted : Facets TypeDef).Fits b := by
  cases hfits with
  | @integer _ r hinteger hvalid hdigits =>
      -- only a decimal has its scale changed
      have hsame : scaled = some r := by
        unfold scaleRange at hscaled
        split at hscaled
        · rename_i hb _
          cases hb
          cases hinteger
        · exact (Except.ok.inj hscaled).symm
      rcases restrictRange_eq_ok h with rfl | ⟨_, s, hr, rfl, hs, hscale⟩
      · exact hsame ▸ .integer hinteger hvalid hdigits
      · cases hsame.symm.trans hr
        exact .integer hinteger hs (hscale.trans hdigits)
  | decimal hrange =>
      have hdecimal : ∀ r ∈ scaled,
          r.Valid ∧ 1 ≤ r.fractionDigits ∧ r.fractionDigits ≤ 18 := by
        unfold scaleRange at hscaled
        split at hscaled
        · obtain ⟨digits, hdigits, hscaled⟩ := exists_of_bind_eq_ok hscaled
          cases hscaled
          rintro _ ⟨⟩
          exact ⟨valid_decimalRange _, readFractionDigits_mem hdigits⟩
        · cases hscaled
          exact hrange
      rcases restrictRange_eq_ok h with rfl | ⟨r, s, hr, rfl, hs, hscale⟩
      · exact .decimal hdecimal
      · refine .decimal ?_
        rintro _ ⟨⟩
        exact ⟨hs, hscale ▸ (hdecimal r hr).2⟩

variable {env : Environment} {scope : Scope}

/-- A statement turns facets into facets of the same built-in type. -/
theorem fits_of_restrict {b : Builtin} {members : Unit → Except LoadFault (List TypeDef)}
    {inherited facets : Facets TypeDef} (hfits : inherited.Fits b)
    (h : restrict env scope stmt (some b) members inherited = .ok facets) : facets.Fits b := by
  cases inherited with
  | none =>
      cases h
      exact hfits
  | binary length =>
      rw [restrict, map_eq_pure_bind] at h
      obtain ⟨restricted, hrestricted, h⟩ := exists_of_bind_eq_ok h
      cases h
      cases hfits with
      | binary hlength => exact .binary (valid_of_restrictLength hlength hrestricted)
  | string length patterns =>
      obtain ⟨restricted, hrestricted, h⟩ := exists_of_bind_eq_ok h
      obtain ⟨added, -, h⟩ := exists_of_bind_eq_ok h
      cases h
      cases hfits with
      | string hlength => exact .string (valid_of_restrictLength hlength hrestricted)
  | numeric range =>
      obtain ⟨scaled, hscaled, h⟩ := exists_of_bind_eq_ok h
      rw [map_eq_pure_bind] at h
      obtain ⟨restricted, hrestricted, h⟩ := exists_of_bind_eq_ok h
      cases h
      exact fits_of_restrictRange hfits hscaled hrestricted
  | enumeration enums =>
      cases hfits
      simp only [restrict] at h
      split at h
      · cases h
        exact .enumeration
      · rw [map_eq_pure_bind] at h
        obtain ⟨declared, -, h⟩ := exists_of_bind_eq_ok h
        cases h
        exact .enumeration
  | bits bits =>
      cases hfits
      simp only [restrict] at h
      split at h
      · cases h
        exact .bits
      · rw [map_eq_pure_bind] at h
        obtain ⟨declared, -, h⟩ := exists_of_bind_eq_ok h
        cases h
        exact .bits
  | identityref bases =>
      cases hfits
      obtain ⟨declared, -, h⟩ := exists_of_bind_eq_ok h
      split at h
      all_goals
        cases h
        exact .identityref
  | union inherited =>
      cases hfits
      obtain ⟨added, -, rfl⟩ := restrict_union h
      exact .union

/-! ### Resolved types -/

/-- Only an `identityref` has the facets of one. -/
theorem exists_bases_of_fits {facets : Facets TypeDef} (h : facets.Fits .identityref) :
    ∃ bases, facets = .identityref bases := by
  cases h with
  | identityref => exact ⟨_, rfl⟩
  | integer hinteger => cases hinteger
  | none hnone => simp at hnone

/-- Only a union has the facets of one. -/
theorem exists_members_of_fits {facets : Facets TypeDef} (h : facets.Fits .union) :
    ∃ members, facets = .union members := by
  cases h with
  | union => exact ⟨_, rfl⟩
  | integer hinteger => cases hinteger
  | none hnone => simp at hnone

theorem sound_of_checkIdentityref {t s : TypeDef} {b : Builtin} (hground : t.Grounded b)
    (hmembers : t.MembersSound) (h : checkIdentityref owner t = .ok s) : s.Sound := by
  unfold checkIdentityref at h
  split at h
  · cases h
  · rename_i hbases
    cases h
    refine .intro b ⟨hground, ?_⟩ hmembers
    rintro rfl
    obtain ⟨bases, hfacets⟩ := exists_bases_of_fits (hground.facets t (.self t))
    have hsome : t.identityBases? = some bases := by
      rw [TypeDef.identityBases?, hfacets]
    cases bases with
    | nil => exact absurd hsome hbases
    | cons first rest => exact ⟨first, rest, hsome⟩

theorem exists_of_mem_membersVia {follow : TypedefResolver} {stmts : List Element}
    {members : List TypeDef} (h : membersVia env follow scope stmts = .ok members) {t : TypeDef}
    (ht : t ∈ members) :
    ∃ stmt ∈ stmts, stmt.tag = "type" ∧ typeVia env follow scope stmt = .ok t := by
  rw [membersVia_eq_mapM] at h
  obtain ⟨stmt, hstmt, hvia⟩ := exists_of_mapM_eq_ok h ht
  obtain ⟨hmem, htag⟩ := List.mem_filter.mp hstmt
  exact ⟨stmt, hmem, beq_iff_eq.mp htag, hvia⟩

/-- The members of a restricted union are those of its base and those of the statement. -/
theorem restrict_eq_union {b : Builtin} {members : Unit → Except LoadFault (List TypeDef)}
    {inherited : Facets TypeDef} {all : List TypeDef} (hfits : inherited.Fits b)
    (h : restrict env scope stmt (some b) members inherited = .ok (.union all)) :
    ∃ first added, inherited = .union first ∧ members () = .ok added ∧ all = first ++ added := by
  have hunited := fits_of_restrict hfits h
  cases hunited
  obtain ⟨first, rfl⟩ := exists_members_of_fits hfits
  obtain ⟨added, hadded, hall⟩ := restrict_union h
  cases hall
  exact ⟨first, added, rfl, hadded, rfl⟩

section Following

variable {follow : TypedefResolver}
  (hfollow : ∀ name typedef inner t, follow name typedef inner = .ok t → t.Sound)

include hfollow

/-- A type statement names a built-in type, or a typedef that is resolved to a sound type. -/
theorem grounded_of_namedType {t : TypeDef} (h : namedType env follow scope stmt = .ok t) :
    (∃ b, t.Grounded b) ∧ t.MembersSound := by
  unfold namedType at h
  obtain ⟨name, -, h⟩ := exists_of_bind_eq_ok h
  split at h
  · rename_i b _
    cases h
    exact ⟨⟨b, TypeDef.grounded_ofBuiltin b⟩, TypeDef.membersSound_ofBuiltin b⟩
  · obtain ⟨found, -, h⟩ := exists_of_bind_eq_ok h
    cases found with
    | none => cases h
    | some found =>
        have hsound := hfollow _ _ _ t h
        exact ⟨hsound.grounded, hsound.members⟩

theorem sound_of_typeVia {t : TypeDef} (h : typeVia env follow scope stmt = .ok t) : t.Sound := by
  -- on the tree of the statement, for the members of a union in it
  induction stmt using Element.treeInduction generalizing t with
  | element stmt ih =>
      obtain ⟨tag, nsPrefix, attributes, children, text⟩ := stmt
      rw [typeVia] at h
      obtain ⟨base, hbase, h⟩ := exists_of_bind_eq_ok h
      obtain ⟨⟨b, hground⟩, hmembers⟩ := grounded_of_namedType hfollow hbase
      split at h
      · obtain ⟨facets, hfacets, h⟩ := exists_of_bind_eq_ok h
        rw [hground.builtin?] at hfacets
        refine sound_of_checkIdentityref (b := b)
          (hground.of_base rfl (fits_of_restrict (hground.facets base (.self base)) hfacets))
          (hmembers.of_base rfl ?_) h
        rintro members hunion v hv
        have hfits := hground.facets base (.self base)
        obtain ⟨inherited, added, hinherited, hadded, rfl⟩ :=
          restrict_eq_union hfits (hfacets.trans (congrArg Except.ok hunion))
        rcases List.mem_append.mp hv with hv | hv
        · exact hmembers base inherited (.self base) hinherited v hv
        · obtain ⟨member, hmember, -, hvia⟩ := exists_of_mem_membersVia hadded hv
          exact ih member hmember hvia
      · exact sound_of_checkIdentityref hground hmembers h

end Following

theorem sound_of_typedefVia {resolve : Element → Except LoadFault TypeDef}
    (hresolve : ∀ type t, resolve type = .ok t → t.Sound) {t : TypeDef}
    (h : typedefVia resolve scope stmt = .ok t) : t.Sound := by
  unfold typedefVia at h
  obtain ⟨name, -, h⟩ := exists_of_bind_eq_ok h
  split at h
  · cases h
  · rename_i type _
    obtain ⟨base, hbase, h⟩ := exists_of_bind_eq_ok h
    obtain ⟨status, -, h⟩ := exists_of_bind_eq_ok h
    cases h
    obtain ⟨b, hwell, hmembers⟩ := hresolve type base hbase
    refine .intro b ⟨hwell.toGrounded.of_base rfl (hwell.facets base (.self base)), ?_⟩ ?_
    · exact hwell.identityref
    · exact TypeDef.MembersSound.of_base hmembers rfl
        fun members hunion => hmembers base members (.self base) hunion

/-- Every resolved type is sound, however many typedefs are followed for it. -/
theorem sound_of_typeOf {depth : Nat} {t : TypeDef} (h : typeOf env depth scope stmt = .ok t) :
    t.Sound := by
  -- a typedef is resolved with one reference less
  induction depth generalizing scope stmt t with
  | zero =>
      rw [typeOf] at h
      exact sound_of_typeVia (fun _ _ _ _ h => by cases h) h
  | succ depth ih =>
      rw [typeOf] at h
      exact sound_of_typeVia (fun _ _ _ _ => sound_of_typedefVia fun _ _ => ih) h

theorem sound_of_typedefOf {depth : Nat} {t : TypeDef}
    (h : typedefOf env depth scope stmt = .ok t) : t.Sound :=
  sound_of_typedefVia (fun _ _ => sound_of_typeOf) h

end Yin

end YangEvolution
