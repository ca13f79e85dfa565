import Mathlib.Data.List.Forall2
import YangEvolution.Compatibility.NodeChange
import YangEvolution.Proofs.FirstMatch
import YangEvolution.Proofs.IntervalCover

/-!
When the rules are silent on a pair of nodes. `TypeCompatible` and `NodeCompatible` say of two types
and of two nodes, their children apart, what has to hold between them, one field for each rule; the
lemmas below say of each rule that it finds nothing exactly when its fields hold.
-/

namespace YangEvolution

open Text

/-- Every length that `inner` allows is allowed. -/
def LengthRestriction.Includes (l inner : LengthRestriction) : Prop :=
  Interval.Covers l.intervals inner.intervals

/-- The lengths that a 64-bit word can count are allowed and no others, and an interval whose ends
are reversed, which allows none, begins where it is joined to the others. -/
def LengthRestriction.IsFull (l : LengthRestriction) : Prop :=
  (∀ v, (∃ i ∈ l.intervals, i.min ≤ v ∧ v ≤ i.max) ↔ 0 ≤ v ∧ v ≤ 18446744073709551615) ∧
    ∀ i ∈ l.intervals, i.max < i.min →
      (0 < i.min ∧ i.min ≤ 18446744073709551616) ∨ (i.min = 0 ∧ i.max = -1)

/-- The interval `j` has the ends of `i` with a number of places more behind the point, or the words
nearest to them. -/
structure Interval.IsScaled (places : Nat) (i j : Interval) : Prop where
  min : Nearest (i.min * Nat.pow 10 places) j.min
  max : Nearest (i.max * Nat.pow 10 places) j.max

/-- Every value that `inner` allows is allowed, where both are taken at the finer scale. -/
def RangeRestriction.Includes (r inner : RangeRestriction) : Prop :=
  ∃ allowed asked,
    List.Forall₂ (Interval.IsScaled (inner.fractionDigits - r.fractionDigits)) r.intervals
      allowed ∧
    List.Forall₂ (Interval.IsScaled (r.fractionDigits - inner.fractionDigits)) inner.intervals
      asked ∧
    Interval.Covers allowed asked

theorem LengthRestriction.includes_iff {l inner : LengthRestriction} :
    l.includes inner = true ↔ l.Includes inner :=
  Interval.cover_iff

theorem LengthRestriction.isUnrestricted_iff {l : LengthRestriction} :
    l.isUnrestricted = true ↔ l.IsFull := by
  have hmerge : l.isUnrestricted = true ↔
      Interval.merge l.intervals = [⟨0, 18446744073709551615⟩] := by
    simp [isUnrestricted, unrestricted]
  rw [hmerge, Interval.merge_eq_singleton_iff (by decide) (by decide) (by decide)]
  rfl

theorem RangeRestriction.forall₂_isScaled_iff {r : RangeRestriction} {digits : Nat}
    {intervals : List Interval} :
    List.Forall₂ (Interval.IsScaled (digits - r.fractionDigits)) r.intervals intervals ↔
      intervals = r.rescaled digits := by
  have hscaled : ∀ i j : Interval, i.IsScaled (digits - r.fractionDigits) j ↔
      j = ⟨saturate (i.min * Nat.pow 10 (digits - r.fractionDigits)),
        saturate (i.max * Nat.pow 10 (digits - r.fractionDigits))⟩ := by
    intro i j
    obtain ⟨lo, hi⟩ := j
    rw [Interval.mk.injEq, eq_comm, @eq_comm _ hi, saturate_eq_iff, saturate_eq_iff]
    exact ⟨fun h => ⟨h.min, h.max⟩, fun h => ⟨h.1, h.2⟩⟩
  constructor
  · intro h
    exact eq_map_of_forall₂ (h.imp fun i j => (hscaled i j).mp)
  · rintro rfl
    rw [rescaled, List.forall₂_map_right_iff]
    exact List.forall₂_same.mpr fun i _ => (hscaled i _).mpr rfl

theorem RangeRestriction.includes_iff {r inner : RangeRestriction} :
    r.includes inner = true ↔ r.Includes inner := by
  have hmax : max r.fractionDigits inner.fractionDigits - r.fractionDigits =
      inner.fractionDigits - r.fractionDigits := by omega
  have hmax' : max r.fractionDigits inner.fractionDigits - inner.fractionDigits =
      r.fractionDigits - inner.fractionDigits := by omega
  simp only [Includes, ← hmax, ← hmax', forall₂_isScaled_iff]
  simp [includes, Interval.cover_iff]

theorem RangeRestriction.includes_self (r : RangeRestriction) : r.Includes r :=
  includes_iff.mp (Interval.cover_iff.mpr (Interval.covers_self _))

namespace TypeDef

/-- The local name at the end of the chain of base types. -/
inductive IsRootedIn : TypeDef → String → Prop where
  | root {t : TypeDef} : t.base = none → IsRootedIn t t.qname.localName
  | base {t b : TypeDef} {name : String} : t.base = some b → IsRootedIn b name →
      IsRootedIn t name

/-- A text or binary type restricts its length. -/
def HasLength (t : TypeDef) (l : LengthRestriction) : Prop :=
  t.facets = .binary (some l) ∨ ∃ patterns, t.facets = .string (some l) patterns

def HasEnum (t : TypeDef) (e : EnumValue) : Prop :=
  ∃ enums, t.facets = .enumeration enums ∧ e ∈ enums

def HasBit (t : TypeDef) (b : Bit) : Prop :=
  ∃ bits, t.facets = .bits bits ∧ b ∈ bits

/-- The patterns of a text type; any other type has none. -/
def HasPatterns (t : TypeDef) (patterns : List Pattern) : Prop :=
  (∃ length, t.facets = .string length patterns) ∨
    (patterns = [] ∧ ∀ length others, t.facets ≠ .string length others)

variable {t : TypeDef}

theorem isRootedIn_builtinName : ∀ t : TypeDef, t.IsRootedIn t.builtinName
  | ⟨_, none, _, _, _, _, _, _⟩ => .root rfl
  | ⟨_, some b, _, _, _, _, _, _⟩ => .base rfl (isRootedIn_builtinName b)

theorem isRootedIn_iff {name : String} :
    t.IsRootedIn name ↔ t.builtinName = name := by
  constructor
  · intro h
    induction h with
    | root hbase => rw [builtinName, root_of_base_none hbase]
    | base hbase _ ih => rw [builtinName, root_of_base_some hbase, ← ih, builtinName]
  · rintro rfl
    exact isRootedIn_builtinName t

theorem length?_eq_some_iff {l : LengthRestriction} : t.length? = some l ↔ t.HasLength l := by
  unfold length? HasLength
  split <;> simp_all

theorem range?_eq_some_iff {r : RangeRestriction} :
    t.range? = some r ↔ t.facets = .numeric (some r) := by
  unfold range?
  split <;> simp_all

theorem identityBases?_eq_some_iff {bases : List QName} :
    t.identityBases? = some bases ↔ t.facets = .identityref bases := by
  unfold identityBases?
  split <;> simp_all

theorem mem_enums_iff {e : EnumValue} : e ∈ t.enums ↔ t.HasEnum e := by
  unfold enums HasEnum
  split <;> simp_all

theorem mem_bits_iff {b : Bit} : b ∈ t.bits ↔ t.HasBit b := by
  unfold bits HasBit
  split <;> simp_all

theorem patterns_eq_iff {patterns : List Pattern} :
    t.patterns = patterns ↔ t.HasPatterns patterns := by
  unfold TypeDef.patterns HasPatterns
  split <;> simp_all [eq_comm]

end TypeDef

namespace Compatibility

open Text

/-- The new type can stand for the old one. -/
structure TypeCompatible (version : LanguageVersion) (old new : TypeDef) : Prop where
  builtin : ∃ name, old.IsRootedIn name ∧ new.IsRootedIn name
  default : ∀ d, old.default = some d → new.default = some d
  units : old.units.isSome → new.units.isSome
  reference : old.reference.isSome → new.reference.isSome
  bases : version = .rfc7950 → ∀ s t, old.facets = .identityref s → new.facets = .identityref t →
    s ≠ [] ∧ s.length ≤ t.length
  length : ∀ l, old.HasLength l → ∀ l', new.HasLength l' → l'.Includes l
  lengthGone : ∀ l, old.HasLength l → (∀ l', ¬ new.HasLength l') → l.IsFull
  range : ∀ r, old.facets = .numeric (some r) →
    ∃ r', new.facets = .numeric (some r') ∧ r'.Includes r
  enums : ∀ e, old.HasEnum e → ∃ e', new.HasEnum e' ∧ e'.name = e.name ∧ e'.value = e.value
  bits : ∀ b, old.HasBit b → ∃ b', new.HasBit b' ∧ b'.name = b.name ∧ b'.position = b.position
  patterns : ∃ s, old.HasPatterns s ∧ new.HasPatterns s

/-- The least number of elements that a node asks for, if it does. -/
def minElements? (d : NodeData) : Option Nat :=
  d.count.bind ElementCount.min

/-- The greatest number of elements that a node allows, if it is bounded. -/
def maxElements? (d : NodeData) : Option Nat :=
  d.count.bind ElementCount.max

theorem min_getD (d : NodeData) : (d.count.getD {}).min = minElements? d := by
  cases h : d.count <;> simp [minElements?, h]

theorem max_getD (d : NodeData) : (d.count.getD {}).max = maxElements? d := by
  cases h : d.count <;> simp [maxElements?, h]

/-- The new node can stand for the old one, their children apart. -/
structure NodeCompatible (version : LanguageVersion) (old new : NodeData) : Prop where
  reference : old.reference.isSome → new.reference.isSome
  mustsAdded : new.musts.length ≤ old.musts.length
  mustsChanged : new.musts.length = old.musts.length → ∀ m ∈ new.musts, m ∈ old.musts
  condition : version = .rfc7950 → ∀ w, new.when = some w → old.when = some w
  mandatory : new.mandatory = some true → old.mandatory = some true
  configuration : old.config = some true → new.config ≠ some false
  state : old.config = some false → new.config = some true → new.mandatory ≠ some true
  status : new.status ≤ old.status
  minElements : ∀ n, minElements? new = some n → ∃ m, minElements? old = some m ∧ n ≤ m
  maxElements : ∀ m, maxElements? old = some m → ∀ n, maxElements? new = some n → m ≤ n
  type : ∀ s, old.type = some s → ∀ t, new.type = some t → TypeCompatible version s t

variable {version : LanguageVersion} {p : Position}

/-! ### The rules on types -/

theorem is7950_iff : version.is7950 = true ↔ version = .rfc7950 := by
  cases version <;> simp [LanguageVersion.is7950]

/-- A rule of the later version of the language is silent under the earlier one. -/
theorem since7950_eq_nil_iff {l : List Finding} :
    (if version.is7950 then l else []) = [] ↔ version = .rfc7950 → l = [] := by
  rw [← is7950_iff]
  split <;> simp [*]

theorem referenceFindings_eq_nil_iff {old new : Option String} :
    referenceFindings p old new = [] ↔ (old.isSome → new.isSome) := by
  cases old <;> cases new <;> simp [referenceFindings]

theorem statusFindings_eq_nil_iff {old new : Status} :
    statusFindings p old new = [] ↔ new ≤ old := by
  cases old <;> cases new <;> simp [statusFindings] <;> decide

theorem builtinFindings_eq_nil_iff {old new : TypeDef} :
    builtinFindings p old new = [] ↔ ∃ name, old.IsRootedIn name ∧ new.IsRootedIn name := by
  simp [builtinFindings, TypeDef.isRootedIn_iff, eq_comm]

theorem defaultFindings_eq_nil_iff {old new : TypeDef} :
    defaultFindings p old new = [] ↔ ∀ d, old.default = some d → new.default = some d := by
  cases h : old.default <;> simp [defaultFindings, h]

theorem unitsFindings_eq_nil_iff {old new : TypeDef} :
    unitsFindings p old new = [] ↔ (old.units.isSome → new.units.isSome) := by
  cases h : old.units <;> cases h' : new.units <;> simp [unitsFindings, h, h']

theorem identityrefFindings_eq_nil_iff {old new : TypeDef} :
    identityrefFindings p old new = [] ↔
      ∀ s t, old.facets = .identityref s → new.facets = .identityref t →
        s ≠ [] ∧ s.length ≤ t.length := by
  simp only [← TypeDef.identityBases?_eq_some_iff]
  cases h : old.identityBases? <;> cases h' : new.identityBases? <;>
    simp [identityrefFindings, h, h']

theorem lengthFindings_eq_nil_iff {old new : TypeDef} :
    lengthFindings p old new = [] ↔
      (∀ l, old.HasLength l → ∀ l', new.HasLength l' → l'.Includes l) ∧
        ∀ l, old.HasLength l → (∀ l', ¬ new.HasLength l') → l.IsFull := by
  simp only [← TypeDef.length?_eq_some_iff]
  cases h : old.length? <;> cases h' : new.length? <;>
    simp [lengthFindings, h, h', lengthNarrowed, LengthRestriction.includes_iff,
      LengthRestriction.isUnrestricted_iff]

theorem rangeFindings_eq_nil_iff {old new : TypeDef} :
    rangeFindings p old new = [] ↔
      ∀ r, old.facets = .numeric (some r) →
        ∃ r', new.facets = .numeric (some r') ∧ r'.Includes r := by
  simp only [← TypeDef.range?_eq_some_iff]
  cases h : old.range? <;> cases h' : new.range? <;>
    simp [rangeFindings, h, h', rangeNarrowed, RangeRestriction.includes_iff]

theorem enumFindings_eq_nil_iff {old new : TypeDef} :
    enumFindings p old new = [] ↔
      ∀ e, old.HasEnum e → ∃ e', new.HasEnum e' ∧ e'.name = e.name ∧ e'.value = e.value := by
  simp [enumFindings, EnumValue.same, ← TypeDef.mem_enums_iff]

theorem bitFindings_eq_nil_iff {old new : TypeDef} :
    bitFindings p old new = [] ↔
      ∀ b, old.HasBit b → ∃ b', new.HasBit b' ∧ b'.name = b.name ∧ b'.position = b.position := by
  simp [bitFindings, Bit.same, ← TypeDef.mem_bits_iff]

theorem patternFindings_eq_nil_iff {old new : TypeDef} :
    patternFindings p old new = [] ↔ ∃ s, old.HasPatterns s ∧ new.HasPatterns s := by
  simp [patternFindings, ← TypeDef.patterns_eq_iff, eq_comm]

/-- With different built-in types there is a finding, and nothing else is compared. -/
theorem typeFindings_eq_nil_iff {old new : TypeDef} :
    typeFindings version p old new = [] ↔ TypeCompatible version old new := by
  unfold typeFindings
  split
  · rename_i hsame
    have hbuiltin : ∃ name, old.IsRootedIn name ∧ new.IsRootedIn name :=
      ⟨_, TypeDef.isRootedIn_iff.mpr hsame, TypeDef.isRootedIn_iff.mpr rfl⟩
    simp only [List.append_eq_nil_iff, since7950_eq_nil_iff, defaultFindings_eq_nil_iff,
      unitsFindings_eq_nil_iff, referenceFindings_eq_nil_iff, identityrefFindings_eq_nil_iff,
      lengthFindings_eq_nil_iff, rangeFindings_eq_nil_iff, enumFindings_eq_nil_iff,
      bitFindings_eq_nil_iff, patternFindings_eq_nil_iff]
    constructor
    · rintro ⟨⟨⟨⟨⟨⟨⟨⟨hdefault, hunits⟩, href⟩, hbases⟩, hlength, hgone⟩, hrange⟩, henums⟩, hbits⟩,
        hpatterns⟩
      exact ⟨hbuiltin, hdefault, hunits, href, hbases, hlength, hgone, hrange, henums, hbits,
        hpatterns⟩
    · intro h
      exact ⟨⟨⟨⟨⟨⟨⟨⟨h.default, h.units⟩, h.reference⟩, h.bases⟩, h.length, h.lengthGone⟩, h.range⟩,
        h.enums⟩, h.bits⟩, h.patterns⟩
  · rename_i hdiffer
    have hfinding : builtinFindings p old new ≠ [] := by simp [builtinFindings, hdiffer]
    rw [iff_false_left hfinding]
    exact fun h => hfinding (builtinFindings_eq_nil_iff.mpr h.builtin)

/-! ### The rules on nodes -/

/-- Where there are fewer conditions than before nothing is looked at. -/
theorem mustFindings_eq_nil_iff {old new : List Must} :
    mustFindings p old new = [] ↔
      new.length ≤ old.length ∧ (new.length = old.length → ∀ m ∈ new, m ∈ old) := by
  unfold mustFindings
  split
  · rename_i hmore
    exact ⟨fun h => absurd h (List.cons_ne_nil _ _), fun h => absurd h.1 (Nat.not_le.mpr hmore)⟩
  · split
    · rename_i heq
      simp [heq]
    · rename_i hle hne
      exact ⟨fun _ => ⟨Nat.not_lt.mp hle, fun h => absurd h.symm hne⟩, fun _ => rfl⟩

theorem whenFindings_eq_nil_iff {old new : Option String} :
    whenFindings p old new = [] ↔ ∀ w, new = some w → old = some w := by
  cases old <;> cases new <;> simp [whenFindings]

theorem mandatoryFindings_eq_nil_iff {old new : NodeData} :
    mandatoryFindings p old new = [] ↔ (new.mandatory = some true → old.mandatory = some true) := by
  have h : mandatoryFindings p old new = [] ↔
      (¬ old.mandatory = some true → ¬ new.mandatory = some true) := by
    simp [mandatoryFindings, NodeData.isMandatory]
  exact h.trans Decidable.not_imp_not

theorem configFindings_eq_nil_iff {old new : NodeData} :
    configFindings p old new = [] ↔
      (old.config = some true → new.config ≠ some false) ∧
        (old.config = some false → new.config = some true → new.mandatory ≠ some true) := by
  unfold configFindings
  split <;> simp_all [NodeData.isMandatory]

theorem minElementsFindings_eq_nil_iff {old new : Option Nat} :
    minElementsFindings p old new = [] ↔ ∀ n, new = some n → ∃ m, old = some m ∧ n ≤ m := by
  cases old <;> cases new <;> simp [minElementsFindings, minimumRaised]

theorem maxElementsFindings_eq_nil_iff {old new : Option Nat} :
    maxElementsFindings p old new = [] ↔ ∀ m, old = some m → ∀ n, new = some n → m ≤ n := by
  cases old <;> cases new <;> simp [maxElementsFindings]

theorem nodeTypeFindings_eq_nil_iff {old new : Option TypeDef} :
    nodeTypeFindings version p old new = [] ↔
      ∀ s, old = some s → ∀ t, new = some t → TypeCompatible version s t := by
  cases old <;> cases new <;> simp [nodeTypeFindings, typeFindings_eq_nil_iff]

theorem nodeFindings_eq_nil_iff {old new : NodeData} :
    nodeFindings version p old new = [] ↔ NodeCompatible version old new := by
  simp only [nodeFindings, min_getD, max_getD, List.append_eq_nil_iff, since7950_eq_nil_iff,
    referenceFindings_eq_nil_iff, mustFindings_eq_nil_iff, whenFindings_eq_nil_iff,
    mandatoryFindings_eq_nil_iff, configFindings_eq_nil_iff, statusFindings_eq_nil_iff,
    minElementsFindings_eq_nil_iff, maxElementsFindings_eq_nil_iff, nodeTypeFindings_eq_nil_iff]
  constructor
  · rintro ⟨⟨⟨⟨⟨⟨⟨⟨href, hadded, hchanged⟩, hwhen⟩, hmandatory⟩, hconfig, hstate⟩, hstatus⟩, hmin⟩,
      hmax⟩, htype⟩
    exact ⟨href, hadded, hchanged, hwhen, hmandatory, hconfig, hstate, hstatus, hmin, hmax, htype⟩
  · intro h
    exact ⟨⟨⟨⟨⟨⟨⟨⟨h.reference, h.mustsAdded, h.mustsChanged⟩, h.condition⟩, h.mandatory⟩,
      h.configuration, h.state⟩, h.status⟩, h.minElements⟩, h.maxElements⟩, h.type⟩

end Compatibility

end YangEvolution
