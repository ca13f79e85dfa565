import YangEvolution.Compatibility.Checker
import YangEvolution.Proofs.MatchedPairs
import YangEvolution.Proofs.RuleFamilies

/-!
When ranges can be compared and written with powers of ten of 128 bits. The powers up to the 38th
fit the word and no others do, so that two ranges can be compared when their scales are at most 38
places apart, and a range can be written when it has at most 38 places or nothing to write. Main
statement: a comparison of ranges of at most 38 places has the findings that it has without the
checks.
-/

namespace YangEvolution

namespace Text

theorem tenTo?_of_le {e : Nat} (h : e ≤ 38) : tenTo? e = some (Nat.pow 10 e) := by
  have hpow : 10 ^ e ≤ 10 ^ 38 := Nat.pow_le_pow_right (by decide) h
  have hword : ((10 ^ 38 : Nat) : Int) ≤ wordMax := by decide
  exact if_pos (Int.le_trans (Int.ofNat_le.mpr hpow) hword)

theorem tenTo?_of_lt {e : Nat} (h : 38 < e) : tenTo? e = none := by
  have hpow : 10 ^ 39 ≤ 10 ^ e := Nat.pow_le_pow_right (by decide) h
  have hword : wordMax < ((10 ^ 39 : Nat) : Int) := by decide
  exact if_neg (Int.not_le.mpr (Int.lt_of_lt_of_le hword (Int.ofNat_le.mpr hpow)))

theorem scaledText?_of_le {digits : Nat} (h : digits ≤ 38) (value : Int) :
    scaledText? value digits = some (scaledText value digits) := by
  rw [scaledText?, scaledText, tenTo?_of_le h]
  split
  · rfl
  · rfl

theorem scaledText?_of_lt {digits : Nat} (h : 38 < digits) (value : Int) :
    scaledText? value digits = none := by
  have hdigits : ¬ digits = 0 := by omega
  rw [scaledText?, if_neg hdigits, tenTo?_of_lt h]
  rfl

end Text

open Text

theorem Interval.text?_eq_some {number? : Int → Option String} {number : Int → String}
    (h : ∀ v, number? v = some (number v)) (i : Interval) :
    i.text? number? = some (i.text number) := by
  rw [text?, text, h, h]
  split
  · rfl
  · rfl

theorem Interval.text?_eq_none {number? : Int → Option String} (h : ∀ v, number? v = none)
    (i : Interval) : i.text? number? = none := by
  rw [text?, h]
  split
  · rfl
  · rfl

namespace RangeRestriction

/-- The scales are at most 38 places apart. -/
def NearScale (r r' : RangeRestriction) : Prop :=
  r.fractionDigits ≤ r'.fractionDigits + 38 ∧ r'.fractionDigits ≤ r.fractionDigits + 38

/-- There are at most 38 places, or there is nothing to write. -/
def Writable (r : RangeRestriction) : Prop :=
  r.fractionDigits ≤ 38 ∨ r.intervals = []

variable {r inner : RangeRestriction}

theorem rescaled?_of_le {digits : Nat} (h : digits - r.fractionDigits ≤ 38) :
    r.rescaled? digits = some (r.rescaled digits) := by
  rw [rescaled?, tenTo?_of_le h]
  rfl

theorem rescaled?_of_lt {digits : Nat} (h : 38 < digits - r.fractionDigits) :
    r.rescaled? digits = none := by
  rw [rescaled?, tenTo?_of_lt h]
  rfl

theorem includes?_of_nearScale (h : r.NearScale inner) :
    r.includes? inner = some (r.includes inner) := by
  have hr : max r.fractionDigits inner.fractionDigits - r.fractionDigits ≤ 38 := by
    have hle := h.2
    omega
  have hinner : max r.fractionDigits inner.fractionDigits - inner.fractionDigits ≤ 38 := by
    have hle := h.1
    omega
  simp only [includes?, rescaled?_of_le hr, rescaled?_of_le hinner]
  rfl

theorem includes?_of_not_nearScale (h : ¬ r.NearScale inner) : r.includes? inner = none := by
  have hfar : 38 < max r.fractionDigits inner.fractionDigits - r.fractionDigits ∨
      38 < max r.fractionDigits inner.fractionDigits - inner.fractionDigits := by
    unfold NearScale at h
    omega
  rw [includes?]
  rcases hfar with hfar | hfar
  · simp only [rescaled?_of_lt hfar]
    rfl
  · simp only [rescaled?_of_lt hfar]
    cases r.rescaled? (max r.fractionDigits inner.fractionDigits) <;> rfl

theorem text?_of_writable (h : r.Writable) : r.text? = some r.text := by
  have htexts : r.intervals.mapM (Interval.text? (scaledText? · r.fractionDigits)) =
      some (r.intervals.map (Interval.text (scaledText · r.fractionDigits))) := by
    rcases h with h | h
    · have hnumber := scaledText?_of_le h
      induction r.intervals with
      | nil => rfl
      | cons i rest ih =>
          rw [List.mapM_cons, Interval.text?_eq_some hnumber, ih]
          rfl
    · rw [h]
      rfl
  rw [text?, htexts]
  rfl

theorem text?_of_not_writable (h : ¬ r.Writable) : r.text? = none := by
  obtain ⟨hdigits, hintervals⟩ := not_or.mp h
  obtain ⟨i, rest, hcons⟩ := List.exists_cons_of_ne_nil hintervals
  have hnumber := scaledText?_of_lt (Nat.not_le.mp hdigits)
  rw [text?, hcons, List.mapM_cons, Interval.text?_eq_none hnumber]
  rfl

end RangeRestriction

namespace Compatibility

/-- The ranges of two types can be compared, and written where they are in a finding. -/
structure RangesFit (old new : TypeDef) : Prop where
  gone : ∀ r, old.facets = .numeric (some r) → (∀ r', new.facets ≠ .numeric (some r')) →
    r.Writable
  scales : ∀ r r', old.facets = .numeric (some r) → new.facets = .numeric (some r') →
    r'.NearScale r
  narrowed : ∀ r r', old.facets = .numeric (some r) → new.facets = .numeric (some r') →
    ¬ r'.Includes r → r.Writable ∧ r'.Writable

theorem rangesFit_iff {old new : TypeDef} :
    RangesFit old new ↔ ∀ r, old.range? = some r → (new.range? = none → r.Writable) ∧
      ∀ r', new.range? = some r' →
        r'.NearScale r ∧ (r'.includes r = false → r.Writable ∧ r'.Writable) := by
  have hnone : new.range? = none ↔ ∀ r', new.facets ≠ .numeric (some r') := by
    simp only [Option.eq_none_iff_forall_ne_some, ne_eq, TypeDef.range?_eq_some_iff]
  have hincludes : ∀ r r' : RangeRestriction, r'.includes r = false ↔ ¬ r'.Includes r := by
    intro r r'
    rw [← RangeRestriction.includes_iff, Bool.not_eq_true]
  simp only [TypeDef.range?_eq_some_iff, hnone, hincludes]
  constructor
  · intro h r hr
    exact ⟨h.gone r hr, fun r' hr' => ⟨h.scales r r' hr hr', h.narrowed r r' hr hr'⟩⟩
  · intro h
    exact ⟨fun r hr => (h r hr).1, fun r r' hr hr' => ((h r hr).2 r' hr').1,
      fun r r' hr hr' => ((h r hr).2 r' hr').2⟩

theorem rangesFit_of_le {old new : TypeDef}
    (hold : ∀ r, old.range? = some r → r.fractionDigits ≤ 38)
    (hnew : ∀ r, new.range? = some r → r.fractionDigits ≤ 38) : RangesFit old new := by
  refine rangesFit_iff.mpr fun r hr => ⟨fun _ => .inl (hold r hr), fun r' hr' => ⟨?_, ?_⟩⟩
  · have hle := hold r hr
    have hle' := hnew r' hr'
    constructor <;> omega
  · exact fun _ => ⟨.inl (hold r hr), .inl (hnew r' hr')⟩

theorem rangeFindings?_of_fit {p : Position} {old new : TypeDef} (h : RangesFit old new) :
    rangeFindings? p old new = some (rangeFindings p old new) := by
  unfold rangeFindings? rangeFindings
  cases hr : old.range? with
  | none => rfl
  | some r =>
      obtain ⟨hgone, hkept⟩ := rangesFit_iff.mp h r hr
      cases hr' : new.range? with
      | none =>
          simp only [RangeRestriction.text?_of_writable (hgone hr')]
          rfl
      | some r' =>
          obtain ⟨hnear, hwritable⟩ := hkept r' hr'
          have hincludes := RangeRestriction.includes?_of_nearScale hnear
          cases hincluded : r'.includes r with
          | true => simp [hincludes, hincluded, rangeNarrowed]
          | false =>
              obtain ⟨hold, hnew⟩ := hwritable hincluded
              simp [hincludes, hincluded, RangeRestriction.text?_of_writable hold,
                RangeRestriction.text?_of_writable hnew, rangeNarrowed, orNone]

theorem rangeFindings?_of_not_fit {p : Position} {old new : TypeDef} (h : ¬ RangesFit old new) :
    rangeFindings? p old new = none := by
  simp only [rangesFit_iff, not_forall] at h
  obtain ⟨r, hr, h⟩ := h
  unfold rangeFindings?
  cases hr' : new.range? with
  | none =>
      have hold : ¬ r.Writable := by simpa [hr'] using h
      simp [hr, RangeRestriction.text?_of_not_writable hold]
  | some r' =>
      by_cases hnear : r'.NearScale r
      · obtain ⟨hincluded, hwritable⟩ : r'.includes r = false ∧ (r.Writable → ¬ r'.Writable) := by
          simpa [hr', hnear] using h
        have hincludes := RangeRestriction.includes?_of_nearScale hnear
        by_cases hnew : r'.Writable
        · have hold : ¬ r.Writable := fun hold => hwritable hold hnew
          simp [hr, hincludes, hincluded, RangeRestriction.text?_of_writable hnew,
            RangeRestriction.text?_of_not_writable hold]
        · simp [hr, hincludes, hincluded, RangeRestriction.text?_of_not_writable hnew]
      · simp [hr, RangeRestriction.includes?_of_not_nearScale hnear]

theorem filter_eq_nil_of_rule {l : List Finding} {rule : Rule} (h : ∀ f ∈ l, f.rule ≠ rule) :
    l.filter (fun f => f.rule == rule) = [] :=
  List.filter_eq_nil_iff.mpr fun f hf => by simpa using h f hf

variable {p : Position}

theorem filter_range_typeFindings {version : LanguageVersion} (old new : TypeDef) :
    (typeFindings version p old new).filter (fun f => f.rule == .range) =
      if old.builtinName = new.builtinName then rangeFindings p old new else [] := by
  -- each family of findings has rules of its own
  have hdefault : (defaultFindings p old new).filter (fun f => f.rule == .range) = [] :=
    filter_eq_nil_of_rule fun f hf => by simp [rule_eq_defaultValue hf]
  have hunits : (unitsFindings p old new).filter (fun f => f.rule == .range) = [] :=
    filter_eq_nil_of_rule fun f hf => by simp [rule_eq_units hf]
  have hreference : (referenceFindings p old.reference new.reference).filter
      (fun f => f.rule == .range) = [] :=
    filter_eq_nil_of_rule fun f hf => by simp [rule_eq_reference hf]
  have hbases : (if version.is7950 then identityrefFindings p old new else []).filter
      (fun f => f.rule == .range) = [] := by
    refine filter_eq_nil_of_rule fun f hf => ?_
    split at hf
    · simp [rule_of_mem_identityrefFindings hf]
    · cases hf
  have hlength : (lengthFindings p old new).filter (fun f => f.rule == .range) = [] :=
    filter_eq_nil_of_rule fun f hf => by simp [rule_eq_length hf]
  have hrange : (rangeFindings p old new).filter (fun f => f.rule == .range) =
      rangeFindings p old new :=
    List.filter_eq_self.mpr fun f hf => by simp [rule_eq_range hf]
  have henums : (enumFindings p old new).filter (fun f => f.rule == .range) = [] :=
    filter_eq_nil_of_rule fun f hf => by simp [rule_eq_missingEnum hf]
  have hbits : (bitFindings p old new).filter (fun f => f.rule == .range) = [] :=
    filter_eq_nil_of_rule fun f hf => by simp [rule_eq_missingBit hf]
  have hpatterns : (patternFindings p old new).filter (fun f => f.rule == .range) = [] :=
    filter_eq_nil_of_rule fun f hf => by simp [rule_eq_pattern hf]
  have hbuiltin : (builtinFindings p old new).filter (fun f => f.rule == .range) = [] :=
    filter_eq_nil_of_rule fun f hf => by simp [rule_eq_type hf]
  unfold typeFindings
  split
  · simp only [List.filter_append, hdefault, hunits, hreference, hbases, hlength, hrange, henums,
      hbits, hpatterns, List.nil_append, List.append_nil]
  · exact hbuiltin

/-- Of the findings on two nodes, those on ranges are the ones on the ranges of their types. -/
theorem filter_range_nodeFindings {version : LanguageVersion} (old new : NodeData) :
    (nodeFindings version p old new).filter (fun f => f.rule == .range) =
      (nodeTypeFindings version p old.type new.type).filter (fun f => f.rule == .range) := by
  have hreference : (referenceFindings p old.reference new.reference).filter
      (fun f => f.rule == .range) = [] :=
    filter_eq_nil_of_rule fun f hf => by simp [rule_eq_reference hf]
  have hmusts : (mustFindings p old.musts new.musts).filter (fun f => f.rule == .range) = [] :=
    filter_eq_nil_of_rule fun f hf => by
      rcases rule_of_mem_mustFindings hf with hrule | hrule <;> simp [hrule]
  have hwhen : (if version.is7950 then whenFindings p old.when new.when else []).filter
      (fun f => f.rule == .range) = [] := by
    refine filter_eq_nil_of_rule fun f hf => ?_
    split at hf
    · rcases rule_of_mem_whenFindings hf with hrule | hrule <;> simp [hrule]
    · cases hf
  have hmandatory : (mandatoryFindings p old new).filter (fun f => f.rule == .range) = [] :=
    filter_eq_nil_of_rule fun f hf => by simp [rule_of_mem_ite hf]
  have hconfig : (configFindings p old new).filter (fun f => f.rule == .range) = [] :=
    filter_eq_nil_of_rule fun f hf => by
      rcases rule_of_mem_configFindings hf with hrule | hrule <;> simp [hrule]
  have hstatus : (statusFindings p old.status new.status).filter (fun f => f.rule == .range) = [] :=
    filter_eq_nil_of_rule fun f hf => by simp [rule_of_mem_ite hf]
  have hmin : ∀ m n, (minElementsFindings p m n).filter (fun f => f.rule == .range) = [] :=
    fun m n => filter_eq_nil_of_rule fun f hf => by simp [rule_of_mem_ite hf]
  have hmax : ∀ m n, (maxElementsFindings p m n).filter (fun f => f.rule == .range) = [] :=
    fun m n => filter_eq_nil_of_rule fun f hf => by simp [rule_eq_maxElements hf]
  simp only [nodeFindings, List.filter_append, hreference, hmusts, hwhen, hmandatory, hconfig,
    hstatus, hmin, hmax, List.nil_append]

end Compatibility

namespace Comparison

open Compatibility

/-- The findings on the ranges of a pair of nodes. -/
def NodePair.rangeFindings? (q : NodePair) : Option (List Finding) :=
  match q.old.type, q.new.type with
  | some s, some t =>
    if s.builtinName = t.builtinName then Compatibility.rangeFindings? q.position s t else some []
  | _, _ => some []

/-- All findings on ranges, if no power of ten on the way to them leaves the word. -/
def rangeFindings? (c : Comparison) : Option (List Finding) := do
  let findings ← c.nodePairs.mapM NodePair.rangeFindings?
  some findings.flatten

variable {c : Comparison}

theorem NodePair.rangeFindings?_eq_some {q : NodePair}
    (hold : ∀ t r, q.old.type = some t → t.range? = some r → r.fractionDigits ≤ 38)
    (hnew : ∀ t r, q.new.type = some t → t.range? = some r → r.fractionDigits ≤ 38) :
    q.rangeFindings? = some (c.pairFindings .range q) := by
  rw [pairFindings, filter_range_nodeFindings, NodePair.rangeFindings?]
  split
  · rename_i s t hs ht
    rw [hs, ht, nodeTypeFindings, filter_range_typeFindings]
    split
    · exact rangeFindings?_of_fit (rangesFit_of_le (hold s · hs) (hnew t · ht))
    · rfl
  · rename_i hnone
    unfold nodeTypeFindings
    split
    · rename_i s t hs ht
      exact absurd ht (hnone s t hs)
    · rfl

theorem filter_range_findings :
    c.findings.filter (fun f => f.rule == .range) =
      c.nodePairs.flatMap (c.pairFindings .range) := by
  have htypedefs : (c.old.typedefs.flatMap fun t =>
      (c.typedefFindings t).filter fun f => f.rule == .range) = [] := by
    refine List.flatMap_eq_nil_iff.mpr fun t _ => filter_eq_nil_of_rule fun f hf => ?_
    rcases rule_of_mem_typedefFindings hf with hrule | hrule <;> simp [hrule]
  rw [filter_findings rfl, htypedefs, List.append_nil]

/-- On ranges of at most 38 places the checks change nothing. -/
theorem rangeFindings?_eq_some
    (hold : ∀ q ∈ c.nodePairs, ∀ t r, q.old.type = some t → t.range? = some r →
      r.fractionDigits ≤ 38)
    (hnew : ∀ q ∈ c.nodePairs, ∀ t r, q.new.type = some t → t.range? = some r →
      r.fractionDigits ≤ 38) :
    c.rangeFindings? = some (c.findings.filter fun f => f.rule == .range) := by
  have hpairs : ∀ pairs : List NodePair, (∀ q ∈ pairs, q ∈ c.nodePairs) →
      pairs.mapM NodePair.rangeFindings? = some (pairs.map (c.pairFindings .range)) := by
    intro pairs hmem
    induction pairs with
    | nil => rfl
    | cons q rest ih =>
        obtain ⟨hq, hrest⟩ := List.forall_mem_cons.mp hmem
        rw [List.mapM_cons, NodePair.rangeFindings?_eq_some (hold q hq) (hnew q hq), ih hrest]
        rfl
  rw [rangeFindings?, hpairs _ fun _ => id, filter_range_findings]
  rfl

end Comparison

end YangEvolution
