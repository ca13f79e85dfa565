import YangEvolution.Proofs.DecimalLiteral
import YangEvolution.Yin.Restriction

/-!
The texts of ranges and lengths as expressions. Main statement: what is written for a range or a
length between its brackets is an expression that is read as the same range or length, whatever it
restricts; for bounds of which a word holds the magnitude, and at any number of places.
-/

namespace YangEvolution

namespace Text

/-! ### Numerals -/

/-- Digits with a minus sign or none, and then a point with further digits or none. -/
inductive IsNumeral : List Char → Prop
  | whole {cs : List Char} (hne : cs ≠ []) (hcs : ∀ c ∈ cs, c = '-' ∨ c.isDigit = true) :
      IsNumeral cs
  | decimal {cs places : List Char} (hcs : ∀ c ∈ cs, c = '-' ∨ c.isDigit = true)
      (hne : places ≠ []) (hplaces : ∀ c ∈ places, c.isDigit = true) :
      IsNumeral (cs ++ '.' :: places)

variable {cs rest : List Char}

namespace IsNumeral

theorem ne_nil (h : IsNumeral cs) : cs ≠ [] := by
  cases h with
  | whole hne _ => exact hne
  | decimal _ _ _ => simp

theorem char (h : IsNumeral cs) : ∀ c ∈ cs, c = '-' ∨ c = '.' ∨ c.isDigit = true := by
  intro c hc
  cases h with
  | whole _ hcs => exact (hcs c hc).imp_right .inr
  | decimal hcs _ hplaces =>
      rcases List.mem_append.mp hc with hc | hc
      · exact (hcs c hc).imp_right .inr
      · rcases List.mem_cons.mp hc with rfl | hc
        · exact .inr (.inl rfl)
        · exact .inr (.inr (hplaces c hc))

theorem not_blank (h : IsNumeral cs) : ∀ c ∈ cs, isBlank c = false := by
  intro c hc
  rcases h.char c hc with rfl | rfl | hdigit
  · decide
  · decide
  · have hrange := toNat_of_isDigit hdigit
    simp only [isBlank, Bool.or_eq_false_iff, Bool.and_eq_false_iff, beq_eq_false_iff_ne,
      decide_eq_false_iff_not]
    omega

theorem not_mem (h : IsNumeral cs) {c : Char} (hc : ¬ (c = '-' ∨ c = '.' ∨ c.isDigit = true)) :
    c ∉ cs :=
  fun hmem => hc (h.char c hmem)

/-- A numeral holds no two points in a row, and does not end with one. -/
theorem cut_append (h : IsNumeral cs) :
    cut ['.', '.'] (cs ++ rest) = (cut ['.', '.'] rest).map fun q => (cs ++ q.1, q.2) := by
  cases h with
  | whole _ hcs => exact cut_append_left (point_not_mem hcs)
  | @decimal cs places hcs hne hplaces =>
      have hpoint : '.' ∉ places := point_not_mem fun c hc => .inr (hplaces c hc)
      obtain ⟨d, ds, rfl⟩ := List.exists_cons_of_ne_nil hne
      have hd : '.' ≠ d := fun heq => hpoint (heq ▸ List.mem_cons_self)
      have hstep : cut ['.', '.'] ('.' :: (d :: ds ++ rest)) =
          (cut ['.', '.'] (d :: ds ++ rest)).map fun q => ('.' :: q.1, q.2) := by
        rw [cut]
        simp [hd]
      rw [List.append_assoc, List.cons_append, cut_append_left (point_not_mem hcs), hstep,
        cut_append_left hpoint]
      simp [Function.comp_def]

end IsNumeral

/-! ### Numbers -/

/-- A number is written as a numeral that is read as that number. -/
structure ReadBack (write : Int → String) (number : List Char → Option Int) (v : Int) : Prop where
  numeral : IsNumeral (write v).toList
  read : number (write v).toList = some v

theorem readSigned_of_digits {lowest highest : Int} (h : ∀ c ∈ cs, c.isDigit = true) :
    readSigned lowest highest cs =
      ((readNat cs).map fun n => (n : Int)).filter fun v => lowest ≤ v && v ≤ highest := by
  unfold readSigned
  split
  · exact absurd (h '-' List.mem_cons_self) (by decide)
  · exact absurd (h '+' List.mem_cons_self) (by decide)
  · rfl

theorem isNumeral_intText (v : Int) : IsNumeral (intText v).toList :=
  .whole (intText_ne_nil v) fun _ hc => mem_intText hc

theorem readBack_intText {lowest highest v : Int} (hlo : lowest ≤ v) (hhi : v ≤ highest) :
    ReadBack intText (readSigned lowest highest) v := by
  refine ⟨isNumeral_intText v, ?_⟩
  by_cases hv : v < 0
  · have hvalue : -(v.natAbs : Int) = v := by omega
    simp only [intText_of_neg hv, readSigned, readNat_natText]
    change (some (-(v.natAbs : Int))).filter (fun v => lowest ≤ v && v ≤ highest) = some v
    rw [hvalue]
    simp [hlo, hhi]
  · have hvalue : (v.natAbs : Int) = v := by omega
    rw [intText_of_nonneg hv, readSigned_of_digits (digits_natText _).digit, readNat_natText]
    change (some (v.natAbs : Int)).filter (fun v => lowest ≤ v && v ≤ highest) = some v
    rw [hvalue]
    simp [hlo, hhi]

/-- The literal that is written for a number with places. -/
def scaledLiteral (digits : Nat) (v : Int) : DecimalLiteral where
  sign := if v < 0 then .minus else .none
  whole := (natText (v.natAbs / 10 ^ digits)).toList
  places? := some (paddedText digits (v.natAbs % 10 ^ digits)).toList

theorem toList_scaledText {digits : Nat} (hdigits : digits ≠ 0) (v : Int) :
    (scaledText v digits).toList = (scaledLiteral digits v).text := by
  rw [scaledText, if_neg hdigits]
  by_cases hv : v < 0
  · simp [DecimalLiteral.text, DecimalLiteral.unsignedText, scaledLiteral, Sign.text, hv]
  · simp [DecimalLiteral.text, DecimalLiteral.unsignedText, scaledLiteral, Sign.text, hv]

theorem readBack_scaledText {digits : Nat} (hdigits : digits ≠ 0) {v : Int} (hlo : wordMin < v)
    (hhi : v ≤ wordMax) : ReadBack (scaledText · digits) (readScaled digits) v := by
  have hpos : 0 < digits := Nat.pos_of_ne_zero hdigits
  have hwhole := digits_natText (v.natAbs / 10 ^ digits)
  have hplaces := digits_paddedText hpos (Nat.mod_lt v.natAbs (Nat.pow_pos (by decide)))
  refine ⟨?_, ?_⟩
  · show IsNumeral (scaledText v digits).toList
    rw [toList_scaledText hdigits, DecimalLiteral.text, DecimalLiteral.unsignedText,
      ← List.append_assoc]
    refine .decimal (fun c hc => ?_) (fun hnil => ?_) hplaces.digit
    · rcases List.mem_append.mp hc with hc | hc
      · simp only [scaledLiteral] at hc
        split at hc
        · exact .inl (List.mem_singleton.mp hc)
        · cases hc
      · exact .inr (hwhole.digit c hc)
    · have hlength := hplaces.length
      rw [hnil] at hlength
      exact hdigits hlength.symm
  · show readScaled digits (scaledText v digits).toList = some v
    have hproper : (scaledLiteral digits v).Proper digits :=
      ⟨natText_ne_nil _, hwhole.digit, hplaces.digit, Nat.le_of_eq hplaces.length⟩
    have hmagnitude : (scaledLiteral digits v).scaledMagnitude digits = v.natAbs := by
      have hfull : digits - (scaledLiteral digits v).places.length = 0 :=
        Nat.sub_eq_zero_of_le (Nat.le_of_eq hplaces.length.symm)
      rw [DecimalLiteral.scaledMagnitude, DecimalLiteral.scaledDigits, hfull, List.replicate_zero,
        List.append_nil]
      exact (hwhole.append hplaces).value.trans (Nat.div_add_mod v.natAbs (10 ^ digits))
    have hword : wordMin = -wordMax - 1 := by decide
    rw [toList_scaledText hdigits, DecimalLiteral.readScaled_text hproper (by omega), hmagnitude]
    apply congrArg some
    simp only [scaledLiteral]
    split
    · rw [Sign.factor]
      omega
    · simp only [Sign.factor]
      omega

end Text

namespace Yin

open Text

theorem readBack_range (digits : Nat) {v : Int} (hlo : wordMin < v) (hhi : v ≤ wordMax) :
    ReadBack (scaledText · digits) (readRangeNumber digits) v := by
  by_cases hdigits : digits = 0
  · have hread := readBack_intText (Int.le_of_lt hlo) hhi
    exact ⟨by simpa [scaledText, hdigits] using hread.numeral,
      by simpa [scaledText, readRangeNumber, hdigits] using hread.read⟩
  · have hread := readBack_scaledText hdigits hlo hhi
    exact ⟨hread.numeral, by simpa [readRangeNumber, hdigits] using hread.read⟩

theorem readBack_length {v : Int} (hlo : 0 ≤ v) (hhi : v ≤ Nat.pow 2 64 - 1) :
    ReadBack intText readLengthNumber v := by
  have hvalue : (v.natAbs : Int) = v := by omega
  have hread : readUnsigned (Nat.pow 2 64 - 1) (natText v.natAbs).toList = some v.natAbs := by
    refine readUnsigned_eq_some_iff.mpr ⟨?_, _, .inl rfl, natText_ne_nil _, digits_natText _⟩
    omega
  refine ⟨isNumeral_intText v, ?_⟩
  rw [intText_of_nonneg (Int.not_lt.mpr hlo), readLengthNumber, hread]
  exact congrArg some hvalue

/-! ### Expressions -/

variable {write : Int → String} {number : List Char → Option Int} {base : List Interval}
  {pad pad' : List Char}

/-- A number is read back as a bound, with spaces around it. -/
theorem readBound_padded {v : Int} (h : ReadBack write number v) (hpad : ∀ c ∈ pad, c = ' ')
    (hpad' : ∀ c ∈ pad', c = ' ') :
    readBound base number (pad ++ ((write v).toList ++ pad')) = some v := by
  have hblank : ∀ {blanks : List Char}, (∀ c ∈ blanks, c = ' ') →
      ∀ c ∈ blanks, isBlank c = true := by
    intro blanks hblanks c hc
    rw [hblanks c hc]
    decide
  have hletter : 'm' ∉ (write v).toList := h.numeral.not_mem (by decide)
  have hmin : (write v).toList ≠ "min".toList := fun heq => hletter (heq ▸ by decide)
  have hmax : (write v).toList ≠ "max".toList := fun heq => hletter (heq ▸ by decide)
  unfold readBound
  rw [trimChars_padded (hblank hpad) (hblank hpad') h.numeral.ne_nil h.numeral.not_blank]
  simp only [hmin, hmax, if_false, h.read]

theorem point_not_mem_pad (hpad : ∀ c ∈ pad, c = ' ') : '.' ∉ pad :=
  fun hmem => absurd (hpad '.' hmem) (by decide)

theorem readInterval_padded {i : Interval} (hi : i.min ≤ i.max) (hmin : ReadBack write number i.min)
    (hmax : ReadBack write number i.max) (hpad : ∀ c ∈ pad, c = ' ') (hpad' : ∀ c ∈ pad', c = ' ') :
    readInterval base number (pad ++ ((i.text write).toList ++ pad')) = some i := by
  have hbounds : readBounds base number (pad ++ ((i.text write).toList ++ pad')) = some i := by
    unfold readBounds
    by_cases heq : i.min = i.max
    · have hcut : cut ['.', '.'] (pad ++ ((write i.min).toList ++ pad')) = none := by
        rw [cut_append_left (point_not_mem_pad hpad), hmin.numeral.cut_append,
          ← List.append_nil pad', cut_append_left (point_not_mem_pad hpad')]
        rfl
      have htext : i.text write = write i.min := by simp [Interval.text, heq]
      have hsingle : Interval.single i.min = i := by
        obtain ⟨lo, hi⟩ := i
        exact congrArg (Interval.mk lo) heq
      rw [htext, hcut]
      simp only [readBound_padded hmin hpad hpad', Option.map_some, hsingle]
    · have hcut : cut ['.', '.'] (pad ++ ((i.text write).toList ++ pad')) =
          some (pad ++ ((write i.min).toList ++ []), [] ++ ((write i.max).toList ++ pad')) := by
        have htext : (i.text write).toList =
            (write i.min).toList ++ '.' :: '.' :: (write i.max).toList := by
          simp [Interval.text, heq]
        rw [cut_append_left (point_not_mem_pad hpad), htext, List.append_assoc,
          hmin.numeral.cut_append]
        rfl
      have hnone : ∀ c ∈ ([] : List Char), c = ' ' := List.forall_mem_nil _
      rw [hcut]
      simp only [readBound_padded hmin hpad hnone, readBound_padded hmax hnone hpad']
      rfl
  rw [readInterval, hbounds]
  simp [Option.filter_some, hi]

theorem bar_not_mem_padded {i : Interval} (hmin : ReadBack write number i.min)
    (hmax : ReadBack write number i.max) (hpad : ∀ c ∈ pad, c = ' ') (hpad' : ∀ c ∈ pad', c = ' ') :
    '|' ∉ pad ++ ((i.text write).toList ++ pad') := by
  have hblank : ∀ {blanks : List Char}, (∀ c ∈ blanks, c = ' ') → '|' ∉ blanks :=
    fun hblanks hmem => absurd (hblanks '|' hmem) (by decide)
  have hlo : '|' ∉ (write i.min).toList := hmin.numeral.not_mem (by decide)
  have hhi : '|' ∉ (write i.max).toList := hmax.numeral.not_mem (by decide)
  have htext : '|' ∉ (i.text write).toList := by
    unfold Interval.text
    split
    · exact hlo
    · simp [hlo, hhi]
  simp [hblank hpad, hblank hpad', htext]

/-- What is written for intervals is read back, with spaces before it. -/
theorem readIntervals_join {intervals : List Interval} (hne : intervals ≠ [])
    (hordered : ∀ i ∈ intervals, i.min ≤ i.max)
    (hread : ∀ i ∈ intervals, ReadBack write number i.min ∧ ReadBack write number i.max)
    (hpad : ∀ c ∈ pad, c = ' ') :
    readIntervals base number
      (pad ++ (Text.join " | " (intervals.map (Interval.text write))).toList) = some intervals := by
  induction intervals generalizing pad with
  | nil => exact absurd rfl hne
  | cons i rest ih =>
      obtain ⟨hi, hordered⟩ := List.forall_mem_cons.mp hordered
      obtain ⟨⟨hmin, hmax⟩, hread⟩ := List.forall_mem_cons.mp hread
      cases rest with
      | nil =>
          have hnone : ∀ c ∈ ([] : List Char), c = ' ' := List.forall_mem_nil _
          have hpieces : pieces '|' (pad ++ ((i.text write).toList ++ [])) =
              [pad ++ ((i.text write).toList ++ [])] :=
            piecesFrom_of_not_mem (bar_not_mem_padded hmin hmax hpad hnone) []
          rw [List.map_singleton, Text.join, String.intercalate_singleton,
            ← List.append_nil (i.text write).toList, readIntervals, hpieces, List.mapM_cons,
            readInterval_padded hi hmin hmax hpad hnone]
          rfl
      | cons next rest =>
          have hspace : ∀ c ∈ [' '], c = ' ' := fun c hc => List.mem_singleton.mp hc
          have htext : pad ++ (Text.join " | "
                ((i :: next :: rest).map (Interval.text write))).toList =
              (pad ++ ((i.text write).toList ++ [' '])) ++ '|' :: ([' '] ++
                (Text.join " | " ((next :: rest).map (Interval.text write))).toList) := by
            simp [Text.join, String.intercalate_cons_cons]
          have hpieces : pieces '|' ((pad ++ ((i.text write).toList ++ [' '])) ++ '|' :: ([' '] ++
                (Text.join " | " ((next :: rest).map (Interval.text write))).toList)) =
              (pad ++ ((i.text write).toList ++ [' '])) :: pieces '|' ([' '] ++
                (Text.join " | " ((next :: rest).map (Interval.text write))).toList) :=
            piecesFrom_append (bar_not_mem_padded hmin hmax hpad hspace) []
          have hrest := ih (List.cons_ne_nil _ _) hordered hread hspace
          rw [readIntervals] at hrest
          rw [htext, readIntervals, hpieces, List.mapM_cons,
            readInterval_padded hi hmin hmax hpad hspace, hrest]
          rfl

theorem exists_expression_of_listText (write : Int → String) (number : List Char → Option Int)
    {intervals : List Interval} (hne : intervals ≠ []) (hordered : ∀ i ∈ intervals, i.min ≤ i.max)
    (hread : ∀ i ∈ intervals, ReadBack write number i.min ∧ ReadBack write number i.max) :
    ∃ expr, Interval.listText write intervals = "[" ++ expr ++ "]" ∧
      ∀ base, readIntervals base number expr.toList = some intervals := by
  refine ⟨_, rfl, fun base => ?_⟩
  exact readIntervals_join hne hordered hread (List.forall_mem_nil _)

/-- What is written for a range or a length between its brackets is read as it, whatever is
restricted by it. -/
theorem restriction_text_read_back (owner : String) :
    (∀ r base : RangeRestriction, base.fractionDigits = r.fractionDigits → r.intervals ≠ [] →
      (∀ i ∈ r.intervals, i.min ≤ i.max ∧ wordMin < i.min ∧ i.max ≤ wordMax) →
      ∃ expr, r.text = "[" ++ expr ++ "]" ∧ readRange owner expr base = .ok r) ∧
    ∀ (l : LengthRestriction) (base : Option LengthRestriction), l.intervals ≠ [] →
      (∀ i ∈ l.intervals, 0 ≤ i.min ∧ i.min ≤ i.max ∧ i.max ≤ Nat.pow 2 64 - 1) →
      ∃ expr, l.text = "[" ++ expr ++ "]" ∧ readLength owner expr base = .ok l := by
  refine ⟨fun r base hdigits hne hbounds => ?_, fun l base hne hbounds => ?_⟩
  · have hback : ∀ i ∈ r.intervals,
        ReadBack (scaledText · r.fractionDigits) (readRangeNumber r.fractionDigits) i.min ∧
          ReadBack (scaledText · r.fractionDigits) (readRangeNumber r.fractionDigits) i.max := by
      intro i hi
      obtain ⟨hordered, hlo, hhi⟩ := hbounds i hi
      exact ⟨readBack_range _ hlo (Int.le_trans hordered hhi),
        readBack_range _ (Int.lt_of_lt_of_le hlo hordered) hhi⟩
    obtain ⟨expr, htext, hread⟩ :=
      exists_expression_of_listText _ _ hne (fun i hi => (hbounds i hi).1) hback
    refine ⟨expr, htext, ?_⟩
    rw [readRange, hdigits, hread]
  · have hback : ∀ i ∈ l.intervals,
        ReadBack intText readLengthNumber i.min ∧ ReadBack intText readLengthNumber i.max := by
      intro i hi
      obtain ⟨hlo, hordered, hhi⟩ := hbounds i hi
      exact ⟨readBack_length hlo (Int.le_trans hordered hhi),
        readBack_length (Int.le_trans hlo hordered) hhi⟩
    obtain ⟨expr, htext, hread⟩ :=
      exists_expression_of_listText _ _ hne (fun i hi => (hbounds i hi).2.1) hback
    refine ⟨expr, htext, ?_⟩
    rw [readLength, hread]

/-- Amounts below zero and up to the greatest of a word, with two places. -/
def amounts : RangeRestriction :=
  ⟨[⟨-50, -25⟩, ⟨0, 0⟩, ⟨105, wordMax⟩], 2⟩

def lengths : LengthRestriction :=
  ⟨[⟨0, 0⟩, ⟨64, Nat.pow 2 64 - 1⟩]⟩

theorem restriction_text_read_back_amounts :
    amounts.text = "[-0.50..-0.25 | 0.00 | 1.05..1701411834604692317316873037158841057.27]" ∧
      (∃ expr, amounts.text = "[" ++ expr ++ "]" ∧
        readRange "fares" expr ⟨[⟨0, 100⟩], 2⟩ = .ok amounts) ∧
      lengths.text = "[0 | 64..18446744073709551615]" ∧
      ∃ expr, lengths.text = "[" ++ expr ++ "]" ∧ readLength "fares" expr none = .ok lengths :=
  ⟨by decide +kernel,
    (restriction_text_read_back "fares").1 amounts ⟨[⟨0, 100⟩], 2⟩ rfl (by decide) (by decide),
    by decide +kernel,
    (restriction_text_read_back "fares").2 lengths none (by decide) (by decide)⟩

end Yin

end YangEvolution
