import YangEvolution.Proofs.DigitText
import YangEvolution.Proofs.TextParts
import YangEvolution.Schema.Revision

/-!
The texts of revision dates. Main statement: a date is read from four, two and two characters with
hyphens between them, each digits or a plus sign and digits, if month and day exist; what is written
for it is the text that was read exactly when that has no plus sign; and dates are ordered as their
texts are.
-/

namespace YangEvolution.Revision

open Text

/-- A text of so many characters that is a number with at most one plus sign. -/
def SignedDigits (width : Nat) (cs : List Char) (n : Nat) : Prop :=
  cs.length = width ∧ Signed cs n

/-- A year, a month and a day, each written as `Field` says, with hyphens between them. -/
def DateForm (Field : Nat → List Char → Nat → Prop) (cs : List Char) (year month day : Nat) :
    Prop :=
  ∃ y m d, cs = y ++ '-' :: (m ++ '-' :: d) ∧ Field 4 y year ∧ Field 2 m month ∧ Field 2 d day ∧
    (1 ≤ month ∧ month ≤ 12) ∧ (1 ≤ day ∧ day ≤ 31)

/-- The form YYYY-MM-DD. -/
def IsDate (cs : List Char) : Prop :=
  ∃ year month day, DateForm Digits cs year month day

/-- The same form with plus signs. -/
def IsSignedDate (cs : List Char) : Prop :=
  ∃ year month day, DateForm SignedDigits cs year month day

variable {cs cs' : List Char} {width n year month day year' month' day' : Nat} {r r' : Revision}

/-! ### Fields -/

theorem SignedDigits.lt_pow (h : SignedDigits width cs n) : n < 10 ^ width := by
  obtain ⟨rfl, digits, hcs, -, hdigits⟩ := h
  refine lt_of_lt_of_le hdigits.lt_pow (Nat.pow_le_pow_right (by decide) ?_)
  rcases hcs with rfl | rfl
  · exact le_rfl
  · exact Nat.le_succ _

theorem readField_eq_some_iff : readField width cs = some n ↔ SignedDigits width cs n := by
  unfold readField
  split
  · rename_i hlength
    rw [readUnsigned_eq_some_iff]
    constructor
    · intro h
      exact ⟨hlength, h.2⟩
    · intro h
      exact ⟨h.lt_pow.le, h.2⟩
  · rename_i hlength
    constructor
    · intro h
      cases h
    · intro h
      exact absurd h.1 hlength

theorem SignedDigits.hyphen_not_mem (h : SignedDigits width cs n) : '-' ∉ cs := by
  obtain ⟨-, digits, hcs, -, hdigits⟩ := h
  have hnot : '-' ∉ digits := fun hmem => absurd (hdigits.digit '-' hmem) (by decide)
  rcases hcs with rfl | rfl
  · exact hnot
  · simpa using hnot

theorem digits_iff (hwidth : 0 < width) :
    Digits width cs n ↔ SignedDigits width cs n ∧ '+' ∉ cs := by
  constructor
  · intro h
    refine ⟨⟨h.length, cs, .inl rfl, ?_, rfl, h.digit, h.value⟩, fun hmem => ?_⟩
    · exact List.ne_nil_of_length_pos (h.length ▸ hwidth)
    · exact absurd (h.digit '+' hmem) (by decide)
  · rintro ⟨⟨hlength, digits, rfl | rfl, -, hdigits⟩, hplus⟩
    · exact ⟨hlength, hdigits.digit, hdigits.value⟩
    · exact absurd List.mem_cons_self hplus

theorem dateForm_digits_iff :
    DateForm Digits cs year month day ↔ DateForm SignedDigits cs year month day ∧ '+' ∉ cs := by
  constructor
  · rintro ⟨y, m, d, rfl, hy, hm, hd, hmonth, hday⟩
    obtain ⟨hy, hplusy⟩ := (digits_iff (by decide)).mp hy
    obtain ⟨hm, hplusm⟩ := (digits_iff (by decide)).mp hm
    obtain ⟨hd, hplusd⟩ := (digits_iff (by decide)).mp hd
    exact ⟨⟨y, m, d, rfl, hy, hm, hd, hmonth, hday⟩, by simp [hplusy, hplusm, hplusd]⟩
  · rintro ⟨⟨y, m, d, rfl, hy, hm, hd, hmonth, hday⟩, hplus⟩
    simp only [List.mem_append, List.mem_cons, not_or] at hplus
    obtain ⟨hplusy, -, hplusm, -, hplusd⟩ := hplus
    exact ⟨y, m, d, rfl, (digits_iff (by decide)).mpr ⟨hy, hplusy⟩,
      (digits_iff (by decide)).mpr ⟨hm, hplusm⟩, (digits_iff (by decide)).mpr ⟨hd, hplusd⟩,
      hmonth, hday⟩

/-! ### Reading -/

theorem ofParts?_eq_some_iff :
    ofParts? year month day = some r ↔ r.year = year ∧ r.month = month ∧ r.day = day := by
  obtain ⟨y, m, d, hm, hd⟩ := r
  unfold ofParts?
  split
  · simp [eq_comm]
  · rename_i hnot
    constructor
    · intro h
      cases h
    · rintro ⟨rfl, rfl, rfl⟩
      exact absurd ⟨hm, hd⟩ hnot

theorem readChars?_eq_some_iff :
    readChars? cs = some r ↔ DateForm SignedDigits cs r.year r.month r.day := by
  constructor
  · intro h
    unfold readChars? at h
    split at h
    · rename_i y m d hpieces
      obtain ⟨-, -, rfl⟩ := pieces_eq_iff.mp hpieces
      obtain ⟨year, hyear, h⟩ := Option.bind_eq_some_iff.mp h
      obtain ⟨month, hmonth, h⟩ := Option.bind_eq_some_iff.mp h
      obtain ⟨day, hday, h⟩ := Option.bind_eq_some_iff.mp h
      obtain ⟨rfl, rfl, rfl⟩ := ofParts?_eq_some_iff.mp h
      exact ⟨y, m, d, by simp [List.intercalate], readField_eq_some_iff.mp hyear,
        readField_eq_some_iff.mp hmonth, readField_eq_some_iff.mp hday, r.month_mem, r.day_mem⟩
    · cases h
  · rintro ⟨y, m, d, rfl, hy, hm, hd, -, -⟩
    have hpieces : pieces '-' (y ++ '-' :: (m ++ '-' :: d)) = [y, m, d] := by
      refine pieces_eq_iff.mpr ⟨List.cons_ne_nil _ _, ?_, by simp [List.intercalate]⟩
      simp [hy.hyphen_not_mem, hm.hyphen_not_mem, hd.hyphen_not_mem]
    unfold readChars?
    rw [hpieces]
    simp only [readField_eq_some_iff.mpr hy, readField_eq_some_iff.mpr hm,
      readField_eq_some_iff.mpr hd, Option.bind_eq_bind, Option.bind_some]
    exact ofParts?_eq_some_iff.mpr ⟨rfl, rfl, rfl⟩

theorem read_eq_ok_iff_read? {s : String} : read s = .ok r ↔ read? s = some r := by
  unfold read
  split
  · rename_i a ha
    simp [ha]
  · rename_i hnone
    simp [hnone]

theorem read_eq_ok_iff {s : String} :
    read s = .ok r ↔ DateForm SignedDigits (trim s).toList r.year r.month r.day := by
  rw [trim, String.toList_ofList, ← readChars?_eq_some_iff, read_eq_ok_iff_read?]
  rfl

/-! ### Writing -/

theorem toList_text (r : Revision) :
    r.text.toList = (paddedText 4 r.year).toList ++
      '-' :: ((paddedText 2 r.month).toList ++ '-' :: (paddedText 2 r.day).toList) := by
  simp [text]

/-- A date with a year of four digits is written as YYYY-MM-DD. -/
theorem dateForm_text (hyear : r.year < 10 ^ 4) :
    DateForm Digits r.text.toList r.year r.month r.day := by
  have hmonth : r.month < 10 ^ 2 := by have := r.month_mem; omega
  have hday : r.day < 10 ^ 2 := by have := r.day_mem; omega
  exact ⟨_, _, _, toList_text r, digits_paddedText (by decide) hyear,
    digits_paddedText (by decide) hmonth, digits_paddedText (by decide) hday, r.month_mem,
    r.day_mem⟩

theorem DateForm.year_lt (h : DateForm SignedDigits cs year month day) : year < 10 ^ 4 := by
  obtain ⟨y, m, d, -, hy, -⟩ := h
  exact hy.lt_pow

theorem DateForm.unique (h : DateForm Digits cs year month day)
    (h' : DateForm Digits cs' year month day) : cs = cs' := by
  obtain ⟨y, m, d, rfl, hy, hm, hd, -⟩ := h
  obtain ⟨y', m', d', rfl, hy', hm', hd', -⟩ := h'
  rw [hy.unique hy', hm.unique hm', hd.unique hd']

/-! ### Order -/

theorem DateForm.lt_iff (h : DateForm Digits cs year month day)
    (h' : DateForm Digits cs' year' month' day') :
    cs < cs' ↔ year < year' ∨ year = year' ∧ (month < month' ∨ month = month' ∧ day < day') := by
  obtain ⟨y, m, d, rfl, hy, hm, hd, -⟩ := h
  obtain ⟨y', m', d', rfl, hy', hm', hd', -⟩ := h'
  rw [append_lt_append_iff (hy.length.trans hy'.length.symm), List.cons_lt_cons_iff,
    append_lt_append_iff (hm.length.trans hm'.length.symm), List.cons_lt_cons_iff,
    hy.lt_iff hy', hm.lt_iff hm', hd.lt_iff hd', hy.eq_iff hy', hm.eq_iff hm']
  simp

theorem lt_iff : r < r' ↔ r.year < r'.year ∨ r.year = r'.year ∧
    (r.month < r'.month ∨ r.month = r'.month ∧ r.day < r'.day) := by
  have := r.month_mem
  have := r.day_mem
  have := r'.month_mem
  have := r'.day_mem
  rw [lt_def, ordinal, ordinal]
  omega

theorem exists_read_iff {s : String} :
    (∃ r, read s = .ok r) ↔ IsSignedDate (trim s).toList := by
  constructor
  · rintro ⟨r, hr⟩
    exact ⟨r.year, r.month, r.day, read_eq_ok_iff.mp hr⟩
  · rintro ⟨year, month, day, h⟩
    have hparts := h
    obtain ⟨-, -, -, -, -, -, -, hmonth, hday⟩ := hparts
    exact ⟨⟨year, month, day, hmonth, hday⟩, read_eq_ok_iff.mpr h⟩

theorem isDate_iff : IsDate cs ↔ IsSignedDate cs ∧ '+' ∉ cs := by
  simp only [IsDate, IsSignedDate, dateForm_digits_iff, exists_and_right]

theorem text_eq_trim_iff {s : String} (h : read s = .ok r) :
    r.text = trim s ↔ '+' ∉ (trim s).toList := by
  have hread := read_eq_ok_iff.mp h
  have hwritten := dateForm_text hread.year_lt
  rw [← String.toList_inj]
  constructor
  · intro heq
    exact heq ▸ (dateForm_digits_iff.mp hwritten).2
  · intro hplus
    exact hwritten.unique (dateForm_digits_iff.mpr ⟨hread, hplus⟩)

theorem lt_iff_text_lt {s s' : String} (h : read s = .ok r) (h' : read s' = .ok r') :
    r < r' ↔ r.text < r'.text := by
  have hwritten := dateForm_text (read_eq_ok_iff.mp h).year_lt
  have hwritten' := dateForm_text (read_eq_ok_iff.mp h').year_lt
  rw [String.lt_iff, hwritten.lt_iff hwritten', lt_iff]

/-- A text is read as a date exactly if it is one, blanks around it and plus signs in it apart. One
without a plus sign is what is written for its date, and the dates are ordered as the texts are. -/
theorem read_dates_but_for_signs (s : String) :
    ((∃ r, read s = .ok r) ↔ IsSignedDate (trim s).toList) ∧
    (IsDate (trim s).toList ↔ IsSignedDate (trim s).toList ∧ '+' ∉ (trim s).toList) ∧
    ∀ r, read s = .ok r → (r.text = trim s ↔ '+' ∉ (trim s).toList) ∧
      ∀ s' r', read s' = .ok r' → (r < r' ↔ r.text < r'.text) ∧
        ('+' ∉ (trim s).toList → '+' ∉ (trim s').toList → (r < r' ↔ trim s < trim s')) := by
  refine ⟨exists_read_iff, isDate_iff, fun r hr => ⟨text_eq_trim_iff hr, fun s' r' hr' => ?_⟩⟩
  have horder := lt_iff_text_lt hr hr'
  refine ⟨horder, fun hplus hplus' => ?_⟩
  rwa [(text_eq_trim_iff hr).mpr hplus, (text_eq_trim_iff hr').mpr hplus'] at horder

theorem read_dates_but_for_signs_days :
    ∃ r r', read " 2020-02-30 " = .ok r ∧ read "+999-12-+9" = .ok r' ∧
      (r.text = trim " 2020-02-30 " ↔ '+' ∉ (trim " 2020-02-30 ").toList) ∧
      (r < r' ↔ r.text < r'.text) := by
  have hread : read " 2020-02-30 " = .ok ⟨2020, 2, 30, by decide, by decide⟩ := by decide +kernel
  have hread' : read "+999-12-+9" = .ok ⟨999, 12, 9, by decide, by decide⟩ := by decide +kernel
  obtain ⟨htext, horder⟩ := (read_dates_but_for_signs " 2020-02-30 ").2.2 _ hread
  exact ⟨_, _, hread, hread', htext, (horder _ _ hread').1⟩

/-- A plus sign is taken for a digit, and puts a later year before an earlier one. -/
theorem plus_sign_read_as_digit :
    ∃ r r', read "+999-01-01" = .ok r ∧ r.text = "0999-01-01" ∧
      ¬ IsDate (trim "+999-01-01").toList ∧ read "0500-01-01" = .ok r' ∧ r' < r ∧
      trim "+999-01-01" < trim "0500-01-01" := by
  have hread : read "+999-01-01" = .ok ⟨999, 1, 1, by decide, by decide⟩ := by decide +kernel
  have hread' : read "0500-01-01" = .ok ⟨500, 1, 1, by decide, by decide⟩ := by decide +kernel
  refine ⟨_, _, hread, by decide +kernel, fun hdate => ?_, hread', by decide, by decide +kernel⟩
  exact absurd (isDate_iff.mp hdate).2 (by decide +kernel)

end YangEvolution.Revision
