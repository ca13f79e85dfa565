import Mathlib.Algebra.Order.Ring.Nat
import Mathlib.Data.String.Basic
import Mathlib.Tactic.Tauto
import YangEvolution.Text.Numeral

/-!
Numbers in digits. Main statements: a text is read as a number exactly when it is digits, and as
their value; among texts of as many digits, the order of the texts is the order of the numbers, so
that no two of them stand for one number; and a number filled up with zeros to a width is such a
text.
-/

namespace YangEvolution.Text

/-- `Digits width cs n`: the text `cs` is as many ASCII digits, and stands for `n`. -/
structure Digits (width : Nat) (cs : List Char) (n : Nat) : Prop where
  length : cs.length = width
  digit : ∀ c ∈ cs, c.isDigit = true
  value : Nat.ofDigitChars 10 cs 0 = n

/-! ### Reading -/

theorem digitsValue_eq_some_iff {acc n : Nat} {cs : List Char} :
    digitsValue acc cs = some n ↔
      (∀ c ∈ cs, c.isDigit = true) ∧ Nat.ofDigitChars 10 cs acc = n := by
  induction cs generalizing acc with
  | nil => simp [digitsValue]
  | cons c cs ih =>
      rw [digitsValue, Nat.ofDigitChars_cons, List.forall_mem_cons]
      split
      · rename_i hc
        rw [ih]
        simp [hc]
      · rename_i hc
        simp [hc]

theorem readNat_eq_some_iff {cs : List Char} {n : Nat} :
    readNat cs = some n ↔ cs ≠ [] ∧ Digits cs.length cs n := by
  cases cs with
  | nil => simp [readNat]
  | cons c cs =>
      rw [readNat, digitsValue_eq_some_iff]
      exact ⟨fun h => ⟨List.cons_ne_nil c cs, rfl, h.1, h.2⟩, fun h => ⟨h.2.digit, h.2.value⟩⟩

/-- `Signed cs n`: the text `cs` is digits, with at most one plus sign before them, and stands for
`n`. -/
def Signed (cs : List Char) (n : Nat) : Prop :=
  ∃ digits, (cs = digits ∨ cs = '+' :: digits) ∧ digits ≠ [] ∧ Digits digits.length digits n

theorem readUnsigned_eq_some_iff {limit n : Nat} {cs : List Char} :
    readUnsigned limit cs = some n ↔ n ≤ limit ∧ Signed cs n := by
  unfold readUnsigned
  rw [Option.filter_eq_some_iff, decide_eq_true_eq, and_comm]
  refine and_congr_right fun _ => ?_
  split
  · rename_i rest
    rw [readNat_eq_some_iff]
    constructor
    · intro h
      exact ⟨rest, .inr rfl, h⟩
    · rintro ⟨digits, rfl | heq, hne, h⟩
      · exact absurd (h.digit '+' List.mem_cons_self) (by decide)
      · obtain rfl := (List.cons.inj heq).2
        exact ⟨hne, h⟩
  · rename_i hplus
    rw [readNat_eq_some_iff]
    constructor
    · intro h
      exact ⟨cs, .inl rfl, h⟩
    · rintro ⟨digits, rfl | rfl, h⟩
      · exact h
      · exact absurd rfl (hplus digits)

theorem point_not_mem {cs : List Char} (h : ∀ c ∈ cs, c = '-' ∨ c.isDigit = true) : '.' ∉ cs :=
  fun hmem => absurd (h '.' hmem) (by decide)

/-! ### Order -/

section Order

variable {width n n' : Nat} {cs cs' : List Char} {c : Char}

theorem toNat_of_isDigit (h : c.isDigit = true) : 48 ≤ c.toNat ∧ c.toNat ≤ 57 := by
  simpa [Char.isDigit, UInt32.le_iff_toNat_le] using h

theorem ofDigitChars_cons_zero (c : Char) (cs : List Char) :
    Nat.ofDigitChars 10 (c :: cs) 0 =
      10 ^ cs.length * (c.toNat - 48) + Nat.ofDigitChars 10 cs 0 := by
  rw [Nat.ofDigitChars_cons, Nat.ofDigitChars_eq_ofDigitChars_zero, Nat.mul_zero, Nat.zero_add]
  rfl

theorem Digits.lt_pow (h : Digits width cs n) : n < 10 ^ width := by
  obtain ⟨rfl, hdigit, rfl⟩ := h
  induction cs with
  | nil => simp
  | cons c cs ih =>
      obtain ⟨hc, hcs⟩ := List.forall_mem_cons.mp hdigit
      have hrest := ih hcs
      have htop := toNat_of_isDigit hc
      have hmul : 10 ^ cs.length * (c.toNat - 48) ≤ 10 ^ cs.length * 9 :=
        Nat.mul_le_mul_left _ (by omega)
      rw [ofDigitChars_cons_zero, List.length_cons, Nat.pow_succ]
      omega

/-- Where two numbers have as many further digits, the first digits decide, and then the others. -/
theorem mul_add_lt_iff {p x y u v : Nat} (hu : u < p) (hv : v < p) :
    p * x + u < p * y + v ↔ x < y ∨ x = y ∧ u < v := by
  have above : ∀ {x y : Nat}, x < y → p * x + p ≤ p * y := fun h => Nat.mul_le_mul_left p h
  rcases Nat.lt_trichotomy x y with h | rfl | h
  · have := above h
    omega
  · omega
  · have := above h
    omega

theorem Digits.lt_iff (h : Digits width cs n) (h' : Digits width cs' n') : cs < cs' ↔ n < n' := by
  induction width generalizing cs cs' n n' with
  | zero =>
      obtain ⟨hlength, -, rfl⟩ := h
      obtain ⟨hlength', -, rfl⟩ := h'
      rw [List.eq_nil_of_length_eq_zero hlength, List.eq_nil_of_length_eq_zero hlength']
      simp
  | succ width ih =>
      obtain ⟨hlength, hdigit, rfl⟩ := h
      obtain ⟨hlength', hdigit', rfl⟩ := h'
      obtain ⟨c, cs, rfl⟩ := List.exists_cons_of_length_eq_add_one hlength
      obtain ⟨c', cs', rfl⟩ := List.exists_cons_of_length_eq_add_one hlength'
      obtain ⟨hc, hcs⟩ := List.forall_mem_cons.mp hdigit
      obtain ⟨hc', hcs'⟩ := List.forall_mem_cons.mp hdigit'
      have hrest : Digits width cs _ := ⟨Nat.succ.inj hlength, hcs, rfl⟩
      have hrest' : Digits width cs' _ := ⟨Nat.succ.inj hlength', hcs', rfl⟩
      have hlt := hrest.lt_pow
      have hlt' := hrest'.lt_pow
      rw [ofDigitChars_cons_zero, ofDigitChars_cons_zero, hrest.length, hrest'.length,
        mul_add_lt_iff hlt hlt', List.cons_lt_cons_iff, ih hrest hrest']
      have hchar : c < c' ↔ c.toNat - 48 < c'.toNat - 48 := by
        have := toNat_of_isDigit hc
        have := toNat_of_isDigit hc'
        rw [Char.lt_def, UInt32.lt_iff_toNat_lt]
        show c.toNat < c'.toNat ↔ _
        omega
      have heq : c = c' ↔ c.toNat - 48 = c'.toNat - 48 := by
        have := toNat_of_isDigit hc
        have := toNat_of_isDigit hc'
        rw [← Char.toNat_inj]
        omega
      rw [hchar, heq]

/-- As many digits stand for a number in one way only. -/
theorem Digits.unique (h : Digits width cs n) (h' : Digits width cs' n) : cs = cs' := by
  rcases lt_trichotomy cs cs' with hlt | heq | hlt
  · exact absurd ((h.lt_iff h').mp hlt) (Nat.lt_irrefl n)
  · exact heq
  · exact absurd ((h'.lt_iff h).mp hlt) (Nat.lt_irrefl n)

theorem Digits.eq_iff (h : Digits width cs n) (h' : Digits width cs' n') : cs = cs' ↔ n = n' := by
  constructor
  · rintro rfl
    exact h.value.symm.trans h'.value
  · rintro rfl
    exact h.unique h'

theorem append_lt_append_iff {as bs : List Char} (h : as.length = bs.length) :
    as ++ cs < bs ++ cs' ↔ as < bs ∨ as = bs ∧ cs < cs' := by
  induction as generalizing bs with
  | nil =>
      obtain rfl := List.eq_nil_of_length_eq_zero h.symm
      simp
  | cons a as ih =>
      obtain ⟨b, bs, rfl⟩ := List.exists_cons_of_length_eq_add_one h.symm
      rw [List.cons_append, List.cons_append, List.cons_lt_cons_iff, ih (Nat.succ.inj h),
        List.cons_lt_cons_iff, List.cons.injEq]
      tauto

end Order

/-- The digits of two texts one after the other. -/
theorem Digits.append {width width' n n' : Nat} {cs cs' : List Char} (h : Digits width cs n)
    (h' : Digits width' cs' n') :
    Digits (width + width') (cs ++ cs') (10 ^ width' * n + n') := by
  obtain ⟨rfl, hdigit, rfl⟩ := h
  obtain ⟨rfl, hdigit', rfl⟩ := h'
  refine ⟨List.length_append, fun c hc => ?_, ?_⟩
  · exact (List.mem_append.mp hc).elim (hdigit c) (hdigit' c)
  · rw [Nat.ofDigitChars_append, Nat.ofDigitChars_eq_ofDigitChars_zero]

/-! ### Writing -/

theorem digits_natText (n : Nat) : Digits (natText n).toList.length (natText n).toList n := by
  rw [natText, String.toList_ofList]
  exact ⟨rfl, fun c hc => Nat.isDigit_of_mem_toDigits (by decide) (by decide) hc,
    Nat.ofDigitChars_ten_toDigits⟩

theorem natText_ne_nil (n : Nat) : (natText n).toList ≠ [] := by
  simp [natText, Nat.toDigits_ne_nil]

theorem readNat_natText (n : Nat) : readNat (natText n).toList = some n :=
  readNat_eq_some_iff.mpr ⟨natText_ne_nil n, digits_natText n⟩

theorem intText_of_neg {v : Int} (h : v < 0) :
    (intText v).toList = '-' :: (natText v.natAbs).toList := by
  simp [intText, h]

theorem intText_of_nonneg {v : Int} (h : ¬ v < 0) :
    (intText v).toList = (natText v.natAbs).toList := by
  simp [intText, h]

/-- An integer is written with digits and a minus sign. -/
theorem mem_intText {v : Int} {c : Char} (hc : c ∈ (intText v).toList) :
    c = '-' ∨ c.isDigit = true := by
  have hdigit := (digits_natText v.natAbs).digit c
  by_cases hv : v < 0
  · rw [intText_of_neg hv] at hc
    exact (List.mem_cons.mp hc).imp_right hdigit
  · rw [intText_of_nonneg hv] at hc
    exact .inr (hdigit hc)

theorem intText_ne_nil (v : Int) : (intText v).toList ≠ [] := by
  by_cases hv : v < 0
  · simp [intText_of_neg hv]
  · rw [intText_of_nonneg hv]
    exact natText_ne_nil _

theorem digits_paddedText {width n : Nat} (hwidth : 0 < width) (hn : n < 10 ^ width) :
    Digits width (paddedText width n).toList n := by
  have hlength : (Nat.toDigits 10 n).length ≤ width :=
    (Nat.length_toDigits_le_iff (by decide) hwidth).mpr hn
  have htext : (paddedText width n).toList =
      List.replicate (width - (Nat.toDigits 10 n).length) '0' ++ Nat.toDigits 10 n := by
    rw [paddedText, String.toList_ofList]
  rw [htext]
  refine ⟨?_, fun c hc => ?_, ?_⟩
  · rw [List.length_append, List.length_replicate]
    omega
  · rcases List.mem_append.mp hc with hc | hc
    · rw [List.eq_of_mem_replicate hc]
      decide
    · exact Nat.isDigit_of_mem_toDigits (by decide) (by decide) hc
  · rw [Nat.ofDigitChars_append, Nat.ofDigitChars_replicate_zero, Nat.mul_zero]
    exact Nat.ofDigitChars_ten_toDigits

end YangEvolution.Text
