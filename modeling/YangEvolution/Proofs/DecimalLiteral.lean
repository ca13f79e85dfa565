import Mathlib.Algebra.Order.Field.Rat
import Mathlib.Tactic.Positivity
import Mathlib.Tactic.Ring
import YangEvolution.Proofs.DigitText
import YangEvolution.Proofs.TextParts
import YangEvolution.Text.Scaled

/-!
Decimal literals: a sign or none, digits, and a point with places or no point. The places are worth
a tenth, a hundredth and so on. Main statement: a text is read at a scale exactly when it is such a
literal with no more places than the scale has and its magnitude at that scale is one of a 128-bit
word, and what is read is the number of the literal at that scale, with nothing rounded.
-/

namespace YangEvolution.Text

inductive Sign where
  | none
  | plus
  | minus
  deriving DecidableEq

namespace Sign

def text : Sign → List Char
  | none => []
  | plus => ['+']
  | minus => ['-']

def factor : Sign → ℤ
  | minus => -1
  | _ => 1

end Sign

/-- The number after a point, where each place is worth a tenth of the one before. -/
def fraction : List Char → ℚ
  | [] => 0
  | c :: places => ((c.toNat - '0'.toNat : Nat) + fraction places) / 10

structure DecimalLiteral where
  sign : Sign
  whole : List Char
  /-- The digits after the point, if there is one. -/
  places? : Option (List Char)

namespace DecimalLiteral

def places (d : DecimalLiteral) : List Char :=
  d.places?.getD []

/-- The literal without its sign. -/
def unsignedText (d : DecimalLiteral) : List Char :=
  d.whole ++ (d.places?.map ('.' :: ·)).getD []

def text (d : DecimalLiteral) : List Char :=
  d.sign.text ++ d.unsignedText

/-- There are digits before the point, nothing but digits on both sides of it, and at most `digits`
places. -/
structure Proper (d : DecimalLiteral) (digits : Nat) : Prop where
  ne_nil : d.whole ≠ []
  whole : ∀ c ∈ d.whole, c.isDigit = true
  places : ∀ c ∈ d.places, c.isDigit = true
  length : d.places.length ≤ digits

def magnitude (d : DecimalLiteral) : ℚ :=
  Nat.ofDigitChars 10 d.whole 0 + fraction d.places

/-- The number that the literal stands for. -/
def value (d : DecimalLiteral) : ℚ :=
  d.sign.factor * d.magnitude

/-- The digits of the literal without its point, with zeros after them up to the scale. -/
def scaledDigits (d : DecimalLiteral) (digits : Nat) : List Char :=
  d.whole ++ d.places ++ List.replicate (digits - d.places.length) '0'

/-- The number of those digits. -/
def scaledMagnitude (d : DecimalLiteral) (digits : Nat) : Nat :=
  Nat.ofDigitChars 10 (d.scaledDigits digits) 0

/-! ### Numbers -/

theorem fraction_mul_pow (places : List Char) :
    fraction places * 10 ^ places.length = Nat.ofDigitChars 10 places 0 := by
  induction places with
  | nil => simp [fraction]
  | cons c places ih =>
      have hdigit : '0'.toNat = 48 := rfl
      rw [ofDigitChars_cons_zero, fraction, List.length_cons, hdigit]
      push_cast
      rw [← ih]
      ring

/-- Zeros after the places and the point taken out make the literal greater by the scale. -/
theorem scaledMagnitude_eq {d : DecimalLiteral} {digits : Nat}
    (hlength : d.places.length ≤ digits) :
    (d.scaledMagnitude digits : ℚ) = d.magnitude * 10 ^ digits := by
  have hpow : (10 : ℚ) ^ digits =
      10 ^ d.places.length * 10 ^ (digits - d.places.length) := by
    rw [← pow_add, Nat.add_sub_cancel' hlength]
  have happend : d.scaledMagnitude digits =
      10 ^ (digits - d.places.length) *
        (10 ^ d.places.length * Nat.ofDigitChars 10 d.whole 0 +
          Nat.ofDigitChars 10 d.places 0) := by
    rw [scaledMagnitude, scaledDigits, Nat.ofDigitChars_append, Nat.ofDigitChars_append,
      Nat.ofDigitChars_replicate_zero, Nat.ofDigitChars_eq_ofDigitChars_zero]
  have hplaces := fraction_mul_pow d.places
  rw [happend, magnitude, hpow]
  push_cast
  rw [← hplaces]
  ring

theorem fraction_nonneg (places : List Char) : 0 ≤ fraction places := by
  induction places with
  | nil => exact le_refl _
  | cons c places ih =>
      rw [fraction]
      positivity

theorem magnitude_nonneg (d : DecimalLiteral) : 0 ≤ d.magnitude :=
  add_nonneg (Nat.cast_nonneg _) (fraction_nonneg _)

theorem abs_value (d : DecimalLiteral) : |d.value| = d.magnitude := by
  rw [value, abs_mul, abs_of_nonneg d.magnitude_nonneg]
  cases d.sign <;> simp [Sign.factor]

/-! ### Reading without a sign -/

section Reading

variable {d : DecimalLiteral} {digits n : Nat} {cs : List Char}

/-- Every text is cut at its first point like a literal. -/
theorem exists_unsignedText (sign : Sign) (cs : List Char) :
    ∃ d : DecimalLiteral, d.sign = sign ∧ '.' ∉ d.whole ∧ d.unsignedText = cs := by
  cases hcut : cut ['.'] cs with
  | none =>
      refine ⟨⟨sign, cs, none⟩, rfl, cut_eq_none_iff.mp hcut, ?_⟩
      exact List.append_nil cs
  | some parts =>
      obtain ⟨whole, places⟩ := parts
      refine ⟨⟨sign, whole, some places⟩, rfl, not_mem_of_cut hcut, ?_⟩
      rw [eq_append_of_cut hcut]
      simp [unsignedText]

theorem cut_unsignedText (h : '.' ∉ d.whole) :
    (cut ['.'] d.unsignedText).getD (d.unsignedText, []) = (d.whole, d.places) := by
  obtain ⟨sign, whole, places?⟩ := d
  cases places? with
  | none =>
      have hnone : cut ['.'] whole = none := cut_eq_none_iff.mpr h
      simp [unsignedText, places, hnone]
  | some ps =>
      have hsome : cut ['.'] (whole ++ '.' :: ps) = some (whole, ps) := cut_append h
      simp [unsignedText, places, hsome]

theorem readNat_scaledDigits (hne : d.whole ≠ []) :
    readNat (d.scaledDigits digits) = some n ↔
      (∀ c ∈ d.whole, c.isDigit = true) ∧ (∀ c ∈ d.places, c.isDigit = true) ∧
        d.scaledMagnitude digits = n := by
  have hdigit : (∀ c ∈ d.scaledDigits digits, c.isDigit = true) ↔
      (∀ c ∈ d.whole, c.isDigit = true) ∧ ∀ c ∈ d.places, c.isDigit = true := by
    have hzeros : ∀ c ∈ List.replicate (digits - d.places.length) '0', c.isDigit = true := by
      intro c hc
      rw [List.eq_of_mem_replicate hc]
      decide
    rw [scaledDigits, List.forall_mem_append, List.forall_mem_append]
    exact and_iff_left hzeros
  have hcons : d.scaledDigits digits ≠ [] := by
    simp [scaledDigits, hne]
  rw [readNat_eq_some_iff]
  constructor
  · rintro ⟨_, h⟩
    exact ⟨(hdigit.mp h.digit).1, (hdigit.mp h.digit).2, h.value⟩
  · rintro ⟨hwhole, hplaces, hvalue⟩
    exact ⟨hcons, rfl, hdigit.mpr ⟨hwhole, hplaces⟩, hvalue⟩

theorem readMagnitude_unsignedText (h : '.' ∉ d.whole) :
    readMagnitude digits d.unsignedText = some n ↔
      d.Proper digits ∧ (n : Int) ≤ wordMax ∧ d.scaledMagnitude digits = n := by
  unfold readMagnitude
  rw [cut_unsignedText h]
  show (if d.whole.isEmpty || digits < d.places.length then none
    else (readNat (d.scaledDigits digits)).filter fun n : Nat => (n : Int) ≤ wordMax) = some n ↔ _
  split
  · rename_i hrefused
    constructor
    · intro hnone
      cases hnone
    · rintro ⟨hd, -⟩
      have hlength := hd.length
      simp only [Bool.or_eq_true, List.isEmpty_iff, hd.ne_nil, decide_eq_true_eq, false_or]
        at hrefused
      omega
  · rename_i htaken
    simp only [Bool.or_eq_true, List.isEmpty_iff, decide_eq_true_eq, not_or, Nat.not_lt] at htaken
    rw [Option.filter_eq_some_iff, readNat_scaledDigits htaken.1, decide_eq_true_eq]
    constructor
    · rintro ⟨⟨hwhole, hplaces, hvalue⟩, hmax⟩
      exact ⟨⟨htaken.1, hwhole, hplaces, htaken.2⟩, hmax, hvalue⟩
    · rintro ⟨hd, hmax, hvalue⟩
      exact ⟨⟨hd.whole, hd.places, hvalue⟩, hmax⟩

end Reading

/-! ### Reading with a sign -/

section Signed

variable {d : DecimalLiteral} {digits : Nat} {cs : List Char} {v : Int}

/-- A text whose sign is taken for one: without a sign, it does not begin with the character of one.
-/
def Unsigned (sign : Sign) (cs : List Char) : Prop :=
  sign = .none → ∀ c, cs.head? = some c → c ≠ '-' ∧ c ≠ '+'

theorem exists_sign (cs : List Char) :
    ∃ sign rest, Unsigned sign rest ∧ sign.text ++ rest = cs := by
  by_cases hcs : ∀ c, cs.head? = some c → c ≠ '-' ∧ c ≠ '+'
  · exact ⟨.none, cs, fun _ => hcs, rfl⟩
  · simp only [not_forall, not_and_or, not_not] at hcs
    obtain ⟨c, hc, rfl | rfl⟩ := hcs
    · exact ⟨.minus, cs.tail, fun h => absurd h (by decide), List.cons_head?_tail hc⟩
    · exact ⟨.plus, cs.tail, fun h => absurd h (by decide), List.cons_head?_tail hc⟩

theorem readScaled_sign_text {sign : Sign} (h : Unsigned sign cs) :
    readScaled digits (sign.text ++ cs) =
      (readMagnitude digits cs).map fun n : Nat => sign.factor * (n : Int) := by
  cases sign with
  | minus =>
      rw [Sign.text, List.singleton_append, readScaled]
      cases readMagnitude digits cs with
      | none => rfl
      | some n => exact congrArg some (neg_one_mul _).symm
  | plus =>
      rw [Sign.text, List.singleton_append, readScaled]
      cases readMagnitude digits cs with
      | none => rfl
      | some n => exact congrArg some (one_mul _).symm
  | none =>
      rw [Sign.text, List.nil_append]
      unfold readScaled
      split
      · exact absurd rfl (h rfl '-' rfl).1
      · exact absurd rfl (h rfl '+' rfl).2
      · cases readMagnitude digits cs with
        | none => rfl
        | some n => exact congrArg some (one_mul _).symm

/-- A literal without a sign begins with a digit. -/
theorem Proper.unsigned (hd : d.Proper digits) : Unsigned d.sign d.unsignedText := by
  obtain ⟨c, whole, hwhole⟩ := List.exists_cons_of_ne_nil hd.ne_nil
  have hc : c.isDigit = true := hd.whole c (hwhole ▸ List.mem_cons_self)
  intro _ x hx
  rw [unsignedText, hwhole, List.cons_append, List.head?_cons] at hx
  obtain rfl := Option.some.inj hx
  constructor
  · rintro rfl
    exact absurd hc (by decide)
  · rintro rfl
    exact absurd hc (by decide)

theorem readScaled_text (hd : d.Proper digits)
    (hmax : (d.scaledMagnitude digits : Int) ≤ wordMax) :
    readScaled digits d.text = some (d.sign.factor * d.scaledMagnitude digits) := by
  have hpoint : '.' ∉ d.whole := point_not_mem fun c hc => .inr (hd.whole c hc)
  have hread : readMagnitude digits d.unsignedText = some (d.scaledMagnitude digits) :=
    (readMagnitude_unsignedText hpoint).mpr ⟨hd, hmax, rfl⟩
  rw [text, readScaled_sign_text hd.unsigned, hread, Option.map_some]

theorem exists_of_readScaled (h : readScaled digits cs = some v) :
    ∃ d : DecimalLiteral, d.text = cs ∧ d.Proper digits ∧
      (d.scaledMagnitude digits : Int) ≤ wordMax ∧
      d.sign.factor * d.scaledMagnitude digits = v := by
  obtain ⟨sign, rest, hunsigned, rfl⟩ := exists_sign cs
  rw [readScaled_sign_text hunsigned] at h
  obtain ⟨n, hread, rfl⟩ := Option.map_eq_some_iff.mp h
  obtain ⟨d, rfl, hpoint, rfl⟩ := exists_unsignedText sign rest
  obtain ⟨hd, hmax, rfl⟩ := (readMagnitude_unsignedText hpoint).mp hread
  exact ⟨d, rfl, hd, hmax, rfl⟩

end Signed

end DecimalLiteral

/-- A text is read at a scale of `digits` places exactly when it is a decimal literal with at most
as many places whose magnitude at that scale is one of a word; what is read is its number at that
scale. -/
theorem readScaled_exact (digits : Nat) (raw : String) (v : Int) :
    readScaled digits raw.toList = some v ↔
      ∃ d : DecimalLiteral, d.text = raw.toList ∧ d.Proper digits ∧
        |d.value| * 10 ^ digits ≤ wordMax ∧ (v : ℚ) = d.value * 10 ^ digits := by
  have hscaled : ∀ d : DecimalLiteral, d.Proper digits →
      ((d.scaledMagnitude digits : Int) ≤ wordMax ↔ |d.value| * 10 ^ digits ≤ wordMax) := by
    intro d hd
    rw [d.abs_value, ← DecimalLiteral.scaledMagnitude_eq hd.length]
    exact_mod_cast Iff.rfl
  have hvalue : ∀ d : DecimalLiteral, d.Proper digits →
      ((d.sign.factor * d.scaledMagnitude digits : Int) : ℚ) = d.value * 10 ^ digits := by
    intro d hd
    push_cast
    rw [DecimalLiteral.scaledMagnitude_eq hd.length, DecimalLiteral.value, mul_assoc]
  constructor
  · intro h
    obtain ⟨d, htext, hd, hmax, rfl⟩ := DecimalLiteral.exists_of_readScaled h
    exact ⟨d, htext, hd, (hscaled d hd).mp hmax, hvalue d hd⟩
  · rintro ⟨d, htext, hd, hmax, hv⟩
    rw [← htext, DecimalLiteral.readScaled_text hd ((hscaled d hd).mpr hmax)]
    rw [← hvalue d hd] at hv
    exact congrArg some (Int.cast_injective hv).symm

end YangEvolution.Text
