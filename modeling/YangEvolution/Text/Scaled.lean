import YangEvolution.Text.Numeral
import YangEvolution.Text.Split

/-!
Fixed-point decimals: an integer that stands for itself divided by a power of ten. The integers
are those of 128-bit words in two's complement.
-/

namespace YangEvolution.Text

/-- The greatest integer of a 128-bit word. -/
def wordMax : Int := Nat.pow 2 127 - 1

/-- The least integer of a 128-bit word. -/
def wordMin : Int := -Nat.pow 2 127

/-- The integer of a 128-bit word that is nearest to `v`. -/
def saturate (v : Int) : Int :=
  max wordMin (min wordMax v)

/-- The decimal text of `value / 10 ^ digits`, with all its `digits` places. -/
def scaledText (value : Int) (digits : Nat) : String :=
  if digits = 0 then intText value
  else
    (if value < 0 then "-" else "") ++ natText (value.natAbs / Nat.pow 10 digits) ++ "." ++
      paddedText digits (value.natAbs % Nat.pow 10 digits)

/-- The magnitude times `10 ^ digits` of an unsigned decimal with at most `digits` places. A point
may end the text, but cannot begin it. -/
def readMagnitude (digits : Nat) (cs : List Char) : Option Nat :=
  let (whole, places) := (cut ['.'] cs).getD (cs, [])
  if whole.isEmpty || digits < places.length then none
  else
    (readNat (whole ++ places ++ List.replicate (digits - places.length) '0')).filter
      fun n => (n : Int) ≤ wordMax

/-- The value times `10 ^ digits` of a decimal with at most one sign and at most `digits` places.
-/
def readScaled (digits : Nat) : List Char → Option Int
  | '-' :: rest => (readMagnitude digits rest).map fun n => -(n : Int)
  | '+' :: rest => (readMagnitude digits rest).map fun n => (n : Int)
  | cs => (readMagnitude digits cs).map fun n => (n : Int)

theorem saturate_of_mem {v : Int} (hlo : wordMin ≤ v) (hhi : v ≤ wordMax) : saturate v = v := by
  unfold saturate; omega

theorem saturate_mono {v w : Int} (h : v ≤ w) : saturate v ≤ saturate w := by
  unfold saturate; omega

end YangEvolution.Text
