import YangEvolution.Schema.Restriction

/-!
Ranges compared and written with powers of ten that have to fit a 128-bit word: the operations below
fail where one does not.
-/

namespace YangEvolution

namespace Text

/-- A power of ten, if it fits the word. -/
def tenTo? (e : Nat) : Option Nat :=
  if (Nat.pow 10 e : Int) ≤ wordMax then some (Nat.pow 10 e) else none

/-- The decimal text of `value / 10 ^ digits`. -/
def scaledText? (value : Int) (digits : Nat) : Option String :=
  if digits = 0 then some (intText value)
  else do
    let factor ← tenTo? digits
    some ((if value < 0 then "-" else "") ++ natText (value.natAbs / factor) ++ "." ++
      paddedText digits (value.natAbs % factor))

end Text

open Text

/-- Both ends, or the one value of an interval of equal ends, where numbers may fail to be written.
-/
def Interval.text? (number : Int → Option String) (i : Interval) : Option String :=
  if i.min = i.max then number i.min
  else do some ((← number i.min) ++ ".." ++ (← number i.max))

namespace RangeRestriction

def rescaled? (r : RangeRestriction) (digits : Nat) : Option (List Interval) := do
  let factor ← tenTo? (digits - r.fractionDigits)
  some (r.intervals.map fun i => ⟨saturate (i.min * factor), saturate (i.max * factor)⟩)

def includes? (r inner : RangeRestriction) : Option Bool := do
  let digits := max r.fractionDigits inner.fractionDigits
  some (Interval.cover (← r.rescaled? digits) (← inner.rescaled? digits))

def text? (r : RangeRestriction) : Option String := do
  let texts ← r.intervals.mapM (Interval.text? (scaledText? · r.fractionDigits))
  some ("[" ++ join " | " texts ++ "]")

end RangeRestriction

end YangEvolution
