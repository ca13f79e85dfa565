import YangEvolution.Schema.Interval

/-!
Restrictions on the length of texts and on the range of numbers.
-/

namespace YangEvolution

open Text

/-- The lengths that a string or binary type allows. -/
structure LengthRestriction where
  intervals : List Interval
  deriving DecidableEq

/-- The values that a numeric type allows, each times `10 ^ fractionDigits`. -/
structure RangeRestriction where
  intervals : List Interval
  fractionDigits : Nat := 0
  deriving DecidableEq

namespace LengthRestriction

/-- All lengths that a 64-bit word can count. -/
def unrestricted : LengthRestriction := ⟨[⟨0, Nat.pow 2 64 - 1⟩]⟩

def isUnrestricted (l : LengthRestriction) : Bool :=
  Interval.merge l.intervals == unrestricted.intervals

/-- Whether every length that `inner` allows is allowed. -/
def includes (l inner : LengthRestriction) : Bool :=
  Interval.cover l.intervals inner.intervals

def text (l : LengthRestriction) : String :=
  Interval.listText intText l.intervals

end LengthRestriction

namespace RangeRestriction

/-- The intervals at a scale of `digits` places, which are at least the restriction's own. -/
def rescaled (r : RangeRestriction) (digits : Nat) : List Interval :=
  r.intervals.map fun i =>
    ⟨saturate (i.min * Nat.pow 10 (digits - r.fractionDigits)),
      saturate (i.max * Nat.pow 10 (digits - r.fractionDigits))⟩

/-- Whether every value that `inner` allows is allowed, both taken at the finer of their scales. -/
def includes (r inner : RangeRestriction) : Bool :=
  let digits := max r.fractionDigits inner.fractionDigits
  Interval.cover (r.rescaled digits) (inner.rescaled digits)

def text (r : RangeRestriction) : String :=
  Interval.listText (scaledText · r.fractionDigits) r.intervals

end RangeRestriction

end YangEvolution
