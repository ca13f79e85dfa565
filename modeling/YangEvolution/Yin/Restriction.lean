import YangEvolution.Schema.TypeDef
import YangEvolution.Yin.Statement

/-!
The expressions that restrict lengths and ranges: intervals between bars, each of them one bound
or two with dots between, where `min` and `max` are the extremes of what is restricted.
-/

namespace YangEvolution.Yin

open Text Markup

def lowest? (intervals : List Interval) : Option Int :=
  (intervals.map Interval.min).min?

def highest? (intervals : List Interval) : Option Int :=
  (intervals.map Interval.max).max?

/-- A bound; blanks around it are ignored. -/
def readBound (base : List Interval) (number : List Char → Option Int) (cs : List Char) :
    Option Int :=
  let trimmed := trimChars cs
  if trimmed = "min".toList then lowest? base
  else if trimmed = "max".toList then highest? base
  else number trimmed

/-- One bound, or two with dots between them. -/
def readBounds (base : List Interval) (number : List Char → Option Int) (cs : List Char) :
    Option Interval :=
  match cut ['.', '.'] cs with
  | some (lo, hi) => do some ⟨← readBound base number lo, ← readBound base number hi⟩
  | none => (readBound base number cs).map .single

/-- The bounds of an interval have to be in order. -/
def readInterval (base : List Interval) (number : List Char → Option Int) (cs : List Char) :
    Option Interval :=
  (readBounds base number cs).filter fun i => i.min ≤ i.max

/-- The intervals between bars; none if one of them cannot be read. -/
def readIntervals (base : List Interval) (number : List Char → Option Int) (cs : List Char) :
    Option (List Interval) :=
  (pieces '|' cs).mapM (readInterval base number)

def readLengthNumber (cs : List Char) : Option Int :=
  (readUnsigned (Nat.pow 2 64 - 1) cs).map fun n => (n : Int)

/-- A number at a scale of `digits` places. -/
def readRangeNumber (digits : Nat) (cs : List Char) : Option Int :=
  if digits = 0 then readSigned wordMin wordMax cs else readScaled digits cs

/-- Reads a length expression that restricts `base`, or all lengths. -/
def readLength (owner expr : String) (base : Option LengthRestriction) :
    Except LoadFault LengthRestriction :=
  match readIntervals (base.getD .unrestricted).intervals readLengthNumber expr.toList with
  | some intervals => .ok ⟨intervals⟩
  | none => .error (.invalid owner "length" expr)

/-- Reads a range expression that restricts `base`, at the scale of `base`. -/
def readRange (owner expr : String) (base : RangeRestriction) :
    Except LoadFault RangeRestriction :=
  match readIntervals base.intervals (readRangeNumber base.fractionDigits) expr.toList with
  | some intervals => .ok ⟨intervals, base.fractionDigits⟩
  | none => .error (.invalid owner "range" expr)

/-- All decimals with the given number of places whose digits fit a 64-bit word. -/
def decimalRange (digits : Nat) : RangeRestriction :=
  ⟨[⟨-Nat.pow 2 63, Nat.pow 2 63 - 1⟩], digits⟩

def readFractionDigits (owner raw : String) : Except LoadFault Nat :=
  match readUnsigned 255 (trimChars raw.toList) with
  | some n =>
    if 1 ≤ n ∧ n ≤ 18 then .ok n else .error (.invalid owner "fraction-digits" raw)
  | none => .error (.invalid owner "fraction-digits" raw)

def patternOf (owner : String) (stmt : Element) : Except LoadFault Pattern := do
  let regex ← argument owner stmt "value"
  .ok {
    regex
    invertMatch := stmt.childAttribute? "modifier" "value" == some "invert-match"
    errorMessage := errorMessageOf stmt
    errorAppTag := errorAppTagOf stmt
    description := descriptionOf stmt
    reference := referenceOf stmt }

end YangEvolution.Yin
