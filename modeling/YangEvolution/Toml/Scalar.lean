import YangEvolution.Toml.Quotation
import YangEvolution.Toml.Value

/-!
Numbers, truth values and dates of a TOML document. None of the characters in them can follow a
value, so each is read as the whole of a longest run of such characters.
-/

namespace YangEvolution.Toml

open Text

/-- The characters of numbers, truth values and dates. -/
def isAtomChar (c : Char) : Bool :=
  c.isAlphanum || c == '_' || c == '+' || c == '-' || c == '.' || c == ':'

/-- The value of digits that follow digits of value `acc`; single underscores may stand between
digits. -/
def groupedFrom (base : Nat) (acc : Nat) : List Char → Option Nat
  | [] => some acc
  | '_' :: c :: rest =>
    match (hexDigit? c).filter (· < base) with
    | some d => groupedFrom base (base * acc + d) rest
    | none => none
  | c :: rest =>
    match (hexDigit? c).filter (· < base) with
    | some d => groupedFrom base (base * acc + d) rest
    | none => none

/-- One or more digits of a base. -/
def readGrouped (base : Nat) : List Char → Option Nat
  | [] => none
  | '_' :: _ => none
  | cs => groupedFrom base 0 cs

/-- A decimal number without leading zeros. -/
def readWhole : List Char → Option Nat
  | ['0'] => some 0
  | '0' :: _ => none
  | cs => readGrouped 10 cs

/-- The sign before a number, which is negative after a minus. -/
def splitSign : List Char → Bool × List Char
  | '-' :: rest => (true, rest)
  | '+' :: rest => (false, rest)
  | cs => (false, cs)

/-- An integer of 64 bits; only a decimal one may have a sign. -/
def readInteger (cs : List Char) : Option Int :=
  let value : Option Int := match cs with
    | '0' :: 'x' :: digits => (readGrouped 16 digits).map fun n => (n : Int)
    | '0' :: 'o' :: digits => (readGrouped 8 digits).map fun n => (n : Int)
    | '0' :: 'b' :: digits => (readGrouped 2 digits).map fun n => (n : Int)
    | _ =>
      let (negative, digits) := splitSign cs
      (readWhole digits).map fun n => if negative then -(n : Int) else (n : Int)
  value.filter fun v => -Nat.pow 2 63 ≤ v && v ≤ Nat.pow 2 63 - 1

def isExponentMark (c : Char) : Bool :=
  c == 'e' || c == 'E'

/-- The exponent of a number, or zero where nothing is left. -/
def readExponent : List Char → Option Int
  | [] => some 0
  | c :: rest =>
    if isExponentMark c then
      let (negative, digits) := splitSign rest
      (readGrouped 10 digits).map fun n => if negative then -(n : Int) else (n : Int)
    else none

/-- The decimals of a number with a point: their number and their value. -/
def readFraction (cs : List Char) : Option (Nat × Nat) :=
  (readGrouped 10 cs).map fun n => ((cs.filter (· != '_')).length, n)

/-- The mantissa and the exponent of a number with a point, an exponent or both. -/
def readDecimal (cs : List Char) : Option (Nat × Int) := do
  let whole := cs.takeWhile fun c => c != '.' && !isExponentMark c
  let n ← readWhole whole
  match cs.drop whole.length with
  | '.' :: rest =>
    let decimals := rest.takeWhile fun c => !isExponentMark c
    let (places, fraction) ← readFraction decimals
    let e ← readExponent (rest.drop decimals.length)
    some (n * Nat.pow 10 places + fraction, e - places)
  | [] => none
  | rest => do some (n, ← readExponent rest)

/-- A float; of those that are too great only negative ones are taken, as infinite. -/
def readFloat (cs : List Char) : Option FloatValue :=
  match splitSign cs with
  | (negative, ['i', 'n', 'f']) => some (.infinite negative)
  | (_, ['n', 'a', 'n']) => some .nan
  | (negative, digits) =>
    match readDecimal digits with
    | none => none
    | some (mantissa, exponent) =>
      match Double.ofDecimal? mantissa exponent with
      | some d => some (.finite negative d)
      | none => if negative then some (.infinite true) else none

/-- A number of exactly `width` digits. -/
def readFixed (width : Nat) : Reader Nat := fun cs =>
  let digits := cs.take width
  if digits.length = width then (readNat digits).map fun n => (n, cs.drop width) else none

/-- What follows a character. -/
def afterChar? (c : Char) : List Char → Option (List Char)
  | x :: rest => if x = c then some rest else none
  | [] => none

def isLeapYear (year : Nat) : Bool :=
  year % 4 == 0 && (year % 100 != 0 || year % 400 == 0)

def daysIn (year month : Nat) : Nat :=
  if month = 2 then (if isLeapYear year then 29 else 28)
  else if month = 4 || month = 6 || month = 9 || month = 11 then 30
  else 31

/-- What follows a date that exists. -/
def afterDate? (cs : List Char) : Option (List Char) := do
  let (year, rest) ← readFixed 4 cs
  let (month, rest) ← readFixed 2 (← afterChar? '-' rest)
  let (day, rest) ← readFixed 2 (← afterChar? '-' rest)
  if 1 ≤ month ∧ month ≤ 12 ∧ 1 ≤ day ∧ day ≤ daysIn year month then some rest else none

/-- What follows the fraction of a second, which has a digit at least. -/
def afterFraction? : List Char → Option (List Char)
  | '.' :: rest =>
    match rest.dropWhile Char.isDigit with
    | after => if after.length < rest.length then some after else none
  | cs => some cs

/-- What follows a time of day; a minute may have a leap second. -/
def afterTime? (cs : List Char) : Option (List Char) := do
  let (hour, rest) ← readFixed 2 cs
  let (minute, rest) ← readFixed 2 (← afterChar? ':' rest)
  let (second, rest) ← readFixed 2 (← afterChar? ':' rest)
  if hour ≤ 23 ∧ minute ≤ 59 ∧ second ≤ 60 then afterFraction? rest else none

/-- Whether a text is an offset from universal time, or nothing. -/
def isOffset : List Char → Bool
  | [] => true
  | ['Z'] => true
  | ['z'] => true
  | sign :: h :: i :: ':' :: m :: n :: [] =>
    (sign == '+' || sign == '-') &&
      ((readNat [h, i]).any (· ≤ 23)) && ((readNat [m, n]).any (· ≤ 59))
  | _ => false

/-- Whether a text is a time of day, with an offset or without. -/
def isTime (cs : List Char) : Bool :=
  (afterTime? cs).any isOffset

/-- Whether a text is a time, a date, or a date and a time. -/
def isDatetime (cs : List Char) : Bool :=
  match afterDate? cs with
  | some [] => true
  | some (c :: rest) => (c == 'T' || c == 't') && isTime rest
  | none => (afterTime? cs).any List.isEmpty

def readAtom (atom : List Char) : Option Value :=
  if atom = "true".toList then some (.boolean true)
  else if atom = "false".toList then some (.boolean false)
  else if isDatetime atom then some (.datetime (String.ofList atom))
  else
    match readInteger atom with
    | some n => some (.integer n)
    | none => (readFloat atom).map .float

/-- A number, truth value or date; between a date and a time there may be a space. -/
def readScalar : Reader Value := fun cs =>
  let atom := cs.takeWhile isAtomChar
  let rest := cs.drop atom.length
  let next := (rest.drop 1).takeWhile isAtomChar
  if rest.head? = some ' ' ∧ !next.isEmpty ∧ afterDate? atom = some [] then
    let text := String.ofList (atom ++ ' ' :: next)
    if isTime next then some (.datetime text, rest.drop (next.length + 1)) else none
  else (readAtom atom).map fun v => (v, rest)

end YangEvolution.Toml
