/-!
Decimal numerals: reading integers of a bounded range and writing them with a least width.
-/

namespace YangEvolution.Text

/-- The value of a run of ASCII digits that follows digits of value `acc`. -/
def digitsValue (acc : Nat) : List Char → Option Nat
  | [] => some acc
  | c :: cs =>
    if c.isDigit then digitsValue (10 * acc + (c.toNat - '0'.toNat)) cs else none

/-- One or more ASCII digits. Leading zeros are allowed. -/
def readNat : List Char → Option Nat
  | [] => none
  | c :: cs => digitsValue 0 (c :: cs)

/-- A natural number of at most `limit`, with at most one plus sign before its digits. -/
def readUnsigned (limit : Nat) (cs : List Char) : Option Nat :=
  let digits := match cs with
    | '+' :: rest => rest
    | _ => cs
  (readNat digits).filter (· ≤ limit)

/-- An integer from `lowest` to `highest`, with at most one sign before its digits. -/
def readSigned (lowest highest : Int) (cs : List Char) : Option Int :=
  let value := match cs with
    | '-' :: rest => (readNat rest).map fun n => -(n : Int)
    | '+' :: rest => (readNat rest).map fun n => (n : Int)
    | _ => (readNat cs).map fun n => (n : Int)
  value.filter fun v => lowest ≤ v && v ≤ highest

/-- The decimal digits of a number, with no leading zero. -/
def natText (n : Nat) : String :=
  String.ofList (Nat.toDigits 10 n)

def intText (v : Int) : String :=
  if v < 0 then "-" ++ natText v.natAbs else natText v.natAbs

/-- The decimal digits of a number, with zeros in front up to `width` digits. -/
def paddedText (width n : Nat) : String :=
  let digits := Nat.toDigits 10 n
  String.ofList (List.replicate (width - digits.length) '0' ++ digits)

theorem readUnsigned_le {limit n : Nat} {cs : List Char} (h : readUnsigned limit cs = some n) :
    n ≤ limit := by
  simp only [readUnsigned, Option.filter_eq_some_iff] at h
  simpa using h.2

theorem readSigned_mem {lowest highest v : Int} {cs : List Char}
    (h : readSigned lowest highest cs = some v) : lowest ≤ v ∧ v ≤ highest := by
  simp only [readSigned, Option.filter_eq_some_iff] at h
  simpa using h.2

end YangEvolution.Text
