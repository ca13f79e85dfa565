import YangEvolution.Text.Numeral

/-!
Decimal numbers in double precision: the nearest of the numbers `significand * 2 ^ exponent` with a
significand of 53 bits, and the shortest decimal that is nearest to such a number.
-/

namespace YangEvolution.Text

/-- A number in double precision without its sign; `significand` has at most 53 bits. -/
structure Double where
  significand : Nat
  exponent : Int
  deriving DecidableEq

/-- A ratio of natural numbers. -/
structure Ratio where
  num : Nat
  den : Nat

namespace Ratio

/-- The ratio times a power of `base`. -/
def scale (r : Ratio) (base : Nat) (e : Int) : Ratio :=
  if 0 ≤ e then ⟨r.num * Nat.pow base e.toNat, r.den⟩
  else ⟨r.num, r.den * Nat.pow base (-e).toNat⟩

def le (a b : Ratio) : Bool :=
  a.num * b.den ≤ b.num * a.den

def lt (a b : Ratio) : Bool :=
  a.num * b.den < b.num * a.den

/-- The nearest natural number, and the even one of two. -/
def round (r : Ratio) : Nat :=
  let q := r.num / r.den
  let twice := 2 * (r.num % r.den)
  if r.den < twice || (twice == r.den && q % 2 == 1) then q + 1 else q

end Ratio

namespace Double

/-- The least exponent. -/
def leastExponent : Int := -1074

/-- The greatest exponent. -/
def greatestExponent : Int := 971

/-- The double nearest to `mantissa * 10 ^ exponent`; none if it is too great. -/
def ofDecimal? (mantissa : Nat) (exponent : Int) : Option Double :=
  if mantissa = 0 then some ⟨0, 0⟩
  else
    let magnitude := (Nat.toDigits 10 mantissa).length + exponent
    if 400 < magnitude then none
    else if magnitude < -400 then some ⟨0, 0⟩
    else
      let r := Ratio.scale ⟨mantissa, 1⟩ 10 exponent
      let guess : Int := Nat.log2 r.num - Nat.log2 r.den - 52
      let guess := if (Ratio.scale r 2 (-guess)).lt ⟨Nat.pow 2 52, 1⟩ then guess - 1 else guess
      let q := max guess leastExponent
      let s := (Ratio.scale r 2 (-q)).round
      let (s, q) := if s = Nat.pow 2 53 then (Nat.pow 2 52, q + 1) else (s, q)
      if greatestExponent < q then none else some ⟨s, q⟩

def ratio (d : Double) : Ratio :=
  Ratio.scale ⟨d.significand, 1⟩ 2 d.exponent

/-- Whether the nearest double to a ratio is `d`: it is at most half the distance to the next
double away, and nearer than that if the significand is odd. -/
def isNearest (d : Double) (r : Ratio) : Bool :=
  let low :=
    if d.significand = Nat.pow 2 52 && leastExponent < d.exponent then
      Ratio.scale ⟨4 * d.significand - 1, 4⟩ 2 d.exponent
    else Ratio.scale ⟨2 * d.significand - 1, 2⟩ 2 d.exponent
  let high := Ratio.scale ⟨2 * d.significand + 1, 2⟩ 2 d.exponent
  if d.significand % 2 = 0 then low.le r && r.le high else low.lt r && r.lt high

/-- The decimal of `places` digits that stands for `d`, if there is one, as a number of units and
the power of ten that is the unit; `d` has `magnitude` digits before its point. Of two such decimals
the nearer one is taken, and the greater one if they are equally near. -/
def decimalOf? (d : Double) (magnitude : Int) (places : Nat) : Option (Nat × Int) :=
  let unit := magnitude - places
  let r := d.ratio.scale 10 (-unit)
  let floor := r.num / r.den
  let hit (n : Nat) : Bool := d.isNearest (Ratio.scale ⟨n, 1⟩ 10 unit)
  let upper := r.den ≤ 2 * (r.num % r.den)
  match hit floor, hit (floor + 1) with
  | true, true => some (if upper then floor + 1 else floor, unit)
  | true, false => some (floor, unit)
  | false, true => some (floor + 1, unit)
  | false, false => none

/-- The number of digits of a double before its point, which is not positive for one below a tenth.
-/
def magnitude (d : Double) : Int :=
  let r := d.ratio
  let guess : Int := (Nat.toDigits 10 r.num).length - (Nat.toDigits 10 r.den).length
  if (Ratio.scale ⟨1, 1⟩ 10 guess).le r then guess + 1 else guess

/-- The shortest decimal that stands for a double. -/
def shortest (d : Double) : Nat × Int :=
  ((List.range 17).findSome? fun n => d.decimalOf? d.magnitude (n + 1)).getD (d.significand, 0)

/-- The shortest decimal with a point and at least one digit on both sides of it. -/
def text (d : Double) : String :=
  if d.significand = 0 then "0.0"
  else
    let (units, e) := d.shortest
    if 0 ≤ e then natText (units * Nat.pow 10 e.toNat) ++ ".0"
    else
      let places := (-e).toNat
      let fraction := paddedText places (units % Nat.pow 10 places)
      let kept := (fraction.toList.reverse.dropWhile (· == '0')).reverse
      natText (units / Nat.pow 10 places) ++ "." ++
        (if kept.isEmpty then "0" else String.ofList kept)

end Double

end YangEvolution.Text
