import YangEvolution.Text.Double

/-!
The values of a TOML document. A table remembers how it came about, because that decides whether
later parts of the document may add to it.
-/

namespace YangEvolution.Toml

open Text

/-- How a table came about: in braces, by a header of its own, by a longer header, or by a dotted
key. -/
inductive TableForm where
  | braced
  | stated
  | implied
  | dotted
  deriving DecidableEq

/-- A number with a point or an exponent, or one of the special numbers. -/
inductive FloatValue where
  | finite (negative : Bool) (magnitude : Double)
  | infinite (negative : Bool)
  | nan
  deriving DecidableEq

inductive Value where
  | string (s : String)
  | integer (n : Int)
  | float (x : FloatValue)
  | boolean (b : Bool)
  | datetime (text : String)
  | array (items : List Value)
  | table (form : TableForm) (entries : List (String × Value))
  | tables (items : List (List (String × Value)))

/-- The entries of a table in the order in which they are first mentioned. -/
abbrev Entries := List (String × Value)

def FloatValue.text : FloatValue → String
  | .finite negative magnitude => (if negative then "-" else "") ++ magnitude.text
  | .infinite negative => if negative then "-inf" else "inf"
  | .nan => "NaN"

end YangEvolution.Toml
