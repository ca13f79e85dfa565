import YangEvolution.Text.Blank
import YangEvolution.Text.Json

/-!
The life cycle of a definition: current, then deprecated, then obsolete.
-/

namespace YangEvolution

open Text

inductive Status where
  | current
  | deprecated
  | obsolete
  deriving DecidableEq

namespace Status

def text : Status → String
  | .current => "current"
  | .deprecated => "deprecated"
  | .obsolete => "obsolete"

/-- Reads a status; blanks around it are ignored. -/
def read? (s : String) : Option Status :=
  match trim s with
  | "current" => some .current
  | "deprecated" => some .deprecated
  | "obsolete" => some .obsolete
  | _ => none

def toJson (s : Status) : Json :=
  .str s.text

def rank : Status → Nat
  | .current => 0
  | .deprecated => 1
  | .obsolete => 2

instance : LE Status := ⟨fun a b => a.rank ≤ b.rank⟩

instance : LT Status := ⟨fun a b => a.rank < b.rank⟩

instance (a b : Status) : Decidable (a ≤ b) := inferInstanceAs (Decidable (a.rank ≤ b.rank))

instance (a b : Status) : Decidable (a < b) := inferInstanceAs (Decidable (a.rank < b.rank))

end Status

end YangEvolution
