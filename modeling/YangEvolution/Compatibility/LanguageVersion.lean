import YangEvolution.Text.Blank
import YangEvolution.Text.Json

/-!
The version of YANG whose update rules apply, named by the document that defines it.
-/

namespace YangEvolution

open Text

inductive LanguageVersion where
  | rfc6020
  | rfc7950
  deriving DecidableEq

/-- A text that names no version. -/
structure UnknownVersion where
  given : String
  deriving DecidableEq

def UnknownVersion.message (e : UnknownVersion) : String :=
  "unknown RFC version '" ++ e.given ++ "', expected 6020 or 7950"

namespace LanguageVersion

def text : LanguageVersion → String
  | .rfc6020 => "6020"
  | .rfc7950 => "7950"

/-- Reads the number of the document or of the version; blanks around it are ignored. -/
def read (s : String) : Except UnknownVersion LanguageVersion :=
  match trim s with
  | "6020" => .ok .rfc6020
  | "1" => .ok .rfc6020
  | "7950" => .ok .rfc7950
  | "1.1" => .ok .rfc7950
  | other => .error ⟨other⟩

def toJson (v : LanguageVersion) : Json :=
  .str v.text

def is7950 : LanguageVersion → Bool
  | .rfc6020 => false
  | .rfc7950 => true

end LanguageVersion

end YangEvolution
