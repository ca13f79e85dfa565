import YangEvolution.Files.FileTree
import YangEvolution.Text.Quoted
import YangEvolution.Toml.Value

/-!
Why a settings file cannot be used.
-/

namespace YangEvolution

open Text

/-- Why a value in a settings file is not what the setting needs. -/
inductive ValueFault where
  | unknownField (name : String) (fields : List String)
  | unknownChoice (name : String) (choices : List String)
  | notChoice
  | noChoice
  | severalChoices
  | filledChoice
  | listedChoice
  | choiceKind (found : String)
  | kind (found wanted : String)
  deriving DecidableEq

/-- A file is unreadable for a reason of its own, or it does not hold settings; if it is not even a
document, there is no value at fault. -/
inductive SettingsFault where
  | unreadable (path : String) (fault : FileFault)
  | notText (path : String)
  | unusable (path : String) (fault : Option ValueFault)
  deriving DecidableEq

namespace Settings

/-- A name between backquotes. -/
def marked (name : String) : String :=
  "`" ++ name ++ "`"

/-- The kind of a value, with the value where it is short. -/
def describe : Toml.Value → String
  | .string s => "string " ++ quoted s
  | .integer n => "integer " ++ marked (intText n)
  | .float x => "floating point " ++ marked x.text
  | .boolean b => "boolean " ++ marked (if b then "true" else "false")
  | .datetime _ => "map"
  | .array _ => "sequence"
  | .table _ _ => "map"
  | .tables _ => "sequence"

/-- The name of the kind of a value. -/
def kindName : Toml.Value → String
  | .string _ => "string"
  | .integer _ => "integer"
  | .float _ => "float"
  | .boolean _ => "boolean"
  | .datetime _ => "datetime"
  | .array _ => "array"
  | .table .braced _ => "inline table"
  | .table _ _ => "table"
  | .tables _ => "array of tables"

/-- The names that are possible: two with a word between them, more as a list. -/
def alternatives : List String → String
  | [a, b] => "expected " ++ marked a ++ " or " ++ marked b
  | names => "expected one of " ++ join ", " (names.map marked)

end Settings

namespace ValueFault

open Settings

def message : ValueFault → String
  | .unknownField name fields => "unknown field " ++ marked name ++ ", " ++ alternatives fields
  | .unknownChoice name choices => "unknown variant " ++ marked name ++ ", " ++ alternatives choices
  | .notChoice => "wanted string or table"
  | .noChoice => "wanted exactly 1 element, found 0 elements"
  | .severalChoices => "wanted exactly 1 element, more than 1 element"
  | .filledChoice => "expected empty table"
  | .listedChoice => "expected empty array"
  | .choiceKind found => "expected table, found " ++ found
  | .kind found wanted => "invalid type: " ++ found ++ ", expected " ++ wanted

end ValueFault

namespace SettingsFault

/-- Why a file that holds no text cannot be read. -/
def notTextReason : String := "stream did not contain valid UTF-8"

def message : SettingsFault → String
  | .unreadable path fault => "failed to read config file " ++ path ++ ": " ++ fault.message
  | .notText path => "failed to read config file " ++ path ++ ": " ++ notTextReason
  | .unusable path none => "failed to parse config file " ++ path
  | .unusable path (some fault) =>
    "failed to parse config file " ++ path ++ ": " ++ fault.message

def causes : SettingsFault → List String
  | .unreadable _ fault => [fault.message]
  | .notText _ => [notTextReason]
  | .unusable _ none => []
  | .unusable _ (some fault) => [fault.message]

end SettingsFault

end YangEvolution
