import YangEvolution.Compatibility.LanguageVersion
import YangEvolution.Report.Terminal
import YangEvolution.Settings.Fault
import YangEvolution.Text.Utf8
import YangEvolution.Toml.Document

/-!
Settings files. A setting that the file does not give is left open, and of several faults the one
of the first key is reported.
-/

namespace YangEvolution

open Text

structure Settings where
  version : Option LanguageVersion := none
  format : Option Report.Format := none
  /-- Where the imports of the new module are searched. -/
  search : List PathName := []
  /-- Where the imports of the old module are searched. -/
  oldSearch : List PathName := []
  strict : Option Bool := none
  deriving DecidableEq

namespace Settings

/-- The settings in the order in which they are named in messages. -/
def fields : List String :=
  ["rfc_version", "format", "path", "from_path", "strict"]

/-- What is given for a name that is the key of a table holds nothing. -/
def checkEmpty : Toml.Value → Except ValueFault Unit
  | .table _ [] => .ok ()
  | .table _ _ => .error .filledChoice
  | .array [] => .ok ()
  | .array _ => .error .filledChoice
  | .tables [] => .ok ()
  | .tables _ => .error .listedChoice
  | other => .error (.choiceKind (kindName other))

/-- One of several names, given as a string or as the only key of a table. -/
def readChoice (choices : List String) : Toml.Value → Except ValueFault String
  | .string s => if choices.contains s then .ok s else .error (.unknownChoice s choices)
  | .table _ [] => .error .noChoice
  | .table _ [(name, v)] =>
    if choices.contains name then (checkEmpty v).map fun _ => name
    else .error (.unknownChoice name choices)
  | .table _ _ => .error .severalChoices
  | _ => .error .notChoice

def readFlag : Toml.Value → Except ValueFault Bool
  | .boolean b => .ok b
  | other => .error (.kind (describe other) "a boolean")

def readPathName : Toml.Value → Except ValueFault PathName
  | .string s => .ok ⟨s⟩
  | other => .error (.kind (describe other) "path string")

def readPathNames : Toml.Value → Except ValueFault (List PathName)
  | .array items => items.mapM readPathName
  | .tables items => items.mapM fun entries => readPathName (.table .stated entries)
  | other => .error (.kind (describe other) "a sequence")

def versions : List LanguageVersion := [.rfc6020, .rfc7950]

def readVersion (v : Toml.Value) : Except ValueFault (Option LanguageVersion) := do
  let name ← readChoice (versions.map LanguageVersion.text) v
  .ok (versions.find? fun version => version.text == name)

def readFormat (v : Toml.Value) : Except ValueFault (Option Report.Format) := do
  let name ← readChoice [Report.Format.text.name, Report.Format.json.name] v
  .ok (Report.Format.ofName? name)

/-- Takes over the setting of one key. -/
def set (s : Settings) (entry : String × Toml.Value) : Except ValueFault Settings :=
  match entry.1 with
  | "rfc_version" => do .ok { s with version := ← readVersion entry.2 }
  | "format" => do .ok { s with format := ← readFormat entry.2 }
  | "path" => do .ok { s with search := ← readPathNames entry.2 }
  | "from_path" => do .ok { s with oldSearch := ← readPathNames entry.2 }
  | "strict" => do .ok { s with strict := some (← readFlag entry.2) }
  | other => .error (.unknownField other fields)

def ofEntries (entries : Toml.Entries) : Except ValueFault Settings :=
  entries.foldlM set {}

/-- Reads the text of a settings file. -/
def ofText (path : PathName) (text : String) : Except SettingsFault Settings :=
  match Toml.read text with
  | none => .error (.unusable path.text none)
  | some entries => (ofEntries entries).mapError fun fault => .unusable path.text (some fault)

/-- Reads a settings file. -/
def load (tree : FileTree) (path : PathName) : Except SettingsFault Settings :=
  match tree.read path with
  | .error fault => .error (.unreadable path.text fault)
  | .ok content =>
    match Utf8.decode content with
    | .error _ => .error (.notText path.text)
    | .ok text => ofText path text

/-- The search directories as seen from the directory of the settings file. -/
def anchor (path : PathName) (s : Settings) : Settings :=
  match path.parent? with
  | some dir =>
    { s with search := s.search.map dir.join, oldSearch := s.oldSearch.map dir.join }
  | none => s

/-- The settings file of a directory. -/
def defaultFile : PathName := ⟨"yang-compat.toml"⟩

/-- The settings file to use: the wanted one, or that of a directory if it has one. -/
def locate? (tree : FileTree) (wanted : Option PathName) (dir : PathName) : Option PathName :=
  match wanted with
  | some path => some path
  | none => some (dir.join defaultFile) |>.filter fun path => tree.isFile path

/-- The settings of the file to use, if there is one. -/
def discover (tree : FileTree) (wanted : Option PathName) (dir : PathName) :
    Except SettingsFault (Option Settings) :=
  match locate? tree wanted dir with
  | none => .ok none
  | some path => (load tree path).map fun s => some (s.anchor path)

end Settings

end YangEvolution
