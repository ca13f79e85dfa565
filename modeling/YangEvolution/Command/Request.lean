import YangEvolution.Compatibility.LanguageVersion
import YangEvolution.Files.PathName
import YangEvolution.Report.Terminal

/-!
The command line. Options and files may come in any order; an option takes its value after an
equals sign or from the next argument, and after two dashes every argument is a file.
-/

namespace YangEvolution.Command

open Text

/-- What a check is asked for on the command line. -/
structure CheckRequest where
  new : List PathName
  old : PathName
  search : List PathName := []
  oldSearch : List PathName := []
  version : Option LanguageVersion := none
  format : Option Report.Format := none
  settings : Option PathName := none
  strict : Bool := false
  deriving DecidableEq

inductive Request where
  | help
  | check (request : CheckRequest)
  deriving DecidableEq

/-- The options that take a value. -/
inductive ValueOption where
  | old
  | oldSearch
  | search
  | version
  | format
  | settings
  deriving DecidableEq

/-- What an argument is on its own; the value of an option may be in the next one. -/
inductive Argument where
  | file (name : String)
  | verbose
  | help
  | strict
  | value (option : ValueOption) (given : Option String)
  | unknown
  deriving DecidableEq

namespace ValueOption

def ofName? : String → Option ValueOption
  | "from" => some .old
  | "from-path" => some .oldSearch
  | "path" => some .search
  | "rfc-version" => some .version
  | "format" => some .format
  | "config" => some .settings
  | _ => none

end ValueOption

namespace Argument

/-- An argument after two dashes; an option that takes no value must not be given one. -/
def ofLong (name : String) (given : Option String) : Argument :=
  match ValueOption.ofName? name, name, given with
  | some option, _, _ => .value option given
  | none, "strict", none => .strict
  | none, "verbose", none => .verbose
  | none, "help", none => .help
  | none, _, _ => .unknown

/-- Letters after one dash, of which each is an option. -/
def ofLetters : List Char → Argument
  | [] => .verbose
  | 'v' :: rest => ofLetters rest
  | 'h' :: _ => .help
  | _ :: _ => .unknown

def ofText (arg : String) : Argument :=
  match arg.toList with
  | '-' :: '-' :: rest =>
    match cut ['='] rest with
    | some (name, given) => ofLong (String.ofList name) (some (String.ofList given))
    | none => ofLong (String.ofList rest) none
  | '-' :: c :: rest => ofLetters (c :: rest)
  | _ => .file arg

end Argument

/-- An argument that cannot be the value of the option before it. A single dash can. -/
def isOptionLike (arg : String) : Bool :=
  match arg.toList with
  | '-' :: _ :: _ => true
  | _ => false

/-- The arguments of a check so far. -/
structure Draft where
  new : List PathName := []
  old : Option PathName := none
  search : List PathName := []
  oldSearch : List PathName := []
  version : Option LanguageVersion := none
  format : Option Report.Format := none
  settings : Option PathName := none
  strict : Bool := false

/-- A path name is not empty. -/
def readPath (s : String) : Option PathName :=
  if s.isEmpty then none else some ⟨s⟩

/-- A value for an option that has none yet. -/
def once {α : Type} (present : Option α) (value : Option α) : Option (Option α) :=
  match present with
  | some _ => none
  | none => value.map some

namespace Draft

def addFile (d : Draft) (name : String) : Option Draft := do
  some { d with new := d.new ++ [← readPath name] }

def addFiles (d : Draft) (names : List String) : Option Draft :=
  names.foldlM addFile d

def setStrict (d : Draft) : Option Draft :=
  if d.strict then none else some { d with strict := true }

/-- Gives a value to an option; only search directories may be given repeatedly. -/
def set (d : Draft) (option : ValueOption) (value : String) : Option Draft :=
  match option with
  | .old => do some { d with old := ← once d.old (readPath value) }
  | .settings => do some { d with settings := ← once d.settings (readPath value) }
  | .version => do
    some { d with version := ← once d.version (LanguageVersion.read value).toOption }
  | .format => do some { d with format := ← once d.format (Report.Format.ofName? value) }
  | .search => do some { d with search := d.search ++ [← readPath value] }
  | .oldSearch => do some { d with oldSearch := d.oldSearch ++ [← readPath value] }

/-- A check needs a new and an old module. -/
def finish (d : Draft) : Option Request :=
  match d.new, d.old with
  | [], _ => none
  | _, none => none
  | new, some old =>
    some (.check {
      new, old
      search := d.search
      oldSearch := d.oldSearch
      version := d.version
      format := d.format
      settings := d.settings
      strict := d.strict })

end Draft

/-- Reads the arguments of a check; none if they are not used as they should be. -/
def readCheck (d : Draft) : List String → Option Request
  | [] => d.finish
  | arg :: rest =>
    if arg = "--" then (d.addFiles rest).bind Draft.finish
    else
      match Argument.ofText arg with
      | .file name => (d.addFile name).bind fun d => readCheck d rest
      | .verbose => readCheck d rest
      | .help => some .help
      | .strict => d.setStrict.bind fun d => readCheck d rest
      | .value option (some given) => (d.set option given).bind fun d => readCheck d rest
      | .value option none =>
        match rest with
        | [] => none
        | given :: rest =>
          if isOptionLike given then none
          else (d.set option given).bind fun d => readCheck d rest
      | .unknown => none

/-- Reads a command line; none if it is not used as it should be. -/
def Request.read : List String → Option Request
  | [] => none
  | arg :: rest =>
    if arg = "check" then readCheck {} rest
    else if arg = "help" then
      match rest with
      | [] => some .help
      | ["check"] => some .help
      | ["help"] => some .help
      | _ => none
    else
      match Argument.ofText arg with
      | .verbose => Request.read rest
      | .help => some .help
      | _ => none

/-- How the command is used. -/
def usage : String :=
  "Usage: yang-compat check <NEW> --from <FROM> [--path <PATH>]... [--from-path <FROM_PATH>]... " ++
    "[--rfc-version <RFC_VERSION>] [--format <FORMAT>] [--config <CONFIG>] [--strict] [-v]..."

end YangEvolution.Command
