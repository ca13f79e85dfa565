import YangEvolution.Command.Request
import YangEvolution.Compatibility.ModuleChange
import YangEvolution.Loading.Loader
import YangEvolution.Settings.Basic

/-!
Running a check: the settings complete the command line, both modules are loaded, and their
comparison is reported. A check fails if it cannot be carried out, and a strict one also if there
are errors; the report is printed all the same then.
-/

namespace YangEvolution.Command

open Text Loading Yin

inductive Side where
  | old
  | new
  deriving DecidableEq

/-- Why a check fails. -/
inductive Failure where
  | newFiles (count : Nat)
  | settings (fault : SettingsFault)
  | load (side : Side) (path : PathName) (fault : LoadFault)
  | incompatible (errors : Nat)
  deriving DecidableEq

/-- What a check prints, and why it fails if it does. -/
structure Outcome where
  output : Option String
  failure : Option Failure
  deriving DecidableEq

def Side.name : Side → String
  | .old => "old"
  | .new => "new"

namespace Failure

def message : Failure → String
  | .newFiles count => "expected exactly one new module file, got " ++ natText count
  | .settings fault => fault.message
  | .load side path _ => "failed to load " ++ side.name ++ " module " ++ path.text
  | .incompatible errors => "compatibility check failed: " ++ natText errors ++ " errors"

/-- The causes of a failure, each the cause of the one before it. -/
def causes : Failure → List String
  | .newFiles _ => []
  | .settings fault => fault.causes
  | .load _ _ fault => fault.message :: fault.causes
  | .incompatible _ => []

/-- A text whose lines after the first are set in. -/
def indented (indent : String) (s : String) : String :=
  join ("\n" ++ indent) ((pieces '\n' s.toList).map String.ofList)

/-- The causes below one another; several are numbered. -/
def causeLines : List String → List String
  | [cause] => ["    " ++ indented "    " cause]
  | causes =>
    causes.zipIdx.map fun (cause, i) =>
      String.ofList (List.replicate (5 - (natText i).length) ' ') ++ natText i ++ ": " ++
        indented "       " cause

/-- The failure with its causes, as it is reported. -/
def text (f : Failure) : String :=
  "Error: " ++ f.message ++
    match f.causes with
    | [] => ""
    | causes => "\n\nCaused by:\n" ++ join "\n" (causeLines causes)

end Failure

/-- What a check needs, with every choice made. -/
structure Plan where
  version : LanguageVersion
  format : Report.Format
  search : List PathName
  oldSearch : List PathName
  strict : Bool
  deriving DecidableEq

/-- The command line comes before the settings, and these before what is usual. -/
def CheckRequest.plan (request : CheckRequest) (settings : Settings) : Plan where
  version := (request.version.or settings.version).getD .rfc6020
  format := (request.format.or settings.format).getD .text
  search := if request.search.isEmpty then settings.search else request.search
  oldSearch := if request.oldSearch.isEmpty then settings.oldSearch else request.oldSearch
  strict := request.strict || settings.strict.getD false

/-- Loads the module of one side with a loader of its own. -/
def loadSide (tree : FileTree) (side : Side) (search : List PathName) (path : PathName) :
    Except Failure Module :=
  (Loader.loadFile { search } tree path).1.mapError (.load side path)

namespace CheckRequest

/-- The only new file. -/
def newFile (request : CheckRequest) : Except Failure PathName :=
  match request.new with
  | [path] => .ok path
  | paths => .error (.newFiles paths.length)

/-- The settings that complete a request. -/
def discoverSettings (request : CheckRequest) (tree : FileTree) : Except Failure Settings :=
  match Settings.discover tree request.settings tree.current with
  | .ok settings => .ok (settings.getD {})
  | .error fault => .error (.settings fault)

/-- What is compared and how it is reported. -/
def prepare (request : CheckRequest) (tree : FileTree) : Except Failure (Comparison × Plan) := do
  let path ← request.newFile
  let settings ← request.discoverSettings tree
  let plan := request.plan settings
  let old ← loadSide tree .old plan.oldSearch request.old
  let new ← loadSide tree .new plan.search path
  .ok (⟨old, new, plan.version⟩, plan)

/-- Runs a check on the files of a tree. -/
def run (request : CheckRequest) (tree : FileTree) (color : Bool) : Outcome :=
  match request.prepare tree with
  | .error failure => ⟨none, some failure⟩
  | .ok (comparison, plan) =>
    let catalog := comparison.catalog
    let failure := if plan.strict && 0 < catalog.errorCount then
      some (.incompatible catalog.errorCount) else none
    ⟨some (Report.render color plan.format catalog ++ "\n"), failure⟩

end CheckRequest

end YangEvolution.Command
