import YangEvolution.Files.FileTree
import YangEvolution.Markup.Fault

/-!
Why a module cannot be loaded, with the wording of each fault and the chain of its causes.
-/

namespace YangEvolution.Yin

/-- Why there is no document. -/
inductive SourceFault where
  | file (fault : FileFault)
  | document (fault : Markup.DocumentFault)
  deriving DecidableEq

/-- Faults name the module in which they were found; for the name of a module itself this is where
its document comes from. -/
inductive LoadFault where
  | unreadable (origin : String) (fault : SourceFault)
  | notModule (origin tag : String)
  | missingStatement (owner statement : String)
  | missingArgument (owner statement argument : String)
  | importNotFound (owner target : String)
  | unknownPrefix (owner given : String)
  | unresolvedType (owner name : String)
  | unresolvedGrouping (owner name : String)
  | invalid (owner what value : String)
  | tooDeep (owner name : String)
  deriving DecidableEq

namespace SourceFault

def message : SourceFault → String
  | .file fault => "failed to read XML file: " ++ fault.message
  | .document fault => fault.message

def causes : SourceFault → List String
  | .file fault => [fault.message]
  | .document fault => fault.causes

end SourceFault

namespace LoadFault

def message : LoadFault → String
  | .unreadable origin fault => "failed to parse " ++ origin ++ ": " ++ fault.message
  | .notModule origin tag => origin ++ ": root element <" ++ tag ++ "> is not a YIN module"
  | .missingStatement owner statement =>
    "module '" ++ owner ++ "': missing '" ++ statement ++ "' statement"
  | .missingArgument owner statement argument =>
    "module '" ++ owner ++ "': '" ++ statement ++ "' has no '" ++ argument ++ "' argument"
  | .importNotFound owner target =>
    "module '" ++ owner ++ "': imported module '" ++ target ++ "' not found in search paths"
  | .unknownPrefix owner given => "module '" ++ owner ++ "': unknown prefix '" ++ given ++ "'"
  | .unresolvedType owner name => "module '" ++ owner ++ "': unresolved type '" ++ name ++ "'"
  | .unresolvedGrouping owner name =>
    "module '" ++ owner ++ "': unresolved grouping '" ++ name ++ "'"
  | .invalid owner what value =>
    "module '" ++ owner ++ "': invalid " ++ what ++ " '" ++ value ++ "'"
  | .tooDeep owner name =>
    "module '" ++ owner ++ "': '" ++ name ++ "' is nested too deeply or refers to itself"

def causes : LoadFault → List String
  | .unreadable _ fault => fault.message :: fault.causes
  | _ => []

end LoadFault

end YangEvolution.Yin
