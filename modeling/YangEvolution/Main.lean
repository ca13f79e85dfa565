import YangEvolution.Command.Check

/-!
The command itself: it reads what a check may need into a file tree, runs the check on it, and
prints the outcome.
-/

namespace YangEvolution.Command

open Text

/-- Reads a file into the tree; of a directory only the directory itself. -/
def addEntry (tree : FileTree) (path : PathName) : IO FileTree := do
  if (tree.find path).isOk then return tree
  try
    let place ← IO.FS.realPath path.text
    match (← place.metadata).type with
    | .dir => return tree.addDirectory path
    | .file => return tree.insert path (← IO.FS.readBinFile place).toList
    | _ => return tree
  catch _ => return tree

/-- Reads a file into the tree, with the directories on the way to it. -/
def addFile (tree : FileTree) (path : PathName) : IO FileTree :=
  path.stages.foldlM addEntry tree

/-- Reads the modules of a directory into the tree. -/
def addModules (tree : FileTree) (dir : PathName) : IO FileTree := do
  let tree ← addFile tree dir
  try
    let place ← IO.FS.realPath (if dir.text.isEmpty then "." else dir.text)
    let names := (← place.readDir).toList.map fun entry => entry.fileName
    let modules := names.filter fun name => (before? ".yin".toList name.toList).isSome
    (modules.map fun name => dir.join ⟨name⟩).foldlM addEntry tree
  catch _ => return tree

/-- Reads what a check may need: its files, the settings, and the modules of the directories that
are searched. -/
def snapshot (request : CheckRequest) : IO FileTree := do
  let here : PathName := ⟨(← IO.currentDir).toString⟩
  let tree := FileTree.addDirectory ⟨.empty, here⟩ here
  let files := request.new ++ [request.old]
  let named := files ++ request.settings.toList ++ [here.join Settings.defaultFile]
  let tree ← named.foldlM addFile tree
  let searched := match request.discoverSettings tree with
    | .ok settings => settings.search ++ settings.oldSearch
    | .error _ => []
  (files.filterMap PathName.parent? ++ request.search ++ request.oldSearch ++ searched).foldlM
    addModules tree

/-- Runs a command line; the exit code is 1 for a failure and 2 for a wrong command line. -/
def runCommand (args : List String) : IO UInt32 := do
  match Request.read args with
  | none =>
    IO.eprintln usage
    return 2
  | some .help =>
    IO.println usage
    return 0
  | some (.check request) =>
    let outcome := request.run (← snapshot request) (← (← IO.getStdout).isTty)
    IO.print (outcome.output.getD "")
    match outcome.failure with
    | none => return 0
    | some failure =>
      IO.eprintln failure.text
      return 1

end YangEvolution.Command

def main (args : List String) : IO UInt32 :=
  YangEvolution.Command.runCommand args
