import YangEvolution.Files.FileTree
import YangEvolution.Schema.Revision

/-!
Where a module is kept: in a file named for it, with or without a revision date.
-/

namespace YangEvolution.Loading

open Text

/-- The revision in the name of a file that holds a dated module. -/
def datedName? (target name : String) : Option Revision := do
  let rest ← after? (target ++ "@").toList name.toList
  let date ← before? ".yin".toList rest
  Revision.read? (String.ofList date)

/-- The later of two dated names, and of equal dates the second. -/
def newer (best : Option (Revision × String)) (dated : Revision × String) :
    Option (Revision × String) :=
  match best with
  | some b => if b.1 ≤ dated.1 then some dated else some b
  | none => some dated

/-- The names that have dates, with these. -/
def datedNames (target : String) (names : List String) : List (Revision × String) :=
  names.filterMap fun name => (datedName? target name).map fun r => (r, name)

/-- The name with the newest date, and of equal dates the last. -/
def newestDated? (target : String) (names : List String) : Option String :=
  ((datedNames target names).foldl newer none).map Prod.snd

/-- The file in a directory that is named for a revision of a module. -/
def revisionFile (dir : PathName) (target : String) (r : Revision) : PathName :=
  dir.join ⟨target ++ "@" ++ r.text ++ ".yin"⟩

/-- The file in a directory that is named for a module alone. -/
def plainFile (dir : PathName) (target : String) : PathName :=
  dir.join ⟨target ++ ".yin"⟩

/-- The file of a module in a directory: that of the wanted revision, then that without a date, then
the newest that has one. The last is not known to be a file. -/
def moduleFile? (tree : FileTree) (dir : PathName) (target : String)
    (revision : Option Revision) : Option PathName :=
  match (revision.map (revisionFile dir target)).filter fun p => tree.isFile p with
  | some p => some p
  | none =>
    if tree.isFile (plainFile dir target) then some (plainFile dir target)
    else
      (tree.names? dir).bind fun names =>
        (newestDated? target names).map fun name => dir.join ⟨name⟩

end YangEvolution.Loading
