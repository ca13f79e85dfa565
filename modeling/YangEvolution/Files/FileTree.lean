import YangEvolution.Files.PathName
import YangEvolution.Text.Utf8

/-!
File trees: files and directories below a root, and a working directory that path names start
from unless they are absolute.
-/

namespace YangEvolution

open Text

inductive FileEntry where
  | file (content : Bytes)
  | directory (entries : List (String × FileEntry))

/-- Why a file cannot be read. -/
inductive FileFault where
  | notFound
  | notDirectory
  | isDirectory
  | nameTooLong
  | zeroInName
  deriving DecidableEq

structure FileTree where
  root : FileEntry
  current : PathName

def FileFault.message : FileFault → String
  | .notFound => "No such file or directory (os error 2)"
  | .notDirectory => "Not a directory (os error 20)"
  | .isDirectory => "Is a directory (os error 21)"
  | .nameTooLong => "File name too long (os error 36)"
  | .zeroInName => "file name contained an unexpected NUL byte"

namespace FileEntry

/-- The directory without entries. -/
def empty : FileEntry := .directory []

/-- Sets the entry of a name, at its place or after all others. -/
def setEntry (name : String) (e : FileEntry) : List (String × FileEntry) → List (String × FileEntry)
  | [] => [(name, e)]
  | (n, f) :: rest => if n = name then (name, e) :: rest else (n, f) :: setEntry name e rest

/-- Makes the directory at the end of a chain of names, with the directories that it needs; what is
there already stays. -/
def addDirectory : List String → FileEntry → FileEntry
  | [], e => e
  | name :: rest, .directory entries =>
    .directory (setEntry name (addDirectory rest ((entries.lookup name).getD empty)) entries)
  | _ :: _, .file content => .file content

/-- Makes the directories that parts name one after the other; `above` are names before the parts,
from the last on. -/
def addDirectories (above : List String) : List String → FileEntry → FileEntry
  | [], e => e
  | part :: rest, e =>
    if PathName.isIdle part then addDirectories above rest e
    else if part = ".." then addDirectories above.tail rest e
    else addDirectories (part :: above) rest (e.addDirectory (part :: above).reverse)

/-- Puts an entry at the end of a chain of names, with the directories that it needs. -/
def insert (e : FileEntry) : List String → FileEntry → FileEntry
  | [], _ => e
  | name :: rest, .directory entries =>
    .directory (setEntry name (insert e rest ((entries.lookup name).getD empty)) entries)
  | name :: rest, .file _ => .directory [(name, insert e rest empty)]

/-- Removes the entry at the end of a chain of names. -/
def erase : List String → FileEntry → FileEntry
  | [], e => e
  | _ :: _, .file content => .file content
  | [name], .directory entries => .directory (entries.filter fun (n, _) => n != name)
  | name :: next :: rest, .directory entries =>
    match entries.lookup name with
    | some e => .directory (setEntry name (erase (next :: rest) e) entries)
    | none => .directory entries

/-- The greatest number of bytes in a name. -/
def nameLimit : Nat := 255

/-- Follows parts from an entry; `trail` are the directories above it, from the nearest on. -/
def follow (trail : List FileEntry) (e : FileEntry) : List String → Except FileFault FileEntry
  | [] => .ok e
  | part :: rest =>
    match e with
    | .file _ => .error .notDirectory
    | .directory entries =>
      if PathName.isIdle part then follow trail e rest
      else if part = ".." then
        match trail with
        | [] => follow [] e rest
        | above :: trail => follow trail above rest
      else if nameLimit < part.utf8ByteSize then .error .nameTooLong
      else
        match entries.lookup part with
        | none => .error .notFound
        | some next => follow (e :: trail) next rest

mutual

/-- The contents of all files. -/
def contents : FileEntry → List Bytes
  | .file content => [content]
  | .directory entries => contentsAll entries

def contentsAll : List (String × FileEntry) → List Bytes
  | [] => []
  | (_, e) :: rest => e.contents ++ contentsAll rest

end

theorem contents_subset_contentsAll {name : String} {e : FileEntry}
    {entries : List (String × FileEntry)} (h : entries.lookup name = some e) :
    e.contents ⊆ contentsAll entries := by
  induction entries with
  | nil => simp at h
  | cons entry rest ih =>
    obtain ⟨n, f⟩ := entry
    simp only [contentsAll]
    rw [List.lookup_cons] at h
    split at h
    · cases h
      exact List.subset_append_left _ _
    · exact fun b hb => List.mem_append_right _ (ih h hb)

/-- What holds of an entry and of the directories above it, and is passed on to the entries of a
directory, holds where parts lead. -/
theorem follow_induction {P : FileEntry → Prop}
    (hbelow : ∀ {entries : List (String × FileEntry)} {name : String} {e : FileEntry},
      P (.directory entries) → entries.lookup name = some e → P e)
    {parts : List String} {trail : List FileEntry} {e found : FileEntry}
    (htrail : ∀ d ∈ trail, P d) (he : P e) (h : follow trail e parts = .ok found) : P found := by
  induction parts generalizing trail e with
  | nil =>
    simp only [follow, Except.ok.injEq] at h
    exact h ▸ he
  | cons part rest ih =>
    cases e with
    | file content => simp [follow] at h
    | directory entries =>
      simp only [follow] at h
      split at h
      · exact ih htrail he h
      · split at h
        · cases trail with
          | nil => exact ih (by simp) he h
          | cons above trail =>
            exact ih (fun d hd => htrail d (List.mem_cons_of_mem _ hd))
              (htrail above List.mem_cons_self) h
        · split at h
          · cases h
          split at h
          · cases h
          · rename_i next hnext
            refine ih ?_ (hbelow he hnext) h
            intro d hd
            rcases List.mem_cons.1 hd with rfl | hd
            · exact he
            · exact htrail d hd

theorem contents_follow {all : List Bytes} {parts : List String} {trail : List FileEntry}
    {e found : FileEntry} (htrail : ∀ d ∈ trail, d.contents ⊆ all) (he : e.contents ⊆ all)
    (h : follow trail e parts = .ok found) : found.contents ⊆ all := by
  refine follow_induction (fun hdir hnext b hb => hdir ?_) htrail he h
  simpa [contents] using contents_subset_contentsAll hnext hb

end FileEntry

namespace FileTree

/-- The names that are left of parts when those without effect are dropped and two dots take back
the name before them; `above` are names before the parts, from the last on. -/
def settle (above : List String) : List String → List String
  | [] => above.reverse
  | part :: rest =>
    if PathName.isIdle part then settle above rest
    else if part = ".." then settle above.tail rest
    else settle (part :: above) rest

/-- The parts of a path name, from the root on. -/
def way (t : FileTree) (p : PathName) : List String :=
  if p.isAbsolute then p.parts else t.current.parts ++ p.parts

/-- The names on the way from the root to a path name. -/
def chain (t : FileTree) (p : PathName) : List String :=
  settle [] (t.way p)

/-- The greatest number of bytes in a path name. -/
def pathLimit : Nat := 4095

/-- The entry that a path name leads to. -/
def find (t : FileTree) (p : PathName) : Except FileFault FileEntry :=
  if p.text.toList.contains '\x00' then .error .zeroInName
  else if p.text.isEmpty then .error .notFound
  else if pathLimit < p.text.utf8ByteSize then .error .nameTooLong
  else t.root.follow [] (t.way p)

def read (t : FileTree) (p : PathName) : Except FileFault Bytes :=
  match t.find p with
  | .ok (.file content) => .ok content
  | .ok (.directory _) => .error .isDirectory
  | .error fault => .error fault

def isFile (t : FileTree) (p : PathName) : Bool :=
  match t.find p with
  | .ok (.file _) => true
  | _ => false

/-- The names of the entries of a directory. -/
def names? (t : FileTree) (p : PathName) : Option (List String) :=
  match t.find p with
  | .ok (.directory entries) => some (entries.map Prod.fst)
  | _ => none

/-- Makes the directory of a path name, with the directories that are named on the way to it; what
is there already stays. -/
def addDirectory (t : FileTree) (p : PathName) : FileTree :=
  { t with root := t.root.addDirectories [] (t.way p) }

/-- Puts a file at a path name, with the directories that are named on the way to it. -/
def insert (t : FileTree) (p : PathName) (content : Bytes) : FileTree :=
  let root := t.root.addDirectories [] (t.way p).dropLast
  { t with root := FileEntry.insert (.file content) (t.chain p) root }

/-- Removes the entry that a path name leads to. -/
def erase (t : FileTree) (p : PathName) : FileTree :=
  match t.find p with
  | .ok _ => { t with root := FileEntry.erase (t.chain p) t.root }
  | .error _ => t

theorem contents_find {t : FileTree} {p : PathName} {found : FileEntry}
    (h : t.find p = .ok found) : found.contents ⊆ t.root.contents := by
  unfold find at h
  split at h
  · cases h
  split at h
  · cases h
  split at h
  · cases h
  exact FileEntry.contents_follow (by simp) (fun b hb => hb) h

theorem read_mem_contents {t : FileTree} {p : PathName} {content : Bytes}
    (h : t.read p = .ok content) : content ∈ t.root.contents := by
  unfold read at h
  split at h
  · rename_i c hfind
    cases h
    exact contents_find hfind (by simp [FileEntry.contents])
  · cases h
  · cases h

end FileTree

end YangEvolution
