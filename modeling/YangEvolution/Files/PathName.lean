import YangEvolution.Text.Split

/-!
Path names: texts whose parts stand between slashes. A path name is kept as it is written; only
where it leads to is independent of empty parts and of dots.
-/

namespace YangEvolution

open Text

structure PathName where
  text : String
  deriving DecidableEq

namespace PathName

/-- The parts between slashes, of which a path name has at least one. -/
def parts (p : PathName) : List String :=
  (pieces '/' p.text.toList).map String.ofList

def isAbsolute (p : PathName) : Bool :=
  p.text.toList.head? == some '/'

/-- The path name of `p` seen from the directory `dir`. -/
def join (dir p : PathName) : PathName :=
  if p.isAbsolute then p
  else if dir.text.isEmpty || dir.text.toList.getLast? == some '/' then ⟨dir.text ++ p.text⟩
  else ⟨dir.text ++ "/" ++ p.text⟩

/-- Whether a part leads nowhere else. -/
def isIdle (part : String) : Bool :=
  part == "" || part == "."

/-- The part that a path name begins with without naming an entry: the empty part before the slash
of an absolute path name, or a dot. -/
def lead (p : PathName) : List String :=
  if p.isAbsolute then [""]
  else
    match p.parts with
    | "." :: _ => ["."]
    | _ => []

/-- The directory of the entry that is named last; none where nothing is named. -/
def parent? (p : PathName) : Option PathName :=
  let body := ((p.parts.drop p.lead.length).reverse.dropWhile isIdle)
  match body, p.lead with
  | [], ["."] => some ⟨""⟩
  | [], _ => none
  | _ :: rest, lead =>
    match lead, (rest.dropWhile isIdle).reverse with
    | [""], [] => some ⟨"/"⟩
    | lead, kept => some ⟨Text.join "/" (lead ++ kept)⟩

/-- The path names of everything on the way to `p`, and `p` itself. -/
def stages (p : PathName) : List PathName :=
  (List.range p.parts.length).map fun n => ⟨Text.join "/" (p.parts.take (n + 1))⟩

end PathName

end YangEvolution
