import YangEvolution.Text.Json

/-!
Absolute paths of schema nodes: from the root, the name of each node with the module that owns it.
-/

namespace YangEvolution

open Text

/-- One step of a path. -/
structure Segment where
  owner : String
  localName : String
  deriving DecidableEq

structure SchemaPath where
  segments : List Segment
  deriving DecidableEq

namespace Segment

def text (s : Segment) : String :=
  s.owner ++ ":" ++ s.localName

def toJson (s : Segment) : Json :=
  .obj [("module", .str s.owner), ("local", .str s.localName)]

end Segment

namespace SchemaPath

def root : SchemaPath := ⟨[]⟩

def isRoot (p : SchemaPath) : Bool :=
  p.segments.isEmpty

def child (p : SchemaPath) (s : Segment) : SchemaPath :=
  ⟨p.segments ++ [s]⟩

def last? (p : SchemaPath) : Option Segment :=
  p.segments.getLast?

def localNames (p : SchemaPath) : List String :=
  p.segments.map Segment.localName

/-- Each step after a slash; the root path is a single slash. -/
def text (p : SchemaPath) : String :=
  if p.segments.isEmpty then "/"
  else String.join (p.segments.map fun s => "/" ++ s.text)

def toJson (p : SchemaPath) : Json :=
  .obj [("segments", .arr (p.segments.map Segment.toJson))]

@[simp] theorem segments_child (p : SchemaPath) (s : Segment) :
    (p.child s).segments = p.segments ++ [s] := rfl

@[simp] theorem localNames_child (p : SchemaPath) (s : Segment) :
    (p.child s).localNames = p.localNames ++ [s.localName] := by
  simp [localNames]

@[simp] theorem localNames_root : root.localNames = [] := rfl

end SchemaPath

end YangEvolution
