import YangEvolution.Markup.Attribute

/-!
Documents: the tree of elements that a document's events describe. Text outside the root element
is ignored, and so is text that is all white space.
-/

namespace YangEvolution.Markup

open Text

/-- A qualified name apart at its first colon. -/
def splitName (name : Bytes) : Option Bytes × Bytes :=
  let lead := name.takeWhile fun b => b != byte ':'
  match name.drop lead.length with
  | _ :: rest => (some lead, rest)
  | [] => (none, name)

/-- The element that a tag opens. -/
def elementOfTag (content : Bytes) : Except DocumentFault Element := do
  let (lead, rest) := splitName (tagName content)
  let tag ← decodeName rest
  let nsPrefix ← match lead with
    | some bytes => some <$> decodeName bytes
    | none => pure none
  let raw := rawAttributes content
  let attributes ← decodeAttributes [] raw.items
  match raw.fault with
  | some fault => .error (.reading (.attributes fault))
  | none => .ok { tag, nsPrefix, attributes }

/-- An element that is not closed yet; its children are in reverse. -/
structure Frame where
  head : Element
  children : List Element := []
  text : Option String := none

namespace Frame

def close (f : Frame) : Element :=
  { f.head with children := f.children.reverse, text := f.text }

/-- Adds text after the text there is; white space alone says nothing. -/
def addText (f : Frame) (s : String) : Frame :=
  if isAllBlank s then f else { f with text := some (f.text.getD "" ++ s) }

end Frame

/-- The elements that are open, from the innermost on, and the root once it is closed. -/
structure Builder where
  stack : List Frame := []
  root : Option Element := none

namespace Builder

/-- Puts a closed element below the innermost open one, or makes it the root. -/
def attach (b : Builder) (e : Element) : Except DocumentFault Builder :=
  match b.stack, b.root with
  | top :: rest, _ => .ok { b with stack := { top with children := e :: top.children } :: rest }
  | [], none => .ok { b with root := some e }
  | [], some _ => .error (.shape .manyRoots)

def addText (b : Builder) (text : Except DocumentFault String) : Except DocumentFault Builder :=
  match b.stack with
  | [] => .ok b
  | top :: rest => text.map fun s => { b with stack := top.addText s :: rest }

def step (b : Builder) : Event → Except DocumentFault Builder
  | .opening content => do
    let head ← elementOfTag content
    .ok { b with stack := { head } :: b.stack }
  | .empty content => do
    b.attach (← elementOfTag content)
  | .text bytes => b.addText ((decodeText bytes).mapError .reading)
  | .cdata bytes => b.addText (decodeName bytes)
  | .closing =>
    match b.stack with
    | [] => .error (.shape .strayClosing)
    | top :: rest => { b with stack := rest }.attach top.close

def run (b : Builder) : List Event → Except DocumentFault Builder
  | [] => .ok b
  | e :: rest =>
    match b.step e with
    | .ok next => next.run rest
    | .error fault => .error fault

/-- The root, when all elements are closed. -/
def finish (b : Builder) : Except DocumentFault Element :=
  match b.stack, b.root with
  | _ :: _, _ => .error (.shape .unclosed)
  | [], none => .error (.shape .noRoot)
  | [], some e => .ok e

end Builder

/-- The tree of events, which a fault may have cut short. -/
def elementOfEvents (reading : Reading Event ReadFault) : Except DocumentFault Element := do
  let b ← Builder.run {} reading.items
  match reading.fault with
  | some fault => .error (.reading fault)
  | none => b.finish

/-- The root element of a document. -/
def parse (bytes : Bytes) : Except DocumentFault Element :=
  elementOfEvents (events bytes)

end YangEvolution.Markup
