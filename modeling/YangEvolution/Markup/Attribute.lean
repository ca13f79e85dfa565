import YangEvolution.Markup.Element
import YangEvolution.Markup.Event
import YangEvolution.Markup.Reference

/-!
The attributes of a tag. White space is needed neither before a key nor around an equals sign; a
key ends at white space or an equals sign, and its first byte always belongs to it.
-/

namespace YangEvolution.Markup

open Text

/-- An attribute as it is written, with the position of its key. -/
structure RawAttribute where
  position : Nat
  key : Bytes
  value : Bytes
  deriving DecidableEq

inductive AttributeState where
  /-- Before a key. -/
  | gap
  | inKey (start : Nat) (seen : Bytes)
  /-- After a key, before its equals sign. -/
  | spaced (start : Nat) (key : Bytes)
  /-- After an equals sign, before the value. -/
  | equals (start : Nat) (key : Bytes)
  | inValue (start : Nat) (key : Bytes) (quote : UInt8) (seen : Bytes)

inductive AttributeStep where
  | go (state : AttributeState)
  | emit (raw : RawAttribute)
  | stop (fault : AttributeFault)

/-- An equals sign after a key: a key may stand only once in a tag. -/
def equalsStep (done : List RawAttribute) (start : Nat) (key : Bytes) : AttributeStep :=
  match done.find? fun a => a.key == key with
  | some a => .stop (.duplicated start a.position)
  | none => .go (.equals start key)

def quoteChar (b : UInt8) : Char :=
  Char.ofNat b.toNat

namespace AttributeState

def step (done : List RawAttribute) (position : Nat) (state : AttributeState) (b : UInt8) :
    AttributeStep :=
  match state with
  | .gap => .go (if isSpace b then .gap else .inKey position [b])
  | .inKey start seen =>
    if b == byte '=' then equalsStep done start seen.reverse
    else if isSpace b then .go (.spaced start seen.reverse)
    else .go (.inKey start (b :: seen))
  | .spaced start key =>
    if b == byte '=' then equalsStep done start key
    else if isSpace b then .go (.spaced start key)
    else .stop (.noEquals position)
  | .equals start key =>
    if isSpace b then .go (.equals start key)
    else if b == byte '"' || b == byte '\'' then .go (.inValue start key b [])
    else .stop (.unquoted position)
  | .inValue start key quote seen =>
    if b == quote then .emit ⟨start, key, seen.reverse⟩
    else .go (.inValue start key quote (b :: seen))

/-- What is missing at the end of a tag of `length` bytes. -/
def finish (length : Nat) : AttributeState → Option AttributeFault
  | .gap => none
  | .inKey _ _ => some (.noEquals length)
  | .spaced _ _ => some (.noEquals length)
  | .equals _ _ => some (.noValue length)
  | .inValue _ _ quote _ => some (.openQuote length (quoteChar quote))

end AttributeState

/-- Reads attributes from a position on; `done` are those before, in reverse. -/
def attributesFrom (done : List RawAttribute) (position : Nat) (state : AttributeState) :
    Bytes → Reading RawAttribute AttributeFault
  | [] => ⟨done.reverse, state.finish position⟩
  | b :: rest =>
    match state.step done position b with
    | .go next => attributesFrom done (position + 1) next rest
    | .emit a => attributesFrom (a :: done) (position + 1) .gap rest
    | .stop fault => ⟨done.reverse, some fault⟩

/-- The attributes in the content of a tag. -/
def rawAttributes (content : Bytes) : Reading RawAttribute AttributeFault :=
  let name := tagName content
  attributesFrom [] name.length .gap (content.drop name.length)

/-- Whether a key declares a namespace: `xmlns`, alone or before a colon. -/
def declaresNamespace (key : Bytes) : Bool :=
  key == byteString "xmlns" || (byteString "xmlns:").isPrefixOf key

def decodeName (bytes : Bytes) : Except DocumentFault String :=
  (Utf8.decode bytes).mapError .naming

/-- The decoded attributes in the order of their keys, without the declarations of namespaces. -/
def decodeAttributes (done : List (String × String)) :
    List RawAttribute → Except DocumentFault (List (String × String))
  | [] => .ok done
  | a :: rest =>
    if declaresNamespace a.key then decodeAttributes done rest
    else
      match decodeName a.key with
      | .error e => .error e
      | .ok key =>
        match decodeText a.value with
        | .error e => .error (.reading e)
        | .ok value => decodeAttributes (setAttribute key value done) rest

end YangEvolution.Markup
