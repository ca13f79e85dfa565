import YangEvolution.Markup.Fault

/-!
Tokens: a document as a sequence of texts and pieces of markup. The input is read byte by byte by
a machine whose state says what has begun; the state keeps, in reverse, the bytes read since.
-/

namespace YangEvolution.Markup

open Text

/-- What was read of an input, and the fault that stopped it. -/
structure Reading (α ε : Type) where
  items : List α
  fault : Option ε

inductive Token where
  | text (bytes : Bytes)
  | cdata (bytes : Bytes)
  /-- A start tag, by what stands between its brackets. -/
  | opening (content : Bytes)
  /-- The tag of an element without content, by what stands before its slash. -/
  | empty (content : Bytes)
  | closing (name : Bytes)
  /-- A comment, a processing instruction or a document type, which say nothing. -/
  | skipped
  deriving DecidableEq

def byte (c : Char) : UInt8 :=
  c.toNat.toUInt8

def byteString (s : String) : Bytes :=
  s.toList.map byte

/-- The four bytes that markup takes for white space. -/
def isSpace (b : UInt8) : Bool :=
  b == byte ' ' || b == byte '\t' || b == byte '\r' || b == byte '\n'

/-- A byte with an ASCII letter in upper case. -/
def upperByte (b : UInt8) : UInt8 :=
  if byte 'a' ≤ b && b ≤ byte 'z' then b - 32 else b

inductive ScanState where
  | text (seen : Bytes)
  /-- After an opening bracket. -/
  | angle
  | tag (quote : Option UInt8) (seen : Bytes)
  /-- After an opening bracket and an exclamation mark. -/
  | bang
  | comment (seen : Bytes)
  | cdata (seen : Bytes)
  | doctype (depth : Nat) (seen : Bytes)
  | instruction (seen : Bytes)

/-- The end of a name without white space after it, unless there is nothing else. -/
def trimName (name : Bytes) : Bytes :=
  let trimmed := (name.reverse.dropWhile isSpace).reverse
  if trimmed.isEmpty then name else trimmed

/-- The token of a tag, by the bytes between its brackets. -/
def tagToken (content : Bytes) : Token :=
  match content with
  | b :: name =>
    if b == byte '/' then .closing (trimName name)
    else if content.getLast? == some (byte '/') then .empty content.dropLast
    else .opening content
  | [] => .opening []

/-- Whether a comment ends before the next closing bracket; `seen` reaches back to the exclamation
mark, and the dashes that open a comment do not close it too. -/
def commentEnds (seen : Bytes) : Bool :=
  (byteString "--").isPrefixOf seen && 5 ≤ seen.length

def commentToken (seen : Bytes) : Except ReadFault Token :=
  if (byteString "!--").isPrefixOf seen.reverse then .ok .skipped
  else .error (.lexical .openComment)

def cdataToken (seen : Bytes) : Except ReadFault Token :=
  let content := seen.reverse
  if (byteString "![CDATA[").isPrefixOf content then
    .ok (.cdata ((content.drop 8).take (content.length - 10)))
  else .error (.lexical .openCdata)

def doctypeToken (seen : Bytes) : Except ReadFault Token :=
  let content := seen.reverse
  if (byteString "!DOCTYPE").isPrefixOf (content.map upperByte) then
    if (content.drop 8).all isSpace then .error (.nesting .unnamedDoctype) else .ok .skipped
  else .error (.lexical .openDoctype)

def instructionToken (seen : Bytes) : Except ReadFault Token :=
  if 2 ≤ seen.length then .ok .skipped else .error (.lexical .openInstruction)

/-- The quote that a tag is in after one more byte. -/
def quoteAfter (quote : Option UInt8) (b : UInt8) : Option UInt8 :=
  match quote with
  | none => if b == byte '"' || b == byte '\'' then some b else none
  | some q => if b == q then none else some q

/-- What a byte leads to: another state, the end of a token, or a fault. -/
inductive ScanStep where
  | go (state : ScanState)
  | emit (token : Token) (state : ScanState)
  | stop (fault : ReadFault)

/-- Text goes on after a token. -/
def ScanStep.ofToken : Except ReadFault Token → ScanStep
  | .ok t => .emit t (.text [])
  | .error e => .stop e

namespace ScanState

/-- One more byte of a tag. -/
def tagStep (quote : Option UInt8) (seen : Bytes) (b : UInt8) : ScanStep :=
  if quote.isNone && b == byte '>' then .emit (tagToken seen.reverse) (.text [])
  else .go (.tag (quoteAfter quote b) (b :: seen))

def step (state : ScanState) (b : UInt8) : ScanStep :=
  match state with
  | .text seen =>
    if b == byte '<' then
      if seen.isEmpty then .go .angle else .emit (.text seen.reverse) .angle
    else .go (.text (b :: seen))
  | .angle =>
    if b == byte '!' then .go .bang
    else if b == byte '?' then .go (.instruction [b])
    else tagStep none [] b
  | .tag quote seen => tagStep quote seen b
  | .bang =>
    if b == byte '[' then .go (.cdata [b, byte '!'])
    else if b == byte '-' then .go (.comment [b, byte '!'])
    else if upperByte b == byte 'D' then .go (.doctype 0 [b, byte '!'])
    else .stop (.lexical .unknown)
  | .comment seen =>
    if b == byte '>' && commentEnds seen then .ofToken (commentToken seen)
    else .go (.comment (b :: seen))
  | .cdata seen =>
    if b == byte '>' && (byteString "]]").isPrefixOf seen then .ofToken (cdataToken seen)
    else .go (.cdata (b :: seen))
  | .doctype depth seen =>
    if b == byte '<' then .go (.doctype (depth + 1) (b :: seen))
    else if b == byte '>' then
      if depth = 0 then .ofToken (doctypeToken seen) else .go (.doctype (depth - 1) (b :: seen))
    else .go (.doctype depth (b :: seen))
  | .instruction seen =>
    if b == byte '>' && (byteString "?").isPrefixOf seen then .ofToken (instructionToken seen)
    else .go (.instruction (b :: seen))

/-- What remains at the end of the input: a last text, or a fault in markup that has begun. -/
def finish : ScanState → Reading Token ReadFault
  | .text [] => ⟨[], none⟩
  | .text (b :: seen) => ⟨[.text (b :: seen).reverse], none⟩
  | .angle => ⟨[], some (.lexical .openTag)⟩
  | .tag _ _ => ⟨[], some (.lexical .openTag)⟩
  | .bang => ⟨[], some (.lexical .unknown)⟩
  | .comment _ => ⟨[], some (.lexical .openComment)⟩
  | .cdata _ => ⟨[], some (.lexical .openCdata)⟩
  | .doctype _ _ => ⟨[], some (.lexical .openDoctype)⟩
  | .instruction _ => ⟨[], some (.lexical .openInstruction)⟩

end ScanState

/-- Reads tokens from a state on; `done` are the tokens before, in reverse. -/
def scanFrom (done : List Token) (state : ScanState) : Bytes → Reading Token ReadFault
  | [] => ⟨done.reverse ++ state.finish.items, state.finish.fault⟩
  | b :: rest =>
    match state.step b with
    | .go next => scanFrom done next rest
    | .emit t next => scanFrom (t :: done) next rest
    | .stop fault => ⟨done.reverse, some fault⟩

/-- The bytes without a byte order mark at their beginning. -/
def dropMark (bytes : Bytes) : Bytes :=
  if [0xEF, 0xBB, 0xBF].isPrefixOf bytes then bytes.drop 3 else bytes

/-- The tokens of a document. -/
def scan (bytes : Bytes) : Reading Token ReadFault :=
  scanFrom [] (.text []) (dropMark bytes)

end YangEvolution.Markup
