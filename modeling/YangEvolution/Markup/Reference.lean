import YangEvolution.Markup.Fault

/-!
References in texts and attribute values: the five predefined entities, and characters by their
decimal or hexadecimal numbers.
-/

namespace YangEvolution.Markup

open Text

/-- The value of a digit of a base up to sixteen. -/
def digitIn? (base : Nat) (c : Char) : Option Nat :=
  let value :=
    if '0' ≤ c ∧ c ≤ '9' then c.toNat - '0'.toNat
    else if 'a' ≤ c ∧ c ≤ 'f' then c.toNat - 'a'.toNat + 10
    else if 'A' ≤ c ∧ c ≤ 'F' then c.toNat - 'A'.toNat + 10
    else base
  if value < base then some value else none

/-- Reads digits after a number of value `acc`; the first fault from the left counts. -/
def readDigits (base acc : Nat) : List Char → Except NumberFault Nat
  | [] => .ok acc
  | c :: cs =>
    match digitIn? base c with
    | none => .error .digit
    | some d =>
      if base * acc + d < Nat.pow 2 32 then readDigits base (base * acc + d) cs
      else .error .tooLarge

/-- A number without sign that fits a 32-bit word. -/
def readCode (base : Nat) : List Char → Except ReferenceFault Nat
  | [] => .error (.number .empty)
  | c :: cs =>
    if c = '+' ∨ c = '-' then .error .sign
    else (readDigits base 0 (c :: cs)).mapError .number

/-- The character of a code point other than zero. -/
def charOfCode (n : Nat) : Except ReferenceFault Char :=
  if n = 0 then .error .nul
  else if n.isValidChar then .ok (Char.ofNat n)
  else .error (.codePoint n)

/-- The character that the text after a number sign stands for. -/
def readReference (cs : List Char) : Except ReferenceFault Char :=
  match cs with
  | 'x' :: digits => readCode 16 digits >>= charOfCode
  | digits => readCode 10 digits >>= charOfCode

def predefined? : List Char → Option Char
  | ['l', 't'] => some '<'
  | ['g', 't'] => some '>'
  | ['a', 'm', 'p'] => some '&'
  | ['a', 'p', 'o', 's'] => some '\''
  | ['q', 'u', 'o', 't'] => some '"'
  | _ => none

/-- The character for the name between an ampersand at `start` and a semicolon at `stop`. -/
def resolve (start stop : Nat) (name : List Char) : Except EscapeFault Char :=
  match name with
  | '#' :: number => (readReference number).mapError .reference
  | name =>
    match predefined? name with
    | some c => .ok c
    | none => .error (.unknownEntity (start + 1) stop (String.ofList name))

/-- Replaces the references in a text of `total` bytes from the byte `index` on. `done` is what
precedes, in reverse, and `name` the ampersand's index and the reversed name of a reference that
has begun. -/
def unescapeFrom (total index : Nat) (done : List Char) (name : Option (Nat × List Char)) :
    List Char → Except EscapeFault (List Char)
  | [] =>
    match name with
    | none => .ok done.reverse
    | some (start, _) => .error (.openReference start total)
  | c :: cs =>
    match name with
    | none =>
      if c = '&' then unescapeFrom total (index + 1) done (some (index, [])) cs
      else unescapeFrom total (index + Utf8.charWidth c) (c :: done) none cs
    | some (start, seen) =>
      if c = ';' then
        match resolve start index seen.reverse with
        | .ok r => unescapeFrom total (index + 1) (r :: done) none cs
        | .error e => .error e
      else if c = '&' then .error (.openReference start total)
      else unescapeFrom total (index + Utf8.charWidth c) done (some (start, c :: seen)) cs

/-- The text with its references replaced. -/
def unescape (cs : List Char) : Except EscapeFault (List Char) :=
  unescapeFrom ((cs.map Utf8.charWidth).foldr (· + ·) 0) 0 [] none cs

/-- Decodes bytes and replaces the references in them. -/
def decodeText (bytes : Bytes) : Except ReadFault String :=
  match Utf8.decodeChars bytes with
  | .error e => .error (.encoding e)
  | .ok cs =>
    match unescape cs with
    | .error e => .error (.escape e)
    | .ok out => .ok (String.ofList out)

end YangEvolution.Markup
