import YangEvolution.Schema.TypeDef
import YangEvolution.Yin.Statement

/-!
The values of enums and the positions of bits. One that is not stated is the inherited one of the
same name, or else one more than the highest before it, beginning with zero.
-/

namespace YangEvolution.Yin

open Text Markup

def readEnumValue (raw : String) : Option Int :=
  readSigned (-Nat.pow 2 31) (Nat.pow 2 31 - 1) (trimChars raw.toList)

/-- The value of an enum, where `next` is one more than the highest before it. -/
def enumValue (owner : String) (inherited : List EnumValue) (next : Int) (name : String)
    (stmt : Element) : Except LoadFault Int :=
  match stmt.childAttribute? "value" "value" with
  | some raw =>
    match readEnumValue raw with
    | some v => .ok v
    | none => .error (.invalid owner "enum value" raw)
  | none =>
    match inherited.find? fun e => e.name == name with
    | some e => .ok e.value
    | none =>
      if next ≤ Nat.pow 2 31 - 1 then .ok next else .error (.invalid owner "enum value" name)

/-- The enums of statements, where `next` is one more than the highest value before them. -/
def enumsFrom (owner : String) (inherited : List EnumValue) (next : Int) :
    List Element → Except LoadFault (List EnumValue)
  | [] => .ok []
  | stmt :: rest => do
    let name ← argument owner stmt "name"
    let value ← enumValue owner inherited next name stmt
    let status ← statusOf owner stmt
    let others ← enumsFrom owner inherited (max next (value + 1)) rest
    let description := descriptionOf stmt
    let reference := referenceOf stmt
    .ok ({ name, value, status, description, reference } :: others)

def enumsOf (owner : String) (inherited : List EnumValue) (declared : List Element) :
    Except LoadFault (List EnumValue) :=
  enumsFrom owner inherited 0 declared

/-- The position of a bit, where `next` is one more than the highest before it. -/
def bitPosition (owner : String) (inherited : List Bit) (next : Nat) (name : String)
    (stmt : Element) : Except LoadFault Nat :=
  match stmt.childAttribute? "position" "value" with
  | some raw =>
    match readCount raw with
    | some n => .ok n
    | none => .error (.invalid owner "bit position" raw)
  | none =>
    match inherited.find? fun b => b.name == name with
    | some b => .ok b.position
    | none =>
      if next ≤ Nat.pow 2 32 - 1 then .ok next else .error (.invalid owner "bit position" name)

/-- The bits of statements, where `next` is one more than the highest position before them. -/
def bitsFrom (owner : String) (inherited : List Bit) (next : Nat) :
    List Element → Except LoadFault (List Bit)
  | [] => .ok []
  | stmt :: rest => do
    let name ← argument owner stmt "name"
    let position ← bitPosition owner inherited next name stmt
    let others ← bitsFrom owner inherited (max next (position + 1)) rest
    .ok ({ name, position, reference := referenceOf stmt } :: others)

def bitsOf (owner : String) (inherited : List Bit) (declared : List Element) :
    Except LoadFault (List Bit) :=
  bitsFrom owner inherited 0 declared

end YangEvolution.Yin
