import YangEvolution.Schema.Builtin
import YangEvolution.Schema.QName
import YangEvolution.Schema.Restriction
import YangEvolution.Schema.Status

/-!
Types. A type is a built-in type or restricts a base type; its facets are the effective ones, so
that a derived type carries what it does not restrict itself as its base has it.
-/

namespace YangEvolution

open Text

structure Pattern where
  regex : String
  invertMatch : Bool := false
  errorMessage : Option String := none
  errorAppTag : Option String := none
  description : Option String := none
  reference : Option String := none
  deriving DecidableEq

structure EnumValue where
  name : String
  value : Int
  status : Status := .current
  description : Option String := none
  reference : Option String := none
  deriving DecidableEq

structure Bit where
  name : String
  position : Nat
  reference : Option String := none
  deriving DecidableEq

/-- The effective facets of a type, by the kind of its built-in type. -/
inductive Facets (Member : Type) where
  | none
  | binary (length : Option LengthRestriction)
  | string (length : Option LengthRestriction) (patterns : List Pattern)
  | numeric (range : Option RangeRestriction)
  | enumeration (enums : List EnumValue)
  | bits (bits : List Bit)
  | identityref (bases : List QName)
  | union (members : List Member)

structure TypeDef where
  qname : QName
  base : Option TypeDef
  default : Option String
  units : Option String
  status : Status
  description : Option String
  reference : Option String
  facets : Facets TypeDef

def Pattern.text (p : Pattern) : String :=
  if p.invertMatch then "!'" ++ p.regex ++ "'" else "'" ++ p.regex ++ "'"

namespace EnumValue

def text (e : EnumValue) : String :=
  e.name ++ "=" ++ intText e.value

/-- Two enums are the same when their names and values are. -/
def same (a b : EnumValue) : Bool :=
  a.name == b.name && a.value == b.value

end EnumValue

namespace Bit

def text (b : Bit) : String :=
  b.name ++ "@" ++ natText b.position

/-- Two bits are the same when their names and positions are. -/
def same (a b : Bit) : Bool :=
  a.name == b.name && a.position == b.position

end Bit

/-- The facets of a built-in type: an integer type has its bounds as a range, and nothing else is
restricted. -/
def Facets.ofBuiltin {Member : Type} : Builtin → Facets Member
  | .binary => .binary .none
  | .string => .string .none []
  | .decimal64 => .numeric .none
  | .enumeration => .enumeration []
  | .bits => .bits []
  | .identityref => .identityref []
  | .union => .union []
  | b =>
    match b.integerBounds? with
    | some bounds => .numeric (some ⟨[bounds], 0⟩)
    | .none => .none

namespace TypeDef

/-- The namespace of the built-in types. -/
def builtinUri : String := "urn:ietf:params:xml:ns:yang:1"

def ofBuiltin (b : Builtin) : TypeDef where
  qname := ⟨builtinUri, none, b.name⟩
  base := none
  default := none
  units := none
  status := .current
  description := none
  reference := none
  facets := .ofBuiltin b

/-- A type named `qname` with the default, the units and the facets of `base`. -/
def derived (qname : QName) (base : TypeDef) : TypeDef where
  qname := qname
  base := some base
  default := base.default
  units := base.units
  status := .current
  description := none
  reference := none
  facets := base.facets

/-- The type at the end of the chain of base types. -/
def root : TypeDef → TypeDef
  | ⟨qname, none, default, units, status, description, reference, facets⟩ =>
    ⟨qname, none, default, units, status, description, reference, facets⟩
  | ⟨_, some base, _, _, _, _, _, _⟩ => root base

def builtinName (t : TypeDef) : String :=
  t.root.qname.localName

def builtin? (t : TypeDef) : Option Builtin :=
  Builtin.ofName? t.builtinName

def length? (t : TypeDef) : Option LengthRestriction :=
  match t.facets with
  | .binary length => length
  | .string length _ => length
  | _ => none

def range? (t : TypeDef) : Option RangeRestriction :=
  match t.facets with
  | .numeric range => range
  | _ => none

def patterns (t : TypeDef) : List Pattern :=
  match t.facets with
  | .string _ patterns => patterns
  | _ => []

def enums (t : TypeDef) : List EnumValue :=
  match t.facets with
  | .enumeration enums => enums
  | _ => []

def bits (t : TypeDef) : List Bit :=
  match t.facets with
  | .bits bits => bits
  | _ => []

/-- The base identities of an `identityref` type. -/
def identityBases? (t : TypeDef) : Option (List QName) :=
  match t.facets with
  | .identityref bases => some bases
  | _ => none

theorem root_of_base_none {t : TypeDef} (h : t.base = none) : t.root = t := by
  obtain ⟨_, _, _, _, _, _, _, _⟩ := t
  cases h
  rfl

theorem root_of_base_some {t b : TypeDef} (h : t.base = some b) : t.root = b.root := by
  obtain ⟨_, _, _, _, _, _, _, _⟩ := t
  cases h
  rfl

@[simp] theorem root_ofBuiltin (b : Builtin) : (ofBuiltin b).root = ofBuiltin b := rfl

@[simp] theorem root_derived (q : QName) (b : TypeDef) : (derived q b).root = b.root := rfl

end TypeDef

end YangEvolution
