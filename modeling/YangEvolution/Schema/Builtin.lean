import YangEvolution.Schema.Interval

/-!
The types that YANG itself defines.
-/

namespace YangEvolution

inductive Builtin where
  | binary
  | bits
  | boolean
  | decimal64
  | empty
  | enumeration
  | identityref
  | instanceIdentifier
  | int8
  | int16
  | int32
  | int64
  | leafref
  | string
  | uint8
  | uint16
  | uint32
  | uint64
  | union
  deriving DecidableEq

namespace Builtin

def all : List Builtin :=
  [binary, bits, boolean, decimal64, empty, enumeration, identityref, instanceIdentifier,
    int8, int16, int32, int64, leafref, string, uint8, uint16, uint32, uint64, union]

def name : Builtin → String
  | binary => "binary"
  | bits => "bits"
  | boolean => "boolean"
  | decimal64 => "decimal64"
  | empty => "empty"
  | enumeration => "enumeration"
  | identityref => "identityref"
  | instanceIdentifier => "instance-identifier"
  | int8 => "int8"
  | int16 => "int16"
  | int32 => "int32"
  | int64 => "int64"
  | leafref => "leafref"
  | string => "string"
  | uint8 => "uint8"
  | uint16 => "uint16"
  | uint32 => "uint32"
  | uint64 => "uint64"
  | union => "union"

def ofName? (s : String) : Option Builtin :=
  all.find? fun b => b.name == s

/-- The values of an integer type. -/
def integerBounds? : Builtin → Option Interval
  | int8 => some ⟨-Nat.pow 2 7, Nat.pow 2 7 - 1⟩
  | int16 => some ⟨-Nat.pow 2 15, Nat.pow 2 15 - 1⟩
  | int32 => some ⟨-Nat.pow 2 31, Nat.pow 2 31 - 1⟩
  | int64 => some ⟨-Nat.pow 2 63, Nat.pow 2 63 - 1⟩
  | uint8 => some ⟨0, Nat.pow 2 8 - 1⟩
  | uint16 => some ⟨0, Nat.pow 2 16 - 1⟩
  | uint32 => some ⟨0, Nat.pow 2 32 - 1⟩
  | uint64 => some ⟨0, Nat.pow 2 64 - 1⟩
  | _ => none

theorem ofName?_name (b : Builtin) : ofName? b.name = some b := by
  cases b <;> decide

end Builtin

end YangEvolution
