/-!
UTF-8: strict decoding of bytes. The first fault is located by the index of the byte that begins
the ill-formed sequence.
-/

namespace YangEvolution.Text

abbrev Bytes := List UInt8

/-- What is wrong with the first ill-formed sequence, and the index at which it begins. -/
inductive Utf8Fault where
  /-- The first `length` bytes of the sequence cannot be continued by the byte that follows. -/
  | invalid (length index : Nat)
  /-- The input ends inside the sequence. -/
  | incomplete (index : Nat)
  deriving DecidableEq

namespace Utf8

def isTail (b : UInt8) : Bool :=
  0x80 ≤ b && b ≤ 0xBF

/-- Whether `b` may follow `lead` in a sequence of three or four bytes: a tail byte that makes
the sequence neither too long for its value, nor a surrogate, nor too great. -/
def isSecond (lead b : UInt8) : Bool :=
  if lead == 0xE0 then 0xA0 ≤ b && b ≤ 0xBF
  else if lead == 0xED then 0x80 ≤ b && b ≤ 0x9F
  else if lead == 0xF0 then 0x90 ≤ b && b ≤ 0xBF
  else if lead == 0xF4 then 0x80 ≤ b && b ≤ 0x8F
  else isTail b

/-- How many bytes a sequence has that begins with `lead`; zero if none does. -/
def width (lead : UInt8) : Nat :=
  if lead < 0x80 then 1
  else if 0xC2 ≤ lead && lead ≤ 0xDF then 2
  else if 0xE0 ≤ lead && lead ≤ 0xEF then 3
  else if 0xF0 ≤ lead && lead ≤ 0xF4 then 4
  else 0

def tailBits (b : UInt8) : Nat :=
  b.toNat % 64

def charOfTwo (a b : UInt8) : Char :=
  Char.ofNat (a.toNat % 32 * 64 + tailBits b)

def charOfThree (a b c : UInt8) : Char :=
  Char.ofNat (a.toNat % 16 * 4096 + tailBits b * 64 + tailBits c)

def charOfFour (a b c d : UInt8) : Char :=
  Char.ofNat (a.toNat % 8 * 262144 + tailBits b * 4096 + tailBits c * 64 + tailBits d)

/-- Decodes the bytes from `index` on, after the characters of `done` in reverse. -/
def decodeFrom (index : Nat) (done : List Char) : Bytes → Except Utf8Fault (List Char)
  | [] => .ok done.reverse
  | a :: rest =>
    match width a with
    | 1 => decodeFrom (index + 1) (Char.ofNat a.toNat :: done) rest
    | 2 =>
      match rest with
      | [] => .error (.incomplete index)
      | b :: rest =>
        if isTail b then decodeFrom (index + 2) (charOfTwo a b :: done) rest
        else .error (.invalid 1 index)
    | 3 =>
      match rest with
      | [] => .error (.incomplete index)
      | [b] => .error (if isSecond a b then .incomplete index else .invalid 1 index)
      | b :: c :: rest =>
        if !isSecond a b then .error (.invalid 1 index)
        else if isTail c then decodeFrom (index + 3) (charOfThree a b c :: done) rest
        else .error (.invalid 2 index)
    | 4 =>
      match rest with
      | [] => .error (.incomplete index)
      | [b] => .error (if isSecond a b then .incomplete index else .invalid 1 index)
      | [b, c] =>
        .error
          (if !isSecond a b then .invalid 1 index
            else if isTail c then .incomplete index
            else .invalid 2 index)
      | b :: c :: d :: rest =>
        if !isSecond a b then .error (.invalid 1 index)
        else if !isTail c then .error (.invalid 2 index)
        else if isTail d then decodeFrom (index + 4) (charOfFour a b c d :: done) rest
        else .error (.invalid 3 index)
    | _ => .error (.invalid 1 index)

/-- The characters that the bytes encode, or the first fault. -/
def decodeChars (bytes : Bytes) : Except Utf8Fault (List Char) :=
  decodeFrom 0 [] bytes

def decode (bytes : Bytes) : Except Utf8Fault String :=
  (decodeChars bytes).map String.ofList

/-- The bytes of a character. -/
def encodeChar (c : Char) : Bytes :=
  let n := c.toNat
  if n < 0x80 then [n.toUInt8]
  else if n < 0x800 then [(0xC0 + n / 64).toUInt8, (0x80 + n % 64).toUInt8]
  else if n < 0x10000 then
    [(0xE0 + n / 4096).toUInt8, (0x80 + n / 64 % 64).toUInt8, (0x80 + n % 64).toUInt8]
  else
    [(0xF0 + n / 262144).toUInt8, (0x80 + n / 4096 % 64).toUInt8,
      (0x80 + n / 64 % 64).toUInt8, (0x80 + n % 64).toUInt8]

/-- How many bytes a character takes. -/
def charWidth (c : Char) : Nat :=
  if c.toNat < 0x80 then 1 else if c.toNat < 0x800 then 2 else if c.toNat < 0x10000 then 3 else 4

def encode (s : String) : Bytes :=
  s.toList.flatMap encodeChar

theorem length_encodeChar (c : Char) : (encodeChar c).length = charWidth c := by
  simp only [encodeChar, charWidth]
  split
  · rfl
  · split
    · rfl
    · split <;> rfl

end Utf8

def Utf8Fault.message : Utf8Fault → String
  | .invalid length index =>
    "invalid utf-8 sequence of " ++ toString length ++ " bytes from index " ++ toString index
  | .incomplete index => "incomplete utf-8 byte sequence from index " ++ toString index

end YangEvolution.Text
