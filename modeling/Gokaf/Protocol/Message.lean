import Gokaf.Protocol.Types

open Go

namespace Protocol

-- For each kind of field `Encoder` has a method that writes it and `Decoder` one that reads it.
inductive Kind
  | int8
  | int16
  | int32
  | int64
  | unsignedVarint
  | varint
  | string
  | nullableString
  | bytes
  | compactString
  | compactNullableString
  | arrayLen
  | compactArrayLen
  deriving DecidableEq, Repr

inductive Field
  | int8 (x : Int)
  | int16 (x : Int)
  | int32 (x : Int)
  | int64 (x : Int)
  | unsignedVarint (x : UInt32)
  | varint (x : Int)
  | string (s : Bytes)
  | nullableString (s : Option Bytes)
  | bytes (b : Bytes)
  | compactString (s : Bytes)
  | compactNullableString (s : Option Bytes)
  | arrayLen (n : Int)
  | compactArrayLen (n : Int)
  deriving DecidableEq, Repr

namespace Field

def kind : Field → Kind
  | int8 _                  => .int8
  | int16 _                 => .int16
  | int32 _                 => .int32
  | int64 _                 => .int64
  | unsignedVarint _        => .unsignedVarint
  | varint _                => .varint
  | string _                => .string
  | nullableString _        => .nullableString
  | bytes _                 => .bytes
  | compactString _         => .compactString
  | compactNullableString _ => .compactNullableString
  | arrayLen _              => .arrayLen
  | compactArrayLen _       => .compactArrayLen

def write : Field → Bytes
  | int8 x                  => writeInt8 x
  | int16 x                 => writeInt16 x
  | int32 x                 => writeInt32 x
  | int64 x                 => writeInt64 x
  | unsignedVarint x        => writeUnsignedVarint x
  | varint x                => writeVarint x
  | string s                => writeString s
  | nullableString s        => writeNullableString s
  | bytes b                 => writeBytes (some b)
  | compactString s         => writeCompactString s
  | compactNullableString s => writeCompactNullableString s
  | arrayLen n              => writeArrayLen n
  | compactArrayLen n       => writeCompactArrayLen n

-- The numbers are of the type that their method takes, and the lengths fit their fields.
def Valid : Field → Prop
  | int8 x                  => -2 ^ 7 ≤ x ∧ x < 2 ^ 7
  | int16 x                 => -2 ^ 15 ≤ x ∧ x < 2 ^ 15
  | int32 x                 => -2 ^ 31 ≤ x ∧ x < 2 ^ 31
  | int64 x                 => -2 ^ 63 ≤ x ∧ x < 2 ^ 63
  | unsignedVarint _        => True
  | varint x                => -2 ^ 31 ≤ x ∧ x < 2 ^ 31
  | string s                => s.length ≤ 32767
  | nullableString s        => ∀ s' ∈ s, s'.length ≤ 32767
  | bytes b                 => b.length < 2 ^ 31 - 1
  | compactString s         => s.length < 2 ^ 31 - 1
  | compactNullableString s => ∀ s' ∈ s, s'.length < 2 ^ 31 - 1
  | arrayLen n              => -1 ≤ n ∧ n ≤ 2 ^ 31 - 2
  | compactArrayLen n       => -1 ≤ n ∧ n ≤ 2 ^ 31 - 2

end Field

-- A slice that is read is never nil if its length is not negative.
def Kind.read : Kind → Decoder Field
  | int8                  => do return .int8 (← readInt8)
  | int16                 => do return .int16 (← readInt16)
  | int32                 => do return .int32 (← readInt32)
  | int64                 => do return .int64 (← readInt64)
  | unsignedVarint        => do return .unsignedVarint (← readUnsignedVarint)
  | varint                => do return .varint (← readVarint)
  | string                => do return .string (← readString)
  | nullableString        => do return .nullableString (← readNullableString)
  | bytes                 => do return .bytes ((← readBytes).getD [])
  | compactString         => do return .compactString (← readCompactString)
  | compactNullableString => do return .compactNullableString (← readCompactNullableString)
  | arrayLen              => do return .arrayLen (← readArrayLen)
  | compactArrayLen       => do return .compactArrayLen (← readCompactArrayLen)

def writeFields (fields : List Field) : Bytes :=
  fields.flatMap Field.write

def readFields (kinds : List Kind) : Decoder (List Field) :=
  kinds.mapM Kind.read

end Protocol
