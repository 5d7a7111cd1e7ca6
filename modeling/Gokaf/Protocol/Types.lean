import Gokaf.Go.Fault

open Go

namespace Protocol

def maxVarintBytes : Nat := 5

-- What the methods of `Encoder` add to its buffer.
section Encoder

def writeInt8 (v : Int) : Bytes :=
  putInt 8 v

def writeInt16 (v : Int) : Bytes :=
  putInt 16 v

def writeInt32 (v : Int) : Bytes :=
  putInt 32 v

def writeInt64 (v : Int) : Bytes :=
  putInt 64 v

-- A 32-bit value is used up after five groups of seven bits.
def writeUnsignedVarint (v : UInt32) : Bytes :=
  go maxVarintBytes v
where
  go : Nat → UInt32 → Bytes
    | 0, _ => []
    | fuel + 1, v => if 0x80 ≤ v then (v.toUInt8 ||| 0x80) :: go fuel (v >>> 7) else [v.toUInt8]

-- `uint32((v << 1) ^ (v >> 31))` for a `v` of type `int32`.
def zigzag (v : Int) : UInt32 :=
  UInt32.ofNat (unsigned 32 (if v < 0 then -2 * v - 1 else 2 * v))

def writeVarint (v : Int) : Bytes :=
  writeUnsignedVarint (zigzag v)

def writeString (s : Bytes) : Bytes :=
  writeInt16 (int16 s.length) ++ s

def writeNullableString : Option Bytes → Bytes
  | none   => writeInt16 (-1)
  | some s => writeString s

-- A nil slice is written like an empty one.
def writeBytes (b : Option Bytes) : Bytes :=
  writeInt32 (int32 (b.getD []).length) ++ b.getD []

def writeCompactString (s : Bytes) : Bytes :=
  writeUnsignedVarint (UInt32.ofNat s.length + 1) ++ s

def writeCompactNullableString : Option Bytes → Bytes
  | none   => writeUnsignedVarint 0
  | some s => writeCompactString s

def writeArrayLen (n : Int) : Bytes :=
  writeInt32 (int32 n)

def writeCompactArrayLen (n : Int) : Bytes :=
  writeUnsignedVarint (UInt32.ofNat (unsigned 32 (n + 1)))

end Encoder

-- The methods of `Decoder`, in any monad that has the bytes still to be read as its state and can
-- fail.
section Decoder

variable {m : Type → Type*} [Monad m] [MonadStateOf Bytes m] [MonadExceptOf Fault m]

def fail {α : Type} (e : Error) : m α :=
  throw (.error e)

-- `io.ReadFull` into a buffer of `n` bytes.
def readFull (n : Nat) : m Bytes := do
  let bs ← getThe Bytes
  if n ≤ bs.length then
    set (bs.drop n)
    return bs.take n
  else if bs = [] then
    fail .eof
  else
    fail .unexpectedEOF

def readInt (w : Nat) : m Int := do
  return sint w (← readFull (w / 8))

def readInt8 : m Int := readInt 8

def readInt16 : m Int := readInt 16

def readInt32 : m Int := readInt 32

def readInt64 : m Int := readInt 64

def readByte : m UInt8 := do
  return (← readFull 1).headD 0

def readUnsignedVarint : m UInt32 :=
  go maxVarintBytes 0 0
where
  go : Nat → UInt32 → UInt32 → m UInt32
    | 0, _, _ => fail .varintTooLong
    | fuel + 1, result, shift => do
      let b ← readByte
      let result := result ||| ((b &&& 0x7f).toUInt32 <<< shift)
      if b &&& 0x80 = 0 then return result else go fuel result (shift + 7)

-- `int32(zigzag>>1) ^ -int32(zigzag&1)`.
def unzigzag (z : UInt32) : Int :=
  int32 ((z >>> 1) ^^^ (0 - (z &&& 1))).toNat

def readVarint : m Int := do
  return unzigzag (← readUnsignedVarint)

def readString : m Bytes := do
  let n ← readInt16
  if n < 0 then fail (.negativeLength n) else readFull n.toNat

def readNullableString : m (Option Bytes) := do
  let n ← readInt16
  if n < 0 then return none else return some (← readFull n.toNat)

def readBytes : m (Option Bytes) := do
  let n ← readInt32
  if n < 0 then return none else return some (← readFull n.toNat)

def readCompactString : m Bytes := do
  let n ← readUnsignedVarint
  if n = 0 then fail .zeroLength else readFull (n - 1).toNat

def readCompactNullableString : m (Option Bytes) := do
  let n ← readUnsignedVarint
  if n = 0 then return none else return some (← readFull (n - 1).toNat)

def readArrayLen : m Int := readInt32

def readCompactArrayLen : m Int := do
  return (← readUnsignedVarint).toNat - 1

end Decoder

-- A decoder over a byte slice.
abbrev Decoder := StateT Bytes (Except Fault)

end Protocol
