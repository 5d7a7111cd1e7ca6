import Gokaf.Go.Bytes

namespace Go.Crc32

-- The Castagnoli polynomial, bits reversed.
def castagnoli : UInt32 := 0x82f63b78

def shift (crc : UInt32) : UInt32 :=
  if crc &&& 1 = 1 then (crc >>> 1) ^^^ castagnoli else crc >>> 1

def update (crc : UInt32) (b : UInt8) : UInt32 :=
  shift <| shift <| shift <| shift <| shift <| shift <| shift <| shift <| crc ^^^ b.toUInt32

-- `crc32.Checksum` with the Castagnoli table.
def checksum (bs : Bytes) : Nat :=
  (~~~ bs.foldl update 0xffffffff).toNat

end Go.Crc32
