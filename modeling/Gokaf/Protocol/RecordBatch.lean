import Gokaf.Go.Crc32
import Gokaf.Protocol.Types

open Go

namespace Protocol

def recordBatchHeaderLen : Nat := 61

def baseTimestamp : Int := 1700000000000

structure BatchRecord where
  key   : Option Bytes
  value : Bytes
  deriving DecidableEq, Repr

structure DecodedRecord where
  offset    : Int
  key       : Option Bytes
  value     : Option Bytes
  timestamp : Int
  deriving DecidableEq, Repr

def encodeRecord (r : BatchRecord) (offsetDelta : Int) : Bytes :=
  let key :=
    match r.key with
    | none     => writeVarint (-1)
    | some key => writeVarint (int32 key.length) ++ key
  let body := writeInt8 0 ++ writeVarint 0 ++ writeVarint (int32 offsetDelta) ++ key ++
    writeVarint (int32 r.value.length) ++ r.value ++ writeVarint 0
  writeVarint (int32 body.length) ++ body

-- The bytes of a batch from the field behind the checksum on.
def checkedPart (records : List BatchRecord) : Bytes :=
  let body := (records.zipIdx.map fun (r, i) => encodeRecord r i).flatten
  putInt 16 0 ++ putInt 32 (records.length - 1) ++ putInt 64 baseTimestamp ++ putInt 64 baseTimestamp ++
    putInt 64 (-1) ++ putInt 16 (-1) ++ putInt 32 (-1) ++ putInt 32 records.length ++ body

def buildRecordBatch (records : List BatchRecord) : Bytes :=
  let rest := checkedPart records
  putInt 64 0 ++ putInt 32 (9 + rest.length) ++ putInt 32 (-1) ++ [2] ++
    BigEndian.put 4 (Crc32.checksum rest) ++ rest

def readVarintBytes : Decoder (Option Bytes) := do
  let n ← readVarint
  if n < 0 then return none else return some (← readFull n.toNat)

def decodeRecord (baseOffset baseTS : Int) : Decoder DecodedRecord := do
  let _ ← readVarint
  let _ ← readInt8
  let tsDelta ← readVarint
  let offsetDelta ← readVarint
  let key ← readVarintBytes
  let value ← readVarintBytes
  let _ ← readVarint
  return {
    offset    := int64 (baseOffset + offsetDelta)
    key, value
    timestamp := int64 (baseTS + tsDelta)
  }

def decodeOneBatch (batch : Bytes) : Except Fault (List DecodedRecord) :=
  if batch.length < recordBatchHeaderLen then
    .error (.error .shortBatch)
  else if batch[16]? ≠ some 2 then
    .error (.error (.magic (batch[16]?.getD 0)))
  else do
    let baseOffset := sint 64 (slice batch 0 8)
    let baseTS := sint 64 (slice batch 27 35)
    let recordCount := sint 32 (slice batch 57 61)
    makeSlice recordCount
    StateT.run' (forRange recordCount (decodeRecord baseOffset baseTS)) (batch.drop recordBatchHeaderLen)

-- Each round uses up at least one header, so the length of the input bounds their number.
def decodeRecordBatches (raw : Bytes) : Except Fault (List DecodedRecord) :=
  go (raw.length + 1) raw []
where
  go : Nat → Bytes → List DecodedRecord → Except Fault (List DecodedRecord)
    | 0, _, out => return out
    | fuel + 1, raw, out =>
      if 12 ≤ raw.length then
        let total := 12 + BigEndian.uint (slice raw 8 12)
        if total < recordBatchHeaderLen ∨ raw.length < total then
          return out
        else do
          let records ← decodeOneBatch (raw.take total)
          go fuel (raw.drop total) (out ++ records)
      else
        return out

-- A batch whose length field tells its length.
@[mk_iff]
structure Framed (b : Bytes) : Prop where
  le_length : recordBatchHeaderLen ≤ b.length
  length_eq : 12 + BigEndian.uint (slice b 8 12) = b.length

instance : DecidablePred Framed :=
  fun b => decidable_of_iff _ (framed_iff b).symm

end Protocol
