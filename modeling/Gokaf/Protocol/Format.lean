import Gokaf.Protocol.RecordBatch

open Go

namespace Protocol

-- Record batches of version 2 as any client may send them, with headers on their records.
namespace Format

structure Header where
  key   : Bytes
  value : Option Bytes
  deriving DecidableEq, Repr

structure Record where
  attributes     : Int
  timestampDelta : Int
  offsetDelta    : Int
  key            : Option Bytes
  value          : Option Bytes
  headers        : List Header
  deriving DecidableEq, Repr

structure Batch where
  baseOffset           : Int
  partitionLeaderEpoch : Int
  attributes           : Int
  lastOffsetDelta      : Int
  baseTimestamp        : Int
  maxTimestamp         : Int
  producerID           : Int
  producerEpoch        : Int
  baseSequence         : Int
  records              : List Record
  deriving DecidableEq, Repr

def encodeNullable : Option Bytes → Bytes
  | none    => writeVarint (-1)
  | some bs => writeVarint bs.length ++ bs

def Header.encode (h : Header) : Bytes :=
  writeVarint h.key.length ++ h.key ++ encodeNullable h.value

namespace Record

-- A record without its length, up to the number of its headers.
def front (r : Record) : Bytes :=
  writeInt8 r.attributes ++ writeVarint r.timestampDelta ++ writeVarint r.offsetDelta ++ encodeNullable r.key ++
    encodeNullable r.value ++ writeVarint r.headers.length

def body (r : Record) : Bytes :=
  r.front ++ r.headers.flatMap Header.encode

def encode (r : Record) : Bytes :=
  writeVarint r.body.length ++ r.body

structure WellFormed (r : Record) : Prop where
  timestampDelta : IsInt32 r.timestampDelta
  offsetDelta    : IsInt32 r.offsetDelta
  length_lt      : r.body.length < 2 ^ 31

-- The record with its offset and timestamp resolved.
def resolve (r : Record) (baseOffset baseTimestamp : Int) : DecodedRecord where
  offset    := int64 (baseOffset + r.offsetDelta)
  key       := r.key
  value     := r.value
  timestamp := int64 (baseTimestamp + r.timestampDelta)

end Record

namespace Batch

-- The fields that the checksum is taken over.
def checked (b : Batch) : Bytes :=
  putInt 16 b.attributes ++ putInt 32 b.lastOffsetDelta ++ putInt 64 b.baseTimestamp ++ putInt 64 b.maxTimestamp ++
    putInt 64 b.producerID ++ putInt 16 b.producerEpoch ++ putInt 32 b.baseSequence ++ putInt 32 b.records.length ++
    b.records.flatMap Record.encode

def encode (b : Batch) : Bytes :=
  putInt 64 b.baseOffset ++ putInt 32 (9 + b.checked.length) ++ putInt 32 b.partitionLeaderEpoch ++ [2] ++
    BigEndian.put 4 (Crc32.checksum b.checked) ++ b.checked

structure WellFormed (b : Batch) : Prop where
  uncompressed : b.attributes % 8 = 0
  length_lt    : b.records.length < 2 ^ 31
  records      : ∀ r ∈ b.records, r.WellFormed

-- What a reader of the batch should see.
def resolve (b : Batch) : List DecodedRecord :=
  b.records.map (·.resolve b.baseOffset b.baseTimestamp)

end Batch
end Format
end Protocol
