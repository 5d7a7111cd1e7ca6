import Gokaf.Protocol.Errors
import Gokaf.Protocol.Types
import Gokaf.Storage.Log

open Go Protocol

namespace Replication

-- The `maxBytes` of every fetcher.
def fetchMaxBytes : Int := 1 <<< 20

def buildFetchRequest (replicaID : Int) (topicName : Bytes) (partition offset maxBytes : Int) : Bytes :=
  writeInt32 replicaID ++ writeInt32 0 ++ writeInt32 1 ++ writeArrayLen 1 ++ writeString topicName ++
    writeArrayLen 1 ++ writeInt32 partition ++ writeInt64 offset ++ writeInt32 maxBytes

def parseFetchPartition : Decoder (Option Bytes × Int) := do
  let topicCount ← readArrayLen
  if topicCount = 0 then
    return (none, ErrorCode.unknown.code)
  else
    let _ ← readString
    let partitionCount ← readArrayLen
    if partitionCount = 0 then
      return (none, ErrorCode.unknown.code)
    else
      let _ ← readInt32
      let errorCode ← readInt16
      let _ ← readInt64
      let batches ← readBytes
      return (batches, errorCode)

-- Each round takes at least twelve bytes off the input, so its length bounds their number.
def splitBatches (b : Bytes) : List Bytes :=
  go (b.length + 1) b
where
  go : Nat → Bytes → List Bytes
    | 0, _ => []
    | fuel + 1, b =>
      if 12 ≤ b.length then
        let total := 12 + BigEndian.uint (slice b 8 12)
        if b.length < total ∨ total < 12 then [] else b.take total :: go fuel (b.drop total)
      else
        []

-- The batches that `fetchOnce` goes on to append when it gets the response `resp`.
def batchesOf (resp : Bytes) : List Bytes :=
  match parseFetchPartition.run resp with
  | .error _ => []
  | .ok ((batches, errorCode), _) =>
    if errorCode ≠ ErrorCode.none.code ∨ (batches.getD []).length = 0 then
      []
    else
      splitBatches (batches.getD [])

-- The loop at the end of `fetchOnce`.
def appendAll (l : Storage.Log) : List Bytes → Storage.Log
  | [] => l
  | batch :: batches =>
    match l.append batch with
    | (l, .ok _)    => appendAll l batches
    | (l, .error _) => l

end Replication
