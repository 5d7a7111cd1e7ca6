import Gokaf.Network.Fetch
import Gokaf.Network.Produce
import Gokaf.Protocol.RecordBatch
import Gokaf.Storage.Execution

open Go Protocol

namespace Network

def storageLog : Fetchable Storage.Log where
  endOffset := Storage.Log.endOffset
  read := Storage.Log.read

-- The log after a sequence of produce requests for a partition that this broker leads, if every batch
-- of it is accepted into the log.
def accept (nodeID : Int) (topicName : Bytes) (partitionIndex : Int) :
    Storage.Log → Producer.Manager → List Bytes → Option Storage.Log
  | l, _, [] => some l
  | l, producers, batch :: batches =>
    match producePartition Storage.Log.appendWithOffset nodeID (some nodeID) topicName partitionIndex batch
        producers (.ok l) with
    | (producers, .ok l, .waitForAllAcks _) => accept nodeID topicName partitionIndex l producers batches
    | _ => none

-- All records of a log, entry by entry.
def stored (l : Storage.Log) : Except Fault (List DecodedRecord) :=
  match l.readAll (fun _ => 0) (l.endOffset.toNat + 1) 0 with
  | .error e => .error (.error (.io e))
  | .ok rs   => decodeRecordBatches (joinRecordPayloads rs)

-- A consumer that fetches behind the last record it got until it reaches the end of the log. It is
-- stuck if a fetch gives it nothing.
def consume (l : Storage.Log) (maxBytes : Int → Int) : Nat → Int → Except Fault (List DecodedRecord)
  | 0, _ => .error .parked
  | fuel + 1, offset =>
    if l.endOffset ≤ offset then
      .ok []
    else
      match fetchPartition storageLog true (.ok l) none (-1) 0 offset (maxBytes offset) 0 with
      | (_, _, response) =>
        match decodeRecordBatches (response.records.getD []) with
        | .error e => .error e
        | .ok records =>
          match records.getLast? with
          | none => .error .parked
          | some r =>
            match consume l maxBytes fuel (int64 (r.offset + 1)) with
            | .error e     => .error e
            | .ok records' => .ok (records ++ records')

-- No two records of the log have the same offset, offsets go up, and a consumer gets every record
-- once and in order.
def SeenOnce (l : Storage.Log) : Prop :=
  ∃ rs, stored l = .ok rs ∧ (rs.map (·.offset)).Nodup ∧ (rs.map (·.offset)).Pairwise (· < ·) ∧
    ∀ maxBytes, ∃ fuel, consume l maxBytes fuel 0 = .ok rs

-- A well-formed batch with the given records, as they read at base offset zero: their offset deltas
-- count up from zero.
@[mk_iff]
structure Carries (batch : Bytes) (rs : List DecodedRecord) : Prop where
  length_lt : batch.length < 2 ^ 31
  length_eq : 12 + BigEndian.uint (slice batch 8 12) = batch.length
  decoded   : decodeOneBatch (Batch.withBaseOffset batch 0) = .ok rs
  deltas    : rs.map (·.offset) = (List.range rs.length).map (fun k : Nat => (k : Int))
  nonempty  : rs ≠ []

instance (batch : Bytes) (rs : List DecodedRecord) : Decidable (Carries batch rs) :=
  decidable_of_iff _ (carries_iff batch rs).symm

end Network
