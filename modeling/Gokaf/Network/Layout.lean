import Gokaf.Network.Dispatch
import Gokaf.Protocol.Layout

open Go Protocol

namespace Network

def topicsLayout (partition : List Layout) : Layout :=
  .array true (.fields [.string, .array true (.fields partition)])

def createTopicLayout : Layout :=
  .fields [.string, .fixed 4, .fixed 2, .array false (.fields [.fixed 4, .array false (.fixed 4)]),
    .array false (.fields [.string, .nullableString])]

def partitionLayout : Layout :=
  .fields [.fixed 4, .fixed 4, .array true (.fixed 4), .array true (.fixed 4)]

-- What the handlers read.
def API.layout : API → Layout
  | produce          => .fields [.fixed 2, .fixed 4, topicsLayout [.fixed 4, .bytes]]
  | fetch            => .fields [.fixed 4, .fixed 4, .fixed 4, topicsLayout [.fixed 4, .fixed 8, .fixed 4]]
  | listOffsets      => .fields [.fixed 4, topicsLayout [.fixed 4, .fixed 8]]
  | metadata         => .array false .string
  | offsetCommit     => .fields [.string, topicsLayout [.fixed 4, .fixed 8, .nullableString]]
  | offsetFetch      => .fields [.string, topicsLayout [.fixed 4]]
  | findCoordinator  => .fields [.string]
  | joinGroup        => .fields [.string, .fixed 4, .string, .string, .array true (.fields [.string, .bytes])]
  | heartbeat        => .fields [.string, .fixed 4, .string]
  | leaveGroup       => .fields [.string, .string]
  | syncGroup        => .fields [.string, .fixed 4, .string, .array false (.fields [.string, .bytes])]
  | createTopics     => .fields [.array true createTopicLayout, .fixed 4]
  | deleteTopics     => .fields [.array true (.fields [.string]), .fixed 4]
  | initProducerID   => .fields [.nullableString, .fixed 4]
  | applyTopic       => .fields [.string, .array true partitionLayout]
  | fetchMetadataLog => .fields [.fixed 8]
  | apiVersions      => .none
  | ping             => .none

def requestHeaderLayout : Layout :=
  .fields [.fixed 2, .fixed 2, .fixed 4, .nullableString]

def requestLayout (apiKey : Int) : Layout :=
  (API.ofKey apiKey).elim .none API.layout

-- The key stands in the first two bytes.
def requestExtent (payload : Bytes) : Extent :=
  (requestHeaderLayout.scan payload).bind (requestLayout (sint 16 (payload.take 2))).scan

def assignmentLayout : Layout :=
  .fields [.fixed 2, .array true (.fields [.string, .array true (.fixed 4)])]

def recordLayout : Layout :=
  .fields [.varint, .fixed 1, .varint, .varint, .varintBytes, .varintBytes, .varint]

-- The records of a batch, whose number stands in its header.
def batchExtent (batch : Bytes) : Extent :=
  if batch.length < recordBatchHeaderLen ∨ batch[16]? ≠ some 2 then
    .cut
  else if Batch.recordCount batch < 0 then
    .negative (Batch.recordCount batch)
  else
    .times recordLayout.scan (Batch.recordCount batch).toNat (batch.drop recordBatchHeaderLen)

-- The batches one after another, up to one that is not there as a whole.
def batchesExtent (raw : Bytes) : Extent :=
  go (raw.length + 1) raw
where
  go : Nat → Bytes → Extent
    | 0, raw => .ends raw
    | fuel + 1, raw =>
      let total := 12 + BigEndian.uint (slice raw 8 12)
      if 12 ≤ raw.length ∧ recordBatchHeaderLen ≤ total ∧ total ≤ raw.length then
        (batchExtent (raw.take total)).bind fun _ => go fuel (raw.drop total)
      else
        .ends raw

end Network
