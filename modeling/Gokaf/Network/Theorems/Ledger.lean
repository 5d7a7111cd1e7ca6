import Gokaf.Network.Ledger
import Gokaf.Network.Theorems.Fetch
import Gokaf.Network.Theorems.Persistence
import Gokaf.Refinement
import Gokaf.Storage.Theorems.Directories

open Go Protocol Cluster

namespace Network

section Produce

variable {σ τ : Type*} {log log' : σ} {L L' : τ} {batch : Bytes}
  {r : Except IOError Int}

-- Two logs that answer an append alike are not told apart.
theorem producePartition_alike (append : Appender σ) (append' : Appender τ)
    (h : append log batch Batch.stamp = (log', r))
    (h' : append' L batch Batch.stamp = (L', r)) (nodeID : Int) (leader : Option Int) (topicName : Bytes)
    (partitionIndex : Int) (producers : Producer.Manager) :
    ∃ producers' produced log'' L'', (log'' = log ∧ L'' = L ∨ log'' = log' ∧ L'' = L') ∧
      producePartition append nodeID leader topicName partitionIndex batch producers (.ok log) =
        (producers', .ok log'', produced) ∧
      producePartition append' nodeID leader topicName partitionIndex batch producers (.ok L) =
        (producers', .ok L'', produced) := by
  unfold producePartition
  cases leader
  case none => exact ⟨_, _, log, L, .inl ⟨rfl, rfl⟩, rfl, rfl⟩
  case some leader =>
    by_cases hleader : leader ≠ nodeID
    case pos =>
      simp only [if_pos hleader]
      exact ⟨_, _, log, L, .inl ⟨rfl, rfl⟩, rfl, rfl⟩
    case neg =>
      by_cases hvalid : ¬validRecordBatch batch
      case pos =>
        simp only [if_neg hleader, if_pos hvalid]
        exact ⟨_, _, log, L, .inl ⟨rfl, rfl⟩, rfl, rfl⟩
      case neg =>
        by_cases hpid : 0 ≤ Batch.pid batch
        case neg =>
          simp only [if_neg hleader, if_neg hvalid, if_neg hpid, h, h']
          cases r
          case error => exact ⟨_, _, log', L', .inr ⟨rfl, rfl⟩, rfl, rfl⟩
          case ok    => exact ⟨_, _, log', L', .inr ⟨rfl, rfl⟩, rfl, rfl⟩
        case pos =>
          simp only [if_neg hleader, if_neg hvalid, if_pos hpid, Producer.Manager.appendBatch]
          rcases producers.checkSequenceLocked ⟨Batch.pid batch, topicName, partitionIndex⟩ (Batch.baseSeq batch)
            with ⟨decision, cachedOffset⟩
          cases decision
          case append =>
            simp only [h, h']
            cases r
            case error => exact ⟨_, _, log', L', .inr ⟨rfl, rfl⟩, rfl, rfl⟩
            case ok    => exact ⟨_, _, log', L', .inr ⟨rfl, rfl⟩, rfl, rfl⟩
          case duplicate  => exact ⟨_, _, log, L, .inl ⟨rfl, rfl⟩, rfl, rfl⟩
          case outOfOrder => exact ⟨_, _, log, L, .inl ⟨rfl, rfl⟩, rfl, rfl⟩

-- A batch for another broker, or a corrupt one, does not get as far as the log.
theorem producePartition_refused {nodeID : Int} {leader : Option Int}
    (h : ¬(leader = some nodeID ∧ validRecordBatch batch))
    (append : Appender σ) (append' : Appender τ) (log : Except IOError σ) (L : Except IOError τ) (topicName : Bytes)
    (partitionIndex : Int) (producers : Producer.Manager) :
    ∃ produced,
      producePartition append nodeID leader topicName partitionIndex batch producers log = (producers, log, produced) ∧
      producePartition append' nodeID leader topicName partitionIndex batch producers L = (producers, L, produced) := by
  unfold producePartition
  cases leader
  case none => exact ⟨_, rfl, rfl⟩
  case some leader =>
    by_cases hleader : leader ≠ nodeID
    case pos =>
      simp only [if_pos hleader]
      exact ⟨_, rfl, rfl⟩
    case neg =>
      have hvalid : ¬validRecordBatch batch := fun hvalid => h ⟨congrArg some (not_not.mp hleader), hvalid⟩
      simp only [if_neg hleader, if_pos hvalid]
      exact ⟨_, rfl, rfl⟩

end Produce

variable {b b' : Broker} {l l' : Ledger} {env : Env} {topic dataDir : Bytes} {partition : Int} {n n' : Nat}
  {record : Record}

-- The logs of the partitions can be opened.
def Housed (dataDir : Bytes) (record : Record) : Prop :=
  ∀ i < record.partitions.length, Storage.Ordinary (Storage.logDir dataDir record.topic i)

theorem closed_housed (dataDir : Bytes) : Closed (Housed dataDir) where
  delete _ _ := by simp [Housed]
  reassign alive deadID t partitions h hsome := by
    have heq : (failedOver alive deadID t).partitions = partitions := by rw [failedOver_of_some hsome]
    intro i hi
    rw [← heq, failedOver, List.length_map] at hi
    exact h i hi

-- A record that is read back as it was written, for a topic with directories of its own.
def Sound (dataDir : Bytes) (record : Record) : Prop :=
  Storable record ∧ Housed dataDir record

theorem closed_sound (dataDir : Bytes) : Closed (Sound dataDir) :=
  closed_storable.and (closed_housed dataDir)

-- A topic that the broker can store under its data directory.
structure Operable (dataDir name : Bytes) (numPartitions replicationFactor : Int) : Prop where
  apart    : Apart name
  ordinary : ∀ i < numPartitions.toNat, Storage.Ordinary (Storage.logDir dataDir name i)
  fits     : (Operation.createTopic name numPartitions replicationFactor).Fits
  isInt32  : IsInt32 numPartitions

instance (dataDir name : Bytes) (numPartitions replicationFactor : Int) :
    Decidable (Operable dataDir name numPartitions replicationFactor) :=
  decidable_of_iff (Apart name ∧ (∀ i < numPartitions.toNat, Storage.Ordinary (Storage.logDir dataDir name i)) ∧
      (Operation.createTopic name numPartitions replicationFactor).Fits ∧ IsInt32 numPartitions)
    ⟨fun h => ⟨h.left, h.right.left, h.right.right.left, h.right.right.right⟩,
      fun h => ⟨h.apart, h.ordinary, h.fits, h.isInt32⟩⟩

theorem Operable.sound {cluster : Membership} {name : Bytes} {numPartitions replicationFactor : Int}
    {partitions : List Topic.Partition} (h : Operable dataDir name numPartitions replicationFactor)
    (hnew : newPartitions cluster.ids numPartitions replicationFactor = .ok partitions) :
    Sound dataDir ⟨.topicUpsert, name, partitions⟩ := by
  refine ⟨storable_newPartitions h.apart h.fits hnew, ?_⟩
  have hbounds := bounds_of_newPartitions hnew
  obtain ⟨_, hok, hlen, -⟩ := newPartitions_eq_ok hbounds.left hbounds.right.left hbounds.right.right
  cases Except.ok.inj (hok.symm.trans hnew)
  rw [Housed, hlen]
  exact h.ordinary

theorem Usable.plain_consumerOffsets (h : Usable dataDir) : Storage.Plain dataDir consumerOffsets 0 :=
  ⟨by decide, le_rfl, h.offsets⟩

theorem Usable.plain_clusterMetadata (h : Usable dataDir) : Storage.Plain dataDir clusterMetadata 0 :=
  ⟨by decide, le_rfl, h.metadata⟩

namespace Ledger

-- What is in the logs of the data directory. The internal logs are two of them.
def contents (l : Ledger) (key : Bytes × Int) : List Bytes :=
  if key = (clusterMetadata, 0) then
    l.records.map encodeMetadataRecord
  else if key = (consumerOffsets, 0) then
    l.commits.map Offset.Commit.payload
  else
    l.batches key

theorem contents_of_apart (l : Ledger) (h : Apart topic) (partition : Int) :
    l.contents (topic, partition) = l.batches (topic, partition) := by
  rw [contents, if_neg fun heq => h.right.right (Prod.mk.inj heq).left,
    if_neg fun heq => h.right.left (Prod.mk.inj heq).left]

theorem contents_batches (l : Ledger) (h : Apart topic) (partition : Int) (L : List Bytes)
    (producers : Producer.Manager) :
    contents { l with batches := Function.update l.batches (topic, partition) L, producers } =
      Function.update l.contents (topic, partition) L := by
  funext key
  by_cases heq : key = (topic, partition)
  case pos =>
    rw [heq, contents_of_apart _ h, Function.update_self]
    exact Function.update_self ..
  case neg =>
    rw [Function.update_of_ne heq]
    simp only [contents, Function.update_of_ne heq]

theorem contents_commits (l : Ledger) (commits : List Offset.Commit) :
    contents { l with commits } =
      Function.update l.contents (consumerOffsets, 0) (commits.map Offset.Commit.payload) := by
  funext key
  by_cases heq : key = (consumerOffsets, 0)
  case pos =>
    rw [heq, Function.update_self]
    rfl
  case neg => rw [Function.update_of_ne heq, contents, contents, if_neg heq, if_neg heq]

theorem contents_records (l : Ledger) (records : List Record) :
    contents { l with records } =
      Function.update l.contents (clusterMetadata, 0) (records.map encodeMetadataRecord) := by
  funext key
  by_cases heq : key = (clusterMetadata, 0)
  case pos =>
    rw [heq, Function.update_self]
    rfl
  case neg => rw [Function.update_of_ne heq, contents, contents, if_neg heq, if_neg heq]

-- The broker has everything that is in the ledger, in memory and on disk.
structure Represents (dataDir : Bytes) (n : Nat) (b : Broker) (l : Ledger) : Prop where
  usable     : Usable dataDir
  dir        : b.logs.dataDir = dataDir
  metadata   : b.metadata.Stores (l.records.map encodeMetadataRecord)
  sound      : ∀ r ∈ l.records, Sound dataDir r
  topics     : b.topics = l.topics
  logs       : b.logs.Keeps l.contents
  closed     : b.logs.logs (Storage.logKey clusterMetadata 0) = none
  valid      : ∀ c ∈ l.commits, c.Valid
  offsets    : b.offsets = Offset.committed ∅ l.commits
  producers  : b.producers = l.producers
  records_le : l.records.length ≤ n
  commits_le : l.commits.length ≤ n
  batches_le : ∀ key, (l.batches key).length ≤ n

namespace Represents

theorem mono (h : Represents dataDir n b l) (hle : n ≤ n') : Represents dataDir n' b l :=
  { h with
    records_le     := h.records_le.trans hle
    commits_le     := h.commits_le.trans hle
    batches_le key := (h.batches_le key).trans hle }

theorem registryRecords (h : Represents dataDir n b l) : RegistryRecords (Sound dataDir) l.topics :=
  .replayed h.sound

theorem keyed (l : Ledger) : Keyed l.topics :=
  keyed_replayed l.records

theorem partition?_eq (h : Represents dataDir n b l) (topic : Bytes) (partition : Int) :
    b.partition? topic partition = l.partition? topic partition := by
  rw [Broker.partition?, partition?, h.topics]

-- An index into the partitions of a topic is one of a log that can be opened.
theorem plain_of_partition? (h : Represents dataDir n b l) {p : Topic.Partition}
    (hp : l.partition? topic partition = some p) : Apart topic ∧ Storage.Plain dataDir topic partition := by
  obtain ⟨t, ht, hp⟩ := Option.bind_eq_some_iff.mp hp
  split at hp
  case isTrue => contradiction
  case isFalse hnonneg =>
    obtain ⟨hstorable, hhoused⟩ := h.registryRecords topic t ht
    have hname : t.name = topic := keyed l topic t ht
    have hordinary := hhoused _ (List.getElem?_eq_some_iff.mp hp).fst
    have happart := hstorable.right.right
    rw [Record.upsert, hname] at happart hordinary
    rw [Int.toNat_of_nonneg (not_lt.mp hnonneg)] at hordinary
    exact ⟨happart, happart.left, not_lt.mp hnonneg, hordinary⟩

theorem ne_clusterMetadata (h : Represents dataDir n b l) (htopic : Apart topic)
    (hplain : Storage.Plain dataDir topic partition) :
    Storage.logKey clusterMetadata 0 ≠ Storage.logKey topic partition :=
  h.usable.plain_clusterMetadata.logKey_ne hplain fun heq => htopic.right.right (Prod.mk.inj heq).left.symm

theorem appendMetadata (h : Represents dataDir n b l) (hn : n + 1 < 2 ^ 63) (hrecord : Sound dataDir record) :
    ∃ b', b.appendMetadata record = (b', .none) ∧
      Represents dataDir (n + 1) b' { l with records := l.records ++ [record] } := by
  have hle := h.records_le
  obtain ⟨log, happend, hlog⟩ := h.metadata.append hrecord.left.right.left (by rw [List.length_map]; omega)
  rw [← List.map_singleton, ← List.map_append] at hlog
  have hlogs : (b.setMetadata log).logs.Keeps { l with records := l.records ++ [record] }.contents := by
    rw [contents_records]
    refine h.logs.write (h.dir ▸ h.usable.plain_clusterMetadata) h.closed ?_ fun dir hne => ?_
    · have hclose := hlog.openFiles_close
      rwa [← metadataDir_eq, Storage.Disk.write_self]
    · exact Storage.Disk.write_of_ne hne ..
  refine ⟨_, by rw [Broker.appendMetadata, MetadataLog.append, happend], ?_⟩
  exact { h.mono (Nat.le_succ n) with
    metadata       := hlog
    sound          := List.forall_mem_append.mpr ⟨h.sound, by simpa using hrecord⟩
    topics         := by
      change applyMetadataRecord b.topics record = replayed (l.records ++ [record])
      rw [replayed_append, h.topics]
      rfl
    logs           := hlogs
    records_le     := by
      rw [List.length_append, List.length_singleton]
      omega
  }

theorem createTopic (h : Represents dataDir n b l) (hn : n + 1 < 2 ^ 63) (env : Env) {name : Bytes}
    {numPartitions replicationFactor : Int} (hname : Operable dataDir name numPartitions replicationFactor) :
    ∃ b' l' code, b.createTopic env name numPartitions replicationFactor = (b', code) ∧
      l.createTopic env name numPartitions replicationFactor = (l', code) ∧ Represents dataDir (n + 1) b' l' := by
  unfold Broker.createTopic Ledger.createTopic
  cases hnew : newPartitions env.config.cluster.ids numPartitions replicationFactor
  case error code => exact ⟨b, l, code, rfl, rfl, h.mono (Nat.le_succ n)⟩
  case ok partitions =>
    by_cases hexists : (l.topics.get name).isSome
    case pos =>
      simp only [h.topics, if_pos hexists]
      exact ⟨b, l, _, rfl, rfl, h.mono (Nat.le_succ n)⟩
    case neg =>
      obtain ⟨b', heq, h'⟩ := h.appendMetadata hn (hname.sound hnew)
      simp only [h.topics, if_neg hexists, heq]
      exact ⟨b', _, _, rfl, rfl, h'⟩

theorem deleteTopic (h : Represents dataDir n b l) (hn : n + 1 < 2 ^ 63) (name : Bytes) :
    ∃ b' l' code, b.deleteTopic name = (b', code) ∧ l.deleteTopic name = (l', code) ∧
      Represents dataDir (n + 1) b' l' := by
  unfold Broker.deleteTopic Ledger.deleteTopic
  cases hget : l.topics.get name
  case none =>
    simp only [h.topics, hget]
    exact ⟨b, l, _, rfl, rfl, h.mono (Nat.le_succ n)⟩
  case some t =>
    have hdelete := (closed_sound dataDir).delete t (h.registryRecords name t hget)
    rw [keyed l name t hget] at hdelete
    obtain ⟨b', heq, h'⟩ := h.appendMetadata hn hdelete
    simp only [h.topics, hget, Option.isSome_some, if_true, heq]
    exact ⟨b', _, _, rfl, rfl, h'⟩

theorem asController (h : Represents dataDir n b l) (env : Env) (f : Broker → Broker × ErrorCode)
    (g : Ledger → Ledger × ErrorCode)
    (hfg : ∃ b' l' code, f b = (b', code) ∧ g l = (l', code) ∧ Represents dataDir (n + 1) b' l') :
    ∃ b' l' code, b.asController env f = (b', code) ∧ l.asController env g = (l', code) ∧
      Represents dataDir (n + 1) b' l' := by
  unfold Broker.asController Ledger.asController
  split
  case isTrue  => exact ⟨b, l, _, rfl, rfl, h.mono (Nat.le_succ n)⟩
  case isFalse => exact hfg

-- A log that is opened on the way.
theorem openLog (h : Represents dataDir n b l) (htopic : Apart topic) (hplain : Storage.Plain dataDir topic partition) :
    ∃ logs log, b.logs.log topic partition = (logs, .ok log) ∧ log.Stores (l.batches (topic, partition)) ∧
      Represents dataDir n { b with logs } l := by
  obtain ⟨logs, log, heq, hlog, hlogs⟩ := h.logs.log (h.dir ▸ hplain)
  rw [contents_of_apart l htopic] at hlog
  have hfst : (b.logs.log topic partition).fst = logs := by rw [heq]
  refine ⟨logs, log, heq, hlog, { h with dir := ?_, logs := hlogs, closed := ?_ }⟩
  · rw [← hfst, Storage.Manager.dataDir_log]
    exact h.dir
  · rw [← hfst, Storage.Manager.logs_log_of_ne (h.ne_clusterMetadata htopic hplain)]
    exact h.closed

theorem setLog {logs : Storage.Manager} {log : Storage.Log} {L : List Bytes}
    (h : Represents dataDir n { b with logs } l) (htopic : Apart topic)
    (hplain : Storage.Plain dataDir topic partition) (hlog : log.Stores L) (hlen : L.length ≤ n + 1)
    (producers : Producer.Manager) :
    Represents dataDir (n + 1) { b with logs := logs.set topic partition log, producers }
      { l with batches := Function.update l.batches (topic, partition) L, producers } := by
  have hbatches : ∀ key, (Function.update l.batches (topic, partition) L key).length ≤ n + 1 := by
    intro key
    by_cases heq : key = (topic, partition)
    case pos => rwa [heq, Function.update_self]
    case neg =>
      rw [Function.update_of_ne heq]
      exact (h.batches_le key).trans (Nat.le_succ n)
  exact { h.mono (Nat.le_succ n) with
    logs       := by
      rw [contents_batches l htopic]
      exact h.logs.set (h.dir ▸ hplain) hlog
    closed     := (Storage.Manager.logs_set_of_ne (h.ne_clusterMetadata htopic hplain) log).trans h.closed
    producers  := rfl
    batches_le := hbatches
  }

theorem produce (h : Represents dataDir n b l) (hn : n + 1 < 2 ^ 63) (env : Env) (topic : Bytes) (partition : Int)
    {batch : Bytes} (hbatch : batch.length < 2 ^ 32) (acks : Int) :
    ∃ b' l' response, b.producePartition env topic partition batch acks = (b', response) ∧
      l.produce env topic partition batch acks = (l', response) ∧ Represents dataDir (n + 1) b' l' := by
  unfold Broker.producePartition Ledger.produce
  rw [h.partition?_eq, h.producers]
  generalize hleader : (l.partition? topic partition).map (·.leader) = leader
  by_cases hled : leader = some env.config.nodeID ∧ validRecordBatch batch
  case neg =>
    obtain ⟨produced, heq, heq'⟩ := producePartition_refused hled Storage.Log.appendWithOffset
      (Storage.listAppend false) (.error .failed) (.ok (l.batches (topic, partition))) topic partition l.producers
    simp only [if_neg hled, heq, heq', Except.toOption, Option.getD_some, Function.update_eq_self]
    exact ⟨_, _, _, rfl, rfl, { h.mono (Nat.le_succ n) with producers := rfl }⟩
  case pos =>
    obtain ⟨p, hp, -⟩ := Option.map_eq_some_iff.mp (hleader.trans hled.left)
    obtain ⟨htopic, hplain⟩ := h.plain_of_partition? hp
    obtain ⟨logs, log, hopen, hlog, hinv⟩ := h.openLog htopic hplain
    have hlen := h.batches_le (topic, partition)
    obtain ⟨log', happend, hlog'⟩ := hlog.appendWithOffset Batch.stamp hbatch (by omega)
    have hlist : Storage.listAppend false (l.batches (topic, partition)) batch Batch.stamp =
        (l.batches (topic, partition) ++ [Batch.stamp.run (l.batches (topic, partition)).length batch],
          .ok (l.batches (topic, partition)).length) := rfl
    rw [hlist] at happend hlog'
    obtain ⟨producers, produced, log'', L, hcases, heq, heq'⟩ :=
      producePartition_alike Storage.Log.appendWithOffset (Storage.listAppend false) happend hlist
        env.config.nodeID leader topic partition l.producers
    simp only [if_pos hled, hopen, heq, heq', Except.toOption, Option.getD_some]
    refine ⟨_, _, _, rfl, rfl, hinv.setLog htopic hplain ?_ ?_ producers⟩
    · obtain ⟨rfl, rfl⟩ | ⟨rfl, rfl⟩ := hcases
      · exact hlog
      · exact hlog'
    · obtain ⟨-, rfl⟩ | ⟨-, rfl⟩ := hcases
      · omega
      · simpa using hlen

theorem answerFetch_eq {log : Storage.Log} {L : List Bytes} (hlog : log.Stores L)
    (partitionIndex highWatermark fetchOffset maxBytes : Int) :
    ∃ k, 0 < k ∧ answerFetch storageLog log partitionIndex log.endOffset highWatermark fetchOffset maxBytes =
      answerFetch (fetchable k) L partitionIndex L.length highWatermark fetchOffset maxBytes := by
  unfold answerFetch
  rw [hlog.endOffset]
  by_cases hrange : fetchOffset < 0 ∨ (L.length : Int) < fetchOffset
  case pos => exact ⟨1, Nat.one_pos, by simp only [if_pos hrange]⟩
  case neg =>
    by_cases hend : fetchOffset = L.length
    case pos => exact ⟨1, Nat.one_pos, by simp only [if_neg hrange, if_pos hend]⟩
    case neg =>
      obtain ⟨k, hpos, -, hread⟩ := hlog.read_of_lt (o := fetchOffset) (by omega) (by omega) maxBytes
      refine ⟨k, hpos, ?_⟩
      simp only [if_neg hrange, if_neg hend, storageLog, fetchable, hread]

theorem fetch (h : Represents dataDir n b l) (env : Env) (replicaID : Int) (topic : Bytes)
    (partition fetchOffset maxBytes : Int) :
    ∃ b' k, 0 < k ∧ b.fetchPartition env replicaID topic partition fetchOffset maxBytes =
      (b', l.fetch env replicaID topic partition fetchOffset maxBytes k) ∧ Represents dataDir n b' l := by
  unfold Broker.fetchPartition Ledger.fetch
  rw [h.partition?_eq]
  cases hp : l.partition? topic partition
  case none => exact ⟨b, 1, Nat.one_pos, rfl, h⟩
  case some p =>
    obtain ⟨htopic, hplain⟩ := h.plain_of_partition? hp
    obtain ⟨logs, log, hopen, hlog, hinv⟩ := h.openLog htopic hplain
    obtain ⟨k, hpos, heq⟩ := answerFetch_eq hlog partition
      (recordFetch (env.led topic partition) replicaID fetchOffset log.endOffset env.now).snd.snd fetchOffset maxBytes
    refine ⟨{ b with logs }, k, hpos, ?_, hinv⟩
    simp only [Option.isSome_some, if_true, hopen]
    refine Prod.ext rfl (heq.trans ?_)
    rw [hlog.endOffset]
    rfl

theorem listOffset (h : Represents dataDir n b l) (topic : Bytes) (partition timestamp : Int) :
    ∃ b', b.listOffset topic partition timestamp = (b', l.listOffset topic partition timestamp) ∧
      Represents dataDir n b' l := by
  unfold Broker.listOffset Ledger.listOffset
  rw [h.partition?_eq]
  cases hp : l.partition? topic partition
  case none => exact ⟨b, rfl, h⟩
  case some p =>
    obtain ⟨htopic, hplain⟩ := h.plain_of_partition? hp
    obtain ⟨logs, log, hopen, hlog, hinv⟩ := h.openLog htopic hplain
    simp only [Option.isSome_some, if_true, hopen, hlog.endOffset, hlog.startOffset]
    exact ⟨_, rfl, hinv⟩

theorem offsetCommit (h : Represents dataDir n b l) (hn : n + 1 < 2 ^ 63) (env : Env) {key : Offset.Key} {offset : Int}
    (hvalid : (Offset.Commit.mk key offset env.now).Valid) :
    ∃ b', b.commitOffset env key offset = (b', .none) ∧
      Represents dataDir (n + 1) b' { l with commits := l.commits ++ [⟨key, offset, env.now⟩] } := by
  have hplain := h.usable.plain_consumerOffsets
  obtain ⟨logs, log, hopen, hlog, hlogs⟩ := h.logs.log (h.dir ▸ hplain)
  have hstores : log.Stores (l.commits.map Offset.Commit.payload) := hlog
  have hle := h.commits_le
  obtain ⟨log', happend, hlog'⟩ := hstores.append hvalid.payload_lt (by rw [List.length_map]; omega)
  have hne : Storage.logKey clusterMetadata 0 ≠ Storage.logKey consumerOffsets 0 := by decide
  have hfst : (b.logs.log consumerOffsets 0).fst = logs := by rw [hopen]
  have hdir : logs.dataDir = dataDir := by rw [← hfst, Storage.Manager.dataDir_log, h.dir]
  refine ⟨_, by rw [Broker.commitOffset, Broker.commit_of_append hopen happend], ?_⟩
  exact { h.mono (Nat.le_succ n) with
    dir        := hdir
    logs       := by
      rw [contents_commits, List.map_append]
      exact hlogs.set (hdir ▸ hplain) hlog'
    closed     := by
      rw [Storage.Manager.logs_set_of_ne hne, ← hfst, Storage.Manager.logs_log_of_ne hne]
      exact h.closed
    valid      := List.forall_mem_append.mpr ⟨h.valid, by simpa using hvalid⟩
    offsets    := by
      rw [Offset.committed_append, ← h.offsets]
      rfl
    commits_le := by
      rw [List.length_append, List.length_singleton]
      omega
  }

theorem offsetFetch (h : Represents dataDir n b l) (key : Offset.Key) :
    b.fetchOffset key = Offset.lastOffset l.commits key := by
  rw [Broker.fetchOffset, h.offsets, Offset.lookup_committed_getD]

-- A broker that starts on the directories of a ledger.
theorem start {logs : Storage.Manager} (hlogs : logs.Keeps l.contents) (husable : Usable dataDir)
    (hdir : logs.dataDir = dataDir) (hclosed : logs.logs = fun _ => none) (hsound : ∀ r ∈ l.records, Sound dataDir r)
    (hvalid : ∀ c ∈ l.commits, c.Valid) (hrecords : l.records.length ≤ n) (hcommits : l.commits.length ≤ n)
    (hbatches : ∀ key, (l.batches key).length ≤ n) (hproducers : l.producers = .new) :
    ∃ b, Broker.start logs = .ok b ∧ Represents dataDir n b l := by
  subst hdir
  obtain ⟨disk, metadata, hopen, hmetadata, hkeeps⟩ := hlogs.openLog husable.plain_clusterMetadata (congrFun hclosed _)
  obtain ⟨logs', log, hopen', hlog, hlogs'⟩ := hkeeps.log husable.plain_consumerOffsets
  have hmetadata : metadata.Stores (l.records.map encodeMetadataRecord) := hmetadata
  have hlog : log.Stores (l.commits.map Offset.Commit.payload) := hlog
  have hne : Storage.logKey clusterMetadata 0 ≠ Storage.logKey consumerOffsets 0 := by decide
  have hfst : ({ logs with disk }.log consumerOffsets 0).fst = logs' := by rw [hopen']
  refine ⟨⟨l.topics, metadata, logs', .new, Offset.committed ∅ l.commits⟩, ?_, ?_⟩
  · exact Broker.start_eq hopen hopen' hmetadata (fun r hr => (hsound r hr).left.left) hlog hvalid
  · exact {
      usable     := husable
      dir        := by rw [← hfst, Storage.Manager.dataDir_log]
      metadata   := hmetadata
      sound      := hsound
      topics     := rfl
      logs       := hlogs'
      closed     := by
        rw [← hfst, Storage.Manager.logs_log_of_ne hne]
        exact congrFun hclosed _
      valid      := hvalid
      offsets    := rfl
      producers  := hproducers.symm
      records_le := hrecords
      commits_le := hcommits
      batches_le := hbatches
    }

theorem init (husable : Usable dataDir) :
    Broker.start (.new dataDir .empty) = .ok (.init dataDir) ∧ Represents dataDir 0 (.init dataDir) .empty := by
  have hcontents : empty.contents = fun _ => [] := by
    funext key
    rw [contents]
    split
    case isTrue  => rfl
    case isFalse => split <;> rfl
  have hkeeps : (Storage.Manager.new dataDir .empty).Keeps empty.contents := by
    rw [hcontents]
    exact Storage.Manager.keeps_new dataDir
  have hinit := (Broker.Internal.init husable).left
  obtain ⟨b, hstart, h⟩ := start hkeeps husable rfl rfl (by simp [empty]) (by simp [empty]) le_rfl le_rfl
    (fun _ => le_rfl) rfl
  cases hinit.symm.trans hstart
  exact ⟨hinit, h⟩

theorem restart (h : Represents dataDir n b l) :
    ∃ b', b.restart = .ok b' ∧ Represents dataDir n b' { l with producers := .new } :=
  start h.logs.close h.usable h.dir rfl h.sound h.valid h.records_le h.commits_le h.batches_le rfl

theorem crash (h : Represents dataDir n b l) (metadata : Storage.Remains) (logs : List (Bytes × Storage.Remains)) :
    ∃ b' l', b.crash metadata logs = .ok b' ∧ l'.records <+: l.records ∧ (∀ key, l'.batches key <+: l.batches key) ∧
      l'.commits <+: l.commits ∧ l'.producers = .new ∧ Represents dataDir n b' l' := by
  obtain ⟨log, hopen, hlog⟩ := h.metadata.openFiles_crash metadata.log metadata.index
  obtain ⟨f, hprefix, hlogs⟩ := h.logs.crash logs
  obtain ⟨k, hlog⟩ : ∃ k, log.Stores ((l.records.take k).map encodeMetadataRecord) := ⟨_, by rwa [List.map_take]⟩
  -- The log of the committed offsets is one of those that the crash has cut.
  have hcommits : f (consumerOffsets, 0) <+: l.commits.map Offset.Commit.payload := hprefix (consumerOffsets, 0)
  rw [List.prefix_iff_eq_take, ← List.map_take] at hcommits
  generalize (f (consumerOffsets, 0)).length = j at hcommits
  let l' : Ledger := {
    records     := l.records.take k
    batches key := if key = (clusterMetadata, 0) ∨ key = (consumerOffsets, 0) then l.batches key else f key
    commits     := l.commits.take j
    producers   := .new
  }
  have hcontents : l'.contents =
      Function.update f (clusterMetadata, 0) ((l.records.take k).map encodeMetadataRecord) := by
    funext key
    by_cases hmetadata : key = (clusterMetadata, 0)
    case pos =>
      rw [hmetadata, Function.update_self]
      rfl
    case neg =>
      rw [Function.update_of_ne hmetadata, contents, if_neg hmetadata]
      split
      case isTrue heq   => rw [heq, hcommits]
      case isFalse heq => exact if_neg (not_or.mpr ⟨hmetadata, heq⟩)
  have hbatches : ∀ key, l'.batches key <+: l.batches key := by
    intro key
    change (if _ then _ else _) <+: _
    split
    case isTrue => exact List.prefix_rfl
    case isFalse hinternal =>
      obtain ⟨hmetadata, hoffsets⟩ := not_or.mp hinternal
      have hkey := hprefix key
      rwa [contents, if_neg hmetadata, if_neg hoffsets] at hkey
  have hplain : Storage.Plain (b.logs.crash logs).dataDir clusterMetadata 0 := by
    have hplain := h.usable.plain_clusterMetadata
    rwa [← h.dir] at hplain
  have hdisk : ∃ log, Storage.openFiles ((b.logs.crash logs).disk.write (metadataDir b.logs.dataDir)
      (b.metadata.crash metadata.log metadata.index) (metadataDir b.logs.dataDir)) = .ok log ∧
      log.Stores ((l.records.take k).map encodeMetadataRecord) :=
    ⟨log, by rwa [Storage.Disk.write_self], hlog⟩
  have hkeeps := hlogs.write hplain rfl hdisk fun dir hne => Storage.Disk.write_of_ne hne ..
  rw [← hcontents] at hkeeps
  obtain ⟨b', heq, h'⟩ := start hkeeps h.usable h.dir rfl
    (fun r hr => h.sound r (List.mem_of_mem_take hr)) (fun c hc => h.valid c (List.mem_of_mem_take hc))
    ((List.length_take_le' ..).trans h.records_le) ((List.length_take_le' ..).trans h.commits_le)
    (fun key => (hbatches key).length_le.trans (h.batches_le key)) rfl
  exact ⟨b', l', heq, List.take_prefix .., hbatches, List.take_prefix .., rfl, h'⟩

end Represents

-- What a request asks for fits the fields it is written to, and a new topic the data directory.
def Fits (dataDir : Bytes) (a : Env × Service.Request) : Prop :=
  match a.snd with
  | .createTopic name numPartitions replicationFactor => Operable dataDir name numPartitions replicationFactor
  | .produce _ _ batch _      => batch.length < 2 ^ 32
  | .offsetCommit key offset  => (Offset.Commit.mk key offset a.fst.now).Valid
  | _                         => True

instance (dataDir : Bytes) : DecidablePred (Fits dataDir) := fun _ => by
  unfold Fits
  split <;> infer_instance

theorem refinesUpTo (dataDir : Bytes) :
    Service.machine.RefinesUpTo Step (Fits dataDir) (2 ^ 63 - 2) (Represents dataDir) where
  step := by
    rintro n b l ⟨env, request⟩ hn h hfits
    have hsucc : n + 1 < 2 ^ 63 := by omega
    cases request
    case createTopic name numPartitions replicationFactor =>
      obtain ⟨b', l', code, heq, heq', h'⟩ := h.asController env
        (·.createTopic env name numPartitions replicationFactor)
        (·.createTopic env name numPartitions replicationFactor) (h.createTopic hsucc env hfits)
      exact ⟨b', _, l', by simp [Service.machine, Service.exec, heq], .createTopic heq', h'⟩
    case deleteTopic name =>
      obtain ⟨b', l', code, heq, heq', h'⟩ := h.asController env (·.deleteTopic name) (·.deleteTopic name)
        (h.deleteTopic hsucc name)
      exact ⟨b', _, l', by simp [Service.machine, Service.exec, heq], .deleteTopic heq', h'⟩
    case produce topic partition batch acks =>
      obtain ⟨b', l', response, heq, heq', h'⟩ := h.produce hsucc env topic partition hfits acks
      exact ⟨b', _, l', by simp [Service.machine, Service.exec, heq], .produce heq', h'⟩
    case fetch replicaID topic partition fetchOffset maxBytes =>
      obtain ⟨b', k, hpos, heq, h'⟩ := h.fetch env replicaID topic partition fetchOffset maxBytes
      exact ⟨b', _, l, by simp [Service.machine, Service.exec, heq], .fetch hpos, h'.mono (Nat.le_succ n)⟩
    case listOffset topic partition timestamp =>
      obtain ⟨b', heq, h'⟩ := h.listOffset topic partition timestamp
      exact ⟨b', _, l, by simp [Service.machine, Service.exec, heq], .listOffset, h'.mono (Nat.le_succ n)⟩
    case offsetCommit key offset =>
      obtain ⟨b', heq, h'⟩ := h.offsetCommit hsucc env hfits
      exact ⟨b', _, _, by simp [Service.machine, Service.exec, heq], .offsetCommit, h'⟩
    case offsetFetch key =>
      exact ⟨b, _, l, by simp [Service.machine, Service.exec, h.offsetFetch], .offsetFetch, h.mono (Nat.le_succ n)⟩
    case initProducerID =>
      rcases hinit : l.producers.initProducerID with ⟨producers, pid, epoch⟩
      have heq : b.initProducerID = ({ b with producers }, pid, epoch) := by
        rw [Broker.initProducerID, h.producers, hinit]
      exact ⟨{ b with producers }, _, _, by simp [Service.machine, Service.exec, heq], .initProducerID hinit,
        { h.mono (Nat.le_succ n) with producers := rfl }⟩
    case restart =>
      obtain ⟨b', heq, h'⟩ := h.restart
      exact ⟨b', _, _, by simp [Service.machine, Service.exec, heq, Except.toOption], .restart, h'.mono (Nat.le_succ n)⟩
    case crash metadata logs =>
      obtain ⟨b', l', heq, hrecords, hbatches, hcommits, hproducers, h'⟩ := h.crash metadata logs
      exact ⟨b', _, l', by simp [Service.machine, Service.exec, heq, Except.toOption],
        .crash hrecords hbatches hcommits hproducers, h'.mono (Nat.le_succ n)⟩

section Example

def sampleBatch : Bytes :=
  Batch.headerOnly (-1) (-1) 1

-- The second batch is only partly on disk.
def sampleLife : List (Env × Service.Request) := [
  (Broker.sampleEnv, .createTopic [116] 1 1), (Broker.sampleEnv, .produce [116] 0 sampleBatch 1),
  (Broker.sampleEnv, .produce [116] 0 sampleBatch 1), (Broker.sampleEnv, .offsetCommit ⟨[103], [116], 0⟩ 1),
  (Broker.sampleEnv, .crash ⟨1000, 0⟩ [(Storage.logKey [116] 0, ⟨100, 0⟩)]),
  (Broker.sampleEnv, .listOffset [116] 0 (-1)), (Broker.sampleEnv, .offsetFetch ⟨[103], [116], 0⟩)]

end Example

section Durable

variable {a : Env × Service.Request} {as bs : List (Env × Service.Request)} {answers : List Service.Answer}
  {batch : Bytes} {acks offset : Int} {response : ProducePartitionResponse}

theorem waitForAllAcks_eq_none {produced : Produced}
    (h : (waitForAllAcks env topic partition acks produced).errorCode = .none) :
    waitForAllAcks env topic partition acks produced = produced.response := by
  cases produced
  case answer => rfl
  case waitForAllAcks response =>
    by_cases hacks : acks ≠ -1 ∨ response.errorCode ≠ .none
    case pos => simp only [Network.waitForAllAcks, if_pos hacks, Produced.response]
    case neg =>
      simp only [Network.waitForAllAcks, if_neg hacks] at h ⊢
      split
      case isTrue => rfl
      case isFalse htime =>
        rw [if_neg htime] at h
        contradiction

-- The list of a partition with the batch behind its entries.
def extended (l : Ledger) (topic : Bytes) (partition : Int) (batch : Bytes) : Bytes × Int → List Bytes :=
  Function.update l.batches (topic, partition)
    (l.batches (topic, partition) ++ [Batch.withBaseOffset batch (l.batches (topic, partition)).length])

theorem extended_self (l : Ledger) (topic : Bytes) (partition : Int) (batch : Bytes) :
    l.extended topic partition batch (topic, partition) =
      l.batches (topic, partition) ++ [Batch.withBaseOffset batch (l.batches (topic, partition)).length] :=
  Function.update_self ..

theorem extended_of_ne {key : Bytes × Int} (l : Ledger) (batch : Bytes) (h : key ≠ (topic, partition)) :
    l.extended topic partition batch key = l.batches key :=
  Function.update_of_ne h ..

-- All that a produce can do to a ledger. A batch is put behind the others or not at all.
inductive Takes (l : Ledger) (topic : Bytes) (partition : Int) (batch : Bytes) :
    ProducePartitionResponse → Ledger → Prop
  | refused {response : ProducePartitionResponse} :
    response.errorCode ≠ .none → Takes l topic partition batch response l
  | duplicate {offset : Int} : 0 ≤ Batch.pid batch →
    l.producers.checkSequenceLocked ⟨Batch.pid batch, topic, partition⟩ (Batch.baseSeq batch) = ⟨.duplicate, offset⟩ →
    Takes l topic partition batch ⟨partition, .none, offset⟩ l
  | appended {response : ProducePartitionResponse} : 0 ≤ Batch.pid batch →
    (l.producers.checkSequenceLocked ⟨Batch.pid batch, topic, partition⟩ (Batch.baseSeq batch)).decision = .append →
    (response.errorCode = .none → response.baseOffset = (l.batches (topic, partition)).length) →
    Takes l topic partition batch response
      { l with
        batches   := l.extended topic partition batch
        producers := l.producers.committedLocked ⟨Batch.pid batch, topic, partition⟩ (Batch.baseSeq batch)
          (Batch.recordCount batch) (l.batches (topic, partition)).length }
  | plain {response : ProducePartitionResponse} : Batch.pid batch < 0 →
    (response.errorCode = .none → response.baseOffset = (l.batches (topic, partition)).length) →
    Takes l topic partition batch response { l with batches := l.extended topic partition batch }

theorem takes (h : l.produce env topic partition batch acks = (l', response)) :
    Takes l topic partition batch response l' := by
  unfold Ledger.produce at h
  rcases hp : Network.producePartition (Storage.listAppend false) env.config.nodeID
    ((l.partition? topic partition).map (·.leader)) topic partition batch l.producers
    (.ok (l.batches (topic, partition))) with ⟨producers, L, produced⟩
  simp only [hp] at h
  cases h
  cases Network.produces hp
  case refused r hr =>
    simp only [Except.toOption, Option.getD_some, Function.update_eq_self]
    exact .refused hr
  case failed hok happend hr => simp [Storage.listAppend] at happend
  case duplicate hok hpid hcheck =>
    cases hok
    simp only [Except.toOption, Option.getD_some, Function.update_eq_self]
    exact .duplicate hpid hcheck
  case appended hok hpid hcheck happend =>
    cases hok
    cases happend
    exact .appended hpid hcheck fun hnone => by rw [waitForAllAcks_eq_none hnone]; rfl
  case plain hok hpid happend =>
    cases hok
    cases happend
    exact .plain hpid fun hnone => by rw [waitForAllAcks_eq_none hnone]; rfl

theorem eq_or_of_asController {f : Ledger → Ledger × ErrorCode} {code : ErrorCode}
    (h : l.asController env f = (l', code)) : l' = l ∨ l' = (f l).fst := by
  unfold Ledger.asController at h
  split at h
  case isTrue =>
    cases h
    exact .inl rfl
  case isFalse =>
    rw [h]
    exact .inr rfl

theorem isPrefix_extended (l : Ledger) (topic : Bytes) (partition : Int) (batch : Bytes) (key : Bytes × Int) :
    l.batches key <+: l.extended topic partition batch key := by
  by_cases hkey : key = (topic, partition)
  case pos =>
    rw [hkey, extended_self]
    exact List.prefix_append ..
  case neg => rw [extended_of_ne l batch hkey]

def IsCrash : Service.Request → Prop
  | .crash .. => True
  | _         => False

theorem batches_isPrefix (h : Step l a answers l') (hcrash : ¬IsCrash a.snd) (key : Bytes × Int) :
    l.batches key <+: l'.batches key := by
  cases h
  case createTopic env name numPartitions replicationFactor code heq =>
    obtain rfl | rfl := eq_or_of_asController heq
    case inl => exact List.prefix_rfl
    case inr =>
      unfold Ledger.createTopic
      split
      case h_1 => exact List.prefix_rfl
      case h_2 => split <;> exact List.prefix_rfl
  case deleteTopic env name code heq =>
    obtain rfl | rfl := eq_or_of_asController heq
    case inl => exact List.prefix_rfl
    case inr =>
      unfold Ledger.deleteTopic
      split <;> exact List.prefix_rfl
  case produce env topic batch partition acks response heq =>
    cases takes heq
    case refused   => exact List.prefix_rfl
    case duplicate => exact List.prefix_rfl
    case appended  => exact l.isPrefix_extended ..
    case plain     => exact l.isPrefix_extended ..
  case crash => exact absurd trivial hcrash
  all_goals exact List.prefix_rfl

theorem fetch_of_lt {i k : Nat} (hknown : (l.partition? topic partition).isSome)
    (hi : i < (l.batches (topic, partition)).length) (env : Env) (replicaID maxBytes : Int) :
    (l.fetch env replicaID topic partition i maxBytes k).errorCode = .none ∧
      (l.fetch env replicaID topic partition i maxBytes k).records =
        some (((l.batches (topic, partition)).drop i).take k).flatten := by
  have hrange : ¬((i : Int) < 0 ∨ ((l.batches (topic, partition)).length : Int) < i) := by omega
  have hend : ¬(i : Int) = (l.batches (topic, partition)).length := by omega
  simp only [Ledger.fetch, Network.fetchPartition, hknown, not_true_eq_false, if_false, answerFetch, fetchable,
    Int.toNat_natCast, joinRecordPayloads_recordsFrom]
  rw [if_neg hrange, if_neg hend]
  exact ⟨rfl, rfl⟩

-- A record that was acknowledged is found at its offset by everyone who knows the topic, after any number of requests
-- and restarts.
theorem acknowledged_readable {b₁ b₂ b₃ : Broker} {answers₁ answers₂ : List Service.Answer} (hdir : Usable dataDir)
    (hn : as.length + bs.length + 1 < 2 ^ 63 - 2)
    (hfits : ∀ a ∈ as ++ (env, .produce topic partition batch acks) :: bs, Fits dataDir a)
    (hcrash : ∀ a ∈ bs, ¬IsCrash a.snd) (hpid : Batch.pid batch < 0)
    (hr₁ : Service.machine.run (.init dataDir) as = some (b₁, answers₁))
    (hproduce : Service.exec env b₁ (.produce topic partition batch acks) =
      some (b₂, .produced ⟨partition, .none, offset⟩))
    (hr₂ : Service.machine.run b₂ bs = some (b₃, answers₂)) (hknown : (b₃.partition? topic partition).isSome)
    (env' : Env) (replicaID maxBytes : Int) :
    (b₃.fetchPartition env' replicaID topic partition offset maxBytes).snd.errorCode = .none ∧
      ∃ bytes, (b₃.fetchPartition env' replicaID topic partition offset maxBytes).snd.records = some bytes ∧
        Batch.withBaseOffset batch offset <+: bytes := by
  have hmem : ∀ a ∈ as, Fits dataDir a := fun a ha => hfits a (List.mem_append_left _ ha)
  obtain ⟨s₁, os₁, l₁, hrun₁, -, h₁⟩ := (refinesUpTo dataDir).run (Represents.init hdir).right (by omega) hmem
  cases hrun₁.symm.trans hr₁
  obtain ⟨s₂, o, l₂, hstep, hproduced, h₂⟩ := (refinesUpTo dataDir).step (by omega) h₁
    (hfits (env, .produce topic partition batch acks) (by simp))
  simp only [Service.machine, hproduce, Option.map_some] at hstep
  cases hstep
  have hmem' : ∀ a ∈ bs, Fits dataDir a := fun a ha => hfits a (by simp [ha])
  obtain ⟨s₃, os₃, l₃, hrun₃, htrace, h₃⟩ := (refinesUpTo dataDir).run h₂ (by omega) hmem'
  cases hrun₃.symm.trans hr₂
  cases hproduced
  case produce heq =>
    cases takes heq
    case refused hrefused  => exact absurd rfl hrefused
    case duplicate hpid' _ => omega
    case appended hpid' _ _ => omega
    case plain _ hoffset =>
      have hoffset : offset = (l₁.batches (topic, partition)).length := hoffset rfl
      have hprefix : l₁.extended topic partition batch (topic, partition) <+: l₃.batches (topic, partition) :=
        htrace.invariant (P := fun t => l₁.extended topic partition batch (topic, partition) <+:
          t.batches (topic, partition))
          (D := fun a => ¬IsCrash a.snd) (fun hp hc hT => hp.trans (batches_isPrefix hT hc _)) List.prefix_rfl hcrash
      rw [extended_self] at hprefix
      obtain ⟨rest, hrest⟩ := hprefix
      obtain ⟨b', k, hpos, hfetch, -⟩ := h₃.fetch env' replicaID topic partition offset maxBytes
      rw [h₃.partition?_eq] at hknown
      have hlt : (l₁.batches (topic, partition)).length < (l₃.batches (topic, partition)).length := by
        rw [← hrest, List.length_append, List.length_append, List.length_singleton]
        omega
      obtain ⟨hcode, hrecords⟩ := fetch_of_lt (k := k) hknown hlt env' replicaID maxBytes
      rw [hfetch, hoffset]
      refine ⟨hcode, _, hrecords, ?_⟩
      obtain ⟨k, rfl⟩ : ∃ j, k = j + 1 := ⟨k - 1, by omega⟩
      rw [← hrest, List.append_assoc, List.drop_left, List.singleton_append, List.take_succ_cons, List.flatten_cons]
      exact List.prefix_append ..

-- The topic is deleted and created again, and the broker is restarted.
theorem acknowledged_readable_recreated :
    ∃ b₁ b₂ b₃ answers₁ answers₂, Service.machine.run (.init [100]) [(Broker.sampleEnv, .createTopic [116] 1 1)] =
        some (b₁, answers₁) ∧
      Service.exec Broker.sampleEnv b₁ (.produce [116] 0 sampleBatch 1) = some (b₂, .produced ⟨0, .none, 0⟩) ∧
      Service.machine.run b₂ [(Broker.sampleEnv, .deleteTopic [116]), (Broker.sampleEnv, .createTopic [116] 1 1),
        (Broker.sampleEnv, .restart)] = some (b₃, answers₂) ∧
      (b₃.fetchPartition Broker.sampleEnv (-1) [116] 0 0 1).snd.errorCode = .none := by
  have hrun : ((Service.machine.run (.init [100]) [(Broker.sampleEnv, .createTopic [116] 1 1)]).bind fun r₁ =>
      (Service.exec Broker.sampleEnv r₁.fst (.produce [116] 0 sampleBatch 1)).bind fun r₂ =>
      (Service.machine.run r₂.fst [(Broker.sampleEnv, .deleteTopic [116]), (Broker.sampleEnv, .createTopic [116] 1 1),
        (Broker.sampleEnv, .restart)]).map fun r₃ => (r₂.snd, (r₃.fst.partition? [116] 0).isSome)) =
      some (.produced ⟨0, .none, 0⟩, true) := by decide +kernel
  obtain ⟨⟨b₁, answers₁⟩, hr₁, hrun⟩ := Option.bind_eq_some_iff.mp hrun
  obtain ⟨⟨b₂, answer⟩, hproduce, hrun⟩ := Option.bind_eq_some_iff.mp hrun
  obtain ⟨⟨b₃, answers₂⟩, hr₂, heq⟩ := Option.map_eq_some_iff.mp hrun
  obtain ⟨rfl, hknown⟩ := Prod.mk.inj heq
  refine ⟨b₁, b₂, b₃, answers₁, answers₂, hr₁, hproduce, hr₂, ?_⟩
  have hdir : Usable [100] := by decide +kernel
  exact (acknowledged_readable hdir (by decide) (by decide +kernel) (by simp [IsCrash]) (by decide +kernel) hr₁
    hproduce hr₂ hknown Broker.sampleEnv (-1) 1).left

end Durable

end Ledger
end Network
