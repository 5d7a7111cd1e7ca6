import Gokaf.Network.Theorems.Creation
import Gokaf.Network.Theorems.Handlers
import Gokaf.Storage.Theorems.Growth

open Go Protocol Cluster Effect

namespace Network
namespace Broker

variable {env : Env} {b b' b'' : Broker}

-- Nothing has changed. An open log has the contents of its files, so its directory is not looked at as well. The
-- metadata log is always open.
structure Unchanged (b b' : Broker) : Prop where
  topics    : b'.topics = b.topics
  metadata  : b'.metadata = b.metadata
  producers : b'.producers = b.producers
  offsets   : b'.offsets = b.offsets
  dataDir   : b'.logs.dataDir = b.logs.dataDir
  logs      : b'.logs.logs = b.logs.logs
  disk      : ∀ path, path ≠ metadataDir b.logs.dataDir → (∀ topic partition,
    b.logs.logs (Storage.logKey topic partition) ≠ none → Storage.logDir b.logs.dataDir topic partition ≠ path) →
    b'.logs.disk path = b.logs.disk path

theorem Unchanged.refl (b : Broker) : b.Unchanged b :=
  ⟨rfl, rfl, rfl, rfl, rfl, rfl, fun _ _ _ => rfl⟩

theorem Unchanged.trans (h : b.Unchanged b') (h' : b'.Unchanged b'') : b.Unchanged b'' where
  topics    := h'.topics.trans h.topics
  metadata  := h'.metadata.trans h.metadata
  producers := h'.producers.trans h.producers
  offsets   := h'.offsets.trans h.offsets
  dataDir   := h'.dataDir.trans h.dataDir
  logs      := h'.logs.trans h.logs
  disk path hmetadata hpath := by
    refine (h'.disk path ?_ ?_).trans (h.disk path hmetadata hpath)
    · rwa [h.dataDir]
    · rw [h.logs, h.dataDir]
      exact hpath

-- How much there is in the metadata log, and in each log of the manager that is open.
def extent (b : Broker) : Nat × (Bytes → Nat) :=
  (b.metadata.volume, fun key => (b.logs.logs key).elim 0 (·.volume + 1))

theorem Unchanged.extent_eq (h : b.Unchanged b') : b'.extent = b.extent := by
  rw [extent, extent, h.metadata, h.logs]

section Appends

variable {topic : Bytes} {partition : Int} {log log' : Storage.Log} {producers : Producer.Manager}

-- A log that is put back as it was.
theorem unchanged_set (h : b.logs.logs (Storage.logKey topic partition) = some log) :
    b.Unchanged { b with logs := b.logs.set topic partition log } where
  topics    := rfl
  metadata  := rfl
  producers := rfl
  offsets   := rfl
  dataDir   := rfl
  logs      := Function.update_eq_self_iff.mpr h.symm
  disk path _ hpath := by
    have hne := (hpath topic partition (by rw [h]; exact Option.some_ne_none log)).symm
    exact Storage.Disk.write_of_ne hne ..

-- A log that cannot be opened.
theorem unchanged_disk {disk : Storage.Disk} (h : disk.files = b.logs.disk.files) :
    b.Unchanged { b with logs := { b.logs with disk } } where
  topics    := rfl
  metadata  := rfl
  producers := rfl
  offsets   := rfl
  dataDir   := rfl
  logs      := rfl
  disk path _ _ := congrFun h path

theorem extent_lt_set {offsets : Offset.Offsets} {logs : Storage.Manager}
    (hlogs : ∀ key ≠ Storage.logKey topic partition, logs.logs key = b.logs.logs key)
    (hlt : (b.logs.logs (Storage.logKey topic partition)).elim 0 (·.volume + 1) < log.volume + 1) :
    b.extent < extent { b with logs := logs.set topic partition log, producers, offsets } := by
  refine Prod.mk_lt_mk.mpr (.inr ⟨le_rfl, Pi.lt_def.mpr ⟨fun key => ?_, Storage.logKey topic partition, ?_⟩⟩)
  case refine_1 =>
    by_cases hkey : key = Storage.logKey topic partition
    case pos =>
      rw [hkey]
      simpa [Storage.Manager.set] using hlt.le
    case neg =>
      simp [Storage.Manager.set, Function.update_of_ne hkey, hlogs key hkey]
  case refine_2 => simpa [Storage.Manager.set] using hlt

-- The log is there already, or it is opened now if it can be.
theorem log_cases (m : Storage.Manager) (topic : Bytes) (partition : Int) :
    (∃ log, m.logs (Storage.logKey topic partition) = some log ∧ m.log topic partition = (m, .ok log)) ∨
    (∃ disk log, m.logs (Storage.logKey topic partition) = none ∧
      m.log topic partition = ({ m with disk }.set topic partition log, .ok log)) ∨
    ∃ disk e, disk.files = m.disk.files ∧ m.log topic partition = ({ m with disk }, .error e) := by
  cases hlog : m.logs (Storage.logKey topic partition)
  case some log => exact .inl ⟨log, rfl, Storage.Manager.log_of_open hlog⟩
  case none =>
    rcases hopen : Storage.openLog m.disk (Storage.logDir m.dataDir topic partition) with ⟨disk, e | log⟩
    case error =>
      refine .inr (.inr ⟨disk, e, Storage.files_of_openLog_eq_error hopen, ?_⟩)
      simp only [Storage.Manager.log, hlog, hopen]
    case ok =>
      refine .inr (.inl ⟨disk, log, rfl, ?_⟩)
      simp only [Storage.Manager.log, hlog, hopen]

theorem unopenable {e : IOError} (h : (b.logs.log topic partition).snd = .error e) :
    ∃ disk, disk.files = b.logs.disk.files ∧ b.logs.log topic partition = ({ b.logs with disk }, .error e) := by
  obtain ⟨log, -, hopen⟩ | ⟨disk, log, -, hopen⟩ | ⟨disk, e', hdisk, hopen⟩ := log_cases b.logs topic partition
  · rw [hopen] at h
    contradiction
  · rw [hopen] at h
    contradiction
  · rw [hopen] at h
    cases h
    exact ⟨disk, hdisk, hopen⟩

end Appends

section Metadata

variable {record : Record}

theorem unchanged_appendMetadata
    (h : b.metadata.Stuck (Storage.entryHeaderSize + (encodeMetadataRecord record).length)) :
    b.Unchanged (b.appendMetadata record).fst := by
  have happend : MetadataLog.append b.metadata record = (b.metadata, .error .failed) :=
    Storage.Log.appendWithOffset_of_stuck .none h
  rw [appendMetadata, happend]
  exact {
    topics    := rfl
    metadata  := rfl
    producers := rfl
    offsets   := rfl
    dataDir   := rfl
    logs      := rfl
    disk path hmetadata _ := Storage.Disk.write_of_ne hmetadata ..
  }

theorem extent_lt_appendMetadata
    (h : ¬b.metadata.Stuck (Storage.entryHeaderSize + (encodeMetadataRecord record).length)) :
    b.extent < (b.appendMetadata record).fst.extent := by
  have hlt : b.metadata.volume < (MetadataLog.append b.metadata record).fst.volume :=
    Storage.Log.volume_lt_append .none h
  refine Prod.mk_lt_mk.mpr (.inl ?_)
  unfold appendMetadata
  split
  case h_1 metadata e happend =>
    rw [happend] at hlt
    exact ⟨hlt, le_rfl⟩
  case h_2 metadata offset happend =>
    rw [happend] at hlt
    exact ⟨hlt, le_rfl⟩

end Metadata

end Broker

-- A batch is appended unless the producer has sent it before or has left one out.
def Sequenced (producers : Producer.Manager) (topicName : Bytes) (partitionIndex : Int) (batch : Bytes) : Prop :=
  Batch.pid batch < 0 ∨
    (producers.checkSequenceLocked ⟨Batch.pid batch, topicName, partitionIndex⟩
      (Batch.baseSeq batch)).decision = .append

section Led

variable {nodeID partitionIndex : Int} {topicName batch : Bytes} {producers : Producer.Manager} {log log' : Storage.Log}

theorem producePartition_of_not_sequenced (nodeID : Int) (log : Storage.Log) (hvalid : validRecordBatch batch)
    (hsequenced : ¬Sequenced producers topicName partitionIndex batch) :
    ∃ produced, producePartition Storage.Log.appendWithOffset nodeID (some nodeID) topicName partitionIndex batch
      producers (.ok log) = (producers, .ok log, produced) := by
  obtain ⟨hpid, hcheck⟩ := not_or.mp hsequenced
  rcases hdecision : producers.checkSequenceLocked ⟨Batch.pid batch, topicName, partitionIndex⟩ (Batch.baseSeq batch)
    with ⟨decision, offset⟩
  rw [hdecision] at hcheck
  cases decision
  case append     => exact absurd rfl hcheck
  case duplicate  =>
    exact ⟨_, by simp [producePartition, hvalid, not_lt.mp hpid, Producer.Manager.appendBatch, hdecision]; rfl⟩
  case outOfOrder =>
    exact ⟨_, by simp [producePartition, hvalid, not_lt.mp hpid, Producer.Manager.appendBatch, hdecision]; rfl⟩

-- The producers learn of the batch only if it has been written.
theorem producePartition_of_sequenced (nodeID : Int) (log : Storage.Log) (hvalid : validRecordBatch batch)
    (hsequenced : Sequenced producers topicName partitionIndex batch) :
    ∃ producers' produced, producePartition Storage.Log.appendWithOffset nodeID (some nodeID) topicName partitionIndex
        batch producers (.ok log) = (producers', .ok (log.appendWithOffset batch Batch.stamp).fst, produced) ∧
      ∀ log' e, log.appendWithOffset batch Batch.stamp = (log', .error e) → producers' = producers := by
  by_cases hpid : Batch.pid batch < 0
  case pos =>
    have hpid := not_le.mpr hpid
    rcases happend : log.appendWithOffset batch Batch.stamp with ⟨log', e | offset⟩
    case error => exact ⟨producers, _, by simp [producePartition, hvalid, hpid, happend]; rfl, fun _ _ _ => rfl⟩
    case ok    => exact ⟨producers, _, by simp [producePartition, hvalid, hpid, happend]; rfl, fun _ _ _ => rfl⟩
  case neg =>
    have hcheck := hsequenced.resolve_left hpid
    have hpid := not_lt.mp hpid
    rcases happend : log.appendWithOffset batch Batch.stamp with ⟨log', e | offset⟩
    case error =>
      refine ⟨producers, .answer { index := partitionIndex }, ?_, fun _ _ _ => rfl⟩
      simp [producePartition, hvalid, hpid, Producer.Manager.appendBatch, hcheck, happend]
    case ok =>
      refine ⟨producers.committedLocked ⟨Batch.pid batch, topicName, partitionIndex⟩ (Batch.baseSeq batch)
        (Batch.recordCount batch) offset, .waitForAllAcks ⟨partitionIndex, .none, offset⟩, ?_, fun _ _ h => ?_⟩
      · simp [producePartition, hvalid, hpid, Producer.Manager.appendBatch, hcheck, happend]
      · cases h

theorem producePartition_of_ok (nodeID : Int) (producers : Producer.Manager) (topicName : Bytes) (partitionIndex : Int)
    (log : Storage.Log) (hvalid : validRecordBatch batch) :
    ∃ producers' log' produced, producePartition Storage.Log.appendWithOffset nodeID (some nodeID) topicName
      partitionIndex batch producers (.ok log) = (producers', .ok log', produced) := by
  by_cases hsequenced : Sequenced producers topicName partitionIndex batch
  case pos =>
    obtain ⟨producers', produced, hp, -⟩ := producePartition_of_sequenced nodeID log hvalid hsequenced
    exact ⟨producers', _, produced, hp⟩
  case neg =>
    obtain ⟨produced, hp⟩ := producePartition_of_not_sequenced nodeID log hvalid hsequenced
    exact ⟨producers, log, produced, hp⟩

end Led

namespace Broker

variable {env : Env} {b : Broker} {topicName batch : Bytes} {partitionIndex : Int}

theorem producePartition_of_not_led (acks : Int)
    (h : ¬((b.partition? topicName partitionIndex).map (·.leader) = some env.config.nodeID ∧ validRecordBatch batch)) :
    (b.producePartition env topicName partitionIndex batch acks).fst = b := by
  simp only [producePartition, if_neg h]
  rcases hp : Network.producePartition Storage.Log.appendWithOffset env.config.nodeID
    ((b.partition? topicName partitionIndex).map (·.leader)) topicName partitionIndex batch b.producers (.error .failed)
    with ⟨producers, log, produced⟩
  cases produces hp
  case refused => simp only [hp]
  all_goals contradiction

theorem producePartition_of_unopenable (acks : Int) {logs : Storage.Manager} {e : IOError}
    (hled : (b.partition? topicName partitionIndex).map (·.leader) = some env.config.nodeID ∧ validRecordBatch batch)
    (hlog : b.logs.log topicName partitionIndex = (logs, .error e)) :
    (b.producePartition env topicName partitionIndex batch acks).fst = { b with logs } := by
  simp only [producePartition, if_pos hled, hlog]
  rcases hp : Network.producePartition Storage.Log.appendWithOffset env.config.nodeID
    ((b.partition? topicName partitionIndex).map (·.leader)) topicName partitionIndex batch b.producers (.error e)
    with ⟨producers, log, produced⟩
  cases produces hp
  case refused => simp only [hp]
  all_goals contradiction

theorem producePartition_of_led (acks : Int) {logs : Storage.Manager} {log log' : Storage.Log}
    {producers : Producer.Manager} {produced : Produced}
    (hleader : (b.partition? topicName partitionIndex).map (·.leader) = some env.config.nodeID)
    (hvalid : validRecordBatch batch) (hlog : b.logs.log topicName partitionIndex = (logs, .ok log))
    (hp : Network.producePartition Storage.Log.appendWithOffset env.config.nodeID (some env.config.nodeID) topicName
      partitionIndex batch b.producers (.ok log) = (producers, .ok log', produced)) :
    (b.producePartition env topicName partitionIndex batch acks).fst =
      { b with logs := logs.set topicName partitionIndex log', producers } := by
  simp only [producePartition, hleader, hvalid, and_self, if_true, hlog, hp]

theorem commitOffset_eq {logs : Storage.Manager} {log : Storage.Log} {key : Offset.Key} {offset : Int}
    (hlog : b.logs.log consumerOffsets 0 = (logs, .ok log)) :
    ∃ offsets, (b.commitOffset env key offset).fst =
      { b with
        logs := logs.set consumerOffsets 0 (log.append (Offset.encodeEntry key offset env.now)).fst
        offsets } := by
  simp only [commitOffset, commit, hlog, Offset.Store.commit]
  rcases happend : log.append (Offset.encodeEntry key offset env.now) with ⟨log', e | o⟩
  case error => exact ⟨b.offsets, rfl⟩
  case ok    => exact ⟨b.offsets.insert key offset, rfl⟩

end Broker

-- The handlers that write to the logs.
inductive Update
  | produce
  | offsetCommit
  | createTopics
  | deleteTopics
  deriving DecidableEq, Repr

-- What such a handler executes one at a time.
inductive Element
  | produce (topicName : Bytes) (partitionIndex : Int) (batch : Bytes) (acks : Int)
  | offsetCommit (key : Offset.Key) (offset : Int)
  | createTopic (name : Bytes) (numPartitions replicationFactor : Int)
  | deleteTopic (name : Bytes)
  deriving DecidableEq, Repr

namespace Element

def exec (env : Env) (b : Broker) : Element → Broker
  | produce topicName partitionIndex batch acks => (b.producePartition env topicName partitionIndex batch acks).fst
  | offsetCommit key offset                     => (b.commitOffset env key offset).fst
  | createTopic name numPartitions replicationFactor =>
    (b.asController env (·.createTopic env name numPartitions replicationFactor)).fst
  | deleteTopic name => (b.asController env (·.deleteTopic name)).fst

-- The broker answers such an element without having written anything. It fails a check, or the log that it is for has
-- failed before or cannot be opened.
def Refused (env : Env) (b : Broker) : Element → Prop
  | produce topicName partitionIndex batch _ =>
    (b.partition? topicName partitionIndex).map (·.leader) ≠ some env.config.nodeID ∨ ¬validRecordBatch batch ∨
      (∃ e, (b.logs.log topicName partitionIndex).snd = .error e) ∨
      ∃ log, b.logs.logs (Storage.logKey topicName partitionIndex) = some log ∧
        (¬Sequenced b.producers topicName partitionIndex batch ∨ log.Stuck (Storage.entryHeaderSize + batch.length))
  | offsetCommit key offset =>
    (∃ e, (b.logs.log consumerOffsets 0).snd = .error e) ∨
      ∃ log, b.logs.logs (Storage.logKey consumerOffsets 0) = some log ∧
        log.Stuck (Storage.entryHeaderSize + (Offset.encodeEntry key offset env.now).length)
  | createTopic name numPartitions replicationFactor =>
    env.controllerID ≠ env.config.nodeID ∨
      ∀ partitions, newPartitions env.config.cluster.ids numPartitions replicationFactor = .ok partitions →
        (b.topics.get name).isSome ∨ b.metadata.Stuck
          (Storage.entryHeaderSize + (encodeMetadataRecord ⟨.topicUpsert, name, partitions⟩).length)
  | deleteTopic name =>
    env.controllerID ≠ env.config.nodeID ∨ ¬(b.topics.get name).isSome ∨
      b.metadata.Stuck (Storage.entryHeaderSize + (encodeMetadataRecord ⟨.topicDelete, name, []⟩).length)

variable {env : Env} {b b' : Broker} {e : Element}

theorem unchanged_of_refused (h : e.Refused env b) : b.Unchanged (e.exec env b) := by
  cases e
  case produce topicName partitionIndex batch acks =>
    by_cases hled : (b.partition? topicName partitionIndex).map (·.leader) = some env.config.nodeID ∧
      validRecordBatch batch
    case neg =>
      rw [exec, Broker.producePartition_of_not_led acks hled]
      exact .refl b
    case pos =>
      obtain ⟨e, he⟩ | ⟨log, hlog, h⟩ :=
        (h.resolve_left (not_not.mpr hled.left)).resolve_left (not_not.mpr hled.right)
      case inl =>
        obtain ⟨disk, hdisk, hopen⟩ := Broker.unopenable he
        rw [exec, Broker.producePartition_of_unopenable acks hled hopen]
        exact Broker.unchanged_disk hdisk
      have hopen := Storage.Manager.log_of_open hlog
      have hput : b.Unchanged { b with logs := b.logs.set topicName partitionIndex log, producers := b.producers } :=
        Broker.unchanged_set hlog
      by_cases hsequenced : Sequenced b.producers topicName partitionIndex batch
      case neg =>
        obtain ⟨produced, hp⟩ := producePartition_of_not_sequenced env.config.nodeID log hled.right hsequenced
        rwa [exec, Broker.producePartition_of_led acks hled.left hled.right hopen hp]
      case pos =>
        have happend := Storage.Log.appendWithOffset_of_stuck Batch.stamp (h.resolve_left (not_not.mpr hsequenced))
        obtain ⟨producers, produced, hp, hfailed⟩ :=
          producePartition_of_sequenced env.config.nodeID log hled.right hsequenced
        rw [happend] at hp
        rwa [exec, Broker.producePartition_of_led acks hled.left hled.right hopen hp, hfailed _ _ happend]
  case offsetCommit key offset =>
    obtain ⟨e, he⟩ | ⟨log, hlog, hstuck⟩ := h
    case inl =>
      obtain ⟨disk, hdisk, hopen⟩ := Broker.unopenable he
      simp only [exec, Broker.commitOffset, Broker.commit, hopen]
      exact Broker.unchanged_disk hdisk
    have happend : log.append (Offset.encodeEntry key offset env.now) = (log, .error .failed) :=
      Storage.Log.appendWithOffset_of_stuck .none hstuck
    simp only [exec, Broker.commitOffset, Broker.commit, Storage.Manager.log, hlog, Offset.Store.commit, happend]
    exact Broker.unchanged_set hlog
  case createTopic name numPartitions replicationFactor =>
    simp only [exec, Broker.asController]
    split
    case isTrue => exact .refl b
    case isFalse hcontroller =>
      unfold Broker.createTopic
      split
      case h_1 => exact .refl b
      case h_2 partitions hnew =>
        split
        case isTrue        => exact .refl b
        case isFalse hsome =>
          exact Broker.unchanged_appendMetadata ((h.resolve_left hcontroller partitions hnew).resolve_left hsome)
  case deleteTopic name =>
    simp only [exec, Broker.asController]
    split
    case isTrue => exact .refl b
    case isFalse hcontroller =>
      unfold Broker.deleteTopic
      split
      case isFalse      => exact .refl b
      case isTrue hsome =>
        exact Broker.unchanged_appendMetadata ((h.resolve_left hcontroller).resolve_left (not_not.mpr hsome))

theorem extent_lt_of_not_refused (h : ¬e.Refused env b) : b.extent < (e.exec env b).extent := by
  cases e
  case produce topicName partitionIndex batch acks =>
    obtain ⟨hleader, h⟩ := not_or.mp h
    obtain ⟨hvalid, h⟩ := not_or.mp h
    obtain ⟨hopens, h⟩ := not_or.mp h
    have hleader := not_not.mp hleader
    have hvalid := not_not.mp hvalid
    obtain ⟨log, hlog, hopen⟩ | ⟨disk, log, hlog, hopen⟩ | ⟨disk, e, -, hopen⟩ :=
      Broker.log_cases b.logs topicName partitionIndex
    case inl =>
      have h := not_or.mp fun hrefused => h ⟨log, hlog, hrefused⟩
      obtain ⟨producers, produced, hp, -⟩ :=
        producePartition_of_sequenced env.config.nodeID log hvalid (not_not.mp h.left)
      rw [exec, Broker.producePartition_of_led acks hleader hvalid hopen hp]
      refine Broker.extent_lt_set (fun _ _ => rfl) ?_
      rw [hlog]
      exact Nat.succ_lt_succ (Storage.Log.volume_lt_append Batch.stamp h.right)
    case inr.inl =>
      obtain ⟨producers, log', produced, hp⟩ :=
        producePartition_of_ok env.config.nodeID b.producers topicName partitionIndex log hvalid
      rw [exec, Broker.producePartition_of_led acks hleader hvalid hopen hp]
      refine Broker.extent_lt_set (fun key hkey => Storage.Manager.logs_set_of_ne hkey log) ?_
      rw [hlog]
      exact Nat.succ_pos _
    case inr.inr => exact absurd ⟨e, by rw [hopen]⟩ hopens
  case offsetCommit key offset =>
    obtain ⟨hopens, h⟩ := not_or.mp h
    obtain ⟨log, hlog, hopen⟩ | ⟨disk, log, hlog, hopen⟩ | ⟨disk, e, -, hopen⟩ :=
      Broker.log_cases b.logs consumerOffsets 0
    case inl =>
      have hlt := Storage.Log.volume_lt_append .none fun hstuck => h ⟨log, hlog, hstuck⟩
      obtain ⟨offsets, heq⟩ := Broker.commitOffset_eq hopen
      rw [exec, heq]
      refine Broker.extent_lt_set (fun _ _ => rfl) ?_
      rw [hlog]
      exact Nat.succ_lt_succ hlt
    case inr.inl =>
      obtain ⟨offsets, heq⟩ := Broker.commitOffset_eq hopen
      rw [exec, heq]
      refine Broker.extent_lt_set (fun key hkey => Storage.Manager.logs_set_of_ne hkey log) ?_
      rw [hlog]
      exact Nat.succ_pos _
    case inr.inr => exact absurd ⟨e, by rw [hopen]⟩ hopens
  case createTopic name numPartitions replicationFactor =>
    obtain ⟨hcontroller, h⟩ := not_or.mp h
    obtain ⟨partitions, h⟩ := not_forall.mp h
    obtain ⟨hnew, h⟩ := Classical.not_imp.mp h
    obtain ⟨hsome, hstuck⟩ := not_or.mp h
    simp only [exec, Broker.asController, hcontroller, if_false, Broker.createTopic, hnew, hsome]
    exact Broker.extent_lt_appendMetadata hstuck
  case deleteTopic name =>
    obtain ⟨hcontroller, h⟩ := not_or.mp h
    obtain ⟨hsome, hstuck⟩ := not_or.mp h
    simp only [exec, Broker.asController, hcontroller, if_false, Broker.deleteTopic, not_not.mp hsome, if_true]
    exact Broker.extent_lt_appendMetadata hstuck

-- The broker after the elements, which find `env` one after another.
def execAll (env : Nat → Env) (b : Broker) (es : List Element) : Broker :=
  es.zipIdx.foldl (fun b p => p.fst.exec (env p.snd) b) b

theorem execAll_concat (env : Nat → Env) (b : Broker) (es : List Element) (e : Element) :
    execAll env b (es ++ [e]) = e.exec (env es.length) (execAll env b es) := by
  simp [execAll, List.zipIdx_append]

-- Each of the elements is refused when it is its turn.
def RefusedAll (env : Nat → Env) (b : Broker) (es : List Element) : Prop :=
  ∀ (i : Nat) (e : Element), es[i]? = some e → e.Refused (env i) (execAll env b (es.take i))

theorem refusedAll_concat (env : Nat → Env) (b : Broker) (es : List Element) (e : Element) :
    RefusedAll env b (es ++ [e]) ↔ RefusedAll env b es ∧ e.Refused (env es.length) (execAll env b es) := by
  constructor
  case mp =>
    refine fun h => ⟨fun i e' hi => ?_, ?_⟩
    · have hlt := (List.getElem?_eq_some_iff.mp hi).fst
      have hrefused := h i e' (by rw [List.getElem?_append_left hlt, hi])
      rwa [List.take_append_of_le_length hlt.le] at hrefused
    · have hrefused := h es.length e (by simp)
      rwa [List.take_left] at hrefused
  case mpr =>
    rintro ⟨hall, he⟩ i e' hi
    obtain hlt | hle := Nat.lt_or_ge i es.length
    case inl =>
      rw [List.getElem?_append_left hlt] at hi
      rw [List.take_append_of_le_length hlt.le]
      exact hall i e' hi
    case inr =>
      obtain ⟨hlt, -⟩ := List.getElem?_eq_some_iff.mp hi
      obtain rfl : i = es.length := by
        rw [List.length_append, List.length_singleton] at hlt
        omega
      rw [List.getElem?_concat_length] at hi
      cases hi
      rwa [List.take_left]

-- The first element that is not refused writes something, and nothing is taken away again.
theorem execAll_cases (env : Nat → Env) (b : Broker) (es : List Element) :
    RefusedAll env b es ∧ b.Unchanged (execAll env b es) ∨
      ¬RefusedAll env b es ∧ b.extent < (execAll env b es).extent := by
  induction es using List.reverseRecOn
  case nil => exact .inl ⟨fun i e hi => by simp at hi, .refl b⟩
  case append_singleton es e hi =>
    rw [execAll_concat, refusedAll_concat]
    by_cases he : e.Refused (env es.length) (execAll env b es)
    case pos =>
      have hsame := unchanged_of_refused he
      obtain ⟨hall, hunchanged⟩ | ⟨hnot, hlt⟩ := hi
      case inl => exact .inl ⟨⟨hall, he⟩, hunchanged.trans hsame⟩
      case inr => exact .inr ⟨fun h => hnot h.left, by rwa [hsame.extent_eq]⟩
    case neg =>
      have hgrows := extent_lt_of_not_refused he
      refine .inr ⟨fun h => he h.right, ?_⟩
      obtain ⟨-, hunchanged⟩ | ⟨-, hlt⟩ := hi
      case inl => rwa [← hunchanged.extent_eq]
      case inr => exact hlt.trans hgrows

theorem unchanged_execAll_iff (env : Nat → Env) (b : Broker) (es : List Element) :
    b.Unchanged (execAll env b es) ↔ RefusedAll env b es := by
  obtain ⟨hall, hsame⟩ | ⟨hnot, hlt⟩ := execAll_cases env b es
  case inl => exact ⟨fun _ => hall, fun _ => hsame⟩
  case inr => exact ⟨fun hsame => absurd hsame.extent_eq hlt.ne', fun hall => absurd hall hnot⟩

def note (e : Element) : Effect (List Element) Unit :=
  .update fun es => ((), es ++ [e])

end Element

namespace Update

def handle (env : Nat → Env) : Update → Handler Bytes
  | produce      => handleProduce env
  | offsetCommit => handleOffsetCommit env
  | createTopics => handleCreateTopics env
  | deleteTopics => handleDeleteTopics env

-- Reads a request and keeps its elements.
def noteAll : Update → Effect (List Element) Unit
  | produce => do
    let _ ← produceTopics fun topicName partitionIndex batch acks _ =>
      Element.note (.produce topicName partitionIndex batch acks)
  | offsetCommit => do
    let _ ← offsetCommitTopics fun key offset => Element.note (.offsetCommit key offset)
  | createTopics => do
    let _ ← Network.createTopics fun name numPartitions replicationFactor =>
      Element.note (.createTopic name numPartitions replicationFactor)
  | deleteTopics => do
    let _ ← Network.deleteTopics fun name => Element.note (.deleteTopic name)

-- The elements that are complete in the body of a request, up to where it breaks off.
def elements (u : Update) (body : Bytes) : List Element :=
  (u.noteAll.exec body []).snd

theorem simulates_noteAll (u : Update) (env : Nat → Env) (b : Broker) :
    Simulates (fun s es => s = ⟨Element.execAll env b es, es.length⟩) Any (u.handle env) u.noteAll := by
  have hstep {α : Type} {f : Env → Broker → Broker × α} {e : Element} (hf : ∀ env b, (f env b).fst = e.exec env b) :
      Simulates (fun s es => s = ⟨Element.execAll env b es, es.length⟩) Any (execute env f) (Element.note e) := by
    refine simulates_update (fun _ _ _ => trivial) fun s es hs => ?_
    simp only [hs, hf, Element.execAll_concat, List.length_append, List.length_singleton]
  cases u
  case produce =>
    exact (simulates_produceTopics fun _ _ _ _ _ => hstep fun _ _ => rfl).bind fun _ _ _ => simulates_pure trivial
  case offsetCommit =>
    exact (simulates_offsetCommitTopics fun _ _ => hstep fun _ _ => rfl).bind fun _ _ _ => simulates_pure trivial
  case createTopics =>
    exact (simulates_createTopics fun _ _ _ => hstep fun _ _ => rfl).bind fun _ _ _ => simulates_pure trivial
  case deleteTopics =>
    exact (simulates_deleteTopics fun _ => hstep fun _ _ => rfl).bind fun _ _ _ => simulates_pure trivial

-- A handler leaves the broker as the complete elements of the request have made it.
theorem broker_handle (u : Update) (env : Nat → Env) (b : Broker) (body : Bytes) :
    ((u.handle env).exec body ⟨b, 0⟩).snd.broker = Element.execAll env b (u.elements body) := by
  rw [((u.simulates_noteAll env b) body (s := ⟨b, 0⟩) (t := []) rfl).right]
  rfl

-- The body of a request ends too early, or a length in it is wrong.
def Undecodable (u : Update) (body : Bytes) : Prop :=
  ∃ e, (u.noteAll.exec body []).fst = .error (.error e)

-- A request that is not answered has changed nothing.
def Atomic (u : Update) (env : Nat → Env) (b : Broker) (body : Bytes) : Prop :=
  ∀ e, ((u.handle env).exec body ⟨b, 0⟩).fst = .error (.error e) →
    b.Unchanged ((u.handle env).exec body ⟨b, 0⟩).snd.broker

-- Whether a request can be decoded does not depend on the broker.
theorem fails_iff (u : Update) (env : Nat → Env) (b : Broker) (body : Bytes) (e : Error) :
    ((u.handle env).exec body ⟨b, 0⟩).fst = .error (.error e) ↔ (u.noteAll.exec body []).fst = .error (.error e) := by
  have hagree := ((u.simulates_noteAll env b) body (s := ⟨b, 0⟩) (t := []) rfl).left
  exact hagree.error_iff (.error e)

-- A request to create the topic "t" with one partition, without the timeout that it ends with.
def sampleCreateTopics : Bytes :=
  writeArrayLen 1 ++ writeString [116] ++ writeInt32 1 ++ writeInt16 1 ++ writeArrayLen 0 ++ writeArrayLen 0

end Update

end Network
