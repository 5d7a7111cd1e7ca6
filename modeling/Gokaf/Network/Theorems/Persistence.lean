import Gokaf.Network.Persistence
import Gokaf.Network.Theorems.Isolation
import Gokaf.Network.Theorems.Metadata
import Gokaf.Network.Theorems.Produce
import Gokaf.Offset.Theorems.Store

open Go Protocol Cluster

namespace Network

variable {config : Config} {view : View} {log log' : Storage.Log} {topics topics' : Topic.Registry} {task : Task}
  {record : Record} {records : List Record} {commits : List Offset.Commit}

-- The name of a new topic and the number of its replicas fit the fields they are written to.
def Operation.Fits : Operation → Prop
  | createTopic name numPartitions replicationFactor =>
    name.length ≤ 32767 ∧ 7 + name.length + numPartitions.toNat * (16 + 8 * replicationFactor.toNat) < 2 ^ 32
  | deleteTopic _ | onPeerDown _ => True

instance : DecidablePred Operation.Fits := fun a => by
  induction a using Operation.casesOn <;> dsimp only [Operation.Fits] <;> infer_instance

theorem Operation.Fits.short {operation : Operation} (h : operation.Fits) : operation.Short := by
  cases operation
  case createTopic => exact Nat.lt_succ_of_le h.left
  case deleteTopic => trivial
  case onPeerDown  => trivial

-- The record fits a length field of 32 bits.
def Small (record : Record) : Prop :=
  (encodeMetadataRecord record).length < 2 ^ 32

-- A partition does not get more replicas.
theorem length_writePartition_reassign (alive : Int → Bool) (deadID : Int) (p : Topic.Partition) :
    (writePartition ((reassign alive deadID p).getD p)).length ≤ (writePartition p).length := by
  unfold reassign
  split
  case isTrue => exact Nat.le_refl _
  case isFalse =>
    split
    case h_1 => exact Nat.le_refl _
    case h_2 leader live heq =>
      have hle : (liveISR alive p.isr deadID).length ≤ p.isr.length := by
        rw [liveISR, List.length_insertionSort]
        exact List.length_filter_le ..
      rw [heq] at hle
      simp only [Option.getD_some, length_writePartition]
      omega

theorem small_reassignTopic {alive : Int → Bool} {deadID : Int} {t : Topic.Topic} {partitions : List Topic.Partition}
    (h : Small (.upsert t)) (hsome : reassignTopic alive deadID t = some partitions) :
    Small ⟨.topicUpsert, t.name, partitions⟩ := by
  unfold reassignTopic at hsome
  split at hsome
  case isFalse => contradiction
  case isTrue =>
    cases hsome
    have hle : ((t.partitions.map fun p => (reassign alive deadID p).getD p).flatMap writePartition).length ≤
        (t.partitions.flatMap writePartition).length := by
      rw [List.length_flatMap, List.length_flatMap, List.map_map]
      exact List.sum_le_sum fun p _ => length_writePartition_reassign alive deadID p
    rw [Small, Record.upsert, length_topicUpsert] at h
    rw [Small, length_topicUpsert]
    omega

theorem small_newPartitions {brokerIDs : List Int} {name : Bytes} {numPartitions replicationFactor : Int}
    {partitions : List Topic.Partition} (hfits : (Operation.createTopic name numPartitions replicationFactor).Fits)
    (h : newPartitions brokerIDs numPartitions replicationFactor = .ok partitions) :
    Small ⟨.topicUpsert, name, partitions⟩ := by
  have hbounds := bounds_of_newPartitions h
  obtain ⟨_, hok, hlen, hreplicas⟩ := newPartitions_eq_ok hbounds.left hbounds.right.left hbounds.right.right
  cases Except.ok.inj (hok.symm.trans h)
  rw [Small, length_topicUpsert, length_flatMap_writePartition hreplicas, hlen]
  exact hfits.right

theorem closed_small : Closed Small where
  delete t h := by
    rw [Small, Record.upsert, length_topicUpsert] at h
    simp only [Small, encodeMetadataRecord, writeInt8, List.length_append, length_putInt, Offset.length_writeString,
      List.length_nil]
    omega
  reassign _ _ _ _ h hsome := small_reassignTopic h hsome

-- A record that is read back as it was written, for a topic whose files are not those of an internal log.
def Storable (record : Record) : Prop :=
  record.Valid ∧ Small record ∧ Apart record.topic

theorem closed_storable : Closed Storable :=
  closed_valid.and (closed_small.and (closed_topic Apart))

theorem storable_newPartitions {cluster : Membership} {name : Bytes} {numPartitions replicationFactor : Int}
    {partitions : List Topic.Partition} (hname : Apart name)
    (hfits : (Operation.createTopic name numPartitions replicationFactor).Fits)
    (h : newPartitions cluster.ids numPartitions replicationFactor = .ok partitions) :
    Storable ⟨.topicUpsert, name, partitions⟩ := by
  refine ⟨⟨hfits.short, isPartition_of_newPartitions h, fun hdelete => ?_⟩, small_newPartitions hfits h, hname⟩
  contradiction

theorem Advances.log_eq {progress : Progress} (h : Advances config view log topics task log' topics' progress)
    (hne : ∀ record next, task.progress ≠ .append record next) : log' = log := by
  cases h
  case appended heq _ => exact absurd heq (hne _ _)
  case failed heq _   => exact absurd heq (hne _ _)
  all_goals rfl

theorem Advances.append_eq {progress : Progress} {next : Continuation}
    (h : Advances config view log topics task log' topics' progress) (hprogress : task.progress = .append record next) :
    ∃ e, MetadataLog.append log record = (log', e) := by
  cases h
  case appended heq happend =>
    cases hprogress.symm.trans heq
    exact ⟨_, happend⟩
  case failed heq happend =>
    cases hprogress.symm.trans heq
    exact ⟨_, happend⟩
  case started heq _    => cases hprogress.symm.trans heq
  case scanned heq      => cases hprogress.symm.trans heq
  case skipped heq _    => cases hprogress.symm.trans heq
  case reassigned heq _ => cases hprogress.symm.trans heq
  case applied heq      => cases hprogress.symm.trans heq

theorem append_of_logged {task' : Task} (h : .logged record ∈ Metadata.outputs task task') :
    ∃ next, task.progress = .append record next := by
  unfold Metadata.outputs at h
  split at h
  case h_1 heq _ =>
    cases List.mem_singleton.mp h
    exact ⟨_, heq⟩
  case h_2 => cases List.mem_singleton.mp h
  case h_3 => contradiction

-- A data directory in which the internal logs can be opened.
structure Usable (dataDir : Bytes) : Prop where
  offsets  : Storage.Ordinary (Storage.logDir dataDir consumerOffsets 0)
  metadata : Storage.Ordinary (metadataDir dataDir)

instance : DecidablePred Usable := fun dataDir =>
  decidable_of_iff (Storage.Ordinary (Storage.logDir dataDir consumerOffsets 0) ∧
    Storage.Ordinary (metadataDir dataDir))
    ⟨fun h => ⟨h.left, h.right⟩, fun h => ⟨h.offsets, h.metadata⟩⟩

namespace Broker

variable {b b' : Broker} {env : Env} {logs logs' : Storage.Manager} {disk : Storage.Disk} {metadata : Storage.Log}
  {topic : Bytes} {partition : Int} {R O : List Bytes} {dataDir : Bytes}

theorem metadataDir_ne (dataDir : Bytes) : Storage.logDir dataDir consumerOffsets 0 ≠ metadataDir dataDir := by
  intro heq
  rw [metadataDir_eq] at heq
  have hname := (Storage.logDir_inj (by decide) (by decide) le_rfl le_rfl heq).left
  exact absurd hname (by decide)

theorem start_eq (hopen : Storage.openLog logs.disk (metadataDir logs.dataDir) = (disk, .ok metadata))
    (hlog : { logs with disk }.log consumerOffsets 0 = (logs', .ok log))
    (hmetadata : metadata.Stores (records.map encodeMetadataRecord)) (hrecords : ∀ r ∈ records, r.Valid)
    (hoffsets : log.Stores (commits.map Offset.Commit.payload)) (hcommits : ∀ c ∈ commits, c.Valid) :
    start logs = .ok ⟨replayed records, metadata, logs', .new, Offset.committed ∅ commits⟩ := by
  have hreplay := Offset.replay_eq hoffsets.shows hcommits
  have htopics : Metadata.Broker.replay metadata = .ok (replayed records) := by
    rw [Metadata.Broker.replay, MetadataLog.replayAll_eq hmetadata hrecords]
    rfl
  rw [start, hopen]
  simp only [hlog, hreplay, htopics]
  rfl

-- What is in the internal logs, in memory and on disk.
structure Internal (b : Broker) (R O : List Bytes) : Prop where
  metadata : b.metadata.Stores R
  disk     : b.logs.Stores clusterMetadata 0 R
  closed   : b.logs.logs (Storage.logKey clusterMetadata 0) = none
  offsets  : b.logs.Stores consumerOffsets 0 O

-- A manager whose logs are closed and on which a broker is to start.
theorem open_of_stores (hclosed : logs.logs (Storage.logKey clusterMetadata 0) = none)
    (hmetadata : logs.Stores clusterMetadata 0 R) (hoffsets : logs.Stores consumerOffsets 0 O) :
    ∃ disk metadata logs' log, Storage.openLog logs.disk (metadataDir logs.dataDir) = (disk, .ok metadata) ∧
      { logs with disk }.log consumerOffsets 0 = (logs', .ok log) ∧ log.Stores O ∧
      ∀ topics producers offsets, Internal ⟨topics, metadata, logs', producers, offsets⟩ R O := by
  obtain ⟨disk, metadata, hopen, hlog, hdisk⟩ := hmetadata.openLog hclosed
  have hsame : logs.Same { logs with disk } consumerOffsets 0 := by
    refine ⟨rfl, ?_, rfl⟩
    have hother := Storage.openLog_of_ne (metadataDir_ne logs.dataDir) logs.disk
    rwa [metadataDir_eq, hopen] at hother
  obtain ⟨logs', log, hlog', hstores, hlogs'⟩ := (hoffsets.same hsame).log_eq
  have hne : Storage.logDir logs.dataDir clusterMetadata 0 ≠ Storage.logDir logs.dataDir consumerOffsets 0 :=
    (metadataDir_ne logs.dataDir).symm
  have hsame' := Storage.Manager.same_log (m := { logs with disk }) hne
  rw [hlog'] at hsame'
  exact ⟨disk, metadata, logs', log, hopen, hlog', hstores, fun _ _ _ =>
    ⟨hlog, hdisk.same hsame', hsame'.log.trans hclosed, hlogs'⟩⟩

theorem commit_of_append {key : Offset.Key} {offset o : Int} (hopen : b.logs.log consumerOffsets 0 = (logs, .ok log))
    (happend : log.append (Offset.Commit.payload ⟨key, offset, env.now⟩) = (log', .ok o)) :
    b.commit env key offset =
      ({ b with logs := logs.set consumerOffsets 0 log', offsets := b.offsets.insert key offset }, .ok ()) := by
  have hpayload : Offset.encodeEntry key offset env.now = Offset.Commit.payload ⟨key, offset, env.now⟩ := rfl
  rw [Broker.commit, hopen]
  simp only [Offset.Store.commit, hpayload, happend]

namespace Internal

theorem init (h : Usable dataDir) :
    start (.new dataDir .empty) = .ok (.init dataDir) ∧ (init dataDir).Internal [] [] := by
  have hdisk : (Storage.Manager.new dataDir .empty).Stores clusterMetadata 0 [] :=
    Storage.Manager.stores_new h.metadata rfl
  have hoffsets : (Storage.Manager.new dataDir .empty).Stores consumerOffsets 0 [] :=
    Storage.Manager.stores_new h.offsets rfl
  obtain ⟨disk, metadata, logs, log, hopen, hlog, hstores, hinternal⟩ := open_of_stores rfl hdisk hoffsets
  have hempty : (Storage.openLog .empty (metadataDir dataDir)).snd = .ok .empty := h.metadata.snd_openLog .empty
  have hopened : Storage.openLog .empty (metadataDir dataDir) = (disk, .ok metadata) := hopen
  rw [hopened] at hempty
  cases hempty
  have hinit : Broker.init dataDir = ⟨∅, .empty, logs, .new, ∅⟩ := by
    rw [Broker.init, hopened]
    exact congrArg (fun r => Broker.mk ∅ .empty r.fst .new ∅) hlog
  have hrecords : Storage.Log.empty.Stores (([] : List Record).map encodeMetadataRecord) := Storage.Log.empty_stores
  have hcommits : log.Stores (([] : List Offset.Commit).map Offset.Commit.payload) := hstores
  rw [hinit]
  exact ⟨start_eq hopen hlog hrecords (by simp) hcommits (by simp), hinternal ..⟩

theorem setMetadata (h : b.Internal R O) {R' : List Bytes} (hlog : log.Stores R') (topics : Topic.Registry) :
    Internal { b.setMetadata log with topics } R' O where
  metadata := hlog
  disk     := Storage.Manager.stores_of_write h.disk.ordinary h.closed hlog (Storage.Disk.write_self ..)
  closed   := h.closed
  offsets  := by
    have hsame : b.logs.Same (b.setMetadata log).logs consumerOffsets 0 :=
      ⟨rfl, Storage.Disk.write_of_ne (metadataDir_ne b.logs.dataDir) .., rfl⟩
    exact h.offsets.same hsame

theorem commit {key : Offset.Key} {offset : Int} (h : b.Internal R (commits.map Offset.Commit.payload))
    (hvalid : (Offset.Commit.mk key offset env.now).Valid) (hlen : commits.length + 1 < 2 ^ 63) :
    ∃ b', b.commit env key offset = (b', .ok ()) ∧ b'.topics = b.topics ∧
      b'.Internal R ((commits ++ [Offset.Commit.mk key offset env.now]).map Offset.Commit.payload) := by
  obtain ⟨logs, log, hopen, hlog, hlogs⟩ := h.offsets.log_eq
  obtain ⟨log', happend, hlog'⟩ := hlog.append hvalid.payload_lt (by rw [List.length_map]; omega)
  have hne : Storage.logDir b.logs.dataDir clusterMetadata 0 ≠ Storage.logDir b.logs.dataDir consumerOffsets 0 :=
    (metadataDir_ne b.logs.dataDir).symm
  have hsame := Storage.Manager.same_log hne
  rw [hopen] at hsame
  have hsame' := hsame.trans (Storage.Manager.same_set (hsame.dataDir ▸ hne) log')
  refine ⟨_, commit_of_append hopen happend, rfl, ?_⟩
  exact {
    metadata := h.metadata
    disk     := h.disk.same hsame'
    closed   := hsame'.log.trans h.closed
    offsets  := by
      rw [List.map_append]
      exact Storage.Manager.stores_set hlogs.ordinary hlog'
  }

theorem restart (h : b.Internal (records.map encodeMetadataRecord) (commits.map Offset.Commit.payload))
    (hrecords : ∀ r ∈ records, r.Valid) (hcommits : ∀ c ∈ commits, c.Valid) :
    ∃ b', b.restart = .ok b' ∧ b'.topics = replayed records ∧
      b'.Internal (records.map encodeMetadataRecord) (commits.map Offset.Commit.payload) := by
  obtain ⟨disk, metadata, logs, log, hopen, hlog, hstores, hinternal⟩ := open_of_stores rfl h.disk.close h.offsets.close
  exact ⟨_, start_eq hopen hlog (hinternal ∅ .new ∅).metadata hrecords hstores hcommits, rfl, hinternal ..⟩

end Internal

-- A request may open the log of a partition, and write to it.
inductive Uses (b : Broker) : Broker → Prop
  | unchanged : Uses b b
  | log {b' : Broker} {topic : Bytes} {partition : Int} : (b.partition? topic partition).isSome →
    b'.topics = b.topics → b'.metadata = b.metadata →
    (∀ {topic' partition'}, Storage.logDir b.logs.dataDir topic' partition' ≠
      Storage.logDir b.logs.dataDir topic partition → b.logs.Same b'.logs topic' partition') → Uses b b'

theorem uses_producePartition (env : Env) (b : Broker) (topic : Bytes) (partition : Int) (batch : Bytes) (acks : Int) :
    b.Uses (b.producePartition env topic partition batch acks).fst := by
  unfold producePartition
  generalize hleader : (b.partition? topic partition).map (·.leader) = leader
  by_cases hled : leader = some env.config.nodeID ∧ validRecordBatch batch
  case neg =>
    simp only [if_neg hled]
    rcases hp : Network.producePartition Storage.Log.appendWithOffset env.config.nodeID leader topic partition batch
      b.producers (.error .failed) with ⟨producers, log, produced⟩
    cases produces hp
    case refused => exact .unchanged
    all_goals contradiction
  case pos =>
    obtain ⟨p, hp, -⟩ := Option.map_eq_some_iff.mp (hleader.trans hled.left)
    have hsame : ∀ {topic' partition'}, Storage.logDir b.logs.dataDir topic' partition' ≠
        Storage.logDir b.logs.dataDir topic partition →
        b.logs.Same (b.logs.log topic partition).fst topic' partition' := Storage.Manager.same_log
    simp only [if_pos hled]
    generalize b.logs.log topic partition = r at hsame
    obtain ⟨logs, log⟩ := r
    simp only
    split
    case h_1 => exact .log (by rw [hp, Option.isSome_some]) rfl rfl hsame
    case h_2 =>
      refine .log (by rw [hp, Option.isSome_some]) rfl rfl fun hne => (hsame hne).trans ?_
      exact Storage.Manager.same_set ((hsame hne).dataDir ▸ hne) _

theorem uses_fetchPartition (env : Env) (b : Broker) (replicaID : Int) (topic : Bytes)
    (partition fetchOffset maxBytes : Int) :
    b.Uses (b.fetchPartition env replicaID topic partition fetchOffset maxBytes).fst := by
  unfold fetchPartition
  cases hp : b.partition? topic partition
  case none   => exact .unchanged
  case some p => exact .log (by rw [hp, Option.isSome_some]) rfl rfl Storage.Manager.same_log

theorem uses_listOffset (b : Broker) (topic : Bytes) (partition timestamp : Int) :
    b.Uses (b.listOffset topic partition timestamp).fst := by
  have hsame : ∀ {topic' partition'}, Storage.logDir b.logs.dataDir topic' partition' ≠
      Storage.logDir b.logs.dataDir topic partition →
      b.logs.Same (b.logs.log topic partition).fst topic' partition' := Storage.Manager.same_log
  unfold listOffset
  split
  case isFalse => exact .unchanged
  case isTrue hsome =>
    generalize b.logs.log topic partition = r at hsame
    obtain ⟨logs, e | log⟩ := r
    · exact .log hsome rfl rfl hsame
    · exact .log hsome rfl rfl hsame

theorem Uses.topics_eq (h : b.Uses b') : b'.topics = b.topics := by
  cases h
  case unchanged => rfl
  case log _ htopics _ _ => exact htopics

-- The partitions of topics with other names have other directories.
theorem Internal.uses (h : b.Internal R O) (huses : b.Uses b')
    (hapart : ∀ topic partition, (b.partition? topic partition).isSome → Apart topic ∧ 0 ≤ partition) :
    b'.Internal R O := by
  cases huses
  case unchanged => exact h
  case log topic partition hsome htopics hmetadata hsame =>
    obtain ⟨htopic, hpartition⟩ := hapart topic partition hsome
    have hdisk : b.logs.Same b'.logs clusterMetadata 0 := hsame fun heq =>
      htopic.right.right (Storage.logDir_inj (by decide) htopic.left le_rfl hpartition heq).left.symm
    have hoffsets : b.logs.Same b'.logs consumerOffsets 0 := hsame fun heq =>
      htopic.right.left (Storage.logDir_inj (by decide) htopic.left le_rfl hpartition heq).left.symm
    exact ⟨hmetadata ▸ h.metadata, h.disk.same hdisk, hdisk.log.trans h.closed, h.offsets.same hoffsets⟩

def sampleEnv : Env where
  config           := { Metadata.sampleTrio with nodeID := 1 }
  controllerID     := 1
  now              := 0
  led _ _          := none
  replicated _ _ _ := true

end Broker

namespace Persistence

-- The metadata log of a broker holds the given records, and so will it after all that is under way.
structure Saves (config : Config) (b : Metadata.Broker) (records : List Record) : Prop where
  stores   : b.log.Stores (records.map encodeMetadataRecord)
  storable : ∀ r ∈ records, Storable r
  recorded : Metadata.Recorded config Storable b

namespace Saves

variable {b b' : Metadata.Broker} {a : Metadata.Step} {o : List Metadata.Output}

theorem decode (h : Saves config b records) (hr : record ∈ records) :
    decodeMetadataRecord (encodeMetadataRecord record) = .ok record := by
  obtain ⟨hvalid, hsmall, -⟩ := h.storable record hr
  exact decode_encodeMetadataRecord hvalid hsmall

-- The records of a step are in the log.
theorem exec (h : Saves config b records)
    (hcreates : ∀ operation, a = .call operation → operation.Creates config Storable)
    (hlen : records.length + 1 < 2 ^ 63) (hs : b.exec config a = some (b', o)) :
    ∃ rs, Saves config b' (records ++ rs) ∧ rs.length ≤ 1 ∧ ∀ r, .logged r ∈ o → r ∈ rs := by
  have hrecorded := h.recorded.exec closed_storable hcreates hs
  cases a
  case call operation =>
    cases hs
    exact ⟨[], ⟨by simpa using h.stores, by simpa using h.storable, hrecorded⟩, by simp, by simp⟩
  case step i view =>
    obtain ⟨task, log, topics, task', htask, hstep, rfl, rfl⟩ := Metadata.exec_step hs
    obtain ⟨hoperation, hadvances⟩ := advances hstep
    obtain ⟨-, hprogress⟩ := h.recorded.tasks task (List.mem_of_getElem? htask)
    by_cases happend : ∃ record next, task.progress = .append record next
    case pos =>
      obtain ⟨record, next, heq⟩ := happend
      rw [heq] at hprogress
      obtain ⟨e, hlog⟩ := hadvances.append_eq heq
      obtain ⟨log'', hlog', hstores⟩ := h.stores.append hprogress.left.right.left (by simpa using hlen)
      cases hlog.symm.trans hlog'
      refine ⟨[record], ⟨by simpa using hstores, ?_, hrecorded⟩, by simp, fun r hr => ?_⟩
      · exact List.forall_mem_append.mpr ⟨h.storable, by simpa using hprogress.left⟩
      · obtain ⟨_, heq'⟩ := append_of_logged hr
        cases heq.symm.trans heq'
        exact List.mem_singleton_self _
    case neg =>
      have hlog := hadvances.log_eq fun record next heq => happend ⟨record, next, heq⟩
      refine ⟨[], ⟨?_, by simpa using h.storable, hrecorded⟩, by simp, fun r hr => ?_⟩
      · rw [hlog, List.append_nil]
        exact h.stores
      · obtain ⟨next, heq⟩ := append_of_logged hr
        exact (happend ⟨r, next, heq⟩).elim

end Saves

variable {s s' : State} {a : Step} {as : List Step} {o os : List Output} {n : Nat} {dataDir : Bytes} {env : Env}

theorem Saves.transfer {broker : Broker} (h : Saves config s.metadata records)
    (htopics : broker.topics = s.broker.topics) (hstores : broker.metadata.Stores (records.map encodeMetadataRecord)) :
    Saves config { s with broker }.metadata records := by
  refine ⟨hstores, h.storable, ⟨?_, ?_, h.recorded.tasks⟩⟩
  · change RegistryRecords Storable broker.topics
    rw [htopics]
    exact h.recorded.topics
  · change Keyed broker.topics
    rw [htopics]
    exact h.recorded.keyed

-- All that has been written can be read, so the broker can start again.
structure Readable (s : State) (os : List Output) : Prop where
  records : ∀ r, .topics (.logged r) ∈ os → decodeMetadataRecord (encodeMetadataRecord r) = .ok r
  commits : ∀ c, .committed c ∈ os →
    Offset.decodeEntry (Offset.encodeEntry c.key c.offset c.now) = .ok (c.key, c.offset)
  start   : ∃ broker, s.broker.restart = .ok broker

-- What is asked for fits the fields it is written to, and the files of a new topic are not those of an internal log.
def Fits (_ : State) : Step → Prop
  | .topics (.call (.createTopic name numPartitions replicationFactor)) =>
    Apart name ∧ (Operation.createTopic name numPartitions replicationFactor).Fits
  | .commit env key offset => (Offset.Commit.mk key offset env.now).Valid
  | _                      => True

instance (s : State) : DecidablePred (Fits s) := fun _ => by
  unfold Fits
  split <;> infer_instance

theorem Fits.creates {a : Metadata.Step} (h : Fits s (.topics a)) (operation : Operation) (heq : a = .call operation) :
    operation.Creates config Storable := by
  subst heq
  cases operation
  case createTopic => exact fun _ hnew => storable_newPartitions h.left h.right hnew
  all_goals trivial

structure Inv (config : Config) (n : Nat) (s : State) (os : List Output) (records : List Record)
    (commits : List Offset.Commit) : Prop where
  saves     : Saves config s.metadata records
  internal  : s.broker.Internal (records.map encodeMetadataRecord) (commits.map Offset.Commit.payload)
  valid     : ∀ c ∈ commits, c.Valid
  length_le : records.length ≤ n ∧ commits.length ≤ n
  logged    : ∀ r, .topics (.logged r) ∈ os → r ∈ records
  committed : ∀ c, .committed c ∈ os → c ∈ commits

namespace Inv

theorem init (config : Config) (h : Usable dataDir) : Inv config 0 (.init dataDir) [] [] [] where
  saves     := ⟨Storage.Log.empty_stores, by simp, Metadata.recorded_empty config Storable⟩
  internal  := (Broker.Internal.init h).right
  valid     := by simp
  length_le := by simp
  logged    := by simp
  committed := by simp

theorem restart (h : Inv config n s os records commits) :
    ∃ broker, s.broker.restart = .ok broker ∧ Inv config n ⟨broker, []⟩ os records commits := by
  obtain ⟨broker, hstart, htopics, hinternal⟩ :=
    h.internal.restart (fun r hr => (h.saves.storable r hr).left) h.valid
  refine ⟨broker, hstart, ⟨hinternal.metadata, h.saves.storable, ⟨?_, ?_, by simp [State.metadata]⟩⟩, hinternal,
    h.valid, h.length_le, h.logged, h.committed⟩
  · change RegistryRecords Storable broker.topics
    rw [htopics]
    exact .replayed h.saves.storable
  · change Keyed broker.topics
    rw [htopics]
    exact keyed_replayed records

theorem readable (h : Inv config n s os records commits) : Readable s os where
  records r hr := h.saves.decode (h.logged r hr)
  commits c hc := Offset.decodeEntry_payload (h.valid c (h.committed c hc))
  start        := by
    obtain ⟨broker, hstart, -⟩ := h.restart
    exact ⟨broker, hstart⟩

theorem apart_of_partition? (h : Inv config n s os records commits) (topic : Bytes) (partition : Int)
    (hsome : (s.broker.partition? topic partition).isSome) : Apart topic ∧ 0 ≤ partition := by
  obtain ⟨p, hp⟩ := Option.isSome_iff_exists.mp hsome
  obtain ⟨t, ht, hp⟩ := Option.bind_eq_some_iff.mp hp
  split at hp
  case isTrue => contradiction
  case isFalse hnonneg =>
    have hname := (h.saves.recorded.topics topic t ht).right.right
    exact ⟨h.saves.recorded.keyed topic t ht ▸ hname, not_lt.mp hnonneg⟩

theorem uses {broker : Broker} (h : Inv config n s os records commits) (huses : s.broker.Uses broker) :
    Inv config (n + 1) { s with broker } (os ++ []) records commits := by
  have hinternal := h.internal.uses huses h.apart_of_partition?
  obtain ⟨hle, hle'⟩ := h.length_le
  exact ⟨h.saves.transfer huses.topics_eq hinternal.metadata, hinternal, h.valid, ⟨by omega, by omega⟩,
    by simpa using h.logged, by simpa using h.committed⟩

theorem execTopics {a : Metadata.Step} {b : Metadata.Broker} {o : List Metadata.Output}
    (h : Inv config n s os records commits) (hn : n + 1 < 2 ^ 63) (hfits : Fits s (.topics a))
    (hs : s.metadata.exec config a = some (b, o)) :
    ∃ records', Inv config (n + 1) (s.setMetadata b) (os ++ o.map .topics) records' commits := by
  obtain ⟨hle, hle'⟩ := h.length_le
  obtain ⟨rs, hsaves, hrs, hlogged⟩ := h.saves.exec hfits.creates (by omega) hs
  refine ⟨records ++ rs, hsaves, h.internal.setMetadata hsaves.stores b.topics, h.valid,
    ⟨by rw [List.length_append]; omega, by omega⟩, fun r hr => ?_, fun c hc => ?_⟩
  · cases List.mem_append.mp hr
    case inl hr => exact List.mem_append_left _ (h.logged r hr)
    case inr hr => exact List.mem_append_right _ (hlogged r (by simpa using hr))
  · exact h.committed c (by simpa using hc)

theorem commit {key : Offset.Key} {offset : Int} (h : Inv config n s os records commits) (hn : n + 1 < 2 ^ 63)
    (hvalid : (Offset.Commit.mk key offset env.now).Valid) :
    ∃ broker, s.broker.commit env key offset = (broker, .ok ()) ∧
      Inv config (n + 1) { s with broker } (os ++ [.committed ⟨key, offset, env.now⟩]) records
        (commits ++ [⟨key, offset, env.now⟩]) := by
  obtain ⟨hle, hle'⟩ := h.length_le
  obtain ⟨broker, hcommit, htopics, hinternal⟩ := h.internal.commit hvalid (by omega)
  refine ⟨broker, hcommit, h.saves.transfer htopics hinternal.metadata, hinternal,
    List.forall_mem_append.mpr ⟨h.valid, by simpa using hvalid⟩, ⟨by omega, by simpa using hle'⟩, fun r hr => ?_,
    fun c hc => ?_⟩
  · exact h.logged r (by simpa using hr)
  · cases List.mem_append.mp hc
    case inl hc => exact List.mem_append_left _ (h.committed c hc)
    case inr hc =>
      cases List.mem_singleton.mp hc
      simp

theorem step (h : Inv config n s os records commits) (hn : n + 1 < 2 ^ 63) (hfits : Fits s a)
    (hs : (machine config).step s a = some (s', o)) :
    ∃ records commits, Inv config (n + 1) s' (os ++ o) records commits := by
  cases a
  case topics a =>
    obtain ⟨⟨b, out⟩, hexec, heq⟩ := Option.map_eq_some_iff.mp hs
    cases heq
    obtain ⟨records', h'⟩ := h.execTopics hn hfits hexec
    exact ⟨records', commits, h'⟩
  case produce =>
    cases hs
    exact ⟨records, commits, h.uses (Broker.uses_producePartition ..)⟩
  case fetch =>
    cases hs
    exact ⟨records, commits, h.uses (Broker.uses_fetchPartition ..)⟩
  case listOffset =>
    cases hs
    exact ⟨records, commits, h.uses (Broker.uses_listOffset ..)⟩
  case commit env key offset =>
    obtain ⟨broker, hcommit, h'⟩ := h.commit hn hfits
    simp only [machine, hcommit] at hs
    cases Option.some.inj hs
    exact ⟨records, _, h'⟩
  case restart =>
    obtain ⟨broker, hstart, h'⟩ := h.restart
    simp only [machine, hstart] at hs
    cases Option.some.inj hs
    obtain ⟨hle, hle'⟩ := h'.length_le
    exact ⟨records, commits, h'.saves, h'.internal, h'.valid, ⟨by omega, by omega⟩, by simpa using h'.logged,
      by simpa using h'.committed⟩

end Inv

theorem inductive_inv (config : Config) :
    (machine config).InductiveUpTo Fits (2 ^ 63 - 1)
      fun n s os => ∃ records commits, Inv config n s os records commits where
  step hn h hfits hs := h.elim fun _ h => h.elim fun _ h => h.step (by omega) hfits hs

theorem run_readString_of_neg {bs rest : Bytes} (h : int16 bs.length < 0) :
    (readString : Decoder Bytes).run (writeString bs ++ rest) =
    .error (.error (.negativeLength (int16 bs.length))) := by
  have hreads := reads_readInt16 (int16 bs.length)
  rw [int16, wrap_wrap, ← int16] at hreads
  rw [readString, writeString, List.append_assoc, hreads.run_bind, if_pos h]
  rfl

theorem decode_of_neg {name : Bytes} (h : int16 name.length < 0) (partitions : List Topic.Partition) :
    decodeMetadataRecord (encodeMetadataRecord ⟨.topicUpsert, name, partitions⟩) =
      .error (.error (.negativeLength (int16 name.length))) := by
  rw [decodeMetadataRecord, encodeMetadataRecord, List.append_assoc, readMetadataRecord, (reads_readInt8 _).run_bind]
  change Except.map _ ((readString >>= _ : Decoder Record).run _) = _
  rw [StateT.run_bind, run_readString_of_neg h]
  rfl

-- A broker that cannot read a record back.
theorem restart_of_neg {b : Broker} {name : Bytes} {partitions : List Topic.Partition}
    (h : int16 name.length < 0) (hinternal : b.Internal [encodeMetadataRecord ⟨.topicUpsert, name, partitions⟩] []) :
    b.restart = .error (.error (.negativeLength (int16 name.length))) := by
  obtain ⟨disk, metadata, logs, log, hopen, hlog, hstores, hinternal'⟩ :=
    Broker.open_of_stores rfl hinternal.disk.close hinternal.offsets.close
  have hreplay : Metadata.Broker.replay metadata = .error (.error (.negativeLength (int16 name.length))) := by
    rw [Metadata.Broker.replay, MetadataLog.replayAll, MetadataLog.readFrom,
      MetadataLog.readRawFrom_eq (hinternal' ∅ .new ∅).metadata (Int.le_refl 0)]
    simp only [Int.toNat_zero, List.drop_zero, List.mapM_cons, decode_of_neg h]
    rfl
  have hempty : log.Stores (([] : List Offset.Commit).map Offset.Commit.payload) := hstores
  have hoffsets : Offset.replay log = .ok ∅ := Offset.replay_eq hempty.shows (by simp)
  rw [Broker.restart, Broker.start, hopen]
  simp only [hlog, hoffsets, hreplay, bind, Except.bind]

theorem not_readable_of_neg (hdir : Usable dataDir) (view : View) {name : Bytes} {partitions : List Topic.Partition}
    (hname : int16 name.length < 0) (hsize : (encodeMetadataRecord ⟨.topicUpsert, name, partitions⟩).length < 2 ^ 32)
    (hnew : newPartitions config.cluster.ids 1 1 = .ok partitions) :
    ∃ s os, (machine config).run (.init dataDir) [.topics (.call (.createTopic name 1 1)), .topics (.step 0 view),
        .topics (.step 0 view)] = some (s, os) ∧
      s.broker.restart = .error (.error (.negativeLength (int16 name.length))) := by
  obtain ⟨log, happend, hlog⟩ := Storage.Log.empty_stores.append hsize (by decide)
  -- The broker after a step that leaves its metadata as it was.
  let busy (s : State) (progress : Progress) : State :=
    s.setMetadata ⟨.empty, ∅, [⟨.createTopic name 1 1, progress⟩]⟩
  have hcall : (machine config).step (.init dataDir) (.topics (.call (.createTopic name 1 1))) =
      some (busy (.init dataDir) .start, []) :=
    rfl
  have hget : ∀ s, (machine config).step (busy s .start) (.topics (.step 0 view)) =
      some (busy (busy s .start) (.append ⟨.topicUpsert, name, partitions⟩ .reply), []) := by
    intro s
    simp [machine, busy, State.metadata, State.setMetadata, Broker.setMetadata, Metadata.Broker.exec, Task.step,
      Operation.start, hnew, Topic.Registry.get, Metadata.outputs]
  have hlogged : ∀ s, (machine config).step (busy s (.append ⟨.topicUpsert, name, partitions⟩ .reply))
      (.topics (.step 0 view)) =
      some ((busy s (.append ⟨.topicUpsert, name, partitions⟩ .reply)).setMetadata
        ⟨log, ∅, [⟨.createTopic name 1 1, .apply ⟨.topicUpsert, name, partitions⟩ .reply⟩]⟩,
        [.topics (.logged ⟨.topicUpsert, name, partitions⟩)]) := by
    intro s
    simp [machine, busy, State.metadata, State.setMetadata, Broker.setMetadata, Metadata.Broker.exec, Task.step,
      MetadataLog.append, happend, Metadata.outputs]
  have hinternal := (Broker.Internal.init hdir).right
  have hempty := (hinternal.setMetadata Storage.Log.empty_stores ∅).setMetadata Storage.Log.empty_stores ∅
  refine ⟨_, _, Machine.run_cons_of_some hcall <| Machine.run_cons_of_some (hget _) <|
    Machine.run_cons_of_some (hlogged _) Machine.run_nil, ?_⟩
  exact restart_of_neg hname (hempty.setMetadata (by simpa using hlog) ∅)

def longName : Bytes :=
  List.replicate 32768 97

theorem length_longName : longName.length = 32768 :=
  List.length_replicate

end Persistence
end Network
