import Gokaf.Cluster.Theorems.MetadataLog
import Gokaf.Network.Metadata

open Go Protocol Cluster

-- What a record leaves under its name.
def Cluster.Record.effect (record : Record) : Option Topic.Topic :=
  match record.type with
  | .topicUpsert => some { name := record.topic, partitions := record.partitions }
  | .topicDelete => none

-- The record that leaves the given topic in the registry.
def Cluster.Record.upsert (t : Topic.Topic) : Record :=
  ⟨.topicUpsert, t.name, t.partitions⟩

namespace Network

variable {config : Config} {view : View} {log log' : Storage.Log} {topics topics' : Topic.Registry}
  {task task' : Task} {record : Record}

theorem lookup_applyMetadataRecord (topics : Topic.Registry) (record : Record) (name : Bytes) :
    (applyMetadataRecord topics record).lookup name =
      if name = record.topic then record.effect else topics.lookup name := by
  unfold applyMetadataRecord Record.effect
  by_cases hname : name = record.topic
  case pos =>
    subst hname
    cases record.type
    case topicUpsert => simp [Topic.Registry.upsert]
    case topicDelete =>
      simp only [Topic.Registry.delete, if_true]
      split
      case isTrue => exact Finmap.lookup_erase ..
      case isFalse hnone => simpa using hnone
  case neg =>
    rw [if_neg hname]
    cases record.type
    case topicUpsert => exact Finmap.lookup_insert_of_ne _ hname
    case topicDelete =>
      simp only [Topic.Registry.delete]
      split
      case isTrue => exact Finmap.lookup_erase_ne hname
      case isFalse => rfl

-- The registry of a broker that has applied the given records.
def replayed (records : List Record) : Topic.Registry :=
  records.foldl applyMetadataRecord ∅

theorem replayed_append (records : List Record) (record : Record) :
    replayed (records ++ [record]) = applyMetadataRecord (replayed records) record := by
  simp [replayed]

-- A topic is stored under its own name.
def Keyed (topics : Topic.Registry) : Prop :=
  ∀ name t, topics.lookup name = some t → t.name = name

theorem keyed_empty : Keyed ∅ := by
  simp [Keyed]

theorem Keyed.apply (h : Keyed topics) (record : Record) : Keyed (applyMetadataRecord topics record) := by
  intro name t ht
  rw [lookup_applyMetadataRecord] at ht
  split at ht
  case isFalse => exact h name t ht
  case isTrue heq =>
    unfold Record.effect at ht
    split at ht <;> cases ht
    exact heq.symm

theorem keyed_replayed (records : List Record) : Keyed (replayed records) := by
  induction records using List.reverseRecOn
  case nil                    => exact keyed_empty
  case append_singleton rs r hi => exact replayed_append rs r ▸ hi.apply r

section Registry

variable {P : Record → Prop}

-- Every topic of the registry comes from a record with the given property.
def RegistryRecords (P : Record → Prop) (topics : Topic.Registry) : Prop :=
  ∀ name t, topics.lookup name = some t → P (.upsert t)

theorem registryRecords_empty : RegistryRecords P ∅ := by
  simp [RegistryRecords]

theorem RegistryRecords.apply (h : RegistryRecords P topics) (hrecord : P record) :
    RegistryRecords P (applyMetadataRecord topics record) := by
  intro name t ht
  rw [lookup_applyMetadataRecord] at ht
  split at ht
  case isFalse => exact h name t ht
  case isTrue =>
    obtain ⟨type, topic, partitions⟩ := record
    cases type <;> cases ht
    exact hrecord

theorem RegistryRecords.replayed {records : List Record} (h : ∀ r ∈ records, P r) :
    RegistryRecords P (replayed records) := by
  induction records using List.reverseRecOn
  case nil => exact registryRecords_empty
  case append_singleton rs r hi =>
    rw [replayed_append]
    exact (hi fun r hr => h r (List.mem_append_left _ hr)).apply (h r (by simp))

theorem RegistryRecords.of_all {ts : List Topic.Topic} (h : RegistryRecords P topics) (hall : topics.All ts) :
    ∀ t ∈ ts, P (.upsert t) := by
  intro t ht
  have hmem : t ∈ topics.entries.map (·.snd) := hall ▸ Multiset.mem_coe.mpr ht
  obtain ⟨⟨name, t'⟩, hentry, heq⟩ := Multiset.mem_map.mp hmem
  cases heq
  exact h name t' (Finmap.mem_lookup_iff.mpr hentry)

end Registry

-- A topic that a record can carry.
structure IsTopic (t : Topic.Topic) : Prop where
  name       : t.name.length < 2 ^ 15
  partitions : ∀ p ∈ t.partitions, IsPartition p

structure IsRegistry (topics : Topic.Registry) : Prop where
  name    : ∀ name t, topics.lookup name = some t → t.name = name
  isTopic : ∀ name t, topics.lookup name = some t → IsTopic t

theorem valid_upsert_iff {t : Topic.Topic} : (Record.upsert t).Valid ↔ IsTopic t :=
  ⟨fun h => ⟨h.topic, h.partitions⟩, fun h => ⟨h.name, h.partitions, nofun⟩⟩

theorem isRegistry_iff : IsRegistry topics ↔ Keyed topics ∧ RegistryRecords Record.Valid topics := by
  constructor
  · exact fun h => ⟨h.name, fun name t ht => valid_upsert_iff.mpr (h.isTopic name t ht)⟩
  · exact fun h => ⟨h.left, fun name t ht => valid_upsert_iff.mp (h.right name t ht)⟩

theorem isRegistry_empty : IsRegistry ∅ :=
  isRegistry_iff.mpr ⟨keyed_empty, registryRecords_empty⟩

theorem IsRegistry.apply (h : IsRegistry topics) (hrecord : record.Valid) :
    IsRegistry (applyMetadataRecord topics record) := by
  obtain ⟨hkeyed, hrecords⟩ := isRegistry_iff.mp h
  exact isRegistry_iff.mpr ⟨hkeyed.apply record, hrecords.apply hrecord⟩

theorem isRegistry_replayed {records : List Record} (h : ∀ r ∈ records, r.Valid) : IsRegistry (replayed records) :=
  isRegistry_iff.mpr ⟨keyed_replayed records, .replayed h⟩

theorem isPartition_reassign {peerAlive : Int → Bool} {deadID : Int} {p : Topic.Partition} (h : IsPartition p) :
    IsPartition ((reassign peerAlive deadID p).getD p) := by
  unfold reassign
  split
  case isTrue => exact h
  case isFalse =>
    split
    case h_1 => exact h
    case h_2 leader live heq =>
      have hlive : ∀ id ∈ leader :: live, IsInt32 id := by
        intro id hid
        rw [← heq, liveISR, List.mem_insertionSort] at hid
        exact h.isr id (List.mem_filter.mp hid).left
      exact ⟨h.id, hlive leader List.mem_cons_self, h.replicas, hlive⟩

theorem isInt32_getD_ids (cluster : Membership) (k : Nat) : IsInt32 (cluster.ids.getD k 0) := by
  rw [List.getD_eq_getElem?_getD]
  cases hget : cluster.ids[k]?
  case none    => exact (by decide : IsInt32 0)
  case some id => exact cluster.int32 id (List.mem_of_getElem? hget)

theorem isInt32_of_assignReplicas {cluster : Membership} {count rf : Int} {replicas : List Int}
    (h : replicas ∈ Topic.assignReplicas count cluster.ids rf) : ∀ id ∈ replicas, IsInt32 id := by
  intro id hid
  unfold Topic.assignReplicas at h
  split at h
  case isTrue => simp at h
  case isFalse =>
    have ⟨_, _, heq⟩ := List.mem_map.mp h
    subst heq
    have ⟨_, _, heq⟩ := List.mem_map.mp hid
    exact heq ▸ isInt32_getD_ids cluster _

theorem isPartition_of_newPartitions {cluster : Membership} {numPartitions replicationFactor : Int}
    {partitions : List Topic.Partition}
    (h : newPartitions cluster.ids numPartitions replicationFactor = .ok partitions) :
    ∀ p ∈ partitions, IsPartition p := by
  unfold newPartitions at h
  split at h
  case isTrue => contradiction
  case isFalse =>
    split at h
    case isTrue => contradiction
    case isFalse =>
      cases h
      intro p hp
      have ⟨i, hi, heq⟩ := List.mem_mapIdx.mp hp
      subst heq
      have hids := isInt32_of_assignReplicas (List.getElem_mem hi)
      refine ⟨isInt32_int32 i, ?_, hids, hids⟩
      generalize (Topic.assignReplicas numPartitions cluster.ids replicationFactor)[i] = replicas at hids
      cases replicas
      case nil        => exact (by decide : IsInt32 0)
      case cons id _ => exact hids id List.mem_cons_self

theorem newPartitions_eq_ok {brokerIDs : List Int} {numPartitions replicationFactor : Int} (hn : 0 < numPartitions)
    (hrf : 0 < replicationFactor) (hle : replicationFactor ≤ brokerIDs.length) :
    ∃ partitions, newPartitions brokerIDs numPartitions replicationFactor = .ok partitions ∧
      partitions.length = numPartitions.toNat ∧
      ∀ p ∈ partitions, p.replicas.length = replicationFactor.toNat ∧ p.isr.length = replicationFactor.toNat := by
  have hids : brokerIDs ≠ [] := by
    rintro rfl
    simp at hle
    omega
  have hassign : ∀ replicas ∈ Topic.assignReplicas numPartitions brokerIDs replicationFactor,
      replicas.length = replicationFactor.toNat := by
    intro replicas h
    rw [Topic.assignReplicas, if_neg (by simp [hids]; omega)] at h
    have ⟨_, _, heq⟩ := List.mem_map.mp h
    rw [← heq, List.length_map, List.length_range]
  rw [newPartitions, if_neg (by omega), if_neg (by omega)]
  refine ⟨_, rfl, ?_, fun p hp => ?_⟩
  · rw [List.length_mapIdx, Topic.assignReplicas, if_neg (by simp [hids]; omega), List.length_map, List.length_range]
  · have ⟨i, hi, heq⟩ := List.mem_mapIdx.mp hp
    subst heq
    have hlen := hassign _ (List.getElem_mem hi)
    exact ⟨hlen, hlen⟩

theorem bounds_of_newPartitions {brokerIDs : List Int} {numPartitions replicationFactor : Int}
    {partitions : List Topic.Partition} (h : newPartitions brokerIDs numPartitions replicationFactor = .ok partitions) :
    0 < numPartitions ∧ 0 < replicationFactor ∧ replicationFactor ≤ brokerIDs.length := by
  unfold newPartitions at h
  split at h
  case isTrue => contradiction
  case isFalse =>
    split at h
    case isTrue  => contradiction
    case isFalse => omega

theorem isPartition_of_reassignTopic {peerAlive : Int → Bool} {deadID : Int} {t : Topic.Topic}
    {partitions : List Topic.Partition} (ht : IsTopic t) (h : reassignTopic peerAlive deadID t = some partitions) :
    ∀ p ∈ partitions, IsPartition p := by
  unfold reassignTopic at h
  split at h
  case isFalse => contradiction
  case isTrue =>
    cases h
    intro p hp
    have ⟨q, hq, heq⟩ := List.mem_map.mp hp
    exact heq ▸ isPartition_reassign (ht.partitions q hq)

-- What a step of an operation can do.
inductive Advances (config : Config) (view : View) (log : Storage.Log) (topics : Topic.Registry) (task : Task) :
    Storage.Log → Topic.Registry → Progress → Prop
  | started {progress : Progress} : task.progress = .start →
    task.operation.start config view topics = some progress → Advances config view log topics task log topics progress
  | scanned {deadID : Int} : task.progress = .scan deadID [] →
    Advances config view log topics task log topics (.done .none)
  | skipped {deadID : Int} {t : Topic.Topic} {ts : List Topic.Topic} : task.progress = .scan deadID (t :: ts) →
    reassignTopic (peerAlive config.nodeID view) deadID t = none →
    Advances config view log topics task log topics (.scan deadID ts)
  | reassigned {deadID : Int} {t : Topic.Topic} {ts : List Topic.Topic} {partitions : List Topic.Partition} :
    task.progress = .scan deadID (t :: ts) →
    reassignTopic (peerAlive config.nodeID view) deadID t = some partitions →
    Advances config view log topics task log topics (.append ⟨.topicUpsert, t.name, partitions⟩ (.scan deadID ts))
  | appended {record : Record} {next : Continuation} {log' : Storage.Log} {offset : Int} :
    task.progress = .append record next → MetadataLog.append log record = (log', .ok offset) →
    Advances config view log topics task log' topics (.apply record next)
  | failed {record : Record} {next : Continuation} {log' : Storage.Log} {e : IOError} :
    task.progress = .append record next → MetadataLog.append log record = (log', .error e) →
    Advances config view log topics task log' topics next.fail
  | applied {record : Record} {next : Continuation} : task.progress = .apply record next →
    Advances config view log topics task log (applyMetadataRecord topics record) next.resume

theorem advances (h : task.step config view log topics = some (log', topics', task')) :
    task'.operation = task.operation ∧ Advances config view log topics task log' topics' task'.progress := by
  unfold Task.step at h
  split at h
  case h_1 hprogress =>
    have ⟨progress, hstart, heq⟩ := Option.map_eq_some_iff.mp h
    cases heq
    exact ⟨rfl, .started hprogress hstart⟩
  case h_2 hprogress =>
    cases h
    exact ⟨rfl, .scanned hprogress⟩
  case h_3 hprogress =>
    split at h
    case h_1 hnone =>
      cases h
      exact ⟨rfl, .skipped hprogress hnone⟩
    case h_2 hsome =>
      cases h
      exact ⟨rfl, .reassigned hprogress hsome⟩
  case h_4 hprogress =>
    split at h
    case h_1 happend =>
      cases h
      exact ⟨rfl, .appended hprogress happend⟩
    case h_2 happend =>
      cases h
      exact ⟨rfl, .failed hprogress happend⟩
  case h_5 hprogress =>
    cases h
    exact ⟨rfl, .applied hprogress⟩
  case h_6 => contradiction

theorem Advances.not_done {progress : Progress} (h : Advances config view log topics task log' topics' progress)
    (code : ErrorCode) : task.progress ≠ .done code := by
  intro hdone
  cases h <;> simp_all

-- A property of the records that the operations make, kept along their steps.
section Records

variable {P : Record → Prop}

def Continuation.Records (P : Record → Prop) : Continuation → Prop
  | reply     => True
  | scan _ ts => ∀ t ∈ ts, P (.upsert t)

def Progress.Records (P : Record → Prop) : Progress → Prop
  | start | done _                         => True
  | scan _ ts                              => ∀ t ∈ ts, P (.upsert t)
  | append record next | apply record next => P record ∧ next.Records P

-- What is made of a topic that has the property has it, too.
structure Closed (P : Record → Prop) : Prop where
  delete   : ∀ t, P (.upsert t) → P ⟨.topicDelete, t.name, []⟩
  reassign : ∀ alive deadID t partitions, P (.upsert t) → reassignTopic alive deadID t = some partitions →
    P ⟨.topicUpsert, t.name, partitions⟩

-- A new topic has the property.
def Operation.Creates (config : Config) (P : Record → Prop) : Operation → Prop
  | createTopic name numPartitions replicationFactor =>
    ∀ partitions, newPartitions config.cluster.ids numPartitions replicationFactor = .ok partitions →
      P ⟨.topicUpsert, name, partitions⟩
  | deleteTopic _ | onPeerDown _ => True

theorem Operation.Creates.of_start {operation : Operation} {progress : Progress} (h : operation.Creates config P)
    (hclosed : Closed P) (htopics : RegistryRecords P topics) (hkeyed : Keyed topics)
    (hs : operation.start config view topics = some progress) : progress.Records P := by
  cases operation
  case createTopic name numPartitions replicationFactor =>
    simp only [Operation.start] at hs
    split at hs
    case h_1 =>
      cases hs
      trivial
    case h_2 hpartitions =>
      split at hs <;> cases hs
      case isTrue  => trivial
      case isFalse => exact ⟨h _ hpartitions, trivial⟩
  case deleteTopic name =>
    simp only [Operation.start] at hs
    split at hs <;> cases hs
    case isFalse => trivial
    case isTrue hsome =>
      obtain ⟨t, ht⟩ := Option.isSome_iff_exists.mp hsome
      have hdelete := hclosed.delete t (htopics name t ht)
      rw [hkeyed name t ht] at hdelete
      exact ⟨hdelete, trivial⟩
  case onPeerDown deadID =>
    simp only [Operation.start] at hs
    split at hs
    case isTrue =>
      cases hs
      trivial
    case isFalse =>
      split at hs
      case isFalse => contradiction
      case isTrue hall =>
        cases hs
        exact htopics.of_all hall

theorem Advances.records {progress : Progress} (h : Advances config view log topics task log' topics' progress)
    (hclosed : Closed P) (hcreates : task.operation.Creates config P) (hprogress : task.progress.Records P)
    (htopics : RegistryRecords P topics) (hkeyed : Keyed topics) :
    progress.Records P ∧ RegistryRecords P topics' ∧ Keyed topics' := by
  have hresume : ∀ next : Continuation, next.Records P → next.resume.Records P ∧ next.fail.Records P := by
    intro next hnext
    cases next
    case reply => exact ⟨trivial, trivial⟩
    case scan  => exact ⟨hnext, hnext⟩
  cases h
  case started hstart => exact ⟨hcreates.of_start hclosed htopics hkeyed hstart, htopics, hkeyed⟩
  case scanned        => exact ⟨trivial, htopics, hkeyed⟩
  case skipped heq _ =>
    rw [heq] at hprogress
    exact ⟨(List.forall_mem_cons.mp hprogress).right, htopics, hkeyed⟩
  case reassigned heq hsome =>
    rw [heq] at hprogress
    obtain ⟨ht, hts⟩ := List.forall_mem_cons.mp hprogress
    exact ⟨⟨hclosed.reassign _ _ _ _ ht hsome, hts⟩, htopics, hkeyed⟩
  case appended heq _ =>
    rw [heq] at hprogress
    exact ⟨hprogress, htopics, hkeyed⟩
  case failed heq _ =>
    rw [heq] at hprogress
    exact ⟨(hresume _ hprogress.right).right, htopics, hkeyed⟩
  case applied heq =>
    rw [heq] at hprogress
    exact ⟨(hresume _ hprogress.right).left, htopics.apply hprogress.left, hkeyed.apply _⟩

end Records

-- The record that an operation has appended and not yet applied.
def Task.pending? (task : Task) : Option Record :=
  match task.progress with
  | .apply record _ => some record
  | _               => none

-- The name of the topic that an operation is about to create.
def Task.creating? (task : Task) : Option Bytes :=
  match task.operation, task.progress with
  | .createTopic name .., .append .. | .createTopic name .., .apply .. => some name
  | _, _                                                               => none

def Continuation.Valid : Continuation → Prop
  | reply     => True
  | scan _ ts => ∀ t ∈ ts, IsTopic t

def Progress.Valid : Progress → Prop
  | start | done _                           => True
  | scan _ ts                                => ∀ t ∈ ts, IsTopic t
  | append record next | apply record next => record.Valid ∧ next.Valid

-- The length of a name is written with 16 bits.
def Operation.Short : Operation → Prop
  | createTopic name .. => name.length < 2 ^ 15
  | deleteTopic _ | onPeerDown _ => True

instance : DecidablePred Operation.Short := fun _ => by
  unfold Operation.Short
  split <;> infer_instance

theorem Progress.valid_iff {progress : Progress} : progress.Valid ↔ progress.Records Record.Valid := by
  have hnext : ∀ next : Continuation, next.Valid ↔ next.Records Record.Valid := by
    intro next
    cases next
    case reply => exact Iff.rfl
    case scan  => exact forall₂_congr fun _ _ => valid_upsert_iff.symm
  cases progress
  case scan   => exact forall₂_congr fun _ _ => valid_upsert_iff.symm
  case append => exact and_congr_right fun _ => hnext _
  case apply  => exact and_congr_right fun _ => hnext _
  all_goals exact Iff.rfl

theorem closed_valid : Closed Record.Valid where
  delete _ h := ⟨h.topic, nofun, fun _ => rfl⟩
  reassign _ _ _ _ h hsome := ⟨h.topic, isPartition_of_reassignTopic (valid_upsert_iff.mp h) hsome, nofun⟩

theorem Operation.Short.creates {operation : Operation} (h : operation.Short) :
    operation.Creates config Record.Valid := by
  cases operation
  case createTopic => exact fun _ hpartitions => ⟨h, isPartition_of_newPartitions hpartitions, nofun⟩
  all_goals trivial

theorem Advances.valid {progress : Progress} (h : Advances config view log topics task log' topics' progress)
    (hshort : task.operation.Short) (hvalid : task.progress.Valid) (htopics : IsRegistry topics) :
    progress.Valid ∧ IsRegistry topics' := by
  obtain ⟨hkeyed, hrecords⟩ := isRegistry_iff.mp htopics
  obtain ⟨hprogress, hrecords', hkeyed'⟩ :=
    h.records closed_valid hshort.creates (Progress.valid_iff.mp hvalid) hrecords hkeyed
  exact ⟨Progress.valid_iff.mpr hprogress, isRegistry_iff.mpr ⟨hkeyed', hrecords'⟩⟩

namespace Metadata

variable {b b' : Broker} {a : Step} {o : List Output} {P : Record → Prop}

theorem exec_step {i : Nat} (h : b.exec config (.step i view) = some (b', o)) :
    ∃ task log topics task', b.tasks[i]? = some task ∧
      task.step config view b.log b.topics = some (log, topics, task') ∧
      b' = ⟨log, topics, b.tasks.set i task'⟩ ∧ o = outputs task task' := by
  simp only [Broker.exec] at h
  split at h
  case h_1 => contradiction
  case h_2 task htask =>
    split at h
    case h_1 => contradiction
    case h_2 log topics task' hstep =>
      cases h
      exact ⟨task, log, topics, task', htask, hstep, rfl, rfl⟩

-- All records that a broker has made or is going to make have the property.
structure Recorded (config : Config) (P : Record → Prop) (b : Broker) : Prop where
  topics : RegistryRecords P b.topics
  keyed  : Keyed b.topics
  tasks  : ∀ task ∈ b.tasks, task.operation.Creates config P ∧ task.progress.Records P

theorem recorded_empty (config : Config) (P : Record → Prop) : Recorded config P .empty where
  topics := registryRecords_empty
  keyed  := keyed_empty
  tasks  := by simp [Broker.empty]

theorem Recorded.exec (h : Recorded config P b) (hclosed : Closed P)
    (hcreates : ∀ operation, a = .call operation → operation.Creates config P)
    (hs : b.exec config a = some (b', o)) : Recorded config P b' := by
  cases a
  case call operation =>
    cases hs
    refine ⟨h.topics, h.keyed, List.forall_mem_append.mpr ⟨h.tasks, ?_⟩⟩
    simpa using ⟨hcreates operation rfl, trivial⟩
  case step i view =>
    obtain ⟨task, log, topics, task', htask, hstep, rfl, -⟩ := exec_step hs
    obtain ⟨hoperation, hadvances⟩ := advances hstep
    obtain ⟨hcreates, hprogress⟩ := h.tasks task (List.mem_of_getElem? htask)
    obtain ⟨hprogress', htopics', hkeyed'⟩ := hadvances.records hclosed hcreates hprogress h.topics h.keyed
    refine ⟨htopics', hkeyed', fun other hother => ?_⟩
    cases List.mem_or_eq_of_mem_set hother
    case inl hother => exact h.tasks other hother
    case inr heq    => exact heq ▸ ⟨hoperation ▸ hcreates, hprogress'⟩

theorem inductive_recorded (hclosed : Closed P) :
    (machine config).Inductive (fun _ a => ∀ operation, a = .call operation → operation.Creates config P)
      fun b _ => Recorded config P b where
  step h hcreates hs := h.exec hclosed hcreates hs

end Metadata
end Network
