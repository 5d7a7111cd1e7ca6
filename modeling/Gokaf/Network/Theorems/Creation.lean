import Gokaf.Network.Theorems.Ledger
import Gokaf.Producer.Theorems.Sequence

open Go Protocol Cluster

namespace Network

variable {b b' : Broker} {env : Env} {topic dataDir : Bytes} {partition : Int} {n : Nat}

namespace Ledger

variable {l l' : Ledger} {a : Env × Service.Request} {answers : List Service.Answer}

-- A producer that the broker remembers has appended a batch.
def Remembers (l : Ledger) : Prop :=
  ∀ topic partition, l.batches (topic, partition) = [] → ∀ pid, l.producers.seqs ⟨pid, topic, partition⟩ = none

theorem Remembers.extended (h : l.Remembers) (batch : Bytes) {producers : Producer.Manager}
    (hseqs : ∀ pid topic' partition', (topic', partition') ≠ (topic, partition) →
      producers.seqs ⟨pid, topic', partition'⟩ = l.producers.seqs ⟨pid, topic', partition'⟩) :
    Remembers { l with batches := l.extended topic partition batch, producers } := by
  intro topic' partition' hnil pid
  by_cases heq : (topic', partition') = (topic, partition)
  case pos =>
    rw [heq] at hnil
    simp [extended_self] at hnil
  case neg =>
    have hbatches : l.batches (topic', partition') = [] := by rwa [← extended_of_ne l batch heq]
    exact (hseqs pid topic' partition' heq).trans (h topic' partition' hbatches pid)

theorem Remembers.step (h : l.Remembers) (hs : Step l a answers l') : l'.Remembers := by
  cases hs
  case createTopic env name numPartitions replicationFactor code heq =>
    obtain rfl | rfl := eq_or_of_asController heq
    case inl => exact h
    case inr =>
      unfold Ledger.createTopic
      split
      case h_1 => exact h
      case h_2 => split <;> exact h
  case deleteTopic env name code heq =>
    obtain rfl | rfl := eq_or_of_asController heq
    case inl => exact h
    case inr =>
      unfold Ledger.deleteTopic
      split <;> exact h
  case produce env topic batch partition acks response heq =>
    cases takes heq
    case refused   => exact h
    case duplicate => exact h
    case appended =>
      refine h.extended batch fun pid topic' partition' hother => ?_
      refine Producer.Manager.seqs_committedLocked_of_ne (fun hkey => hother ?_) ..
      obtain ⟨-, htopic', hpartition'⟩ := Producer.SeqKey.mk.inj hkey
      rw [htopic', hpartition']
    case plain => exact h.extended batch fun _ _ _ _ => rfl
  case initProducerID hinit =>
    cases hinit
    exact h
  case restart => exact fun _ _ _ _ => rfl
  case crash hproducers =>
    intro _ _ _ _
    rw [hproducers]
    rfl
  all_goals exact h

end Ledger

namespace Broker

-- A batch that the first append of a partition may be, as far as its producer is concerned.
def StartsAtZero (batch : Bytes) : Prop :=
  Batch.pid batch < 0 ∨ Batch.baseSeq batch = 0

-- A partition without a record: nothing is fetched from it, and the next batch is its first one.
structure Empty (b : Broker) (nodeID : Int) (topic : Bytes) (partition : Int) : Prop where
  latest  : (b.listOffset topic partition listOffsetLatest).snd =
    { index := partition, errorCode := .none, timestamp := -1, offset := 0 }
  fetch   : ∀ env replicaID maxBytes,
    (b.fetchPartition env replicaID topic partition 0 maxBytes).snd.errorCode = .none ∧
    (b.fetchPartition env replicaID topic partition 0 maxBytes).snd.records = none
  produce : ∀ env batch acks, env.config.nodeID = nodeID → validRecordBatch batch → batch.length < 2 ^ 32 →
    StartsAtZero batch →
    (b.producePartition env topic partition batch acks).snd.baseOffset = 0 ∧
    ((b.producePartition env topic partition batch acks).snd.errorCode = .none ∨
      acks = -1 ∧ (b.producePartition env topic partition batch acks).snd.errorCode = .requestTimedOut)
  refuse  : ∀ env batch acks, env.config.nodeID = nodeID → validRecordBatch batch → ¬StartsAtZero batch →
    (b.producePartition env topic partition batch acks).snd = ⟨partition, .outOfOrderSequenceNumber, -1⟩

section First

variable {batch : Bytes} {producers : Producer.Manager} {log' : Storage.Log}

theorem producePartition_of_zero (nodeID : Int) {log : Storage.Log} (hvalid : validRecordBatch batch)
    (hseqs : ∀ pid, producers.seqs ⟨pid, topic, partition⟩ = none)
    (happend : log.appendWithOffset batch Batch.stamp = (log', .ok 0)) (hzero : StartsAtZero batch) :
    ∃ producers', Network.producePartition Storage.Log.appendWithOffset nodeID (some nodeID) topic partition batch
      producers (.ok log) = (producers', .ok log', .waitForAllAcks ⟨partition, .none, 0⟩) := by
  by_cases hpid : 0 ≤ Batch.pid batch
  case neg => exact ⟨producers, by simp [Network.producePartition, hvalid, hpid, happend]⟩
  case pos =>
    have hseq : Batch.baseSeq batch = 0 := hzero.resolve_left (not_lt.mpr hpid)
    have hcheck : producers.checkSequenceLocked ⟨Batch.pid batch, topic, partition⟩ (Batch.baseSeq batch) =
        { decision := .append } := by
      rw [Producer.Manager.checkSequenceLocked, hseqs]
      exact if_pos hseq
    refine ⟨producers.committedLocked ⟨Batch.pid batch, topic, partition⟩ (Batch.baseSeq batch)
      (Batch.recordCount batch) 0, ?_⟩
    simp [Network.producePartition, hvalid, hpid, Producer.Manager.appendBatch, hcheck, happend]

theorem producePartition_of_nonzero (nodeID : Int) (log : Storage.Log) (hvalid : validRecordBatch batch)
    (hseqs : ∀ pid, producers.seqs ⟨pid, topic, partition⟩ = none) (hzero : ¬StartsAtZero batch) :
    Network.producePartition Storage.Log.appendWithOffset nodeID (some nodeID) topic partition batch producers
      (.ok log) = (producers, .ok log, .answer ⟨partition, .outOfOrderSequenceNumber, -1⟩) := by
  obtain ⟨hpid, hseq⟩ := not_or.mp hzero
  have hcheck : producers.checkSequenceLocked ⟨Batch.pid batch, topic, partition⟩ (Batch.baseSeq batch) =
      { decision := .outOfOrder } := by
    rw [Producer.Manager.checkSequenceLocked, hseqs]
    exact if_neg hseq
  simp [Network.producePartition, hvalid, not_lt.mp hpid, Producer.Manager.appendBatch, hcheck]

end First

theorem empty_of_stores {log : Storage.Log} {logs : Storage.Manager} {nodeID : Int}
    (hlog : b.logs.log topic partition = (logs, .ok log)) (hstores : log.Stores [])
    (hleader : (b.partition? topic partition).map (·.leader) = some nodeID)
    (hseqs : ∀ pid, b.producers.seqs ⟨pid, topic, partition⟩ = none) : b.Empty nodeID topic partition := by
  obtain ⟨p, hp, hnode⟩ := Option.map_eq_some_iff.mp hleader
  have hend : log.endOffset = 0 := hstores.endOffset
  have happends : ∀ {batch : Bytes}, batch.length < 2 ^ 32 →
      ∃ log', log.appendWithOffset batch Batch.stamp = (log', .ok 0) := by
    intro batch hlen
    obtain ⟨log', happend, -⟩ := hstores.appendWithOffset Batch.stamp hlen (by decide)
    exact ⟨log', happend⟩
  constructor
  case latest => simp [listOffset, hp, hlog, hend]
  case fetch =>
    intro env replicaID maxBytes
    simp [fetchPartition, hp, hlog, Network.fetchPartition, answerFetch, storageLog, hend]
  case produce =>
    intro env batch acks hnodeID hvalid hlen hzero
    obtain ⟨log', happend⟩ := happends hlen
    obtain ⟨producers', heq⟩ := producePartition_of_zero nodeID hvalid hseqs happend hzero
    simp only [producePartition, hleader, hnodeID, hvalid, and_self, if_true, hlog, heq, waitForAllAcks]
    split
    case isTrue => exact ⟨rfl, .inl rfl⟩
    case isFalse hacks =>
      split
      case isTrue  => exact ⟨rfl, .inl rfl⟩
      case isFalse => exact ⟨rfl, .inr ⟨not_not.mp (not_or.mp hacks).left, rfl⟩⟩
  case refuse =>
    intro env batch acks hnodeID hvalid hzero
    have heq := producePartition_of_nonzero nodeID log hvalid hseqs hzero
    simp only [producePartition, hleader, hnodeID, hvalid, and_self, if_true, hlog, heq, waitForAllAcks]

-- Nothing has been written to the directories that the partitions of a new topic get.
def Vacant (b : Broker) (name : Bytes) (numPartitions : Int) : Prop :=
  ∀ i < numPartitions.toNat, Storage.Unwritten (b.logs.disk (Storage.logDir b.logs.dataDir name i))

instance (b : Broker) (name : Bytes) (numPartitions : Int) : Decidable (b.Vacant name numPartitions) :=
  inferInstanceAs (Decidable (∀ i < numPartitions.toNat, _))

-- A topic that is created where nothing has been written.
theorem empty_of_vacant {l : Ledger} {name : Bytes} {numPartitions replicationFactor : Int}
    (h : l.Represents dataDir n b) (hn : n + 1 < 2 ^ 63) (hremembers : l.Remembers)
    (hname : Operable dataDir name numPartitions replicationFactor) (hvacant : b.Vacant name numPartitions)
    (hcreate : b.createTopic env name numPartitions replicationFactor = (b', .none)) :
    ∃ t, b'.topics.get name = some t ∧ t.partitions.length = numPartitions.toNat ∧
      ∀ p ∈ t.partitions, p.leader = env.config.nodeID → b'.Empty env.config.nodeID name p.id := by
  obtain ⟨b'', l', code, hb, hl, h'⟩ := h.createTopic hn env hname
  cases hb.symm.trans hcreate
  unfold Ledger.createTopic at hl
  split at hl
  case h_1 code hnew =>
    obtain ⟨-, rfl⟩ := Prod.mk.inj hl
    unfold newPartitions at hnew
    split at hnew
    case isTrue => contradiction
    case isFalse =>
      split at hnew
      case isTrue  => contradiction
      case isFalse => contradiction
  case h_2 partitions hnew =>
    split at hl
    case isTrue => exact absurd (Prod.mk.inj hl).right (by decide)
    case isFalse =>
      obtain ⟨rfl, -⟩ := Prod.mk.inj hl
      have hbounds := bounds_of_newPartitions hnew
      obtain ⟨_, hok, hlen, -⟩ := newPartitions_eq_ok hbounds.left hbounds.right.left hbounds.right.right
      cases Except.ok.inj (hok.symm.trans hnew)
      have hget : b'.topics.get name = some ⟨name, partitions⟩ := by
        rw [h'.topics]
        change (replayed (l.records ++ [⟨.topicUpsert, name, partitions⟩])).lookup name = _
        rw [replayed_append, lookup_applyMetadataRecord]
        exact if_pos rfl
      refine ⟨_, hget, hlen, fun p hp hleader => ?_⟩
      obtain ⟨i, hi⟩ := List.mem_iff_getElem?.mp hp
      have hid := id_newPartitions hname.isInt32.right hnew hi
      have hlt : i < numPartitions.toNat := hlen ▸ (List.getElem?_eq_some_iff.mp hi).fst
      have hplain : Storage.Plain dataDir name i := ⟨hname.apart.left, Int.natCast_nonneg i, hname.ordinary i hlt⟩
      -- The files of the partition are as they were before.
      obtain ⟨disk, hopen, hdisk⟩ := (h.logs.stores name i (h.dir ▸ hplain)).disk
      rw [l.contents_of_apart hname.apart] at hdisk
      have hnil : l.batches (name, (i : Int)) = [] := (hvacant i hlt).eq_nil hopen hdisk
      obtain ⟨logs, log, hlog, hstores, -⟩ := h'.openLog hname.apart hplain
      rw [show Ledger.batches _ (name, (i : Int)) = [] from hnil] at hstores
      rw [hid]
      refine empty_of_stores hlog hstores ?_ fun pid => ?_
      · simp [partition?, hget, hi, hleader]
      · rw [h'.producers]
        exact hremembers name i hnil pid

-- Whatever has been done before, if nothing has been written to the directories of the new topic.
theorem empty_of_created {as : List (Env × Service.Request)} {answers : List Service.Answer} {name : Bytes}
    {numPartitions replicationFactor : Int} (hdir : Usable dataDir) (hn : as.length < 2 ^ 63 - 2)
    (hfits : ∀ a ∈ as, Ledger.Fits dataDir a) (hr : Service.machine.run (.init dataDir) as = some (b, answers))
    (hname : Operable dataDir name numPartitions replicationFactor) (hvacant : b.Vacant name numPartitions)
    (hcreate : b.createTopic env name numPartitions replicationFactor = (b', .none)) :
    ∃ t, b'.topics.get name = some t ∧ t.partitions.length = numPartitions.toNat ∧
      ∀ p ∈ t.partitions, p.leader = env.config.nodeID → b'.Empty env.config.nodeID name p.id := by
  obtain ⟨b'', answers', l, hr', htrace, h⟩ :=
    (Ledger.refinesUpTo dataDir).run (Ledger.Represents.init hdir).right (by omega) hfits
  cases hr'.symm.trans hr
  have hremembers : l.Remembers := htrace.invariant (P := Ledger.Remembers) (D := fun _ => True)
    (fun h _ hs => h.step hs) (fun _ _ _ _ => rfl) fun _ _ => trivial
  exact empty_of_vacant h (by omega) hremembers hname hvacant hcreate

-- The requests that leave the topic "t" deleted, after it has been written to.
def sampleDeleted : List (Env × Service.Request) := [
  (sampleEnv, .createTopic [116] 1 1), (sampleEnv, .produce [116] 0 (Batch.headerOnly (-1) (-1) 1) 1),
  (sampleEnv, .deleteTopic [116]), (sampleEnv, .restart)
]

-- A topic with another name.
theorem empty_of_created_other :
    ∃ b answers b', Service.machine.run (.init [100]) sampleDeleted = some (b, answers) ∧
      b.createTopic sampleEnv [117] 1 1 = (b', .none) ∧
      ∃ t, b'.topics.get [117] = some t ∧ t.partitions.length = 1 ∧
        ∀ p ∈ t.partitions, p.leader = 1 → b'.Empty 1 [117] p.id := by
  have hrun : (Service.machine.run (.init [100]) sampleDeleted).map (fun r =>
      ((r.fst.createTopic sampleEnv [117] 1 1).snd, decide (r.fst.Vacant [117] 1))) = some (.none, true) := by
    decide +kernel
  obtain ⟨⟨b, answers⟩, hr, heq⟩ := Option.map_eq_some_iff.mp hrun
  obtain ⟨hcode, hvacant⟩ := Prod.mk.inj heq
  have hcreate : b.createTopic sampleEnv [117] 1 1 = ((b.createTopic sampleEnv [117] 1 1).fst, .none) := by
    rw [← hcode]
  refine ⟨b, answers, _, hr, hcreate, ?_⟩
  exact empty_of_created (by decide +kernel) (by decide) (by decide +kernel) hr (by decide +kernel)
    (of_decide_eq_true hvacant) hcreate

-- The same name again. The files of the deleted topic are still there.
theorem recreated_not_empty :
    ∃ b answers b', Service.machine.run (.init [100]) sampleDeleted = some (b, answers) ∧
      b.createTopic sampleEnv [116] 1 1 = (b', .none) ∧
      b'.topics.get [116] = some ⟨[116], [⟨0, 1, [1], [1]⟩]⟩ ∧
      (b'.listOffset [116] 0 listOffsetLatest).snd = ⟨0, .none, -1, 1⟩ ∧ ¬b'.Empty 1 [116] 0 := by
  have hrun : (Service.machine.run (.init [100]) sampleDeleted).map (fun r =>
      ((r.fst.createTopic sampleEnv [116] 1 1).snd, (r.fst.createTopic sampleEnv [116] 1 1).fst.topics.get [116],
        ((r.fst.createTopic sampleEnv [116] 1 1).fst.listOffset [116] 0 listOffsetLatest).snd)) =
      some (.none, some ⟨[116], [⟨0, 1, [1], [1]⟩]⟩, ⟨0, .none, -1, 1⟩) := by decide +kernel
  obtain ⟨⟨b, answers⟩, hr, heq⟩ := Option.map_eq_some_iff.mp hrun
  obtain ⟨hcode, heq⟩ := Prod.mk.inj heq
  obtain ⟨hget, hlatest⟩ := Prod.mk.inj heq
  have hcreate : b.createTopic sampleEnv [116] 1 1 = ((b.createTopic sampleEnv [116] 1 1).fst, .none) := by
    rw [← hcode]
  refine ⟨b, answers, _, hr, hcreate, hget, hlatest, fun h => ?_⟩
  exact absurd (hlatest.symm.trans h.latest) (by decide)

end Broker
end Network
