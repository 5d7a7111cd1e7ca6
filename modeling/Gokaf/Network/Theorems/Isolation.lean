import Gokaf.Network.Broker
import Gokaf.Network.Theorems.Registry
import Gokaf.Storage.Theorems.Manager

open Go Protocol Cluster

namespace Network

variable {config : Config} {topics : Topic.Registry} {dataDir topic topic' : Bytes} {partition partition' : Int}

-- A name that cannot lead out of the data directory and is not that of an internal log.
def Apart (name : Bytes) : Prop :=
  Path.separator ∉ name ∧ name ≠ consumerOffsets ∧ name ≠ clusterMetadata

instance : DecidablePred Apart :=
  fun name => inferInstanceAs (Decidable (Path.separator ∉ name ∧ name ≠ consumerOffsets ∧ name ≠ clusterMetadata))

-- Such a name that `Glob` does not take for a pattern.
def Allowed (name : Bytes) : Prop :=
  Apart name ∧ Pattern.hasMeta name = false

instance : DecidablePred Allowed :=
  fun name => inferInstanceAs (Decidable (Apart name ∧ Pattern.hasMeta name = false))

theorem literal_logDir (hdir : Pattern.hasMeta dataDir = false) (htopic : Pattern.hasMeta topic = false)
    (hpartition : 0 ≤ partition) : (Storage.logDir dataDir topic partition).Literal := by
  refine Path.literal_join hdir ?_
  rw [Pattern.hasMeta, Storage.logKey, List.any_append, List.any_cons, ← Pattern.hasMeta, htopic]
  have hdecimal : (decimal partition).any Pattern.isMeta = false := by
    rw [List.any_eq_false]
    intro c hc hmeta
    have hdigit := isDigit_of_mem_decimal hpartition hc
    simp only [Pattern.isMeta, decide_eq_true_eq] at hmeta
    obtain rfl | rfl | rfl | rfl := hmeta
    all_goals
      revert hdigit
      decide
  rw [hdecimal]
  rfl

def HasPartition (topics : Topic.Registry) (topic : Bytes) (partition : Int) : Prop :=
  ∃ t, topics.get topic = some t ∧ ∃ p ∈ t.partitions, p.id = partition

-- Every partition has a directory of its own, so an append changes nothing that is read elsewhere: neither now nor
-- after a restart.
structure Isolated (dataDir : Bytes) (topics : Topic.Registry) : Prop where
  distinct : ∀ topic partition topic' partition', HasPartition topics topic partition →
    HasPartition topics topic' partition' → (topic, partition) ≠ (topic', partition') →
    Storage.logDir dataDir topic partition ≠ Storage.logDir dataDir topic' partition'
  offsets  : ∀ topic partition, HasPartition topics topic partition →
    Storage.logDir dataDir topic partition ≠ Storage.logDir dataDir consumerOffsets 0
  metadata : ∀ topic partition, HasPartition topics topic partition →
    Storage.logDir dataDir topic partition ≠ metadataDir dataDir
  append   : ∀ topic partition, HasPartition topics topic partition → ∀ m : Storage.Manager, m.dataDir = dataDir →
    ∀ payload stamp fault, let m' := (m.append topic partition payload stamp fault).fst
    (∀ topic' partition', HasPartition topics topic' partition' ∨ (topic', partition') = (consumerOffsets, 0) →
      (topic, partition) ≠ (topic', partition') →
      (m'.log topic' partition').snd = (m.log topic' partition').snd ∧
      (m'.close.log topic' partition').snd = (m.close.log topic' partition').snd) ∧
    m'.disk (metadataDir dataDir) = m.disk (metadataDir dataDir) ∧
    (Storage.openLog m'.disk (metadataDir dataDir)).snd = (Storage.openLog m.disk (metadataDir dataDir)).snd

theorem metadataDir_eq (dataDir : Bytes) : metadataDir dataDir = Storage.logDir dataDir clusterMetadata 0 :=
  rfl

theorem isolated_of_allowed (hdir : Pattern.hasMeta dataDir = false)
    (h : ∀ topic partition, HasPartition topics topic partition → Allowed topic ∧ 0 ≤ partition) :
    Isolated dataDir topics := by
  have hoffsets : Path.separator ∉ consumerOffsets := by decide
  have hmetadata : Path.separator ∉ clusterMetadata := by decide
  have hdistinct : ∀ {topic partition}, HasPartition topics topic partition → ∀ {topic' partition'},
      Path.separator ∉ topic' → 0 ≤ partition' → (topic, partition) ≠ (topic', partition') →
      Storage.logDir dataDir topic partition ≠ Storage.logDir dataDir topic' partition' := by
    intro topic partition hhas topic' partition' htopic' hpartition' hne heq
    obtain ⟨hallowed, hpartition⟩ := h topic partition hhas
    obtain ⟨rfl, rfl⟩ := Storage.logDir_inj hallowed.left.left htopic' hpartition hpartition' heq
    exact hne rfl
  have hinternal : ∀ {topic partition}, HasPartition topics topic partition →
      Storage.logDir dataDir topic partition ≠ metadataDir dataDir := by
    intro topic partition hhas
    have hne : (topic, partition) ≠ (clusterMetadata, 0) :=
      fun heq => (h topic partition hhas).left.left.right.right (Prod.mk.inj heq).left
    rw [metadataDir_eq]
    exact hdistinct hhas hmetadata le_rfl hne
  refine ⟨?_, ?_, fun _ _ => hinternal, ?_⟩
  · intro topic partition topic' partition' hhas hhas'
    obtain ⟨hallowed', hpartition'⟩ := h topic' partition' hhas'
    exact hdistinct hhas hallowed'.left.left hpartition'
  · intro topic partition hhas
    have hne : (topic, partition) ≠ (consumerOffsets, 0) :=
      fun heq => (h topic partition hhas).left.left.right.left (Prod.mk.inj heq).left
    exact hdistinct hhas hoffsets le_rfl hne
  · intro topic partition hhas m hm payload stamp fault
    subst hm
    constructor
    · intro topic' partition' hhas' hne
      obtain ⟨htopic', hmeta, hpartition'⟩ :
          Path.separator ∉ topic' ∧ Pattern.hasMeta topic' = false ∧ 0 ≤ partition' := by
        rcases hhas' with hhas' | heq
        · obtain ⟨hallowed', hpartition'⟩ := h topic' partition' hhas'
          exact ⟨hallowed'.left.left, hallowed'.right, hpartition'⟩
        · cases heq
          exact ⟨hoffsets, by decide, le_rfl⟩
      have hliteral := literal_logDir hdir hmeta hpartition'
      have hsame := Storage.Manager.same_append (hdistinct hhas htopic' hpartition' hne).symm payload stamp fault
      exact ⟨hsame.log_snd hliteral, hsame.close.log_snd hliteral⟩
    · have hdisk : (m.append topic partition payload stamp fault).fst.disk (metadataDir m.dataDir) =
          m.disk (metadataDir m.dataDir) := by
        have hne := (hinternal hhas).symm
        rw [metadataDir_eq] at hne ⊢
        exact (Storage.Manager.same_append hne payload stamp fault).disk
      have hliteral : (metadataDir m.dataDir).Literal := by
        rw [metadataDir_eq]
        exact literal_logDir hdir (by decide) le_rfl
      exact ⟨hdisk, by rw [Storage.openLog_of_literal hliteral, Storage.openLog_of_literal hliteral, hdisk]⟩

theorem id_reassign (alive : Int → Bool) (deadID : Int) (p : Topic.Partition) :
    ((reassign alive deadID p).getD p).id = p.id := by
  unfold reassign
  split
  case isTrue => rfl
  case isFalse => split <;> rfl

-- Such a condition is about the topic, which a record for it keeps.
theorem closed_topic (P : Bytes → Prop) : Closed fun record => P record.topic where
  delete _ h         := h
  reassign _ _ _ _ h _ := h

-- The partitions of a topic are numbered.
def Numbered (record : Record) : Prop :=
  ∀ (i : Nat) (p : Topic.Partition), record.partitions[i]? = some p → p.id = i

theorem closed_numbered : Closed Numbered where
  delete _ _ := by
    intro i p hp
    contradiction
  reassign alive deadID t partitions h hsome := by
    intro i p hp
    have heq : (failedOver alive deadID t).partitions = partitions := by rw [failedOver_of_some hsome]
    rw [← heq, failedOver, List.getElem?_map] at hp
    obtain ⟨q, hq, rfl⟩ := Option.map_eq_some_iff.mp hp
    rw [id_reassign]
    exact h i q hq

theorem Closed.and {P Q : Record → Prop} (hP : Closed P) (hQ : Closed Q) :
    Closed fun record => P record ∧ Q record where
  delete t h               := ⟨hP.delete t h.left, hQ.delete t h.right⟩
  reassign _ _ _ _ h hsome := ⟨hP.reassign _ _ _ _ h.left hsome, hQ.reassign _ _ _ _ h.right hsome⟩

theorem id_newPartitions {ids : List Int} {numPartitions replicationFactor : Int} {partitions : List Topic.Partition}
    (hlt : numPartitions < 2 ^ 31) (h : newPartitions ids numPartitions replicationFactor = .ok partitions) {i : Nat}
    {p : Topic.Partition} (hp : partitions[i]? = some p) : p.id = i := by
  unfold newPartitions at h
  split at h
  case isTrue => contradiction
  case isFalse =>
    split at h
    case isTrue => contradiction
    case isFalse =>
      cases h
      rw [List.getElem?_mapIdx] at hp
      obtain ⟨replicas, hreplicas, rfl⟩ := Option.map_eq_some_iff.mp hp
      obtain ⟨hi, -⟩ := List.getElem?_eq_some_iff.mp hreplicas
      have hle : i < numPartitions.toNat := by
        refine Nat.lt_of_lt_of_le hi ?_
        unfold Topic.assignReplicas
        split <;> simp
      exact wrap_of_nonneg (by decide) (by omega) (by omega)

namespace Metadata

-- The names that are asked for are allowed, the numbers of partitions are of the type `int32`.
def Permits (a : Step) : Prop :=
  ∀ operation, a = .call operation → operation.IsInt32 ∧
    ∀ name numPartitions replicationFactor, operation = .createTopic name numPartitions replicationFactor → Allowed name

-- However the requests interleave.
theorem isolated_of_permits {as : List Step} {b : Broker} {os : List Output} (hpermits : ∀ a ∈ as, Permits a)
    (hr : (machine config).run .empty as = some (b, os)) (hdir : Pattern.hasMeta dataDir = false) :
    Isolated dataDir b.topics := by
  have hcreates : ∀ a ∈ as, ∀ operation, a = .call operation →
      operation.Creates config fun record => Allowed record.topic ∧ Numbered record := by
    intro a ha operation hcall
    obtain ⟨hint, hallowed⟩ := hpermits a ha operation hcall
    cases operation
    case createTopic name numPartitions replicationFactor =>
      exact fun _ hnew => ⟨hallowed _ _ _ rfl, fun _ _ hp => id_newPartitions hint.right hnew hp⟩
    all_goals trivial
  have hrecorded := (inductive_recorded ((closed_topic Allowed).and closed_numbered)).run_nil
    (recorded_empty config _) (Machine.along_of_forall hcreates _) hr
  refine isolated_of_allowed hdir ?_
  rintro topic partition ⟨t, ht, p, hp, rfl⟩
  obtain ⟨hname, hids⟩ := hrecorded.topics topic t ht
  obtain ⟨i, hi⟩ := List.mem_iff_getElem?.mp hp
  exact ⟨hrecorded.keyed topic t ht ▸ hname, hids i p hi ▸ Int.natCast_nonneg i⟩

-- The steps of a controller that creates a topic with one partition, as its `i`-th operation.
def sampleCreate (i : Nat) (name : Bytes) : List Step :=
  [.call (.createTopic name 1 1), .step i ⟨3, [], []⟩, .step i ⟨3, [], []⟩, .step i ⟨3, [], []⟩]

-- The topics "a-1" and "a".
theorem isolated_of_permits_pair :
    ∃ b os, (machine sampleTrio).run .empty (sampleCreate 0 [97, 45, 49] ++ sampleCreate 1 [97]) = some (b, os) ∧
      (b.topics.get [97, 45, 49]).isSome ∧ (b.topics.get [97]).isSome ∧ Isolated [100] b.topics := by
  have hrun : ((machine sampleTrio).run .empty (sampleCreate 0 [97, 45, 49] ++ sampleCreate 1 [97])).map
      (fun r => (r.fst.topics.get [97, 45, 49]).isSome && (r.fst.topics.get [97]).isSome) = some true := by
    decide +kernel
  obtain ⟨⟨b, os⟩, hr, heq⟩ := Option.map_eq_some_iff.mp hrun
  obtain ⟨hfst, hsnd⟩ := Bool.and_eq_true_iff.mp heq
  refine ⟨b, os, hr, hfst, hsnd, isolated_of_permits ?_ hr (by decide)⟩
  rintro a ha operation rfl
  simp only [sampleCreate, List.cons_append, List.nil_append, List.mem_cons, reduceCtorEq, Step.call.injEq,
    List.not_mem_nil, false_or, or_false] at ha
  rcases ha with rfl | rfl
  all_goals
    refine ⟨by decide, ?_⟩
    rintro name _ _ ⟨⟩
    decide

-- The topics "a" and "x/../a" share a directory, and the topic "__cluster_metadata" has that of the metadata log.
theorem sharedDirectory_not_isolated :
    ∃ b os, (machine sampleTrio).run .empty (sampleCreate 0 [97] ++ sampleCreate 1 [120, 47, 46, 46, 47, 97] ++
        sampleCreate 2 clusterMetadata) = some (b, os) ∧
      HasPartition b.topics [97] 0 ∧ HasPartition b.topics [120, 47, 46, 46, 47, 97] 0 ∧
      HasPartition b.topics clusterMetadata 0 ∧
      Storage.logDir [100] [97] 0 = Storage.logDir [100] [120, 47, 46, 46, 47, 97] 0 ∧
      Storage.logDir [100] clusterMetadata 0 = metadataDir [100] ∧ ¬Isolated [100] b.topics := by
  have hrun : ((machine sampleTrio).run .empty (sampleCreate 0 [97] ++ sampleCreate 1 [120, 47, 46, 46, 47, 97] ++
      sampleCreate 2 clusterMetadata)).map (fun r => (r.fst.topics.get [97],
        r.fst.topics.get [120, 47, 46, 46, 47, 97], r.fst.topics.get clusterMetadata)) =
      some (some ⟨[97], [⟨0, 1, [1], [1]⟩]⟩, some ⟨[120, 47, 46, 46, 47, 97], [⟨0, 1, [1], [1]⟩]⟩,
        some ⟨clusterMetadata, [⟨0, 1, [1], [1]⟩]⟩) := by
    decide +kernel
  obtain ⟨⟨b, os⟩, hr, heq⟩ := Option.map_eq_some_iff.mp hrun
  obtain ⟨ha, heq⟩ := Prod.mk.inj heq
  obtain ⟨hx, hmetadata⟩ := Prod.mk.inj heq
  have hdir : Storage.logDir [100] [97] 0 = Storage.logDir [100] [120, 47, 46, 46, 47, 97] 0 := by decide +kernel
  have hhas : HasPartition b.topics [97] 0 := ⟨_, ha, _, List.mem_singleton_self _, rfl⟩
  have hhas' : HasPartition b.topics [120, 47, 46, 46, 47, 97] 0 := ⟨_, hx, _, List.mem_singleton_self _, rfl⟩
  refine ⟨b, os, hr, hhas, hhas', ⟨_, hmetadata, _, List.mem_singleton_self _, rfl⟩, hdir, rfl, fun h => ?_⟩
  exact h.distinct _ _ _ _ hhas hhas' (by decide) hdir

-- The log of the topic "a?" cannot be opened any more when there is one of "ab".
example :
    let m := Storage.Manager.new [100] .empty
    (m.log [97, 63] 0).snd.toOption.isSome ∧ ((m.log [97, 98] 0).fst.log [97, 63] 0).snd.toOption.isNone := by
  decide +kernel

end Metadata
end Network
