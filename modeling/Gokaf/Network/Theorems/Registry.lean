import Gokaf.Network.Theorems.PeerDown
import Mathlib.Data.List.GetD
import Mathlib.Data.Nat.ModEq

open Go Protocol Cluster

namespace Network

variable {cluster : Membership} {config : Config} {view : View} {log log' : Storage.Log}
  {topics topics' : Topic.Registry} {alive : Int → Bool} {deadID : Int} {p : Topic.Partition} {t : Topic.Topic}
  {i : Nat}

-- A partition of a topic of the given cluster, at its place in the topic.
structure WellFormed (cluster : Membership) (i : Nat) (p : Topic.Partition) : Prop where
  id             : p.id = i
  replicas_nodup : p.replicas.Nodup
  replicas_mem   : ∀ r ∈ p.replicas, r ∈ cluster.ids
  isr_ne_nil     : p.isr ≠ []
  isr_nodup      : p.isr.Nodup
  isr_subset     : p.isr ⊆ p.replicas
  leader_mem     : p.leader ∈ p.isr

-- What `OnPeerDown` makes of a partition.
structure FailedOver (alive : Int → Bool) (deadID : Int) (p p' : Topic.Partition) : Prop where
  id       : p'.id = p.id
  replicas : p'.replicas = p.replicas
  moved    : p.leader = deadID → (∃ r ∈ p.isr, r ≠ deadID ∧ alive r) →
    p'.isr.Pairwise (· < ·) ∧ (∀ r, r ∈ p'.isr ↔ r ∈ p.isr ∧ r ≠ deadID ∧ alive r) ∧ p'.isr.head? = some p'.leader
  kept     : ¬(p.leader = deadID ∧ ∃ r ∈ p.isr, r ≠ deadID ∧ alive r) → p' = p

theorem mem_liveISR (alive : Int → Bool) (isr : List Int) (deadID r : Int) :
    r ∈ liveISR alive isr deadID ↔ r ∈ isr ∧ r ≠ deadID ∧ alive r := by
  simp [liveISR]

theorem liveISR_sorted {isr : List Int} (h : isr.Nodup) : (liveISR alive isr deadID).Pairwise (· < ·) := by
  have hnodup : (liveISR alive isr deadID).Nodup := (List.perm_insertionSort ..).nodup_iff.mpr (h.filter _)
  have hsorted : (liveISR alive isr deadID).Pairwise (· ≤ ·) := List.pairwise_insertionSort ..
  exact hsorted.imp₂ (fun _ _ hle hne => lt_of_le_of_ne hle hne) hnodup

theorem failedOver_reassign (h : p.isr.Nodup) : FailedOver alive deadID p ((reassign alive deadID p).getD p) := by
  unfold reassign
  split
  case isTrue hne => exact ⟨rfl, rfl, fun heq => absurd heq hne, fun _ => rfl⟩
  case isFalse heq =>
    rw [ne_eq, not_not] at heq
    split
    case h_1 hnil =>
      have hnone : ¬∃ r ∈ p.isr, r ≠ deadID ∧ alive r := by
        rintro ⟨r, hr⟩
        rw [← mem_liveISR, hnil] at hr
        simp at hr
      exact ⟨rfl, rfl, fun _ hsome => absurd hsome hnone, fun _ => rfl⟩
    case h_2 leader live hlive =>
      have hsome : ∃ r ∈ p.isr, r ≠ deadID ∧ alive r := ⟨leader, by rw [← mem_liveISR, hlive]; simp⟩
      refine ⟨rfl, rfl, fun _ _ => ⟨?_, fun r => ?_, rfl⟩, fun hnot => absurd ⟨heq, hsome⟩ hnot⟩
      · exact hlive ▸ liveISR_sorted h
      · rw [← mem_liveISR, hlive]
        rfl

theorem WellFormed.failedOver {p' : Topic.Partition} (h : WellFormed cluster i p) (hf : FailedOver alive deadID p p') :
    WellFormed cluster i p' := by
  by_cases hmoved : p.leader = deadID ∧ ∃ r ∈ p.isr, r ≠ deadID ∧ alive r
  case neg => rwa [hf.kept hmoved]
  case pos =>
    obtain ⟨hsorted, hmem, hhead⟩ := hf.moved hmoved.left hmoved.right
    have hleader : p'.leader ∈ p'.isr := List.mem_of_mem_head? hhead
    refine ⟨hf.id.trans h.id, ?_, ?_, List.ne_nil_of_mem hleader, hsorted.imp ne_of_lt, ?_, hleader⟩
    · rw [hf.replicas]
      exact h.replicas_nodup
    · rw [hf.replicas]
      exact h.replicas_mem
    · rw [hf.replicas]
      exact fun r hr => h.isr_subset ((hmem r).mp hr).left

-- Consecutive brokers, of which there are enough, are different.
theorem nodup_assigned {ids : List Int} {rf : Nat} (hids : ids.Nodup) (hrf : rf ≤ ids.length) (start : Nat) :
    ((List.range rf).map fun replica => ids.getD ((start + replica) % ids.length) 0).Nodup := by
  refine List.Nodup.map_on (fun r hr r' hr' heq => ?_) List.nodup_range
  have hr  := List.mem_range.mp hr
  have hr' := List.mem_range.mp hr'
  have hlt : ∀ k, (start + k) % ids.length < ids.length := fun k => Nat.mod_lt _ (by omega)
  rw [List.getD_eq_getElem _ _ (hlt r), List.getD_eq_getElem _ _ (hlt r'), hids.getElem_inj_iff] at heq
  have hmod : r % ids.length = r' % ids.length := Nat.ModEq.add_left_cancel' start heq
  rwa [Nat.mod_eq_of_lt (by omega), Nat.mod_eq_of_lt (by omega)] at hmod

-- The partitions of a topic of the given cluster.
def WellFormedTopic (cluster : Membership) (partitions : List Topic.Partition) : Prop :=
  ∀ i p, partitions[i]? = some p → WellFormed cluster i p

theorem wellFormed_newPartitions {numPartitions replicationFactor : Int} {partitions : List Topic.Partition}
    (hids : cluster.ids.Nodup) (hlt : numPartitions < 2 ^ 31)
    (h : newPartitions cluster.ids numPartitions replicationFactor = .ok partitions) :
    WellFormedTopic cluster partitions := by
  unfold newPartitions at h
  split at h
  case isTrue => contradiction
  case isFalse hn =>
    split at h
    case isTrue => contradiction
    case isFalse hrf =>
      cases h
      intro i p hp
      rw [List.getElem?_mapIdx] at hp
      obtain ⟨replicas, hreplicas, rfl⟩ := Option.map_eq_some_iff.mp hp
      have hne : cluster.ids ≠ [] := by
        intro hnil
        simp [hnil] at hrf
        omega
      rw [Topic.assignReplicas, if_neg (by simp [hne]; omega), List.getElem?_map] at hreplicas
      obtain ⟨k, hk, rfl⟩ := Option.map_eq_some_iff.mp hreplicas
      obtain ⟨hi, rfl⟩ := List.getElem?_eq_some_iff.mp hk
      rw [List.getElem_range, List.length_range] at *
      have hpos : 0 < replicationFactor.toNat := by omega
      have hassigned : ((List.range replicationFactor.toNat).map fun replica =>
          cluster.ids.getD ((i % cluster.ids.length + replica) % cluster.ids.length) 0) ≠ [] := by
        simp
        omega
      refine ⟨?_, nodup_assigned hids (by omega) _, fun r hr => ?_, hassigned, nodup_assigned hids (by omega) _,
        List.Subset.refl _, ?_⟩
      · exact wrap_of_nonneg (by decide) (by omega) (by omega)
      · obtain ⟨k, _, rfl⟩ := List.mem_map.mp hr
        rw [List.getD_eq_getElem _ _ (Nat.mod_lt _ (List.length_pos_iff.mpr hne))]
        exact List.getElem_mem _
      · rw [List.headD_eq_head?_getD, List.head?_eq_some_head hassigned, Option.getD_some]
        exact List.head_mem _

theorem wellFormed_reassignTopic {partitions : List Topic.Partition} (h : WellFormedTopic cluster t.partitions)
    (hsome : reassignTopic alive deadID t = some partitions) : WellFormedTopic cluster partitions := by
  have heq : (failedOver alive deadID t).partitions = partitions := by rw [failedOver_of_some hsome]
  intro i p' hp'
  rw [← heq, failedOver, List.getElem?_map] at hp'
  obtain ⟨p, hp, rfl⟩ := Option.map_eq_some_iff.mp hp'
  exact (h i p hp).failedOver (failedOver_reassign (h i p hp).isr_nodup)

def Continuation.WellFormed (cluster : Membership) : Continuation → Prop
  | reply     => True
  | scan _ ts => ∀ t ∈ ts, WellFormedTopic cluster t.partitions

def Progress.WellFormed (cluster : Membership) : Progress → Prop
  | start | done _                         => True
  | scan _ ts                              => ∀ t ∈ ts, WellFormedTopic cluster t.partitions
  | append record next | apply record next => WellFormedTopic cluster record.partitions ∧ next.WellFormed cluster

-- The number of partitions that a request asks for is an `int32`.
def Operation.IsInt32 : Operation → Prop
  | createTopic _ numPartitions _ => Go.IsInt32 numPartitions
  | deleteTopic _ | onPeerDown _  => True

instance : DecidablePred Operation.IsInt32 := fun a => by
  induction a using Operation.casesOn <;> dsimp only [Operation.IsInt32] <;> infer_instance

-- Every topic of the registry is one of the given cluster.
def WellFormedRegistry (cluster : Membership) (topics : Topic.Registry) : Prop :=
  ∀ name t, topics.lookup name = some t → WellFormedTopic cluster t.partitions

theorem WellFormedRegistry.apply {record : Record} (h : WellFormedRegistry cluster topics)
    (hrecord : WellFormedTopic cluster record.partitions) :
    WellFormedRegistry cluster (applyMetadataRecord topics record) :=
  RegistryRecords.apply (P := fun record => WellFormedTopic cluster record.partitions) h hrecord

theorem Progress.wellFormed_iff {progress : Progress} :
    progress.WellFormed cluster ↔ progress.Records fun record => WellFormedTopic cluster record.partitions := by
  have hnext : ∀ next : Continuation,
      next.WellFormed cluster ↔ next.Records fun record => WellFormedTopic cluster record.partitions := by
    intro next
    cases next <;> exact Iff.rfl
  cases progress
  case append => exact and_congr_right fun _ => hnext _
  case apply  => exact and_congr_right fun _ => hnext _
  all_goals exact Iff.rfl

theorem closed_wellFormed (cluster : Membership) : Closed fun record => WellFormedTopic cluster record.partitions where
  delete _ _ := by simp [WellFormedTopic]
  reassign _ _ _ _ h hsome := wellFormed_reassignTopic h hsome

theorem Operation.IsInt32.creates {operation : Operation} (h : operation.IsInt32) (hids : config.cluster.ids.Nodup) :
    operation.Creates config fun record => WellFormedTopic config.cluster record.partitions := by
  cases operation
  case createTopic => exact fun _ hpartitions => wellFormed_newPartitions hids h.right hpartitions
  all_goals trivial

theorem Advances.wellFormed {task : Task} {progress : Progress}
    (h : Advances config view log topics task log' topics' progress) (hids : config.cluster.ids.Nodup)
    (hint : task.operation.IsInt32) (hprogress : task.progress.WellFormed config.cluster)
    (htopics : WellFormedRegistry config.cluster topics) (hkeyed : Keyed topics) :
    progress.WellFormed config.cluster ∧ WellFormedRegistry config.cluster topics' ∧ Keyed topics' := by
  obtain ⟨hprogress', htopics', hkeyed'⟩ :=
    h.records (closed_wellFormed _) (hint.creates hids) (Progress.wellFormed_iff.mp hprogress) htopics hkeyed
  exact ⟨Progress.wellFormed_iff.mpr hprogress', htopics', hkeyed'⟩

theorem Advances.healthy {task : Task} {progress : Progress}
    (h : Advances config view log topics task log' topics' progress) (hlog : log.active.writeFailed = false) :
    log'.active.writeFailed = false := by
  have hwritten : ∀ p log' r, log.append p = (log', r) → log'.active.writeFailed = false := by
    intro p log' r happend
    obtain ⟨_, _, happend', hlog'⟩ := Storage.Log.append_of_healthy hlog p
    cases happend'.symm.trans happend
    exact hlog'
  cases h
  case appended happend => exact hwritten _ _ _ happend
  case failed happend   => exact hwritten _ _ _ happend
  all_goals exact hlog

namespace Metadata

-- A broker of which every operation has been asked for with an `int32`.
structure Registered (config : Config) (b : Broker) : Prop where
  topics  : WellFormedRegistry config.cluster b.topics
  keyed   : Keyed b.topics
  tasks   : ∀ task ∈ b.tasks, task.operation.IsInt32 ∧ task.progress.WellFormed config.cluster
  healthy : b.log.active.writeFailed = false

theorem registered_empty (config : Config) : Registered config .empty where
  topics  := by simp [WellFormedRegistry, Broker.empty]
  keyed   := keyed_empty
  tasks   := by simp [Broker.empty]
  healthy := rfl

theorem Registered.exec {b b' : Broker} {a : Step} {o : List Output} (h : Registered config b)
    (hids : config.cluster.ids.Nodup) (hint : ∀ operation, a = .call operation → operation.IsInt32)
    (hs : b.exec config a = some (b', o)) : Registered config b' := by
  cases a
  case call operation =>
    cases hs
    refine ⟨h.topics, h.keyed, fun task htask => ?_, h.healthy⟩
    cases List.mem_append.mp htask
    case inl htask => exact h.tasks task htask
    case inr htask =>
      cases List.mem_singleton.mp htask
      exact ⟨hint operation rfl, trivial⟩
  case step i view =>
    obtain ⟨task, log, topics, task', htask, hstep, rfl, -⟩ := exec_step hs
    obtain ⟨hoperation, hadvances⟩ := advances hstep
    obtain ⟨hint, hprogress⟩ := h.tasks task (List.mem_of_getElem? htask)
    obtain ⟨hprogress', htopics', hkeyed'⟩ := hadvances.wellFormed hids hint hprogress h.topics h.keyed
    refine ⟨htopics', hkeyed', fun other hother => ?_, hadvances.healthy h.healthy⟩
    cases List.mem_or_eq_of_mem_set hother
    case inl hother => exact h.tasks other hother
    case inr heq    => exact heq ▸ ⟨hoperation ▸ hint, hprogress'⟩

-- Every topic is one of the cluster, and a controller that is told of a dead broker moves exactly the partitions that
-- this broker has led and that another one can lead.
structure Orderly (config : Config) (b : Broker) : Prop where
  wellFormed : ∀ name t, b.topics.get name = some t → ∀ i p, t.partitions[i]? = some p → WellFormed config.cluster i p
  onPeerDown : ∀ view deadID, view.controllerID = config.nodeID → b.topics.All view.topics →
    ∃ n b' os, (machine config).run b (.call (.onPeerDown deadID) :: List.replicate n (.step b.tasks.length view)) =
        some (b', os) ∧ b'.tasks = b.tasks ++ [⟨.onPeerDown deadID, .done .none⟩] ∧
      ∀ name, Option.Rel (fun t t' => t'.name = t.name ∧
          List.Forall₂ (FailedOver (peerAlive config.nodeID view) deadID) t.partitions t'.partitions)
        (b.topics.get name) (b'.topics.get name)

theorem Registered.orderly {b : Broker} (h : Registered config b) : Orderly config b := by
  refine ⟨h.topics, fun view deadID hcontroller hall => ?_⟩
  obtain ⟨log', topics', heq, _, hlookup⟩ := onPeerDown_of_healthy deadID h.keyed h.healthy hcontroller hall
  obtain ⟨n, os, hr⟩ := run_onPeerDown b heq
  refine ⟨n, _, os, hr, rfl, fun name => ?_⟩
  show Option.Rel _ (b.topics.lookup name) (topics'.lookup name)
  rw [hlookup]
  cases ht : b.topics.lookup name
  case none => exact .none
  case some t =>
    refine .some ⟨rfl, ?_⟩
    rw [failedOver, List.forall₂_map_right_iff, List.forall₂_same]
    intro p hp
    obtain ⟨i, hi⟩ := List.mem_iff_getElem?.mp hp
    exact failedOver_reassign (h.topics name t ht i p hi).isr_nodup

theorem inductive_registered (hids : config.cluster.ids.Nodup) :
    (machine config).Inductive (fun _ a => ∀ operation, a = .call operation → operation.IsInt32)
      fun b _ => Registered config b where
  step h hint hs := h.exec hids hint hs

-- However the operations on topics interleave, and whatever the brokers think of each other meanwhile.
theorem orderly_of_run {as : List Step} {b : Broker} {os : List Output} (hids : config.cluster.ids.Nodup)
    (hint : ∀ a ∈ as, ∀ operation, a = .call operation → operation.IsInt32)
    (hr : (machine config).run .empty as = some (b, os)) : Orderly config b :=
  (inductive_registered hids).run_nil (registered_empty config) (Machine.along_of_forall hint _) hr |>.orderly

theorem sorted_trio : [(1 : Int), 2, 3].Pairwise (· ≤ ·) := by
  decide

theorem isInt32_trio : ∀ id ∈ [(1 : Int), 2, 3], Go.IsInt32 id := by
  decide

def sampleTrio : Config where
  nodeID  := 3
  cluster := ⟨[1, 2, 3], sorted_trio, isInt32_trio⟩

def sampleTopic : Topic.Topic where
  name       := [116]
  partitions := [⟨0, 1, [1, 2], [1, 2]⟩, ⟨1, 2, [2, 3], [2, 3]⟩, ⟨2, 3, [3, 1], [3, 1]⟩]

-- Broker 1 is gone when the controller has created the topic.
theorem orderly_of_run_trio :
    let view : View := ⟨3, [2, 3], [sampleTopic]⟩
    let as : List Step := [.call (.createTopic [116] 3 2), .step 0 view, .step 0 view, .step 0 view,
      .call (.onPeerDown 1), .step 1 view, .step 1 view, .step 1 view, .step 1 view, .step 1 view]
    ∃ b os, (machine sampleTrio).run .empty as = some (b, os) ∧
      b.topics.get [116] = some ⟨[116], [⟨0, 2, [1, 2], [2]⟩, ⟨1, 2, [2, 3], [2, 3]⟩, ⟨2, 3, [3, 1], [3, 1]⟩]⟩ ∧
      Orderly sampleTrio b := by
  intro view as
  have hrun : ((machine sampleTrio).run .empty as).map (fun r => r.fst.topics.get [116]) =
      some (some ⟨[116], [⟨0, 2, [1, 2], [2]⟩, ⟨1, 2, [2, 3], [2, 3]⟩, ⟨2, 3, [3, 1], [3, 1]⟩]⟩) := by decide +kernel
  obtain ⟨⟨b, os⟩, hr, heq⟩ := Option.map_eq_some_iff.mp hrun
  refine ⟨b, os, hr, heq, orderly_of_run (by decide) ?_ hr⟩
  rintro a ha operation rfl
  simp only [as, List.mem_cons, reduceCtorEq, Step.call.injEq, List.not_mem_nil, false_or, or_false] at ha
  rcases ha with rfl | rfl <;> decide

end Metadata
end Network
