import Gokaf.Network.Roles
import Gokaf.Network.Theorems.Registry

open Go Protocol Cluster

namespace Replication

-- What a replica should be, if the registry has the given entry for it.
structure Replica.Matches (selfID : Int) (entry : Option Topic.Partition) (r : Replica) : Prop where
  led     : r.led.isSome ↔ ∃ p ∈ entry, p.leader = selfID
  isr     : ∀ state ∈ r.led, ∀ p ∈ entry, state.replicas = p.isr
  source  : ∀ leader, r.source = some leader ↔ ∃ p ∈ entry, selfID ∈ p.replicas ∧ p.leader = leader ∧ leader ≠ selfID
  notBoth : ¬(r.led.isSome ∧ r.source.isSome)

variable {selfID now : Int} {entry : Option Topic.Partition} {p p' : Topic.Partition} {r : Replica}

@[simp]
theorem PartitionState.new_replicas (replicas : List Int) (leaderID lagTimeout now : Int) :
    (PartitionState.new replicas leaderID lagTimeout now).replicas = replicas :=
  rfl

namespace Replica

theorem matches_none (selfID : Int) : Matches selfID none ⟨none, none⟩ := by
  constructor <;> simp

theorem matches_led {state : PartitionState} (hleader : p.leader = selfID) (hisr : state.replicas = p.isr) :
    Matches selfID (some p) ⟨some state, none⟩ where
  led     := by simpa using hleader
  isr     := by simpa using hisr
  source  := by simp +contextual [hleader]
  notBoth := by simp

theorem matches_followed (hleader : p.leader ≠ selfID) (hself : selfID ∈ p.replicas) :
    Matches selfID (some p) ⟨none, some p.leader⟩ where
  led     := by simpa using hleader
  isr     := by simp
  source  := by simp +contextual [hleader.symm, hself, eq_comm]
  notBoth := by simp

-- A partition without a replica on the broker may as well be missing.
theorem matches_some_iff (hleader : p.leader ∈ p.replicas) (hself : selfID ∉ p.replicas) :
    r.Matches selfID (some p) ↔ r.Matches selfID none := by
  have hne : p.leader ≠ selfID := fun heq => hself (heq ▸ hleader)
  constructor
  · intro h
    exact ⟨by simpa [hne] using h.led, by simp, by simpa [hself] using h.source, h.notBoth⟩
  · intro h
    have hled : r.led = none := by simpa using h.led
    exact ⟨by simpa [hne] using h.led, by simp [hled], by simpa [hself] using h.source, h.notBoth⟩

-- A record takes a partition from the broker that leads it only by naming another leader, and leaves its ISR alone
-- otherwise.
def Continues (selfID : Int) (p p' : Topic.Partition) : Prop :=
  p.leader = selfID → selfID ∈ p'.replicas ∧ (p'.leader = selfID → p'.isr = p.isr)

instance : Decidable (Continues selfID p p') :=
  inferInstanceAs (Decidable (_ → _))

theorem Matches.startFollowing (h : r.Matches selfID entry) (hisr : p.isr ≠ []) (hleader : p.leader ∈ p.replicas)
    (hcontinues : ∀ q ∈ entry, Continues selfID q p) :
    (r.stopFollowing.startFollowing selfID now p).Matches selfID (some p) := by
  have hled : ∀ state ∈ r.led, selfID ∈ p.replicas ∧ (p.leader = selfID → state.replicas = p.isr) := by
    intro state hstate
    obtain ⟨q, hq, hself⟩ := h.led.mp (by rw [hstate]; rfl)
    obtain ⟨hmem, heq⟩ := hcontinues q hq hself
    exact ⟨hmem, fun hp => (h.isr state hstate q hq).trans (heq hp).symm⟩
  obtain ⟨led, source⟩ := r
  simp only [Replica.startFollowing, stopFollowing]
  split
  case isTrue hself =>
    cases led
    case none       => exact (matches_some_iff hleader hself).mpr (matches_none selfID)
    case some state => exact absurd (hled state rfl).left hself
  case isFalse hself =>
    split
    case isFalse hne => exact matches_followed hne (not_not.mp hself)
    case isTrue heq =>
      cases led
      case some state => exact matches_led heq ((hled state rfl).right heq)
      case none       => exact matches_led heq (PartitionState.new_replicas ..)

end Replica

namespace Manager

variable {ps : List Topic.Partition}

@[simp]
theorem foldl_set_selfID (name : Bytes) (f : Replica → Topic.Partition → Replica) (ps : List Topic.Partition)
    (m : Manager) :
    (ps.foldl (fun m p => m.set (name, p.id) (f (m.replicas (name, p.id)) p)) m).selfID = m.selfID := by
  induction ps generalizing m
  case nil          => rfl
  case cons p ps hi => rw [List.foldl_cons, hi, set]

-- What a loop over the partitions of a topic does to each replica.
theorem foldl_set_replicas (name : Bytes) (f : Replica → Topic.Partition → Replica) (hids : (ps.map (·.id)).Nodup)
    (m : Manager) (topic : Bytes) (id : Int) :
    (ps.foldl (fun m p => m.set (name, p.id) (f (m.replicas (name, p.id)) p)) m).replicas (topic, id) =
      if topic = name then ((ps.find? (·.id = id)).map (f (m.replicas (topic, id)))).getD (m.replicas (topic, id))
      else m.replicas (topic, id) := by
  induction ps generalizing m
  case nil => simp
  case cons p ps hi =>
    obtain ⟨hp, hps⟩ := List.nodup_cons.mp (List.map_cons ▸ hids)
    rw [List.foldl_cons, hi hps, List.find?_cons]
    by_cases hname : topic = name
    case neg => simp [hname, set]
    case pos =>
      subst hname
      by_cases hid : p.id = id
      case neg => simp [hid, set, Ne.symm hid]
      case pos =>
        subst hid
        have hnone : ps.find? (fun q => q.id = p.id) = none := by
          rw [List.find?_eq_none]
          intro q hq heq
          exact hp (List.mem_map.mpr ⟨q, hq, by simpa using heq⟩)
        simp [hnone, set]

end Manager
end Replication

namespace Network.Roles

open Replication

variable {cluster : Membership} {s : State} {a : Step} {record : Record}

theorem Produced.wellFormed (hids : cluster.ids.Nodup) (h : Produced cluster record) :
    WellFormedTopic cluster record.partitions := by
  induction h
  case created hint hnew   => exact wellFormed_newPartitions hids hint.right hnew
  case deleted             => simp [WellFormedTopic]
  case failedOver hsome hi => exact wellFormed_reassignTopic hi hsome

theorem Produced.partitions_of_delete (h : Produced cluster record) (htype : record.type = .topicDelete) :
    record.partitions = [] := by
  cases h <;> trivial

theorem nodup_ids {ps : List Topic.Partition} (h : WellFormedTopic cluster ps) : (ps.map (·.id)).Nodup := by
  rw [List.Nodup, List.pairwise_map, List.pairwise_iff_getElem]
  intro i j hi hj hlt heq
  have hi := (h i _ (List.getElem?_eq_getElem hi)).id
  have hj := (h j _ (List.getElem?_eq_getElem hj)).id
  omega

-- The entry of the registry for a partition.
def entry (topics : Topic.Registry) (name : Bytes) (id : Int) : Option Topic.Partition :=
  (topics.get name).bind fun t => t.partitions.find? (·.id = id)

-- Every replica on the broker is what the registry says.
def RolesMatch (s : State) : Prop :=
  ∀ name id, (s.replication.replicas (name, id)).Matches s.replication.selfID (entry s.topics name id)

-- The record mentions every partition that has a replica on the broker, and it takes none from this broker unless it
-- names another leader.
def Continues (s : State) (a : Step) : Prop :=
  ∀ t ∈ s.topics.get a.record.topic, ∀ p ∈ t.partitions, s.replication.selfID ∈ p.replicas →
    ∃ p' ∈ a.record.partitions, p'.id = p.id ∧ Replica.Continues s.replication.selfID p p'

instance (s : State) (a : Step) : Decidable (Continues s a) :=
  inferInstanceAs (Decidable (∀ t ∈ s.topics.get a.record.topic, _))

namespace State

@[simp]
theorem applyMetadataRecord_topics (s : State) (now : Int) (record : Record) :
    (s.applyMetadataRecord now record).topics = Network.applyMetadataRecord s.topics record := by
  unfold applyMetadataRecord Network.applyMetadataRecord
  cases record.type <;> rfl

@[simp]
theorem applyMetadataRecord_selfID (s : State) (now : Int) (record : Record) :
    (s.applyMetadataRecord now record).replication.selfID = s.replication.selfID := by
  unfold applyMetadataRecord
  cases record.type
  case topicDelete => rfl
  case topicUpsert =>
    simp only [applyTopic, Manager.startFollowing, Manager.stopFollowing]
    rw [Manager.foldl_set_selfID record.topic fun r p => r.startFollowing _ now p]
    exact Manager.foldl_set_selfID record.topic (fun r _ => r.stopFollowing) ..

theorem applyTopic_replicas {name : Bytes} {ps : List Topic.Partition} (hids : (ps.map (·.id)).Nodup) (s : State)
    (now : Int) (topic : Bytes) (id : Int) :
    (s.applyTopic now name ps).replication.replicas (topic, id) =
      if topic = name then
        ((ps.find? (·.id = id)).map fun p => (s.replication.replicas (topic, id)).stopFollowing.startFollowing
          s.replication.selfID now p).getD (s.replication.replicas (topic, id))
      else
        s.replication.replicas (topic, id) := by
  have hself := Manager.foldl_set_selfID name (fun r _ => r.stopFollowing) ps s.replication
  have hstop := Manager.foldl_set_replicas name (fun r _ => r.stopFollowing) hids s.replication topic id
  simp only [applyTopic, Manager.startFollowing, Manager.stopFollowing]
  rw [Manager.foldl_set_replicas name (fun r p => r.startFollowing _ now p) hids, hself, hstop]
  split
  case isFalse => rfl
  case isTrue  => cases ps.find? (·.id = id) <;> rfl

end State

-- The registry has the topics of the cluster, and the replicas are as it says.
structure Inv (cluster : Membership) (s : State) : Prop where
  topics : WellFormedRegistry cluster s.topics
  roles  : RolesMatch s

theorem inv_init (cluster : Membership) (selfID : Int) : Inv cluster (.init selfID) where
  topics := by simp [WellFormedRegistry, State.init]
  roles  := fun _ _ => Replica.matches_none selfID

namespace Inv

variable {name : Bytes} {id : Int} {p : Topic.Partition}

theorem leader_mem (h : Inv cluster s) (hentry : entry s.topics name id = some p) : p.leader ∈ p.replicas := by
  obtain ⟨t, ht, hfind⟩ := Option.bind_eq_some_iff.mp hentry
  obtain ⟨i, hi⟩ := List.mem_iff_getElem?.mp (List.mem_of_find?_eq_some hfind)
  have hp := h.topics name t ht i p hi
  exact hp.isr_subset hp.leader_mem

theorem continues_of_entry (hcontinues : Continues s a) (hentry : entry s.topics a.record.topic id = some p)
    (hself : s.replication.selfID ∈ p.replicas) :
    ∃ p' ∈ a.record.partitions, p'.id = id ∧ Replica.Continues s.replication.selfID p p' := by
  obtain ⟨t, ht, hfind⟩ := Option.bind_eq_some_iff.mp hentry
  have hid : p.id = id := by simpa using List.find?_some hfind
  exact hid ▸ hcontinues t ht p (List.mem_of_find?_eq_some hfind) hself

-- The broker has no replica of a partition that the record does not mention.
theorem matches_none (h : Inv cluster s) (hcontinues : Continues s a) (habsent : ∀ p ∈ a.record.partitions, p.id ≠ id) :
    (s.replication.replicas (a.record.topic, id)).Matches s.replication.selfID none := by
  have hmatches := h.roles a.record.topic id
  cases hentry : entry s.topics a.record.topic id
  case none => rwa [hentry] at hmatches
  case some p =>
    rw [hentry] at hmatches
    refine (Replica.matches_some_iff (h.leader_mem hentry) fun hself => ?_).mp hmatches
    obtain ⟨p', hp', hid, -⟩ := continues_of_entry hcontinues hentry hself
    exact habsent p' hp' hid

theorem rolesMatch (h : Inv cluster s) (hids : cluster.ids.Nodup) (hproduced : Produced cluster a.record)
    (hcontinues : Continues s a) : RolesMatch (s.applyMetadataRecord a.now a.record) := by
  have hwf := hproduced.wellFormed hids
  intro name id
  rw [State.applyMetadataRecord_selfID, entry, State.applyMetadataRecord_topics, Topic.Registry.get,
    lookup_applyMetadataRecord, Record.effect, State.applyMetadataRecord]
  by_cases hname : name = a.record.topic
  case neg =>
    rw [if_neg hname]
    cases a.record.type
    case topicDelete => exact h.roles name id
    case topicUpsert =>
      simp only [State.applyTopic_replicas (nodup_ids hwf), if_neg hname]
      exact h.roles name id
  case pos =>
    subst hname
    rw [if_pos rfl]
    cases htype : a.record.type
    case topicDelete =>
      exact h.matches_none hcontinues (by simp [hproduced.partitions_of_delete htype])
    case topicUpsert =>
      simp only [State.applyTopic_replicas (nodup_ids hwf), if_true, Option.bind_some]
      cases hfind : a.record.partitions.find? (·.id = id)
      case none =>
        rw [List.find?_eq_none] at hfind
        exact h.matches_none hcontinues (by simpa using hfind)
      case some p' =>
        obtain ⟨i, hi⟩ := List.mem_iff_getElem?.mp (List.mem_of_find?_eq_some hfind)
        have hp' := hwf i p' hi
        refine (h.roles _ id).startFollowing hp'.isr_ne_nil (hp'.isr_subset hp'.leader_mem) fun q hq hself => ?_
        obtain ⟨p'', hp'', hid, hcontinues⟩ := continues_of_entry hcontinues hq (hself ▸ h.leader_mem hq)
        have hsame : p'' = p' := List.inj_on_of_nodup_map (nodup_ids hwf) hp'' (List.mem_of_find?_eq_some hfind)
          (hid.trans (by simpa [eq_comm] using List.find?_some hfind))
        exact hsame ▸ hcontinues hself

end Inv

theorem inductive_inv (hids : cluster.ids.Nodup) :
    machine.Inductive (fun s a => Produced cluster a.record ∧ Continues s a) fun s _ => Inv cluster s where
  step := by
    rintro s a _ _ _ h ⟨hproduced, hcontinues⟩ hs
    cases hs
    refine ⟨?_, h.rolesMatch hids hproduced hcontinues⟩
    rw [State.applyMetadataRecord_topics]
    exact h.topics.apply (hproduced.wellFormed hids)

-- Whatever records of the operations on topics a broker applies, in whatever order.
theorem rolesMatch_of_continues {selfID : Int} {as : List Step} {os : List Unit} (hids : cluster.ids.Nodup)
    (hproduced : ∀ a ∈ as, Produced cluster a.record) (hcontinues : machine.Along Continues (.init selfID) as)
    (hr : machine.run (.init selfID) as = some (s, os)) : RolesMatch s :=
  (inductive_inv hids).run_nil (inv_init cluster selfID) ((Machine.along_of_forall hproduced _).and hcontinues) hr
    |>.roles

def sampleCreated : Record :=
  ⟨.topicUpsert, [116], [⟨0, 1, [1, 2], [1, 2]⟩, ⟨1, 2, [2, 3], [2, 3]⟩, ⟨2, 3, [3, 1], [3, 1]⟩]⟩

def sampleFailedOver : Record :=
  ⟨.topicUpsert, [116], [⟨0, 2, [1, 2], [2]⟩, ⟨1, 2, [2, 3], [2, 3]⟩, ⟨2, 3, [3, 1], [3, 1]⟩]⟩

def sampleDeleted : Record :=
  ⟨.topicDelete, [116], []⟩

theorem produced_sampleCreated : Produced Metadata.sampleTrio.cluster sampleCreated := by
  have hint : IsInt32 3 := by decide
  have hnew : newPartitions Metadata.sampleTrio.cluster.ids 3 2 = .ok sampleCreated.partitions := by decide +kernel
  exact .created hint hnew

theorem produced_sampleFailedOver : Produced Metadata.sampleTrio.cluster sampleFailedOver := by
  have hsome : reassignTopic (fun id => id = 2 ∨ id = 3) 1 ⟨[116], sampleCreated.partitions⟩ =
      some sampleFailedOver.partitions := by decide +kernel
  exact .failedOver produced_sampleCreated hsome

-- Broker 2 leads the first partition when broker 1 is gone.
theorem rolesMatch_of_continues_failedOver :
    ∃ s os, machine.run (.init 2) [⟨sampleCreated, 0⟩, ⟨sampleFailedOver, 5⟩] = some (s, os) ∧
      ((s.replication.replicas ([116], 0)).led.map (·.replicas), (s.replication.replicas ([116], 0)).source) =
        (some [2], none) ∧ RolesMatch s := by
  have hrun : (machine.run (.init 2) [⟨sampleCreated, 0⟩, ⟨sampleFailedOver, 5⟩]).map (fun r =>
      ((r.fst.replication.replicas ([116], 0)).led.map (·.replicas),
        (r.fst.replication.replicas ([116], 0)).source)) = some (some [2], none) := by decide +kernel
  obtain ⟨⟨s, os⟩, hr, heq⟩ := Option.map_eq_some_iff.mp hrun
  have hproduced : ∀ a ∈ [⟨sampleCreated, 0⟩, ⟨sampleFailedOver, 5⟩],
      Produced Metadata.sampleTrio.cluster (Step.record a) := by
    simp only [List.forall_mem_cons, List.not_mem_nil, false_implies, implies_true, and_true]
    exact ⟨produced_sampleCreated, produced_sampleFailedOver⟩
  exact ⟨s, os, hr, heq, rolesMatch_of_continues (by decide) hproduced (by decide +kernel) hr⟩

-- The topic is gone, but its leader still keeps the state of the partition that it has led.
theorem deleted_not_rolesMatch :
    Produced Metadata.sampleTrio.cluster sampleCreated ∧ Produced Metadata.sampleTrio.cluster sampleDeleted ∧
    ∃ s os, machine.run (.init 1) [⟨sampleCreated, 0⟩, ⟨sampleDeleted, 5⟩] = some (s, os) ∧
      s.topics.get [116] = none ∧ (s.replication.replicas ([116], 0)).led.isSome ∧ ¬RolesMatch s := by
  refine ⟨produced_sampleCreated, .deleted, ?_⟩
  have hrun : (machine.run (.init 1) [⟨sampleCreated, 0⟩, ⟨sampleDeleted, 5⟩]).map (fun r =>
      (r.fst.topics.get [116], (r.fst.replication.replicas ([116], 0)).led.isSome)) = some (none, true) := by
    decide +kernel
  obtain ⟨⟨s, os⟩, hr, heq⟩ := Option.map_eq_some_iff.mp hrun
  obtain ⟨hget, hled⟩ := Prod.mk.inj heq
  refine ⟨s, os, hr, hget, hled, fun h => ?_⟩
  obtain ⟨p, hp, -⟩ := (h [116] 0).led.mp hled
  simp [entry, hget] at hp

end Network.Roles
