import Gokaf.Network.PeerDown
import Gokaf.Network.Theorems.Topics

open Go Protocol Cluster

namespace Network

variable {config : Config} {view : View} {log log' : Storage.Log} {topics topics' : Topic.Registry} {deadID : Int}
  {alive : Int → Bool} {t : Topic.Topic} {ts : List Topic.Topic}

-- A topic whose partitions have been taken from the dead broker.
def failedOver (alive : Int → Bool) (deadID : Int) (t : Topic.Topic) : Topic.Topic :=
  { t with partitions := t.partitions.map fun p => (reassign alive deadID p).getD p }

theorem failedOver_of_some {partitions : List Topic.Partition} (h : reassignTopic alive deadID t = some partitions) :
    failedOver alive deadID t = ⟨t.name, partitions⟩ := by
  unfold reassignTopic at h
  split at h
  case isTrue  => cases h; rfl
  case isFalse => contradiction

theorem failedOver_of_none (h : reassignTopic alive deadID t = none) : failedOver alive deadID t = t := by
  unfold reassignTopic at h
  split at h
  case isTrue => contradiction
  case isFalse hany =>
    have hsame : ∀ p ∈ t.partitions, (reassign alive deadID p).getD p = p := by
      intro p hp
      have hnone : reassign alive deadID p = none := by
        by_contra hsome
        exact hany (List.any_eq_true.mpr ⟨p, hp, Option.isSome_iff_ne_none.mpr hsome⟩)
      rw [hnone, Option.getD_none]
    rw [failedOver, List.map_congr_left hsame, List.map_id'']
    exact fun _ => rfl

-- A healthy log takes the record, so the registry gets the topic.
theorem failOver_of_healthy (alive : Int → Bool) (deadID : Int) (h : log.active.writeFailed = false)
    (halive : topics.lookup t.name = some t) :
    ∃ log' topics', failOver alive deadID log topics t = (log', topics') ∧ log'.active.writeFailed = false ∧
      ∀ name, topics'.lookup name = if name = t.name then some (failedOver alive deadID t) else topics.lookup name := by
  unfold failOver
  split
  case h_1 hnone =>
    refine ⟨log, topics, rfl, h, fun name => ?_⟩
    split
    case isTrue heq => rw [heq, halive, failedOver_of_none hnone]
    case isFalse    => rfl
  case h_2 partitions hsome =>
    obtain ⟨log', offset, happend, hlog'⟩ :=
      Storage.Log.append_of_healthy h (encodeMetadataRecord ⟨.topicUpsert, t.name, partitions⟩)
    refine ⟨log', _, by rw [MetadataLog.append, happend], hlog', fun name => ?_⟩
    rw [lookup_applyMetadataRecord, failedOver_of_some hsome]
    rfl

theorem foldl_failOver (alive : Int → Bool) (deadID : Int) (hnodup : (ts.map (·.name)).Nodup)
    (hts : ∀ t ∈ ts, topics.lookup t.name = some t)
    (h : log.active.writeFailed = false) :
    ∃ log' topics', ts.foldl (fun s t => failOver alive deadID s.fst s.snd t) (log, topics) = (log', topics') ∧
      log'.active.writeFailed = false ∧ (∀ t ∈ ts, topics'.lookup t.name = some (failedOver alive deadID t)) ∧
      ∀ name, name ∉ ts.map (·.name) → topics'.lookup name = topics.lookup name := by
  induction ts generalizing log topics
  case nil => exact ⟨log, topics, rfl, h, nofun, fun _ _ => rfl⟩
  case cons t ts hi =>
    rw [List.map_cons, List.nodup_cons] at hnodup
    obtain ⟨log₁, topics₁, heq₁, h₁, hlookup₁⟩ := failOver_of_healthy alive deadID h (hts t List.mem_cons_self)
    have hne : ∀ t' ∈ ts, t'.name ≠ t.name := fun t' ht' heq => hnodup.left (heq ▸ List.mem_map_of_mem ht')
    have hts₁ : ∀ t' ∈ ts, topics₁.lookup t'.name = some t' := by
      intro t' ht'
      rw [hlookup₁, if_neg (hne t' ht')]
      exact hts t' (List.mem_cons_of_mem _ ht')
    obtain ⟨log', topics', heq, h', hin, hout⟩ := hi hnodup.right hts₁ h₁
    refine ⟨log', topics', by rw [List.foldl_cons, heq₁]; exact heq, h', ?_, ?_⟩
    · rw [List.forall_mem_cons]
      refine ⟨?_, hin⟩
      rw [hout t.name hnodup.left, hlookup₁, if_pos rfl]
    · intro name hname
      rw [List.map_cons, List.mem_cons, not_or] at hname
      rw [hout name hname.right, hlookup₁, if_neg hname.left]

-- `All` lists every topic once.
theorem Keyed.nodup_of_all (h : Keyed topics) (hall : topics.All ts) : (ts.map (·.name)).Nodup := by
  have hkeys : ((ts.map (·.name) : List Bytes) : Multiset Bytes) = topics.entries.keys := by
    rw [← Multiset.map_coe, hall, Multiset.map_map, Multiset.keys]
    refine Multiset.map_congr rfl fun x hx => ?_
    exact h x.fst x.snd (Finmap.mem_lookup_iff.mpr hx)
  rw [← Multiset.coe_nodup, hkeys]
  exact Multiset.nodup_keys.mpr topics.nodupKeys

theorem Keyed.mem_of_all (h : Keyed topics) (hall : topics.All ts) :
    t ∈ ts ↔ topics.lookup t.name = some t := by
  rw [← Multiset.mem_coe, hall, Multiset.mem_map]
  constructor
  · rintro ⟨⟨name, t⟩, hentry, rfl⟩
    have hlookup : topics.lookup name = some t := Finmap.mem_lookup_iff.mpr hentry
    rwa [h name t hlookup]
  · exact fun hlookup => ⟨⟨t.name, t⟩, Finmap.mem_lookup_iff.mp hlookup, rfl⟩

-- On the controller every topic is failed over, and nothing else happens to the registry.
theorem onPeerDown_of_healthy (deadID : Int) (hkeyed : Keyed topics) (h : log.active.writeFailed = false)
    (hcontroller : view.controllerID = config.nodeID) (hall : topics.All view.topics) :
    ∃ log' topics', onPeerDown config view log topics deadID = some (log', topics') ∧ log'.active.writeFailed = false ∧
      ∀ name, topics'.lookup name =
        (topics.lookup name).map (failedOver (peerAlive config.nodeID view) deadID) := by
  obtain ⟨log', topics', heq, h', hin, hout⟩ := foldl_failOver (peerAlive config.nodeID view) deadID
    (hkeyed.nodup_of_all hall) (fun t ht => (hkeyed.mem_of_all hall).mp ht) h
  refine ⟨log', topics', by rw [onPeerDown, if_neg (by simp [hcontroller]), if_pos hall, heq], h', fun name => ?_⟩
  cases hlookup : topics.lookup name
  case some t =>
    have hname := hkeyed name t hlookup
    have ht : t ∈ view.topics := (hkeyed.mem_of_all hall).mpr (by rwa [hname])
    rw [← hname, hin t ht, Option.map_some]
  case none =>
    have hnot : name ∉ view.topics.map (·.name) := by
      intro hmem
      obtain ⟨t, ht, rfl⟩ := List.mem_map.mp hmem
      rw [(hkeyed.mem_of_all hall).mp ht] at hlookup
      contradiction
    rw [hout name hnot, hlookup, Option.map_none]

namespace Metadata

theorem exec_last {task task' : Task} (tasks : List Task)
    (h : task.step config view log topics = some (log', topics', task')) :
    ∃ os, (machine config).step ⟨log, topics, tasks ++ [task]⟩ (.step tasks.length view) =
      some (⟨log', topics', tasks ++ [task']⟩, os) := by
  refine ⟨outputs task task', ?_⟩
  simp only [machine, Broker.exec, List.getElem?_concat_length, h]
  simp

-- What is left of `OnPeerDown`, with nothing in between.
theorem run_scan (tasks : List Task) (operation : Operation) (ts : List Topic.Topic) (log : Storage.Log)
    (topics : Topic.Registry) {log' : Storage.Log} {topics' : Topic.Registry}
    (h : ts.foldl (fun s t => failOver (peerAlive config.nodeID view) deadID s.fst s.snd t) (log, topics) =
      (log', topics')) :
    ∃ n os, (machine config).run ⟨log, topics, tasks ++ [⟨operation, .scan deadID ts⟩]⟩
        (List.replicate n (.step tasks.length view)) =
      some (⟨log', topics', tasks ++ [⟨operation, .done .none⟩]⟩, os) := by
  induction ts generalizing log topics
  case nil =>
    cases h
    have hstep : Task.step config view log' topics' ⟨operation, .scan deadID []⟩ =
        some (log', topics', ⟨operation, .done .none⟩) := rfl
    obtain ⟨os, hs⟩ := exec_last tasks hstep
    exact ⟨1, _, Machine.run_cons_of_some hs Machine.run_nil⟩
  case cons t ts hi =>
    rw [List.foldl_cons] at h
    simp only [failOver] at h
    cases hreassign : reassignTopic (peerAlive config.nodeID view) deadID t
    case none =>
      simp only [hreassign] at h
      obtain ⟨n, os, hr⟩ := hi log topics h
      have hstep : Task.step config view log topics ⟨operation, .scan deadID (t :: ts)⟩ =
          some (log, topics, ⟨operation, .scan deadID ts⟩) := by
        simp only [Task.step, hreassign]
      obtain ⟨o, hs⟩ := exec_last tasks hstep
      exact ⟨n + 1, _, Machine.run_cons_of_some hs hr⟩
    case some partitions =>
      have hstep : Task.step config view log topics ⟨operation, .scan deadID (t :: ts)⟩ =
          some (log, topics, ⟨operation, .append ⟨.topicUpsert, t.name, partitions⟩ (.scan deadID ts)⟩) := by
        simp only [Task.step, hreassign]
      obtain ⟨o, hs⟩ := exec_last tasks hstep
      simp only [hreassign] at h
      cases happend : MetadataLog.append log ⟨.topicUpsert, t.name, partitions⟩
      case mk log₁ result =>
        simp only [happend] at h
        cases result
        case error e =>
          obtain ⟨n, os, hr⟩ := hi log₁ topics h
          have hstep₁ : Task.step config view log topics
              ⟨operation, .append ⟨.topicUpsert, t.name, partitions⟩ (.scan deadID ts)⟩ =
              some (log₁, topics, ⟨operation, .scan deadID ts⟩) := by
            simp only [Task.step, happend, Continuation.fail]
          obtain ⟨o₁, hs₁⟩ := exec_last tasks hstep₁
          exact ⟨n + 2, _, Machine.run_cons_of_some hs (Machine.run_cons_of_some hs₁ hr)⟩
        case ok offset =>
          obtain ⟨n, os, hr⟩ := hi log₁ _ h
          have hstep₁ : Task.step config view log topics
              ⟨operation, .append ⟨.topicUpsert, t.name, partitions⟩ (.scan deadID ts)⟩ =
              some (log₁, topics, ⟨operation, .apply ⟨.topicUpsert, t.name, partitions⟩ (.scan deadID ts)⟩) := by
            simp only [Task.step, happend]
          have hstep₂ : Task.step config view log₁ topics
              ⟨operation, .apply ⟨.topicUpsert, t.name, partitions⟩ (.scan deadID ts)⟩ =
              some (log₁, applyMetadataRecord topics ⟨.topicUpsert, t.name, partitions⟩,
                ⟨operation, .scan deadID ts⟩) := rfl
          obtain ⟨o₁, hs₁⟩ := exec_last tasks hstep₁
          obtain ⟨o₂, hs₂⟩ := exec_last tasks hstep₂
          exact ⟨n + 3, _, Machine.run_cons_of_some hs
            (Machine.run_cons_of_some hs₁ (Machine.run_cons_of_some hs₂ hr))⟩

-- `onPeerDown` is what the steps of the operation come to when nothing happens in between.
theorem run_onPeerDown (b : Broker) (h : onPeerDown config view b.log b.topics deadID = some (log', topics')) :
    ∃ n os, (machine config).run b (.call (.onPeerDown deadID) :: List.replicate n (.step b.tasks.length view)) =
      some (⟨log', topics', b.tasks ++ [⟨.onPeerDown deadID, .done .none⟩]⟩, os) := by
  have hcall : (machine config).step b (.call (.onPeerDown deadID)) =
      some (⟨b.log, b.topics, b.tasks ++ [⟨.onPeerDown deadID, .start⟩]⟩, []) := rfl
  unfold onPeerDown at h
  split at h
  case isTrue hne =>
    cases h
    have hstep : Task.step config view b.log b.topics ⟨.onPeerDown deadID, .start⟩ =
        some (b.log, b.topics, ⟨.onPeerDown deadID, .done .none⟩) := by
      simp only [Task.step, Operation.start, if_pos hne, Option.map_some]
    obtain ⟨o, hs⟩ := exec_last b.tasks hstep
    exact ⟨1, _, Machine.run_cons_of_some hcall (Machine.run_cons_of_some hs Machine.run_nil)⟩
  case isFalse heq =>
    split at h
    case isFalse => contradiction
    case isTrue hall =>
      have hstep : Task.step config view b.log b.topics ⟨.onPeerDown deadID, .start⟩ =
          some (b.log, b.topics, ⟨.onPeerDown deadID, .scan deadID view.topics⟩) := by
        simp only [Task.step, Operation.start, if_neg heq, if_pos hall, Option.map_some]
      obtain ⟨o, hs⟩ := exec_last b.tasks hstep
      obtain ⟨n, os, hr⟩ := run_scan b.tasks (.onPeerDown deadID) view.topics b.log b.topics (Option.some.inj h)
      exact ⟨n + 1, _, Machine.run_cons_of_some hcall (Machine.run_cons_of_some hs hr)⟩

end Metadata
end Network
