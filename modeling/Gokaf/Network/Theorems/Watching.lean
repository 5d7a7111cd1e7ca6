import Gokaf.Cluster.Theorems.Liveness
import Gokaf.Network.Theorems.Registry
import Gokaf.Network.Watching

open Cluster

namespace Network

-- Every partition of the registry has the property `P`.
def Every (P : Topic.Partition → Prop) (topics : Topic.Registry) : Prop :=
  ∀ x ∈ topics.entries, ∀ p ∈ x.snd.partitions, P p

instance (P : Topic.Partition → Prop) [DecidablePred P] : DecidablePred (Every P) :=
  fun topics => inferInstanceAs (Decidable (∀ x ∈ topics.entries, ∀ p ∈ x.snd.partitions, P p))

theorem every_iff {P : Topic.Partition → Prop} {topics : Topic.Registry} :
    Every P topics ↔ ∀ name t, topics.lookup name = some t → ∀ p ∈ t.partitions, P p :=
  ⟨fun h name t ht => h ⟨name, t⟩ (Finmap.mem_lookup_iff.mp ht),
    fun h x hx => h x.fst x.snd (Finmap.mem_lookup_iff.mpr hx)⟩

namespace Watching

variable {config : Config} {s s' : State} {id : Int} {a : Step} {as : List Step} {os o : List Callback}

-- A partition with a live replica in its ISR has a live leader.
def Led (monitor : LivenessMonitor) (p : Topic.Partition) : Prop :=
  (∃ r ∈ p.isr, monitor.isAlive r) → monitor.isAlive p.leader

-- While the broker is the controller, no partition is left with a dead leader.
def Covered (config : Config) (s : State) : Prop :=
  s.monitor.controllerID = config.nodeID →
    ∀ name t, s.topics.get name = some t → ∀ p ∈ t.partitions, Led s.monitor p

-- The monitor once it takes the broker for dead.
def without (monitor : LivenessMonitor) (id : Int) : LivenessMonitor :=
  { monitor with alive := Function.update monitor.alive id false }

-- A broker that is taken for dead either leaves this one as the controller or leads no partition that another one could
-- lead. One that is back is not the first live replica of a partition that another one leads.
def Noticed (config : Config) (s : State) : Step → Prop
  | .miss id _ => s.monitor.alive id → s.monitor.failAfter ≤ Go.int64 (s.monitor.misses id + 1) →
    (without s.monitor id).controllerID = config.nodeID ∨
      Every (fun p => p.leader = id → ∀ r ∈ p.isr, r ≠ id → s.monitor.isAlive r = false) s.topics
  | .success id => s.monitor.alive id = false →
    Every (fun p => id ∈ p.isr → p.leader = id ∨ s.monitor.isAlive p.leader) s.topics

-- A broker with its monitor, a log that can be written and a registry in which all leaders are alive.
structure Ready (config : Config) (s : State) : Prop where
  self       : s.monitor.self = config.nodeID
  membership : s.monitor.membership = config.cluster
  members    : ∀ id, s.monitor.alive id → id ∈ config.cluster.ids
  healthy    : s.log.active.writeFailed = false
  keyed      : Keyed s.topics
  leaders    : Every (fun p => s.monitor.isAlive p.leader) s.topics

structure Inv (config : Config) (s : State) : Prop where
  self       : s.monitor.self = config.nodeID
  membership : s.monitor.membership = config.cluster
  members    : ∀ id, s.monitor.alive id → id ∈ config.cluster.ids
  healthy    : s.log.active.writeFailed = false
  keyed      : Keyed s.topics
  led        : Every (Led s.monitor) s.topics

theorem Ready.inv (h : Ready config s) : Inv config s :=
  ⟨h.self, h.membership, h.members, h.healthy, h.keyed, fun x hx p hp _ => h.leaders x hx p hp⟩

-- The monitor has taken the broker for dead; the misses do not matter any more.
structure TakenDown (monitor : LivenessMonitor) (id : Int) (monitor' : LivenessMonitor) : Prop where
  self       : monitor'.self = monitor.self
  membership : monitor'.membership = monitor.membership
  alive      : monitor'.alive = Function.update monitor.alive id false

variable {monitor monitor' : LivenessMonitor}

theorem recordMiss_cases (monitor : LivenessMonitor) (id : Int) :
    (∃ monitor', monitor.recordMiss id = (monitor', none) ∧ monitor'.self = monitor.self ∧
      monitor'.membership = monitor.membership ∧ monitor'.alive = monitor.alive) ∨
    ∃ monitor', monitor.recordMiss id = (monitor', some (.onDown id)) ∧ TakenDown monitor id monitor' ∧
      monitor.alive id ∧ monitor.failAfter ≤ Go.int64 (monitor.misses id + 1) := by
  simp only [LivenessMonitor.recordMiss, Function.update_self]
  split
  case isTrue h => exact .inr ⟨_, rfl, ⟨rfl, rfl, rfl⟩, h.right, h.left⟩
  case isFalse  => exact .inl ⟨_, rfl, rfl, rfl, rfl⟩

namespace TakenDown

theorem controllerID (h : TakenDown monitor id monitor') :
    monitor'.controllerID = (without monitor id).controllerID := by
  rw [LivenessMonitor.controllerID, h.membership, h.alive]
  rfl

theorem isAlive_iff (h : TakenDown monitor id monitor') (hne : id ≠ monitor.self) (r : Int) :
    monitor'.isAlive r ↔ monitor.isAlive r ∧ r ≠ id := by
  by_cases hr : r = id
  case pos => simp [LivenessMonitor.isAlive, h.self, h.alive, hr, hne]
  case neg => simp [LivenessMonitor.isAlive, h.self, h.alive, hr]

-- The leader that `OnPeerDown` takes is alive, if it can take one.
theorem led_reassign {p : Topic.Partition} (h : TakenDown monitor id monitor') (hne : id ≠ monitor.self)
    (hled : Led monitor p) : Led monitor' ((reassign monitor'.isAlive id p).getD p) := by
  have halive := h.isAlive_iff hne
  unfold reassign
  split
  case isTrue hleader =>
    rintro ⟨r, hr, hlive⟩
    exact (halive _).mpr ⟨hled ⟨r, hr, ((halive r).mp hlive).left⟩, hleader⟩
  case isFalse =>
    split
    case h_1 hnil =>
      rintro ⟨r, hr, hlive⟩
      have hmem : r ∈ liveISR monitor'.isAlive p.isr id :=
        (mem_liveISR ..).mpr ⟨hr, ((halive r).mp hlive).right, hlive⟩
      rw [hnil] at hmem
      contradiction
    case h_2 leader live heq =>
      intro _
      have hmem : leader ∈ liveISR monitor'.isAlive p.isr id := heq ▸ List.mem_cons_self
      exact ((mem_liveISR ..).mp hmem).right.right

end TakenDown

-- `OnPeerDown` sees the peers as the monitor does.
theorem peerAlive_view (hself : monitor.self = config.nodeID)
    (hmembers : ∀ id, monitor.alive id → id ∈ config.cluster.ids) (topics : List Topic.Topic) :
    peerAlive config.nodeID (view config monitor topics) = monitor.isAlive := by
  funext r
  rw [Bool.eq_iff_iff]
  simp only [peerAlive, view, decide_eq_true_eq, List.mem_filter]
  constructor
  · rintro (heq | ⟨_, halive⟩)
    · simp [LivenessMonitor.isAlive, hself, heq]
    · exact halive
  · intro halive
    simp only [LivenessMonitor.isAlive, hself, decide_eq_true_eq] at halive
    exact halive.imp_right fun h => ⟨hmembers r h, by simp [LivenessMonitor.isAlive, h]⟩

-- A broker is taken for dead, and `OnPeerDown` has been called.
theorem Inv.down {log : Storage.Log} {topics : Topic.Registry} {order : List Topic.Topic} (h : Inv config s)
    (htaken : TakenDown s.monitor id monitor') (hne : id ≠ config.nodeID)
    (hnoticed : (without s.monitor id).controllerID = config.nodeID ∨
      Every (fun p => p.leader = id → ∀ r ∈ p.isr, r ≠ id → s.monitor.isAlive r = false) s.topics)
    (hdown : onPeerDown config (view config monitor' order) s.log s.topics id = some (log, topics)) :
    Inv config ⟨monitor', log, topics⟩ := by
  have hself : monitor'.self = config.nodeID := htaken.self.trans h.self
  have hmembership := htaken.membership.trans h.membership
  have hmembers : ∀ r, monitor'.alive r → r ∈ config.cluster.ids := by
    intro r hr
    rw [htaken.alive] at hr
    by_cases heq : r = id
    case pos => simp [heq] at hr
    case neg => exact h.members r (by simpa [heq] using hr)
  rw [← htaken.controllerID] at hnoticed
  by_cases hcontroller : (view config monitor' order).controllerID = config.nodeID
  case pos =>
    have hall : s.topics.All order := by
      rw [onPeerDown, if_neg (not_not.mpr hcontroller)] at hdown
      split at hdown
      case isTrue hall => exact hall
      case isFalse     => contradiction
    obtain ⟨log', topics', heq, hlog', hlookup⟩ := onPeerDown_of_healthy id h.keyed h.healthy hcontroller hall
    cases heq.symm.trans hdown
    rw [peerAlive_view hself hmembers] at hlookup
    refine ⟨hself, hmembership, hmembers, hlog', fun name t ht => ?_, every_iff.mpr fun name t ht p hp => ?_⟩
    · rw [hlookup] at ht
      obtain ⟨u, hu, rfl⟩ := Option.map_eq_some_iff.mp ht
      exact h.keyed name u hu
    · rw [hlookup] at ht
      obtain ⟨u, hu, rfl⟩ := Option.map_eq_some_iff.mp ht
      obtain ⟨q, hq, rfl⟩ := List.mem_map.mp hp
      exact htaken.led_reassign (h.self ▸ hne) (every_iff.mp h.led name u hu q hq)
  case neg =>
    have halive := htaken.isAlive_iff (h.self ▸ hne)
    have heq : (s.log, s.topics) = (log, topics) := by
      rw [onPeerDown, if_pos hcontroller] at hdown
      exact Option.some.inj hdown
    cases heq
    refine ⟨hself, hmembership, hmembers, h.healthy, h.keyed, fun x hx p hp => ?_⟩
    rintro ⟨r, hr, hlive⟩
    obtain ⟨hr_alive, hr_ne⟩ := (halive r).mp hlive
    refine (halive _).mpr ⟨h.led x hx p hp ⟨r, hr, hr_alive⟩, fun hleader => ?_⟩
    have hdead := hnoticed.resolve_left hcontroller x hx p hp hleader r hr hr_ne
    simp [hdead] at hr_alive

theorem Inv.success (h : Inv config s) (hid : id ∈ config.cluster.ids)
    (hnoticed : s.monitor.alive id = false →
      Every (fun p => id ∈ p.isr → p.leader = id ∨ s.monitor.isAlive p.leader) s.topics) :
    Inv config { s with monitor := (s.monitor.recordSuccess id).fst } := by
  have halive : ∀ r, (s.monitor.recordSuccess id).fst.isAlive r ↔ s.monitor.isAlive r ∨ r = id := by
    intro r
    by_cases hr : r = id
    case pos => simp [LivenessMonitor.isAlive, LivenessMonitor.recordSuccess, hr]
    case neg => simp [LivenessMonitor.isAlive, LivenessMonitor.recordSuccess, hr]
  refine ⟨h.self, h.membership, fun r hr => ?_, h.healthy, h.keyed, fun x hx p hp => ?_⟩
  · by_cases heq : r = id
    case pos => exact heq ▸ hid
    case neg => exact h.members r (by simpa [LivenessMonitor.recordSuccess, heq] using hr)
  · rintro ⟨r, hr, hlive⟩
    refine (halive _).mpr ?_
    cases (halive r).mp hlive
    case inl hlive => exact .inl (h.led x hx p hp ⟨r, hr, hlive⟩)
    case inr heq =>
      subst heq
      cases hwas : s.monitor.alive r
      case true  => exact .inl (h.led x hx p hp ⟨r, hr, by simp [LivenessMonitor.isAlive, hwas]⟩)
      case false => exact (hnoticed hwas x hx p hp hr).symm

theorem Inv.step (h : Inv config s) (hc : Noticed config s a) (hs : (machine config).step s a = some (s', o)) :
    Inv config s' := by
  cases a
  case miss id order =>
    simp only [machine] at hs
    split at hs
    case isFalse => contradiction
    case isTrue hid =>
      rcases recordMiss_cases s.monitor id with ⟨monitor, heq, hself, hmembership, halive⟩ |
        ⟨monitor, heq, htaken, halive, hle⟩
      · rw [heq] at hs
        cases Option.some.inj hs
        have hsame : monitor.isAlive = s.monitor.isAlive := by
          funext r
          rw [LivenessMonitor.isAlive, LivenessMonitor.isAlive, hself, halive]
        refine ⟨hself.trans h.self, hmembership.trans h.membership, halive ▸ h.members, h.healthy, h.keyed, ?_⟩
        intro x hx p hp
        rw [Led, hsame]
        exact h.led x hx p hp
      · rw [heq] at hs
        obtain ⟨⟨log, topics⟩, hdown, hs⟩ := Option.map_eq_some_iff.mp hs
        cases hs
        exact h.down htaken hid.right (hc halive hle) hdown
  case success id =>
    simp only [machine] at hs
    split at hs
    case isFalse => contradiction
    case isTrue hid =>
      cases Option.some.inj hs
      exact h.success hid.left hc

theorem inductive_inv (config : Config) : (machine config).Inductive (Noticed config) fun s _ => Inv config s where
  step h hc hs := h.step hc hs

-- If every death is noticed in time, the controller leaves no partition with a dead leader.
theorem led_of_noticed (hready : Ready config s) (hc : (machine config).Along (Noticed config) s as)
    (hr : (machine config).run s as = some (s', os)) : Covered config s' := by
  intro _
  exact every_iff.mp ((inductive_inv config).run_nil hready.inv hc hr).led

instance (config : Config) (s : State) : DecidablePred (Noticed config s) := fun _ => by
  unfold Noticed
  split <;> infer_instance

def sampleConfig : Config where
  nodeID  := 2
  cluster := Metadata.sampleTrio.cluster

def sampleTopic : Topic.Topic where
  name       := [116]
  partitions := [⟨0, 1, [1, 2], [1, 2]⟩]

def sampleState : State where
  monitor := .new sampleConfig.cluster 2 1
  log     := .empty
  topics  := applyMetadataRecord ∅ ⟨.topicUpsert, [116], sampleTopic.partitions⟩

theorem ready_sampleState : Ready sampleConfig sampleState where
  self       := rfl
  membership := rfl
  members    := by
    intro id hid
    simp only [sampleState, LivenessMonitor.new, decide_eq_true_eq] at hid
    rcases hid with rfl | hid
    · decide
    · exact hid
  healthy    := rfl
  keyed      := keyed_empty.apply _
  leaders    := by decide

-- The controller 3 dies before the leader 1, which comes back later.
theorem led_of_noticed_back :
    let as : List Step := [.miss 3 [sampleTopic], .miss 1 [sampleTopic], .success 1]
    ∃ s os, (machine sampleConfig).run sampleState as = some (s, os) ∧ os = [.onDown 3, .onDown 1, .onUp 1] ∧
      s.topics.get [116] = some ⟨[116], [⟨0, 2, [1, 2], [2]⟩]⟩ ∧ Covered sampleConfig s := by
  intro as
  have hrun : ((machine sampleConfig).run sampleState as).map (fun r => (r.snd, r.fst.topics.get [116])) =
      some ([.onDown 3, .onDown 1, .onUp 1], some ⟨[116], [⟨0, 2, [1, 2], [2]⟩]⟩) := by decide +kernel
  obtain ⟨⟨s, os⟩, hr, heq⟩ := Option.map_eq_some_iff.mp hrun
  obtain ⟨hos, hget⟩ := Prod.mk.inj heq
  exact ⟨s, os, hr, hos, hget, led_of_noticed ready_sampleState (by decide +kernel) hr⟩

-- The leader 1 dies while 3 is still the controller, and then 3 dies.
theorem lateController_not_covered :
    let as : List Step := [.miss 1 [], .miss 3 [sampleTopic]]
    Ready sampleConfig sampleState ∧
      ∃ s os, (machine sampleConfig).run sampleState as = some (s, os) ∧ ¬Covered sampleConfig s := by
  intro as
  have hrun : ((machine sampleConfig).run sampleState as).map (fun r => (r.fst.monitor.controllerID,
      r.fst.topics.get [116], r.fst.monitor.isAlive 2, r.fst.monitor.isAlive 1)) =
      some (2, some sampleTopic, true, false) := by decide +kernel
  obtain ⟨⟨s, os⟩, hr, heq⟩ := Option.map_eq_some_iff.mp hrun
  simp only [Prod.mk.injEq] at heq
  obtain ⟨hcontroller, hget, hlive, hdead⟩ := heq
  refine ⟨ready_sampleState, s, os, hr, fun h => ?_⟩
  have hled := h hcontroller [116] sampleTopic hget ⟨0, 1, [1, 2], [1, 2]⟩ List.mem_cons_self ⟨2, by simp, hlive⟩
  rw [hdead] at hled
  contradiction

end Watching
end Network
