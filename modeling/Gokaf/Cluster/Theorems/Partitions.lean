import Gokaf.Cluster.Partitions
import Gokaf.Cluster.Theorems.Election

open Go

namespace Cluster.Partitions

open Election (Output outcomes callbacks NodeInv)

variable {cluster : Membership} {failAfter : Int → Int} {s s' : State} {b id : Int} {a : Step} {as bs : List Step}
  {o os : List Output}

@[simp]
theorem State.node_setNode_self (s : State) (b : Int) (node : Election.Node) : (s.setNode b node).node b = node :=
  Function.update_self ..

theorem State.node_setNode_of_ne (s : State) (node : Election.Node) {b b' : Int} (h : b' ≠ b) :
    (s.setNode b node).node b' = s.node b' :=
  Function.update_of_ne h ..

-- A monitor has its view of a peer from the outcomes of its pings since it was started.
def Tracked (s : State) (b id : Int) : Prop :=
  ∃ outs calls, (s.node b).monitor.Tracks id outs calls

structure Inv (cluster : Membership) (failAfter : Int → Int) (s : State) : Prop where
  nodes   : ∀ b, NodeInv cluster failAfter b (s.node b)
  tracked : ∀ b, ∀ id ∈ cluster.ids, id ≠ b → Tracked s b id

namespace Inv

theorem init (cluster : Membership) (failAfter : Int → Int) : Inv cluster failAfter (.init cluster failAfter) where
  nodes             := (Election.Inv.init cluster failAfter).nodes
  tracked b _ hid _ := ⟨_, _, .new b hid (failAfter b)⟩

-- A step of the broker `b`.
theorem set {node : Election.Node} (h : Inv cluster failAfter s) (hnode : NodeInv cluster failAfter b node)
    (htracked : ∀ id ∈ cluster.ids, id ≠ b → ∃ outs calls, node.monitor.Tracks id outs calls) :
    Inv cluster failAfter (s.setNode b node) := by
  refine ⟨fun b' => ?_, fun b' id hid hne => ?_⟩
  · by_cases heq : b' = b
    case pos =>
      subst heq
      rwa [s.node_setNode_self]
    case neg =>
      rw [s.node_setNode_of_ne node heq]
      exact h.nodes b'
  · by_cases heq : b' = b
    case pos =>
      subst heq
      rw [Tracked, s.node_setNode_self]
      exact htracked id hid hne
    case neg =>
      rw [Tracked, s.node_setNode_of_ne node heq]
      exact h.tracked b' id hid hne

theorem ping (h : Inv cluster failAfter s) (hne : id ≠ b) (ok : Bool) :
    Inv cluster failAfter (s.setNode b { s.node b with pinged := some (id, ok) }) := by
  obtain ⟨hmembership, hself, hown, hfailAfter, _⟩ := h.nodes b
  refine h.set ⟨hmembership, hself, hown, hfailAfter, fun id' ok' heq => ?_⟩ (h.tracked b)
  cases heq
  exact hne

theorem record {monitor : LivenessMonitor} {callback : Option Callback} {ok : Bool} (h : Inv cluster failAfter s)
    (hfail : failAfter b < 2 ^ 63) (hpinged : (s.node b).pinged = some (id, ok))
    (hr : (s.node b).monitor.record id ok = (monitor, callback)) :
    Inv cluster failAfter (s.setNode b { s.node b with monitor, pinged := none }) := by
  have hkeeps := LivenessMonitor.keeps_record hr
  have hne := (h.nodes b).pinged id ok hpinged
  have hfailAfter := (h.nodes b).failAfter
  refine h.set ((h.nodes b).keep hkeeps hne) fun id' hid' hne' => ?_
  obtain ⟨outs, calls, htracks⟩ := h.tracked b id' hid' hne'
  by_cases hid : id' = id
  case pos =>
    subst hid
    exact ⟨_, _, htracks.record (by omega) (by omega) hr⟩
  case neg => exact ⟨_, _, htracks.keep hkeeps hid⟩

end Inv

-- A monitor writes down the outcome of its last ping.
theorem record_cases {e : Election.State} (h : (Election.machine cluster).step s.election (.record b) = some (e, o)) :
    ∃ id ok monitor callback, (s.node b).pinged = some (id, ok) ∧
      (s.node b).monitor.record id ok = (monitor, callback) ∧
      e = s.election.set b { s.node b with monitor, pinged := none } ∧
      o = .recorded b id ok :: callback.toList.map (.called b) := by
  simp only [Election.machine] at h
  split at h
  case h_1 => contradiction
  case h_2 id ok hpinged =>
    split at h
    case isTrue => contradiction
    case isFalse =>
      cases Option.some.inj h
      exact ⟨id, ok, _, _, hpinged, rfl, rfl, rfl⟩

theorem Inv.step (h : Inv cluster failAfter s) (hfail : ∀ b, failAfter b < 2 ^ 63)
    (hs : (machine cluster failAfter).step s a = some (s', o)) : Inv cluster failAfter s' := by
  cases a
  case crash b =>
    obtain ⟨⟨e, o'⟩, hstep, heq⟩ := Option.map_eq_some_iff.mp hs
    cases heq
    simp only [Election.machine] at hstep
    split at hstep
    case isFalse => contradiction
    case isTrue =>
      cases Option.some.inj hstep
      obtain ⟨hmembership, hself, hown, hfailAfter, hpinged⟩ := h.nodes b
      exact h.set ⟨hmembership, hself, hown, hfailAfter, hpinged⟩ (h.tracked b)
  case restart b =>
    simp only [machine] at hs
    split at hs
    case isFalse => contradiction
    case isTrue =>
      cases Option.some.inj hs
      have hinit := Inv.init cluster failAfter
      have hset := h.set (hinit.nodes b) (hinit.tracked b)
      exact ⟨hset.nodes, hset.tracked⟩
  case setLink b id up =>
    cases Option.some.inj hs
    exact ⟨h.nodes, h.tracked⟩
  case setDropPings b v =>
    simp only [machine] at hs
    split at hs
    case isTrue => contradiction
    case isFalse =>
      cases Option.some.inj hs
      exact ⟨h.nodes, h.tracked⟩
  case ping b id =>
    simp only [machine] at hs
    split at hs
    case isFalse => contradiction
    case isTrue hc =>
      cases Option.some.inj hs
      exact h.ping hc.right.right.left _
  case record b =>
    obtain ⟨⟨e, o'⟩, hstep, heq⟩ := Option.map_eq_some_iff.mp hs
    cases heq
    obtain ⟨id, ok, monitor, callback, hpinged, hr, rfl, rfl⟩ := record_cases hstep
    exact h.record (hfail b) hpinged hr

theorem inductive_inv (cluster : Membership) {failAfter : Int → Int} (hfail : ∀ b, failAfter b < 2 ^ 63) :
    (machine cluster failAfter).Inductive (fun _ _ => True) fun s _ => Inv cluster failAfter s where
  step h _ hs := h.step hfail hs

-- Nothing has happened to the network and to the processes.
structure Same (s₀ s : State) : Prop where
  links     : s.links = s₀.links
  dropPings : s.dropPings = s₀.dropPings
  crashed   : ∀ b, (s.node b).crashed = (s₀.node b).crashed

theorem Same.answers {s₀ : State} (h : Same s₀ s) (b id : Int) : s.answers b id = s₀.answers b id := by
  rw [State.answers, State.answers, h.links, h.dropPings, h.crashed]

theorem Same.setNode {s₀ : State} {node : Election.Node} (h : Same s₀ s)
    (hcrashed : node.crashed = (s.node b).crashed) : Same s₀ (s.setNode b node) := by
  refine ⟨h.links, h.dropPings, fun b' => ?_⟩
  rw [← h.crashed]
  by_cases heq : b' = b
  case pos =>
    subst heq
    rw [s.node_setNode_self, hcrashed]
  case neg => rw [s.node_setNode_of_ne node heq]

-- What broker `b` has found out about `id` since the state `s₀`. Only its first ping may have been under way before.
structure Settling (s₀ s : State) (b id : Int) (o : List Output) : Prop where
  tracks : ∃ outs calls, (s.node b).monitor.Tracks id (outs ++ outcomes b id o) calls
  tail   : ∀ ok ∈ (outcomes b id o).tail, ok = s₀.answers b id
  pinged : ∀ ok, (s.node b).pinged = some (id, ok) → ok = s₀.answers b id ∨ outcomes b id o = []

namespace Settling

variable {s₀ : State} {b' id' : Int}

theorem init (h : Tracked s b id) : Settling s s b id [] := by
  obtain ⟨outs, calls, htracks⟩ := h
  refine ⟨⟨outs, calls, ?_⟩, by simp [outcomes], fun _ _ => .inr rfl⟩
  simpa [outcomes] using htracks

theorem same (h : Settling s₀ s b id os) (hnode : s'.node b = s.node b) (ho : outcomes b id o = []) :
    Settling s₀ s' b id (os ++ o) := by
  obtain ⟨htracks, htail, hpinged⟩ := h
  have houtcomes : outcomes b id (os ++ o) = outcomes b id os := by
    rw [Election.outcomes_append, ho, List.append_nil]
  exact ⟨by rwa [hnode, houtcomes], by rwa [houtcomes], by rwa [hnode, houtcomes]⟩

theorem ping (h : Settling s₀ s b id os) (hsame : Same s₀ s) :
    Settling s₀ (s.setNode b { s.node b with pinged := some (id', s.answers b id') }) b id os := by
  refine ⟨?_, h.tail, fun ok heq => .inl ?_⟩
  · rw [s.node_setNode_self]
    exact h.tracks
  · rw [s.node_setNode_self] at heq
    cases heq
    exact hsame.answers b id

theorem record {monitor : LivenessMonitor} {callback : Option Callback} {ok : Bool} (h : Settling s₀ s b id os)
    (hpos : 0 < (s.node b).monitor.failAfter) (hlt : (s.node b).monitor.failAfter < 2 ^ 63)
    (hpinged : (s.node b).pinged = some (id', ok)) (hr : (s.node b).monitor.record id' ok = (monitor, callback)) :
    Settling s₀ (s.setNode b { s.node b with monitor, pinged := none }) b id
      (os ++ (.recorded b id' ok :: callback.toList.map (.called b))) := by
  obtain ⟨⟨outs, calls, htracks⟩, htail, hfound⟩ := h
  have hkeeps := LivenessMonitor.keeps_record hr
  have hout : outcomes b id (os ++ (.recorded b id' ok :: callback.toList.map (.called b))) =
      outcomes b id os ++ if id' = id then [ok] else [] := by
    rw [Election.outcomes_append, Election.outcomes_record]
    simp
  by_cases hid : id' = id
  case pos =>
    subst hid
    rw [if_pos rfl] at hout
    refine ⟨⟨outs, calls ++ callback.toList, ?_⟩, ?_, by simp⟩
    · rw [s.node_setNode_self, hout, ← List.append_assoc]
      exact htracks.record hpos hlt hr
    · rw [hout]
      cases hos : outcomes b id' os
      case nil => simp
      case cons x xs =>
        rw [hos] at htail
        have hok := (hfound ok hpinged).resolve_right (by simp [hos])
        rw [List.cons_append, List.tail_cons]
        exact List.forall_mem_append.mpr ⟨htail, List.forall_mem_singleton.mpr hok⟩
  case neg =>
    rw [if_neg hid, List.append_nil] at hout
    refine ⟨⟨outs, calls, ?_⟩, by rwa [hout], by simp⟩
    rw [s.node_setNode_self, hout]
    exact htracks.keep hkeeps (Ne.symm hid)

-- After enough pings, the view of the monitor is the truth.
theorem alive_eq {n : Nat} (h : Settling s₀ s b id o) (hpos : 0 < n) (hn : (s.node b).monitor.failAfter = n)
    (hlen : n < (outcomes b id o).length) : (s.node b).monitor.alive id = s₀.answers b id := by
  obtain ⟨⟨outs, calls, htracks⟩, htail, _⟩ := h
  have hdead := htracks.dead
  rw [hn, Int.toNat_natCast] at hdead
  generalize s₀.answers b id = v at htail
  cases houtcomes : outcomes b id o
  case nil =>
    rw [houtcomes] at hlen
    contradiction
  case cons x xs =>
    rw [houtcomes, List.length_cons] at hlen
    rw [houtcomes, List.tail_cons] at htail
    have hxs : xs = List.replicate (xs.length - n) v ++ List.replicate n v := by
      rw [List.replicate_append_replicate, Nat.sub_add_cancel (Nat.le_of_lt_succ hlen)]
      exact List.eq_replicate_of_mem htail
    rw [houtcomes, hxs] at hdead
    cases v
    case false =>
      refine hdead.mpr ?_
      rw [← List.cons_append, ← List.append_assoc]
      exact List.suffix_append _ _
    case true =>
      -- The last ping was answered.
      rw [← Bool.not_eq_false, hdead]
      obtain ⟨m, rfl⟩ := Nat.exists_eq_add_of_lt hpos
      rw [Nat.zero_add, List.replicate_succ', List.replicate_succ', ← List.cons_append, ← List.append_assoc,
        ← List.append_assoc, List.suffix_concat_iff]
      simp

end Settling

theorem inductive_settling (cluster : Membership) {failAfter : Int → Int} (hfail : ∀ b, failAfter b < 2 ^ 63)
    (s₀ : State) : (machine cluster failAfter).Inductive (fun _ a => a.IsMonitor) fun s o =>
      Inv cluster failAfter s ∧ Same s₀ s ∧ ∀ b, ∀ id ∈ cluster.ids, id ≠ b → Settling s₀ s b id o where
  step {s a s' o os} hinv hc hs := by
    obtain ⟨h, hsame, hsettling⟩ := hinv
    have h' := h.step hfail hs
    cases a
    case ping b id =>
      simp only [machine] at hs
      split at hs
      case isFalse => contradiction
      case isTrue =>
        cases Option.some.inj hs
        refine ⟨h', hsame.setNode rfl, fun b' id' hid' hne => ?_⟩
        rw [List.append_nil]
        by_cases heq : b' = b
        case pos =>
          subst heq
          exact (hsettling b' id' hid' hne).ping hsame
        case neg =>
          rw [← List.append_nil os]
          exact (hsettling b' id' hid' hne).same (s.node_setNode_of_ne _ heq) rfl
    case record b =>
      obtain ⟨⟨e, o'⟩, hstep, heq⟩ := Option.map_eq_some_iff.mp hs
      cases heq
      obtain ⟨id, ok, monitor, callback, hpinged, hr, rfl, rfl⟩ := record_cases hstep
      refine ⟨h', hsame.setNode rfl, fun b' id' hid' hne => ?_⟩
      have hfailAfter := (h.nodes b).failAfter
      have hlt := hfail b
      by_cases heq : b' = b
      case pos =>
        subst heq
        exact (hsettling b' id' hid' hne).record (by omega) (by omega) hpinged hr
      case neg =>
        refine (hsettling b' id' hid' hne).same (s.node_setNode_of_ne _ heq) ?_
        rw [Election.outcomes_record, if_neg fun h => heq h.left.symm]
    all_goals contradiction

namespace State

-- The brokers that answer to `b`, and itself.
def Sees (cluster : Membership) (s : State) (b id : Int) : Prop :=
  id ∈ cluster.ids ∧ (id = b ∨ s.answers b id)

def Live (cluster : Membership) (s : State) (b : Int) : Prop :=
  b ∈ cluster.ids ∧ (s.node b).crashed = false

def controllerID (s : State) (b : Int) : Int :=
  (s.node b).monitor.controllerID

theorem Sees.self (h : s.Live cluster b) : s.Sees cluster b b :=
  ⟨h.left, .inl rfl⟩

-- The network is split into sides, and the brokers on a side see each other.
structure Split (cluster : Membership) (s : State) : Prop where
  symm  : ∀ {b id}, s.Live cluster b → s.Sees cluster b id → s.Sees cluster id b
  trans : ∀ {b b' id}, s.Live cluster b → s.Sees cluster b b' → s.Sees cluster b' id → s.Sees cluster b id

end State

-- Every broker knows who answers to it, and takes the highest of these for the controller. In a split network each
-- side has a controller of its own.
structure Settled (cluster : Membership) (s : State) : Prop where
  alive      : ∀ b, s.Live cluster b → ∀ id ∈ cluster.ids, (s.node b).monitor.isAlive id ↔ s.Sees cluster b id
  controller : ∀ b, s.Live cluster b → s.Sees cluster b (s.controllerID b) ∧
    ∀ id, s.Sees cluster b id → id ≤ s.controllerID b
  sides      : s.Split cluster → ∀ b b', s.Live cluster b → s.Live cluster b' →
    (s.controllerID b = s.controllerID b' ↔ s.Sees cluster b b')

theorem Settled.of_alive (hinv : Inv cluster failAfter s) (hids : ∀ id ∈ cluster.ids, 0 ≤ id)
    (h : ∀ b, s.Live cluster b → ∀ id ∈ cluster.ids, (s.node b).monitor.alive id ↔ s.Sees cluster b id) :
    Settled cluster s := by
  have hcontroller : ∀ b, s.Live cluster b → s.Sees cluster b (s.controllerID b) ∧
      ∀ id, s.Sees cluster b id → id ≤ s.controllerID b := by
    intro b hb
    have hhighest : IsHighest (s.node b).monitor.alive (-1) cluster.ids (s.controllerID b) :=
      (hinv.nodes b).membership ▸ (s.node b).monitor.isHighest_controllerID
    have hle := hhighest.le b hb.left (hinv.nodes b).own
    have hpos := hids b hb.left
    have hmem := hhighest.eq_or_mem.resolve_left (by omega)
    exact ⟨(h b hb _ hmem.left).mp hmem.right, fun id hid => hhighest.le id hid.left ((h b hb id hid.left).mpr hid)⟩
  refine ⟨fun b hb id hid => ?_, hcontroller, fun hsplit b b' hb hb' => ⟨fun heq => ?_, fun hsees => ?_⟩⟩
  · rw [← h b hb id hid, LivenessMonitor.isAlive, (hinv.nodes b).self, decide_eq_true_eq]
    refine or_iff_right_of_imp fun heq => ?_
    rw [heq]
    exact (hinv.nodes b).own
  · -- Both of them see their controller.
    have hsees := (hcontroller b hb).left
    have hsees' := (hcontroller b' hb').left
    rw [← heq] at hsees'
    exact hsplit.trans hb hsees (hsplit.symm hb' hsees')
  · have hsees' := hsplit.symm hb hsees
    refine Int.le_antisymm ((hcontroller b' hb').right _ ?_) ((hcontroller b hb).right _ ?_)
    · exact hsplit.trans hb' hsees' (hcontroller b hb).left
    · exact hsplit.trans hb hsees (hcontroller b' hb').left

-- Once nothing happens to the network any more and every broker has recorded one ping of each peer more than it takes
-- to give it up, the brokers have settled.
theorem settled_of_pings (hids : ∀ id ∈ cluster.ids, 0 ≤ id) (hfail : ∀ b, failAfter b < 2 ^ 63)
    (hr : (machine cluster failAfter).run (.init cluster failAfter) as = some (s, os)) (hbs : ∀ a ∈ bs, a.IsMonitor)
    (hr' : (machine cluster failAfter).run s bs = some (s', o))
    (hpings : ∀ b, s'.Live cluster b → ∀ id ∈ cluster.ids, id ≠ b → max 1 (failAfter b) < (outcomes b id o).length) :
    Settled cluster s' := by
  have h := (inductive_inv cluster hfail).run_nil (.init cluster failAfter) (Machine.along_true _ _) hr
  obtain ⟨h', hsame, hsettling⟩ := (inductive_settling cluster hfail s).run_nil
    ⟨h, ⟨rfl, rfl, fun _ => rfl⟩, fun b id hid hne => .init (h.tracked b id hid hne)⟩
    (Machine.along_of_forall hbs s) hr'
  refine .of_alive h' hids fun b hb id hid => ?_
  by_cases heq : id = b
  case pos =>
    subst heq
    exact iff_of_true (h'.nodes id).own (.self hb)
  case neg =>
    have hlen := hpings b hb id hid heq
    have hfailAfter := (h'.nodes b).failAfter
    have halive := (hsettling b id hid heq).alive_eq (n := (max 1 (failAfter b)).toNat) (by omega) (by omega)
      (by omega)
    rw [halive, ← hsame.answers, State.Sees]
    simp [hid, heq]

-- Broker 2 is cut off from the others while broker 1 has a ping of it under way, and broker 0 starts again.
def sampleCut : List Step :=
  [.ping 1 2, .setLink 0 2 false, .setLink 1 2 false, .setLink 2 0 false, .setLink 2 1 false, .crash 0, .restart 0]

def samplePings : List Step :=
  .record 1 :: [0, 1, 2].flatMap fun b => [0, 1, 2].flatMap fun id =>
    if id = b then [] else [.ping b id, .record b, .ping b id, .record b, .ping b id, .record b]

theorem settled_of_pings_trio :
    let m := machine Election.sampleCluster fun _ => 2
    ∃ s os s' o, m.run (.init Election.sampleCluster fun _ => 2) sampleCut = some (s, os) ∧
      m.run s samplePings = some (s', o) ∧ [0, 1, 2].map s'.controllerID = [1, 1, 2] ∧
      Settled Election.sampleCluster s' := by
  intro m
  have hrun : ∃ r ∈ m.run (.init Election.sampleCluster fun _ => 2) sampleCut, ∃ r' ∈ m.run r.fst samplePings,
      [0, 1, 2].map r'.fst.controllerID = [1, 1, 2] ∧
      ∀ b ∈ [0, 1, 2], ∀ id ∈ [0, 1, 2], id ≠ b → 2 < (outcomes b id r'.snd).length := by decide +kernel
  obtain ⟨⟨s, os⟩, hs, ⟨s', o⟩, hs', hcontrollers, hpings⟩ := hrun
  refine ⟨s, os, s', o, hs, hs', hcontrollers, ?_⟩
  refine settled_of_pings (by decide) (fun _ => by decide) hs (by decide) hs' fun b hb id hid hne => ?_
  exact_mod_cast hpings b hb.left id hid hne

end Cluster.Partitions
