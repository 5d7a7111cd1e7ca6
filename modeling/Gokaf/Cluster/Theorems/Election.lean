import Gokaf.Cluster.Election
import Gokaf.Cluster.Theorems.Liveness

open Go

namespace Cluster.Election

-- What a broker's pings of a peer have come to.
def outcomes (b id : Int) (os : List Output) : List Bool :=
  os.filterMap fun
    | .recorded b' id' ok => if b' = b ∧ id' = id then some ok else none
    | .called ..          => none

-- What a broker's monitor has said about a peer.
def callbacks (b id : Int) (os : List Output) : List Callback :=
  os.filterMap fun
    | .called b' callback => if b' = b ∧ callback.id = id then some callback else none
    | .recorded ..        => none

-- A broker that has not crashed.
def State.Live (cluster : Membership) (s : State) (b : Int) : Prop :=
  b ∈ cluster.ids ∧ (s.nodes b).crashed = false

structure Elects (cluster : Membership) (failAfter : Int → Int) (s : State) (os : List Output) : Prop where
  unique     : ∀ b b', s.Live cluster b → s.Live cluster b' → (s.nodes b).monitor.controllerID = b →
    (s.nodes b').monitor.controllerID = b' → b = b'
  dead       : ∀ b ∈ cluster.ids, ∀ id ∈ cluster.ids, id ≠ b →
    ((s.nodes b).monitor.isAlive id = false ↔ List.replicate (max 1 (failAfter b)).toNat false <:+ outcomes b id os)
  alternate  : ∀ b ∈ cluster.ids, ∀ id ∈ cluster.ids, id ≠ b → (callbacks b id os).IsChain (· ≠ ·) ∧
    ∀ c ∈ (callbacks b id os).head?, c = .onDown id
  controller : (∀ b, s.Live cluster b → ∀ id ∈ cluster.ids, (s.nodes id).crashed →
      max 1 (failAfter b) ≤ (outcomes b id os).count false) →
    ∀ highest, s.Live cluster highest → (∀ b, s.Live cluster b → b ≤ highest) →
      ∀ b, s.Live cluster b → (s.nodes b).monitor.controllerID = highest

variable {cluster : Membership} {failAfter : Int → Int} {s s' : State} {b id : Int} {a : Step} {as : List Step}
  {os o : List Output}

theorem outcomes_append (b id : Int) (os o : List Output) :
    outcomes b id (os ++ o) = outcomes b id os ++ outcomes b id o :=
  List.filterMap_append ..

theorem callbacks_append (b id : Int) (os o : List Output) :
    callbacks b id (os ++ o) = callbacks b id os ++ callbacks b id o :=
  List.filterMap_append ..

-- The outputs of a record.
theorem outcomes_record (b b' id id' : Int) (ok : Bool) (callback : Option Callback) :
    outcomes b' id' (.recorded b id ok :: callback.toList.map (.called b)) =
      if b = b' ∧ id = id' then [ok] else [] := by
  by_cases h : b = b' ∧ id = id'
  case pos => cases callback <;> simp [outcomes, h]
  case neg => cases callback <;> simp [outcomes, h]

theorem callbacks_record {callback : Option Callback} (hcallback : ∀ c ∈ callback, c.id = id) (b b' id' : Int)
    (ok : Bool) :
    callbacks b' id' (.recorded b id ok :: callback.toList.map (.called b)) =
      if b = b' ∧ id = id' then callback.toList else [] := by
  cases callback
  case none => simp [callbacks]
  case some c =>
    simp only [callbacks, List.filterMap_cons, Option.toList_some, List.map_cons, List.map_nil, List.filterMap_nil,
      hcallback c rfl]
    split <;> simp_all

-- What is known of the broker `b` about the peer `id`. Once a ping has failed, the peer has crashed for good.
structure Watches (s : State) (b id : Int) (os : List Output) : Prop where
  tracks  : (s.nodes b).monitor.Tracks id (outcomes b id os) (callbacks b id os)
  crashed : (s.nodes b).pinged = some (id, false) → (s.nodes id).crashed
  failed  : ∃ n k, outcomes b id os = List.replicate n true ++ List.replicate k false ∧
    (0 < k → (s.nodes id).crashed ∧ (s.nodes b).pinged ≠ some (id, true))

-- A broker's own part of the invariant.
structure NodeInv (cluster : Membership) (failAfter : Int → Int) (b : Int) (node : Node) : Prop where
  membership : node.monitor.membership = cluster
  self       : node.monitor.self = b
  own        : node.monitor.alive b
  failAfter  : node.monitor.failAfter = max 1 (failAfter b)
  pinged     : ∀ id ok, node.pinged = some (id, ok) → id ≠ b

structure Inv (cluster : Membership) (failAfter : Int → Int) (s : State) (os : List Output) : Prop where
  nodes   : ∀ b, NodeInv cluster failAfter b (s.nodes b)
  watches : ∀ b, ∀ id ∈ cluster.ids, id ≠ b → Watches s b id os

theorem NodeInv.keep {node : Node} {monitor : LivenessMonitor} {callback : Option Callback}
    (h : NodeInv cluster failAfter b node) (hkeeps : node.monitor.Keeps id monitor callback) (hne : id ≠ b) :
    NodeInv cluster failAfter b { node with monitor, pinged := none } where
  membership := hkeeps.membership.trans h.membership
  self       := hkeeps.self.trans h.self
  own        := (hkeeps.alive b hne.symm).trans h.own
  failAfter  := hkeeps.failAfter.trans h.failAfter
  pinged     := by simp

-- What a broker knows of a peer does not depend on the other brokers, but for the crash of the peer.
theorem Watches.same (h : Watches s b id os) (hmonitor : (s'.nodes b).monitor = (s.nodes b).monitor)
    (hpinged : (s'.nodes b).pinged = (s.nodes b).pinged) (hcrashed : (s.nodes id).crashed → (s'.nodes id).crashed)
    (houtcomes : outcomes b id o = []) (hcallbacks : callbacks b id o = []) : Watches s' b id (os ++ o) := by
  obtain ⟨n, k, heq, hfailed⟩ := h.failed
  refine ⟨?_, ?_, n, k, ?_, ?_⟩
  · rw [hmonitor, outcomes_append, callbacks_append, houtcomes, hcallbacks, List.append_nil, List.append_nil]
    exact h.tracks
  · rw [hpinged]
    exact fun hp => hcrashed (h.crashed hp)
  · rw [outcomes_append, houtcomes, List.append_nil, heq]
  · rw [hpinged]
    exact fun hk => (hfailed hk).imp_left hcrashed

namespace Inv

theorem init (cluster : Membership) (failAfter : Int → Int) : Inv cluster failAfter (.init cluster failAfter) [] where
  nodes b := {
    membership := rfl
    self       := rfl
    own        := by simp [State.init, LivenessMonitor.new]
    failAfter  := by
      simp only [State.init, LivenessMonitor.new]
      split <;> omega
    pinged     := by simp [State.init]
  }
  watches b id hid _ := ⟨.new b hid (failAfter b), by simp [State.init], 0, 0, rfl, by simp⟩

-- A step of the broker `b`.
theorem set {node : Node} (h : Inv cluster failAfter s os) (hnode : NodeInv cluster failAfter b node)
    (hcrashed : (s.nodes b).crashed → node.crashed)
    (hout : ∀ b' id, b' ≠ b → outcomes b' id o = [] ∧ callbacks b' id o = [])
    (hwatches : ∀ id ∈ cluster.ids, id ≠ b → Watches (s.set b node) b id (os ++ o)) :
    Inv cluster failAfter (s.set b node) (os ++ o) := by
  have hself : (s.set b node).nodes b = node := Function.update_self ..
  have hother : ∀ b', b' ≠ b → (s.set b node).nodes b' = s.nodes b' := fun b' hb' => Function.update_of_ne hb' ..
  have hcrashed' : ∀ b', (s.nodes b').crashed → ((s.set b node).nodes b').crashed := by
    intro b' hb'
    by_cases heq : b' = b
    case pos =>
      subst heq
      rw [hself]
      exact hcrashed hb'
    case neg =>
      rw [hother b' heq]
      exact hb'
  refine ⟨fun b' => ?_, fun b' id hid hne => ?_⟩
  · by_cases heq : b' = b
    case pos =>
      subst heq
      rw [hself]
      exact hnode
    case neg =>
      rw [hother b' heq]
      exact h.nodes b'
  · by_cases heq : b' = b
    case pos =>
      subst heq
      exact hwatches id hid hne
    case neg =>
      have hsame := hother b' heq
      obtain ⟨houtcomes, hcallbacks⟩ := hout b' id heq
      exact (h.watches b' id hid hne).same (by rw [hsame]) (by rw [hsame]) (hcrashed' id) houtcomes hcallbacks

theorem ping (h : Inv cluster failAfter s os) (hne : id ≠ b) :
    Inv cluster failAfter (s.set b { s.nodes b with pinged := some (id, !(s.nodes id).crashed) }) os := by
  obtain ⟨hmembership, hself, hown, hfailAfter, _⟩ := h.nodes b
  have hnode : NodeInv cluster failAfter b { s.nodes b with pinged := some (id, !(s.nodes id).crashed) } := by
    refine ⟨hmembership, hself, hown, hfailAfter, fun id' ok heq => ?_⟩
    cases heq
    exact hne
  rw [← List.append_nil os]
  refine h.set hnode (fun hcrashed => hcrashed) (fun _ _ _ => ⟨rfl, rfl⟩) fun id' hid' hne' => ?_
  obtain ⟨htracks, _, n, k, heq, hfailed⟩ := h.watches b id' hid' hne'
  rw [List.append_nil]
  refine ⟨?_, ?_, n, k, heq, fun hk => ⟨?_, ?_⟩⟩
  · simpa [State.set] using htracks
  · simp +contextual [State.set, Function.update_of_ne hne']
  · simpa [State.set, Function.update_of_ne hne'] using (hfailed hk).left
  · simp only [State.set, Function.update_self, ne_eq, Option.some.injEq, Prod.mk.injEq, not_and]
    rintro rfl
    simp [(hfailed hk).left]

theorem record {monitor : LivenessMonitor} {callback : Option Callback} {ok : Bool} (h : Inv cluster failAfter s os)
    (hfail : failAfter b < 2 ^ 63) (hpinged : (s.nodes b).pinged = some (id, ok))
    (hr : (s.nodes b).monitor.record id ok = (monitor, callback)) :
    Inv cluster failAfter (s.set b { s.nodes b with monitor, pinged := none })
      (os ++ (.recorded b id ok :: callback.toList.map (.called b))) := by
  have hkeeps := LivenessMonitor.keeps_record hr
  have hne := (h.nodes b).pinged id ok hpinged
  have hset : (s.set b { s.nodes b with monitor, pinged := none }).nodes b =
      { s.nodes b with monitor, pinged := none } :=
    Function.update_self ..
  refine h.set ((h.nodes b).keep hkeeps hne) (fun hcrashed => hcrashed) (fun b' id' hb' => ?_) fun id' hid' hne' => ?_
  · rw [outcomes_record, callbacks_record hkeeps.callback, if_neg fun heq => hb' heq.left.symm,
      if_neg fun heq => hb' heq.left.symm]
    exact ⟨rfl, rfl⟩
  · have hcrashed : (s.set b { s.nodes b with monitor, pinged := none }).nodes id' = s.nodes id' :=
      Function.update_of_ne hne' ..
    obtain ⟨htracks, hcrashed_of, n, k, heq, hfailed⟩ := h.watches b id' hid' hne'
    by_cases hid : id = id'
    case neg =>
      refine ⟨?_, by simp [hset], n, k, ?_, fun hk => ⟨hcrashed ▸ (hfailed hk).left, by simp [hset]⟩⟩
      · rw [hset, outcomes_append, outcomes_record, if_neg fun heq => hid heq.right, callbacks_append,
          callbacks_record hkeeps.callback, if_neg fun heq => hid heq.right, List.append_nil, List.append_nil]
        exact htracks.keep hkeeps (Ne.symm hid)
      · rw [outcomes_append, outcomes_record, if_neg fun heq => hid heq.right, List.append_nil, heq]
    case pos =>
      subst hid
      have hout : outcomes b id (os ++ (.recorded b id ok :: callback.toList.map (.called b))) =
          outcomes b id os ++ [ok] := by
        rw [outcomes_append, outcomes_record, if_pos ⟨rfl, rfl⟩]
      have hfailAfter := (h.nodes b).failAfter
      refine ⟨?_, by simp [hset], ?_⟩
      · rw [hset, hout, callbacks_append, callbacks_record hkeeps.callback, if_pos ⟨rfl, rfl⟩]
        exact htracks.record (by omega) (by omega) hr
      · cases ok
        case false =>
          refine ⟨n, k + 1, ?_, fun _ => ⟨hcrashed ▸ hcrashed_of hpinged, by simp [hset]⟩⟩
          rw [hout, heq, List.append_assoc, ← List.replicate_succ']
        case true =>
          have hk : k = 0 := by
            by_contra hk
            exact (hfailed (Nat.pos_of_ne_zero hk)).right hpinged
          refine ⟨n + 1, 0, ?_, nofun⟩
          rw [hout, heq, hk, List.replicate_zero, List.append_nil, List.append_nil, ← List.replicate_succ']

theorem step (h : Inv cluster failAfter s os) (hfail : ∀ b, failAfter b < 2 ^ 63)
    (hs : (machine cluster).step s a = some (s', o)) : Inv cluster failAfter s' (os ++ o) := by
  cases a
  case crash b =>
    simp only [machine] at hs
    split at hs
    case isFalse => contradiction
    case isTrue =>
      cases Option.some.inj hs
      obtain ⟨hmembership, hself, hown, hfailAfter, hpinged⟩ := h.nodes b
      refine h.set ⟨hmembership, hself, hown, hfailAfter, hpinged⟩ (fun _ => rfl) (fun _ _ _ => ⟨rfl, rfl⟩) ?_
      intro id hid hne
      refine (h.watches b id hid hne).same ?_ ?_ ?_ rfl rfl
      all_goals simp [State.set, Function.update_of_ne hne]
  case ping b id =>
    simp only [machine] at hs
    split at hs
    case isFalse => contradiction
    case isTrue hc =>
      cases Option.some.inj hs
      rw [List.append_nil]
      exact h.ping hc.right.right.left
  case record b =>
    simp only [machine] at hs
    split at hs
    case h_1 => contradiction
    case h_2 id ok hpinged =>
      split at hs
      case isTrue => contradiction
      case isFalse =>
        cases Option.some.inj hs
        exact h.record (hfail b) hpinged rfl

-- A peer whose pings have failed often enough is taken for dead.
theorem not_alive_of_count (h : Inv cluster failAfter s os) (hid : id ∈ cluster.ids) (hne : id ≠ b)
    (hcount : max 1 (failAfter b) ≤ (outcomes b id os).count false) : (s.nodes b).monitor.alive id = false := by
  obtain ⟨htracks, _, n, k, heq, _⟩ := h.watches b id hid hne
  rw [htracks.dead, (h.nodes b).failAfter]
  rw [heq] at hcount ⊢
  have hle : (max 1 (failAfter b)).toNat ≤ k := by
    simp [List.count_replicate] at hcount
    omega
  refine List.IsSuffix.trans ?_ (List.suffix_append _ _)
  exact ⟨List.replicate (k - (max 1 (failAfter b)).toNat) false, by rw [List.replicate_append_replicate]; congr; omega⟩

-- Only a crashed broker is taken for dead.
theorem alive_of_live (h : Inv cluster failAfter s os) (b : Int) (hid : s.Live cluster id) :
    (s.nodes b).monitor.alive id := by
  by_cases hne : id = b
  case pos => exact hne ▸ (h.nodes b).own
  case neg =>
    obtain ⟨htracks, _, n, k, heq, hfailed⟩ := h.watches b id hid.left hne
    by_contra hdead
    have hsuffix := htracks.dead.mp (by simpa using hdead)
    have hfailAfter := (h.nodes b).failAfter
    have hfalse : false ∈ outcomes b id os := hsuffix.subset (by simp; omega)
    rw [heq] at hfalse
    have hk : 0 < k := by
      simp at hfalse
      omega
    have := (hfailed hk).left
    simp [hid.right] at this

theorem elects (h : Inv cluster failAfter s os) (hids : ∀ id ∈ cluster.ids, 0 ≤ id) :
    Elects cluster failAfter s os := by
  have hhighest : ∀ b, IsHighest (s.nodes b).monitor.alive (-1) cluster.ids (s.nodes b).monitor.controllerID := fun b =>
    (h.nodes b).membership ▸ (s.nodes b).monitor.isHighest_controllerID
  refine ⟨fun b b' hb hb' hcontroller hcontroller' => ?_, fun b hb id hid hne => ?_, fun b hb id hid hne => ?_,
    fun hseen highest hlive hle b hb => ?_⟩
  · have hle  := (hhighest b).le b' hb'.left (h.alive_of_live b hb')
    have hle' := (hhighest b').le b hb.left (h.alive_of_live b' hb)
    omega
  · have hself := (h.nodes b).self
    rw [← (h.nodes b).failAfter, ← (h.watches b id hid hne).tracks.dead, LivenessMonitor.isAlive, hself]
    simp [hne]
  · have hannounced := (h.watches b id hid hne).tracks.announced
    exact ⟨hannounced.chain, hannounced.first⟩
  · -- The controller is alive, so it has not crashed, and no live broker is above it.
    have hle' := (hhighest b).le highest hlive.left (h.alive_of_live b hlive)
    have hpos := hids highest hlive.left
    cases (hhighest b).eq_or_mem
    case inl heq => omega
    case inr hmem =>
      have hcrashed : (s.nodes (s.nodes b).monitor.controllerID).crashed = false := by
        by_contra hcrashed
        have hne : (s.nodes b).monitor.controllerID ≠ b := fun heq => hcrashed (heq.symm ▸ hb.right)
        have hdead := h.not_alive_of_count hmem.left hne (hseen b hb _ hmem.left (by simpa using hcrashed))
        simp [hdead] at hmem
      have := hle _ ⟨hmem.left, hcrashed⟩
      omega

end Inv

theorem inductive_inv (cluster : Membership) {failAfter : Int → Int} (hfail : ∀ b, failAfter b < 2 ^ 63) :
    (machine cluster).Inductive (fun _ _ => True) (Inv cluster failAfter) where
  step h _ hs := h.step hfail hs

-- Brokers that only crash never have two controllers, and in the end they all have the same one.
theorem elects_of_crashes (hids : ∀ id ∈ cluster.ids, 0 ≤ id) (hfail : ∀ b, failAfter b < 2 ^ 63)
    (hr : (machine cluster).run (.init cluster failAfter) as = some (s, os)) : Elects cluster failAfter s os :=
  (inductive_inv cluster hfail).run_nil (.init cluster failAfter) (Machine.along_true _ _) hr |>.elects hids

theorem sorted_trio : [(0 : Int), 1, 2].Pairwise (· ≤ ·) := by
  decide

theorem isInt32_trio : ∀ id ∈ [(0 : Int), 1, 2], IsInt32 id := by
  decide

def sampleCluster : Membership where
  ids    := [0, 1, 2]
  sorted := sorted_trio
  int32  := isInt32_trio

-- Broker 2 crashes while its last answer is still on its way; broker 1 notices it first.
theorem elects_of_crashes_trio :
    let as : List Step := [.ping 1 2, .crash 2, .record 1, .ping 1 2, .record 1, .ping 0 2, .record 0, .ping 1 2,
      .record 1, .ping 0 2, .record 0]
    ∃ s os, (machine sampleCluster).run (.init sampleCluster fun _ => 2) as = some (s, os) ∧
      os = [.recorded 1 2 true, .recorded 1 2 false, .recorded 0 2 false, .recorded 1 2 false, .called 1 (.onDown 2),
        .recorded 0 2 false, .called 0 (.onDown 2)] ∧
      Elects sampleCluster (fun _ => 2) s os := by
  intro as
  have hrun : ((machine sampleCluster).run (.init sampleCluster fun _ => 2) as).map (·.snd) =
      some [.recorded 1 2 true, .recorded 1 2 false, .recorded 0 2 false, .recorded 1 2 false, .called 1 (.onDown 2),
        .recorded 0 2 false, .called 0 (.onDown 2)] := by decide +kernel
  obtain ⟨⟨s, os⟩, hs, heq⟩ := Option.map_eq_some_iff.mp hrun
  exact ⟨s, os, hs, heq, elects_of_crashes (by decide) (fun _ => by decide) hs⟩

end Cluster.Election
