import Gokaf.Group.Theorems.Members

open Go Protocol

namespace ConsumerGroup

variable {s s' : State} {a : Step} {as : List Step} {o os : List Output} {groupID memberID : Bytes} {delay now : Int}

def JoinCall.caller (call : JoinCall) : Bytes × Bytes :=
  (call.groupID, call.memberID)

def SyncCall.caller (call : SyncCall) : Bytes × Bytes :=
  (call.groupID, call.memberID)

namespace Coordinator

def awaitJoin (c : Coordinator) (x : Bytes × Bytes) : Option Nat :=
  (c.member? x).map (·.awaitJoin)

def awaitSync (c : Coordinator) (x : Bytes × Bytes) : Option Nat :=
  (c.member? x).map (·.awaitSync)

end Coordinator

namespace State

def joins (s : State) : Nat → Chan JoinResult JoinCall :=
  s.coordinator.runtime.joins

def syncs (s : State) : Nat → Chan SyncResult SyncCall :=
  s.coordinator.runtime.syncs

def readyJoin (s : State) (channel : Nat) : List JoinCall :=
  s.readyJoins.filter (·.channel = channel)

def readySync (s : State) (channel : Nat) : List SyncCall :=
  (s.readySyncs.filter (·.snd = channel)).map (·.fst)

-- Every call that waits for a channel without a result waits for the channel of its member.
structure NoOrphans (s : State) : Prop where
  joins : ∀ channel, (s.joins channel).buffer = none → ∀ call ∈ (s.joins channel).waiting (s.readyJoin channel),
    ∃ g m, s.coordinator.groups.lookup call.groupID = some g ∧ g.members.lookup call.memberID = some m ∧
      m.awaitJoin = channel
  syncs : ∀ channel, (s.syncs channel).buffer = none → ∀ call ∈ (s.syncs channel).waiting (s.readySync channel),
    ∃ g m, s.coordinator.groups.lookup call.groupID = some g ∧ g.members.lookup call.memberID = some m ∧
      m.awaitSync = channel

-- For every call that waits for a channel of the member there is a result in it.
def SettledMember (s : State) (x : Bytes × Bytes) : Prop :=
  ∀ m ∈ s.coordinator.member? x, (s.joins m.awaitJoin).Settled (s.readyJoin m.awaitJoin) ∧
    (s.syncs m.awaitSync).Settled (s.readySync m.awaitSync)

instance (s : State) : DecidablePred s.SettledMember :=
  fun x => inferInstanceAs (Decidable (∀ m ∈ s.coordinator.member? x, _ ∧ _))

end State

-- A member joins again, leaves or expires only when none of its calls is left waiting.
def Patient (s : State) : Step → Prop
  | .join req       => s.SettledMember (req.groupID, s.coordinator.memberIDFor req)
  | .leave req      => s.SettledMember (req.groupID, req.memberID)
  | .expireMember i => ∀ x ∈ s.expirations[i]?, s.SettledMember x
  | _               => True

instance (s : State) : DecidablePred (Patient s) := fun _ => by
  unfold Patient
  split <;> infer_instance

namespace State

-- The calls of both kinds, each with the members who made them.
structure Parked (s : State) (joinOwner syncOwner : Nat → Bytes × Bytes) : Prop where
  joins : Waits JoinCall.caller s.coordinator.awaitJoin s.coordinator.runtime.nextChannel s.joins s.readyJoin joinOwner
  syncs : Waits SyncCall.caller s.coordinator.awaitSync s.coordinator.runtime.nextChannel s.syncs s.readySync syncOwner

namespace Parked

variable {joinOwner syncOwner : Nat → Bytes × Bytes}

theorem noOrphans (h : s.Parked joinOwner syncOwner) : s.NoOrphans where
  joins channel hbuffer call hcall := by
    have ⟨m, hm, hawait⟩ := Option.map_eq_some_iff.mp (h.joins.await_eq hbuffer hcall)
    have ⟨g, hg, hm⟩ := Coordinator.member?_eq_some.mp hm
    exact ⟨g, m, hg, hm, hawait⟩
  syncs channel hbuffer call hcall := by
    have ⟨m, hm, hawait⟩ := Option.map_eq_some_iff.mp (h.syncs.await_eq hbuffer hcall)
    have ⟨g, hg, hm⟩ := Coordinator.member?_eq_some.mp hm
    exact ⟨g, m, hg, hm, hawait⟩

end Parked

theorem awaitJoin_of_like {c c' : Coordinator} (h : c.Like c') : c'.awaitJoin = c.awaitJoin := by
  funext x
  have hcard := congrArg (Option.map (·.fst)) (h x)
  rwa [Option.map_map, Option.map_map] at hcard

theorem awaitSync_of_like {c c' : Coordinator} (h : c.Like c') : c'.awaitSync = c.awaitSync := by
  funext x
  have hcard := congrArg (Option.map (·.snd.fst)) (h x)
  rwa [Option.map_map, Option.map_map] at hcard

theorem readyJoin_congr (h : s'.readyJoins = s.readyJoins) : s'.readyJoin = s.readyJoin := by
  funext channel
  simp only [readyJoin, h]

theorem readySync_congr (h : s'.readySyncs = s.readySyncs) : s'.readySync = s.readySync := by
  funext channel
  simp only [readySync, h]

theorem readyJoin_append {call : JoinCall} (h : s'.readyJoins = s.readyJoins ++ [call]) :
    s'.readyJoin = Function.update s.readyJoin call.channel (s.readyJoin call.channel ++ [call]) := by
  funext channel
  rw [readyJoin, h, List.filter_append, Function.update_apply]
  split
  case isTrue heq  => simp [heq, readyJoin]
  case isFalse hne => simp [Ne.symm hne, readyJoin]

theorem readySync_append {call : SyncCall} {channel : Nat} (h : s'.readySyncs = s.readySyncs ++ [(call, channel)]) :
    s'.readySync = Function.update s.readySync channel (s.readySync channel ++ [call]) := by
  funext channel'
  rw [readySync, h, List.filter_append, List.map_append, Function.update_apply]
  split
  case isTrue heq  => simp [heq, readySync]
  case isFalse hne => simp [Ne.symm hne, readySync]

namespace Parked

variable {joinOwner syncOwner : Nat → Bytes × Bytes}

-- Results come and are taken.
theorem serves (h : s.Parked joinOwner syncOwner) (hlike : s.coordinator.Like s'.coordinator)
    (hnext : s'.coordinator.runtime.nextChannel = s.coordinator.runtime.nextChannel)
    (hjoins : ∀ channel, (s.joins channel).Serves (s.readyJoin channel) (s'.joins channel) (s'.readyJoin channel))
    (hsyncs : ∀ channel, (s.syncs channel).Serves (s.readySync channel) (s'.syncs channel) (s'.readySync channel)) :
    s'.Parked joinOwner syncOwner where
  joins := awaitJoin_of_like hlike ▸ hnext ▸ h.joins.serves hjoins
  syncs := awaitSync_of_like hlike ▸ hnext ▸ h.syncs.serves hsyncs

theorem same (h : s.Parked joinOwner syncOwner) (hlike : s.coordinator.Like s'.coordinator)
    (hnext : s'.coordinator.runtime.nextChannel = s.coordinator.runtime.nextChannel) (hjoins : s'.joins = s.joins)
    (hsyncs : s'.syncs = s.syncs) (hreadyJoins : s'.readyJoins = s.readyJoins)
    (hreadySyncs : s'.readySyncs = s.readySyncs) : s'.Parked joinOwner syncOwner := by
  refine h.serves hlike hnext (fun channel => ?_) fun channel => ?_
  · rw [hjoins, readyJoin_congr hreadyJoins]
    exact .refl ..
  · rw [hsyncs, readySync_congr hreadySyncs]
    exact .refl ..

theorem rejoins {req : JoinRequest} {g' : Group} {call : JoinCall} (h : s.Parked joinOwner syncOwner)
    (hj : s.coordinator.Joins s.now req s'.coordinator memberID g')
    (hsettled : s.SettledMember (req.groupID, memberID)) (hcaller : call.caller = (req.groupID, memberID))
    (hchannel : call.channel = s.coordinator.runtime.nextChannel)
    (hreadyJoins : s'.readyJoins = s.readyJoins ++ [call]) (hreadySyncs : s'.readySyncs = s.readySyncs) :
    s'.Parked (Function.update joinOwner s.coordinator.runtime.nextChannel (req.groupID, memberID))
      (Function.update syncOwner s.coordinator.runtime.nextChannel (req.groupID, memberID)) := by
  have hmember := hj.member?_eq
  have hawaitJoin : s'.coordinator.awaitJoin = Function.update s.coordinator.awaitJoin (req.groupID, memberID)
      (some s.coordinator.runtime.nextChannel) := by
    funext x
    simp only [Coordinator.awaitJoin, hmember, Function.update_apply]
    split <;> rfl
  have hawaitSync : s'.coordinator.awaitSync = Function.update s.coordinator.awaitSync (req.groupID, memberID)
      (some s.coordinator.runtime.nextChannel) := by
    funext x
    simp only [Coordinator.awaitSync, hmember, Function.update_apply]
    split <;> rfl
  have hnext : s'.coordinator.runtime.nextChannel = s.coordinator.runtime.nextChannel + 1 := hj.runtime.nextChannel
  have hjoins : s'.joins = s.joins := hj.runtime.joins
  have hsyncs : s'.syncs = s.syncs := hj.runtime.syncs
  have hready := readyJoin_append hreadyJoins
  rw [hchannel] at hready
  constructor
  · have hnil := List.append_eq_nil_iff.mp (h.joins.fresh _ (Nat.le_refl _))
    rw [hnext, hjoins, hready]
    refine h.joins.take (fun channel hawait => ?_) hawaitJoin (fun _ hne => Function.update_of_ne hne ..) fun k hk => ?_
    · have ⟨m, hm, hchannel⟩ := Option.map_eq_some_iff.mp hawait
      exact hchannel ▸ (hsettled m hm).left
    · rw [Function.update_self, hnil.right, List.nil_append, List.mem_singleton] at hk
      exact hk ▸ hcaller
  · have hnil := List.append_eq_nil_iff.mp (h.syncs.fresh _ (Nat.le_refl _))
    rw [hnext, hsyncs, readySync_congr hreadySyncs]
    refine h.syncs.take (fun channel hawait => ?_) hawaitSync (fun _ _ => rfl) fun k hk => ?_
    · have ⟨m, hm, hchannel⟩ := Option.map_eq_some_iff.mp hawait
      exact hchannel ▸ (hsettled m hm).right
    · rw [hnil.right] at hk
      contradiction

theorem evicts {g g' : Group} (h : s.Parked joinOwner syncOwner)
    (he : s.coordinator.Evicts s.now groupID memberID g g' s'.coordinator)
    (hsettled : s.SettledMember (groupID, memberID))
    (hreadyJoins : s'.readyJoins = s.readyJoins) (hreadySyncs : s'.readySyncs = s.readySyncs) :
    s'.Parked joinOwner syncOwner := by
  have hmember := he.member?_eq
  have hawaitJoin : s'.coordinator.awaitJoin = Function.update s.coordinator.awaitJoin (groupID, memberID) none := by
    funext x
    simp only [Coordinator.awaitJoin, hmember, Function.update_apply]
    split <;> rfl
  have hawaitSync : s'.coordinator.awaitSync = Function.update s.coordinator.awaitSync (groupID, memberID) none := by
    funext x
    simp only [Coordinator.awaitSync, hmember, Function.update_apply]
    split <;> rfl
  have hnext : s'.coordinator.runtime.nextChannel = s.coordinator.runtime.nextChannel := he.runtime.nextChannel
  have hjoins : s'.joins = s.joins := he.runtime.joins
  have hsyncs : s'.syncs = s.syncs := he.runtime.syncs
  constructor
  · rw [hnext, hjoins, readyJoin_congr hreadyJoins]
    refine h.joins.leave (fun channel hawait => ?_) hawaitJoin
    have ⟨m, hm, hchannel⟩ := Option.map_eq_some_iff.mp hawait
    exact hchannel ▸ (hsettled m hm).left
  · rw [hnext, hsyncs, readySync_congr hreadySyncs]
    refine h.syncs.leave (fun channel hawait => ?_) hawaitSync
    have ⟨m, hm, hchannel⟩ := Option.map_eq_some_iff.mp hawait
    exact hchannel ▸ (hsettled m hm).right

-- A leader's results go to the channels of the other members.
theorem distributes {req : SyncRequest} {g g' : Group} {result : SyncResult} {delivered : List (SyncCall × SyncResult)}
    (h : s.Parked joinOwner syncOwner) (hleads : s.coordinator.Leads req g g' s'.coordinator result delivered)
    (hreadyJoins : s'.readyJoins = s.readyJoins) (hreadySyncs : s'.readySyncs = s.readySyncs) :
    s'.Parked joinOwner syncOwner := by
  have hjoins : s'.joins = s.joins := hleads.runtime.joins
  have hserves := hleads.induction (Q := fun _ _ => True)
    (P := fun syncs => ∀ channel, (s.syncs channel).Serves (s.readySync channel) (syncs channel) (s.readySync channel))
    (fun _ => .refl ..) fun syncs hP _ w _ => ⟨Chan.serves_update_send hP _ _, fun _ _ => trivial⟩
  refine h.serves (.leads hleads) hleads.runtime.nextChannel (fun channel => ?_) fun channel => ?_
  · rw [hjoins, readyJoin_congr hreadyJoins]
    exact .refl ..
  · rw [readySync_congr hreadySyncs]
    exact hserves.left channel

theorem completes {g g' : Group} {leaderMembers : List JoinMember} {delivered : List (JoinCall × JoinResult)}
    (h : s.Parked joinOwner syncOwner)
    (hcompletes : s.coordinator.Completes groupID g g' leaderMembers s'.coordinator delivered)
    (hreadyJoins : s'.readyJoins = s.readyJoins) (hreadySyncs : s'.readySyncs = s.readySyncs) :
    s'.Parked joinOwner syncOwner := by
  have hsyncs : s'.syncs = s.syncs := hcompletes.runtime.syncs
  have hserves := hcompletes.induction (Q := fun _ _ => True)
    (P := fun joins => ∀ channel, (s.joins channel).Serves (s.readyJoin channel) (joins channel) (s.readyJoin channel))
    (fun _ => .refl ..) fun joins hP _ m _ => ⟨Chan.serves_update_send hP _ _, fun _ _ => trivial⟩
  refine h.serves (.completes hcompletes) hcompletes.runtime.nextChannel (fun channel => ?_) fun channel => ?_
  · rw [readyJoin_congr hreadyJoins]
    exact hserves.left channel
  · rw [hsyncs, readySync_congr hreadySyncs]
    exact .refl ..

theorem receivesJoin {i : Nat} {call : JoinCall} (h : s.Parked joinOwner syncOwner)
    (hi : s.readyJoins[i]? = some call) :
    ({ s with readyJoins := s.readyJoins.eraseIdx i }.setJoin call.channel
      ((s.joins call.channel).receive call).fst).Parked joinOwner syncOwner := by
  have hperm := perm_cons_eraseIdx hi
  refine h.serves (fun _ => rfl) rfl (Chan.serves_update_receive ?_ fun channel hne => ?_) fun _ => .refl ..
  · exact (hperm.filter _).trans (.of_eq (List.filter_cons_of_pos (by simp)))
  · exact (hperm.filter _).trans (.of_eq (List.filter_cons_of_neg (by simpa using hne.symm)))

theorem receivesSync {i channel : Nat} {call : SyncCall} (h : s.Parked joinOwner syncOwner)
    (hi : s.readySyncs[i]? = some (call, channel)) :
    ({ s with readySyncs := s.readySyncs.eraseIdx i }.setSync channel
      ((s.syncs channel).receive call).fst).Parked joinOwner syncOwner := by
  have hperm := perm_cons_eraseIdx hi
  refine h.serves (fun _ => rfl) rfl (fun _ => .refl ..) (Chan.serves_update_receive ?_ fun channel' hne => ?_)
  · have hfilter := List.filter_cons_of_pos (p := fun k => decide (k.snd = channel)) (a := (call, channel))
      (l := s.readySyncs.eraseIdx i) (by simp)
    exact ((hperm.filter _).trans (.of_eq hfilter)).map _
  · have hfilter := List.filter_cons_of_neg (p := fun k => decide (k.snd = channel')) (a := (call, channel))
      (l := s.readySyncs.eraseIdx i) (by simpa using hne.symm)
    exact ((hperm.filter _).trans (.of_eq hfilter)).map _

theorem step (h : s.Parked joinOwner syncOwner) (hc : Patient s a) (hs : machine.step s a = some (s', o)) :
    ∃ joinOwner syncOwner, s'.Parked joinOwner syncOwner := by
  cases moves hs
  case quiet hsame _ =>
    exact ⟨_, _, h.same (.touched hsame.groups) hsame.nextChannel hsame.joins hsame.syncs hsame.readyJoins
      hsame.readySyncs⟩
  case joins hcall hj hready hsyncs _ =>
    subst hcall
    exact ⟨_, _, h.rejoins hj (hj.memberID_eq ▸ hc) rfl rfl hready hsyncs⟩
  case distributes hleads hreadyJoins hreadySyncs _ =>
    exact ⟨_, _, h.distributes hleads hreadyJoins hreadySyncs⟩
  case answers hsame =>
    exact ⟨_, _, h.same (.touched hsame.groups) hsame.nextChannel hsame.joins hsame.syncs hsame.readyJoins
      hsame.readySyncs⟩
  case waits hg hm _ ht hreadyJoins hreadySyncs _ =>
    have hlike := Coordinator.Like.touched ht.groups
    have hjoins : s'.joins = s.joins := ht.runtime.joins
    have hsyncs : s'.syncs = s.syncs := ht.runtime.syncs
    refine ⟨joinOwner, syncOwner, ⟨?_, ?_⟩⟩
    · rw [awaitJoin_of_like hlike, ht.runtime.nextChannel, hjoins, readyJoin_congr hreadyJoins]
      exact h.joins
    · rw [awaitSync_of_like hlike, ht.runtime.nextChannel, hsyncs]
      refine h.syncs.call ?_ (readySync_append hreadySyncs)
      rw [Coordinator.awaitSync, SyncCall.caller, Coordinator.member?_eq hg, hm]
      rfl
  case evicts ha he hreadyJoins hreadySyncs _ _ =>
    refine ⟨_, _, h.evicts he ?_ hreadyJoins hreadySyncs⟩
    cases a <;> simp only [evicted?, reduceCtorEq] at ha
    case leave req      => cases ha; exact hc
    case expireMember i => exact hc _ ha
  case completes hi hcompletes hreadyJoins hreadySyncs _ =>
    exact ⟨_, _, h.completes hcompletes hreadyJoins hreadySyncs⟩
  case receivesJoin hi => exact ⟨_, _, h.receivesJoin hi⟩
  case receivesSync hi => exact ⟨_, _, h.receivesSync hi⟩

theorem init (delay now : Int) : (State.init delay now).Parked (fun _ => ([], [])) fun _ => ([], []) := by
  refine ⟨⟨?_, ?_, ?_, ?_⟩, ⟨?_, ?_, ?_, ?_⟩⟩
  all_goals simp [State.init, Coordinator.new, Runtime.new, Coordinator.awaitJoin, Coordinator.awaitSync,
    Coordinator.member?, State.joins, State.syncs, readyJoin, readySync, Chan.waiting, Chan.make, Chan.Settled]

end Parked

theorem inductive_parked :
    machine.Inductive Patient fun s _ => ∃ joinOwner syncOwner, s.Parked joinOwner syncOwner where
  step h hc hs :=
    have ⟨_, _, h⟩ := h
    h.step hc hs

end State

-- The member joins again while its first call is parked.
def abandonedJoin : List Step := [sampleJoin [97], .receiveJoin 0, sampleJoin [97]]

theorem abandonedJoin_orphaned :
    ∃ s os, machine.run (.init 3000000000 0) abandonedJoin = some (s, os) ∧ ¬s.NoOrphans := by
  have hrun : (machine.run (.init 3000000000 0) abandonedJoin).map (fun r =>
      ((r.fst.joins 0).buffer, (r.fst.joins 0).receivers, r.fst.coordinator.awaitJoin (sampleGroup, [97]))) =
      some (none, [⟨0, sampleGroup, [97], 0⟩], some 1) := by decide +kernel
  have ⟨⟨s, os⟩, hs, heq⟩ := Option.map_eq_some_iff.mp hrun
  simp only [Prod.mk.injEq] at heq
  have ⟨hbuffer, hreceivers, hawait⟩ := heq
  refine ⟨s, os, hs, fun h => ?_⟩
  have ⟨g, m, hg, hm, hchannel⟩ := h.joins 0 hbuffer ⟨0, sampleGroup, [97], 0⟩ (by simp [Chan.waiting, hreceivers])
  rw [Coordinator.awaitJoin, Coordinator.member?_eq hg, hm, Option.map_some, hchannel] at hawait
  contradiction

-- In a run of patient members no call is orphaned.
theorem noOrphans_of_patient (hc : machine.Along Patient (.init delay now) as)
    (hr : machine.run (.init delay now) as = some (s, os)) : s.NoOrphans :=
  have ⟨_, _, h⟩ := State.inductive_parked.run_nil ⟨_, _, .init delay now⟩ hc hr
  h.noOrphans

-- The follower joins again after its `Sync` was answered, and the leader's `Join` is parked.
theorem noOrphans_of_patient_pair :
    let as : List Step := [
      sampleJoin [97], sampleJoin [98], .receiveJoin 0, .tick 3000000000, .fireJoinTimer 0, .completeJoin 0,
      .receiveJoin 0, sampleSync 1 [98] [], .receiveSync 0, sampleSync 1 [97] [], sampleJoin [98], sampleJoin [97],
      .receiveJoin 1
    ]
    ∃ s os, machine.run (.init 3000000000 0) as = some (s, os) ∧
      (s.joins 3).receivers = [⟨3, sampleGroup, [97], 1⟩] ∧ s.NoOrphans := by
  intro as
  have hc : machine.Along Patient (.init 3000000000 0) as := by decide +kernel
  have hrun : (machine.run (.init 3000000000 0) as).map (fun r => (r.fst.joins 3).receivers) =
      some [⟨3, sampleGroup, [97], 1⟩] := by decide +kernel
  have ⟨⟨s, os⟩, hs, hreceivers⟩ := Option.map_eq_some_iff.mp hrun
  exact ⟨s, os, hs, hreceivers, noOrphans_of_patient hc hs⟩

end ConsumerGroup
