import Gokaf.Group.Theorems.Moves

open Go Protocol

namespace ConsumerGroup

variable {s s' : State} {a : Step} {as : List Step} {o os : List Output} {groupID : Bytes} {delay now : Int}

def Coordinator.generationID (c : Coordinator) (groupID : Bytes) : Int :=
  (c.generationID? groupID).getD 0

def Coordinator.hasMembers (c : Coordinator) (groupID : Bytes) : Bool :=
  (c.groups.lookup groupID).any (·.members.entries ≠ [])

-- The step is about the group.
def State.concerns (s : State) (groupID : Bytes) : Step → Prop
  | .join req       => req.groupID = groupID
  | .sync req       => req.groupID = groupID ∧
      ∃ g ∈ s.coordinator.groups.lookup groupID, req.memberID = g.leaderID
  | .leave req      => req.groupID = groupID
  | .completeJoin i => s.completeJoins[i]? = some groupID
  | .expireMember i => ∃ memberID, s.expirations[i]? = some (groupID, memberID)
  | _               => False

-- The changes of state that a step of a kind may cause.
inductive Documented : Step → GroupState → GroupState → Prop
  | joinsEmpty {req : JoinRequest} : Documented (.join req) .empty .preparingRebalance
  | joins {req : JoinRequest} {state : GroupState} :
    state = .completingRebalance ∨ state = .stable → Documented (.join req) state .preparingRebalance
  | leaves {req : LeaveRequest} {state : GroupState} :
    state = .completingRebalance ∨ state = .stable → Documented (.leave req) state .preparingRebalance
  | expires {i : Nat} {state : GroupState} :
    state = .completingRebalance ∨ state = .stable → Documented (.expireMember i) state .preparingRebalance
  | completes {i : Nat} : Documented (.completeJoin i) .preparingRebalance .completingRebalance
  | syncs {req : SyncRequest} : Documented (.sync req) .completingRebalance .stable
  | leavesLast {req : LeaveRequest} {state : GroupState} : Documented (.leave req) state .empty
  | expiresLast {i : Nat} {state : GroupState} : Documented (.expireMember i) state .empty

-- Whatever the step changes about a group is documented.
structure Transits (s : State) (a : Step) (s' : State) (groupID : Bytes) : Prop where
  state      : s'.coordinator.state groupID ≠ s.coordinator.state groupID → s.concerns groupID a ∧
    Documented a (s.coordinator.state groupID) (s'.coordinator.state groupID)
  last       : s'.coordinator.state groupID ≠ s.coordinator.state groupID →
    s'.coordinator.state groupID = .empty → ¬s'.coordinator.hasMembers groupID
  generation : s'.coordinator.generationID groupID ≠ s.coordinator.generationID groupID →
    s.coordinator.state groupID = .preparingRebalance ∧ s'.coordinator.state groupID = .completingRebalance ∧
      s'.coordinator.generationID groupID = int32 (s.coordinator.generationID groupID + 1)

-- The leader's `Sync` comes while its generation is being completed or stable, and the callback of a
-- join timer runs while the group is being prepared.
def InTime (s : State) : Step → Prop
  | .sync req => ∀ g ∈ s.coordinator.groups.lookup req.groupID, req.memberID ∈ g.members →
      req.generationID = g.generationID → req.memberID = g.leaderID →
      g.state = .completingRebalance ∨ g.state = .stable
  | .completeJoin i => ∀ groupID ∈ s.completeJoins[i]?, ∀ g ∈ s.coordinator.groups.lookup groupID,
      g.joinOrder ≠ [] → g.state = .preparingRebalance
  | _ => True

instance (s : State) : DecidablePred (InTime s) := fun _ => by
  unfold InTime
  split <;> infer_instance

namespace Coordinator

variable {c c' : Coordinator} {g g' : Group} {id : Bytes}

theorem state_eq (hg : c.groups.lookup groupID = some g) : c.state groupID = g.state := by
  simp [state, hg]

theorem generationID_eq (hg : c.groups.lookup groupID = some g) : c.generationID groupID = g.generationID := by
  simp [generationID, generationID?, hg]

theorem lookup_insert_self (h : c'.groups = c.groups.insert groupID g') : c'.groups.lookup groupID = some g' := by
  rw [h]
  exact AList.lookup_insert _

theorem state_of_ne (h : c'.groups = c.groups.insert groupID g') (hid : id ≠ groupID) : c'.state id = c.state id := by
  simp only [state, h, AList.lookup_insert_ne hid]

theorem generationID_of_ne (h : c'.groups = c.groups.insert groupID g') (hid : id ≠ groupID) :
    c'.generationID id = c.generationID id := by
  simp only [generationID, generationID?, h, AList.lookup_insert_ne hid]

theorem state_of_touched (h : c.groups.Rel (fun _ => Group.Touched) c'.groups) (id : Bytes) :
    c'.state id = c.state id := by
  have hstate : ∀ c : Coordinator, c.state id = ((c.groups.lookup id).map (·.state)).getD .empty := by
    intro c
    unfold state
    cases c.groups.lookup id <;> rfl
  rw [hstate, hstate, h.map_lookup fun _ _ _ htouched => by rw [htouched.eq]]

theorem generationID_of_touched (h : c.groups.Rel (fun _ => Group.Touched) c'.groups) (id : Bytes) :
    c'.generationID id = c.generationID id := by
  rw [generationID, generationID?, h.map_lookup fun _ _ _ htouched => by rw [htouched.eq]]
  rfl

theorem generationID_of_insert (h : c'.groups = c.groups.insert groupID g')
    (hgen : g'.generationID = c.generationID groupID) (id : Bytes) : c'.generationID id = c.generationID id := by
  by_cases hid : id = groupID
  case pos => rw [hid, generationID_eq (lookup_insert_self h), hgen]
  case neg => exact generationID_of_ne h hid

theorem Joins.generationID_eq {req : JoinRequest} {memberID : Bytes} (h : Joins c now req c' memberID g') :
    g'.generationID = c.generationID req.groupID := by
  rw [h.group]
  simp only [joinedGroup, getOrCreateGroup, generationID, generationID?]
  cases c.groups.lookup req.groupID <;> rfl

end Coordinator

namespace Transits

theorem unchanged (hstate : s'.coordinator.state groupID = s.coordinator.state groupID)
    (hgen : s'.coordinator.generationID groupID = s.coordinator.generationID groupID) : Transits s a s' groupID where
  state hne      := absurd hstate hne
  last hne       := absurd hstate hne
  generation hne := absurd hgen hne

theorem touched (h : s.coordinator.groups.Rel (fun _ => Group.Touched) s'.coordinator.groups) (groupID : Bytes) :
    Transits s a s' groupID :=
  unchanged (Coordinator.state_of_touched h groupID) (Coordinator.generationID_of_touched h groupID)

-- One group changes.
theorem setGroup {g' : Group} (hgroups : s'.coordinator.groups = s.coordinator.groups.insert groupID g')
    (h : Transits s a s' groupID) (id : Bytes) : Transits s a s' id := by
  by_cases hid : id = groupID
  case pos => exact hid ▸ h
  case neg => exact unchanged (Coordinator.state_of_ne hgroups hid) (Coordinator.generationID_of_ne hgroups hid)

theorem joins {req : JoinRequest} {memberID : Bytes} {g' : Group}
    (hj : s.coordinator.Joins s.now req s'.coordinator memberID g') (id : Bytes) : Transits s (.join req) s' id := by
  have hg' := Coordinator.lookup_insert_self hj.groups
  have hstate' := (Coordinator.state_eq hg').trans hj.state
  refine setGroup (a := .join req) hj.groups ⟨fun hne => ⟨rfl, ?_⟩, fun _ hempty => ?_, fun hne => absurd ?_ hne⟩ id
  · rw [hstate'] at hne ⊢
    cases h : s.coordinator.state req.groupID
    case empty => exact .joinsEmpty
    case preparingRebalance => exact absurd h.symm hne
    case completingRebalance => exact .joins (.inl rfl)
    case stable => exact .joins (.inr rfl)
  · rw [hstate'] at hempty
    contradiction
  · rw [Coordinator.generationID_eq hg', hj.generationID_eq]

theorem distributes {req : SyncRequest} {g g' : Group} {result : SyncResult} {delivered : List (SyncCall × SyncResult)}
    (h : s.coordinator.Leads req g g' s'.coordinator result delivered) (hc : InTime s (.sync req))
    (id : Bytes) : Transits s (.sync req) s' id := by
  have hg' := Coordinator.lookup_insert_self h.groups
  have hstate' : g'.state = .stable := by rw [h.eq]
  refine setGroup (a := .sync req) h.groups
    ⟨fun hne => ⟨⟨rfl, g, h.lookup, h.leader⟩, ?_⟩, fun _ hempty => ?_, fun hne => absurd ?_ hne⟩ id
  · rw [Coordinator.state_eq hg', Coordinator.state_eq h.lookup, hstate'] at hne ⊢
    cases hc g h.lookup h.member h.generation h.leader
    case inl hstate =>
      rw [hstate]
      exact .syncs
    case inr hstate => exact absurd hstate.symm hne
  · rw [Coordinator.state_eq hg', hstate'] at hempty
    contradiction
  · rw [Coordinator.generationID_eq hg', Coordinator.generationID_eq h.lookup, h.eq]

theorem evicts {memberID : Bytes} {g g' : Group} (ha : s.evicted? a = some (groupID, memberID))
    (he : s.coordinator.Evicts s.now groupID memberID g g' s'.coordinator) (id : Bytes) : Transits s a s' id := by
  have hg' := Coordinator.lookup_insert_self he.groups
  have hconcerns : s.concerns groupID a := by
    cases a <;> simp only [State.evicted?, reduceCtorEq, Option.some.injEq, Prod.mk.injEq] at ha
    case leave        => exact ha.left
    case expireMember => exact ⟨memberID, ha⟩
  refine setGroup he.groups ⟨fun hne => ⟨hconcerns, ?_⟩, fun hne hempty => ?_, fun hne => absurd ?_ hne⟩ id
  · rw [Coordinator.state_eq hg', Coordinator.state_eq he.lookup] at hne ⊢
    cases he.goesOn
    case last hstate _ _ _ =>
      rw [hstate]
      cases a <;> simp only [State.evicted?, reduceCtorEq] at ha
      case leave        => exact .leavesLast
      case expireMember => exact .expiresLast
    case preparing hsame _ _ _ _ => exact absurd hsame hne
    case rebalances hstate hstate' _ =>
      rw [hstate]
      cases a <;> simp only [State.evicted?, reduceCtorEq] at ha
      case leave        => exact .leaves hstate'.symm
      case expireMember => exact .expires hstate'.symm
  · rw [Coordinator.state_eq hg', Coordinator.state_eq he.lookup] at hne
    rw [Coordinator.state_eq hg'] at hempty
    cases he.goesOn
    case last hnil _ _ _ _       => simp [Coordinator.hasMembers, hg', hnil]
    case preparing hsame _ _ _ _ => exact absurd hsame hne
    case rebalances hstate _ _   => cases hstate.symm.trans hempty
  · rw [Coordinator.generationID_eq hg', Coordinator.generationID_eq he.lookup, he.generationID]

theorem completes {i : Nat} {g g' : Group} {leaderMembers : List JoinMember} {delivered : List (JoinCall × JoinResult)}
    (hi : s.completeJoins[i]? = some groupID)
    (h : s.coordinator.Completes groupID g g' leaderMembers s'.coordinator delivered) (hc : InTime s (.completeJoin i))
    (id : Bytes) : Transits s (.completeJoin i) s' id := by
  obtain ⟨_, _, horder, _, _⟩ := h.leader
  have hg' := Coordinator.lookup_insert_self h.groups
  have hstate := (Coordinator.state_eq h.lookup).trans (hc groupID hi g h.lookup (by simp [horder]))
  have hstate' := (Coordinator.state_eq hg').trans h.state
  refine setGroup (a := .completeJoin i) h.groups ⟨fun _ => ⟨hi, ?_⟩, fun _ hempty => ?_, fun _ => ?_⟩ id
  · rw [hstate, hstate']
    exact .completes
  · rw [hstate'] at hempty
    contradiction
  · rw [Coordinator.generationID_eq hg', Coordinator.generationID_eq h.lookup]
    exact ⟨hstate, hstate', h.generationID⟩

end Transits

theorem transits (hc : InTime s a) (hs : machine.step s a = some (s', o)) (id : Bytes) : Transits s a s' id := by
  cases moves hs
  case quiet hsame _ => exact .touched hsame.groups id
  case joins hj _ _ _ => exact .joins hj id
  case distributes hleads _ _ _ => exact .distributes hleads hc id
  case answers hsame => exact .touched hsame.groups id
  case waits ht _ _ _ => exact .touched ht.groups id
  case evicts ha he _ _ _ _ => exact .evicts ha he id
  case completes hi hcompletes _ _ _ => exact .completes hi hcompletes hc id
  case receivesJoin => exact .unchanged rfl rfl
  case receivesSync => exact .unchanged rfl rfl

-- The leader of the first generation syncs while the second one is being prepared.
def lateSync : List Step := [
  sampleJoin [97], .tick 3000000000, .fireJoinTimer 0, .completeJoin 0, sampleJoin [98]
]

theorem lateSync_not_documented :
    ∃ s os s' o, machine.run (.init 3000000000 0) lateSync = some (s, os) ∧
      machine.step s (sampleSync 1 [97] []) = some (s', o) ∧
      ¬Transits s (sampleSync 1 [97] []) s' sampleGroup := by
  have hrun : (machine.run (.init 3000000000 0) lateSync).map (fun r =>
      (r.fst.coordinator.state sampleGroup, (machine.step r.fst (sampleSync 1 [97] [])).map
        (·.fst.coordinator.state sampleGroup))) = some (.preparingRebalance, some .stable) := by decide +kernel
  have ⟨⟨s, os⟩, hr, heq⟩ := Option.map_eq_some_iff.mp hrun
  have ⟨hbefore, hstep⟩ := Prod.mk.injEq .. ▸ heq
  have ⟨⟨s', o⟩, hs, hafter⟩ := Option.map_eq_some_iff.mp hstep
  refine ⟨s, os, s', o, hr, hs, fun h => ?_⟩
  dsimp only at hbefore hafter
  have hdocumented := (h.state (by rw [hbefore, hafter]; decide)).right
  rw [hbefore, hafter] at hdocumented
  nomatch hdocumented

-- In a run that is on time every change of a group is a documented one.
theorem transitions_documented (hc : machine.Along InTime (.init delay now) as) :
    machine.Along (fun s a => ∀ s' o, machine.step s a = some (s', o) → ∀ id, Transits s a s' id)
      (.init delay now) as :=
  hc.mono fun _ _ ha _ _ hs id => transits ha hs id

-- A group goes through two generations and becomes empty.
theorem transitions_documented_rejoin :
    let as : List Step := [
      sampleJoin [97], .tick 3000000000, .fireJoinTimer 0, .completeJoin 0, sampleSync 1 [97] [],
      sampleJoin [98], .tick 3000000000, .fireJoinTimer 1, .completeJoin 0, sampleSync 2 [97] [],
      .leave ⟨sampleGroup, [98]⟩, .leave ⟨sampleGroup, [97]⟩
    ]
    (machine.run (.init 3000000000 0) as).map (fun r =>
      (r.fst.coordinator.state sampleGroup, r.fst.coordinator.generationID sampleGroup)) = some (.empty, 2) ∧
    machine.Along (fun s a => ∀ s' o, machine.step s a = some (s', o) → ∀ id, Transits s a s' id)
      (.init 3000000000 0) as :=
  ⟨by decide +kernel, transitions_documented (by decide +kernel)⟩

end ConsumerGroup
