import Gokaf.Group.Execution
import Gokaf.Group.Theorems.Coordinator

open Go Protocol

namespace ConsumerGroup

variable {s s' : State} {a : Step} {o : List Output}

-- An answer that says nothing about assignments or generations.
def Output.IsQuiet : Output → Prop
  | .joining .. | .joined .. | .distributed .. => False
  | .synced _ result => result.errorCode ≠ .none
  | .heartbeat .. | .left .. | .panicked => True

-- Nothing happens but to timers and their callbacks.
structure State.Same (s s' : State) : Prop where
  groups        : s.coordinator.groups.Rel (fun _ => Group.Touched) s'.coordinator.groups
  joins         : s'.coordinator.runtime.joins = s.coordinator.runtime.joins
  syncs         : s'.coordinator.runtime.syncs = s.coordinator.runtime.syncs
  nextChannel   : s'.coordinator.runtime.nextChannel = s.coordinator.runtime.nextChannel
  nextMemberSeq : s'.coordinator.nextMemberSeq = s.coordinator.nextMemberSeq
  readyJoins    : s'.readyJoins = s.readyJoins
  readySyncs    : s'.readySyncs = s.readySyncs
  rounds        : s'.rounds = s.rounds

theorem State.Same.touched (h : s.coordinator.Touched s'.coordinator) (hj : s'.readyJoins = s.readyJoins)
    (hs : s'.readySyncs = s.readySyncs) (hr : s'.rounds = s.rounds) : s.Same s' :=
  ⟨h.groups, h.runtime.joins, h.runtime.syncs, h.runtime.nextChannel, h.nextMemberSeq, hj, hs, hr⟩

theorem State.Same.of_eq (hg : s'.coordinator.groups = s.coordinator.groups)
    (hj : s'.coordinator.runtime.joins = s.coordinator.runtime.joins)
    (hs : s'.coordinator.runtime.syncs = s.coordinator.runtime.syncs)
    (hn : s'.coordinator.runtime.nextChannel = s.coordinator.runtime.nextChannel)
    (hseq : s'.coordinator.nextMemberSeq = s.coordinator.nextMemberSeq) (hrj : s'.readyJoins = s.readyJoins)
    (hrs : s'.readySyncs = s.readySyncs) (hr : s'.rounds = s.rounds) : s.Same s' :=
  ⟨hg ▸ .refl (fun _ => Group.Touched.refl) _, hj, hs, hn, hseq, hrj, hrs, hr⟩

-- The member that a step removes, if it is there.
def State.evicted? (s : State) : Step → Option (Bytes × Bytes)
  | .leave req      => some (req.groupID, req.memberID)
  | .expireMember i => s.expirations[i]?
  | _               => none

-- What a step does to the groups, the channels and the calls in flight.
inductive Moves (s : State) : Step → State → List Output → Prop
  | quiet {a : Step} {s' : State} {o : List Output} : s.Same s' → (∀ x ∈ o, x.IsQuiet) → Moves s a s' o
  | joins {s' : State} {req : JoinRequest} {memberID : Bytes} {g' : Group} {call : JoinCall} :
    s.coordinator.Joins s.now req s'.coordinator memberID g' →
    call = ⟨s.coordinator.runtime.nextChannel, req.groupID, memberID, (s.rounds req.groupID).epoch⟩ →
    s'.readyJoins = s.readyJoins ++ [call] → s'.readySyncs = s.readySyncs → s'.rounds = s.rounds →
    Moves s (.join req) s' [.joining call (firstProtocolMetadata req.protocols)]
  | distributes {s' : State} {req : SyncRequest} {g g' : Group} {result : SyncResult}
      {delivered : List (SyncCall × SyncResult)} :
    s.coordinator.Leads req g g' s'.coordinator result delivered →
    s'.readyJoins = s.readyJoins → s'.readySyncs = s.readySyncs →
    s'.rounds = Function.update s.rounds req.groupID { s.rounds req.groupID with
      distributed := (s.rounds req.groupID).distributed.or (some req.assignments) } →
    Moves s (.sync req) s' (.distributed req.groupID (s.rounds req.groupID).epoch req.assignments ::
      .synced ⟨req.groupID, req.memberID, (s.rounds req.groupID).epoch⟩ result ::
      delivered.map fun (call, result) => .synced call result)
  | answers {s' : State} {req : SyncRequest} {g : Group} {m : Member} :
    s.Same s' → s.coordinator.groups.lookup req.groupID = some g → g.members.lookup req.memberID = some m →
    g.state = .stable →
    Moves s (.sync req) s' [.synced ⟨req.groupID, req.memberID, (s.rounds req.groupID).epoch⟩
      { assignment := m.assignment, errorCode := .none }]
  | waits {s' : State} {req : SyncRequest} {g : Group} {m : Member} :
    s.coordinator.Touched s'.coordinator → s.coordinator.groups.lookup req.groupID = some g →
    g.members.lookup req.memberID = some m → req.generationID = g.generationID → s'.readyJoins = s.readyJoins →
    s'.readySyncs = s.readySyncs ++
      [(⟨req.groupID, req.memberID, (s.rounds req.groupID).epoch⟩, m.awaitSync)] →
    s'.rounds = s.rounds → Moves s (.sync req) s' []
  | evicts {a : Step} {s' : State} {groupID memberID : Bytes} {g g' : Group} {o : List Output} :
    s.evicted? a = some (groupID, memberID) → s.coordinator.Evicts s.now groupID memberID g g' s'.coordinator →
    s'.readyJoins = s.readyJoins → s'.readySyncs = s.readySyncs → s'.rounds = s.rounds →
    (∀ x ∈ o, x.IsQuiet) → Moves s a s' o
  | completes {i : Nat} {s' : State} {groupID : Bytes} {g g' : Group} {leaderMembers : List JoinMember}
      {delivered : List (JoinCall × JoinResult)} :
    s.completeJoins[i]? = some groupID →
    s.coordinator.Completes groupID g g' leaderMembers s'.coordinator delivered →
    s'.readyJoins = s.readyJoins → s'.readySyncs = s.readySyncs →
    s'.rounds = Function.update s.rounds groupID ⟨(s.rounds groupID).epoch + 1, none⟩ →
    Moves s (.completeJoin i) s' (delivered.map fun (call, result) => .joined call result)
  | receivesJoin {i : Nat} {call : JoinCall} : s.readyJoins[i]? = some call →
    Moves s (.receiveJoin i)
      ({ s with readyJoins := s.readyJoins.eraseIdx i }.setJoin call.channel
        ((s.coordinator.runtime.joins call.channel).receive call).fst)
      (((s.coordinator.runtime.joins call.channel).receive call).snd.toList.map (.joined call))
  | receivesSync {i channel : Nat} {call : SyncCall} : s.readySyncs[i]? = some (call, channel) →
    Moves s (.receiveSync i)
      ({ s with readySyncs := s.readySyncs.eraseIdx i }.setSync channel
        ((s.coordinator.runtime.syncs channel).receive call).fst)
      (((s.coordinator.runtime.syncs channel).receive call).snd.toList.map (.synced call))

-- The generation id of a group changes even where it wraps around.
theorem State.nextRound_completes {c' : Coordinator} {groupID : Bytes} {g g' : Group} {leaderMembers : List JoinMember}
    {delivered : List (JoinCall × JoinResult)} (h : s.coordinator.Completes groupID g g' leaderMembers c' delivered) :
    s.nextRound c' groupID = ⟨(s.rounds groupID).epoch + 1, none⟩ := by
  have hne : int32 (g.generationID + 1) ≠ g.generationID := Coordinator.int32_succ_ne _
  simp [State.nextRound, Coordinator.generationID?, h.groups, h.lookup, h.generationID, hne]

theorem moves (hs : machine.step s a = some (s', o)) : Moves s a s' o := by
  cases a
  case join req =>
    obtain ⟨g', hjoins, hchannel⟩ := s.coordinator.joins s.now req
    simp only [machine, hchannel] at hs
    generalize s.coordinator.join s.now req = r at hjoins hs
    cases Option.some.inj hs
    exact .joins hjoins rfl rfl rfl rfl
  case sync req =>
    have hsyncs := s.coordinator.syncs s.now req
    simp only [machine] at hs
    generalize s.coordinator.sync s.now req = r at hsyncs hs
    obtain ⟨c', synced⟩ := r
    cases hsyncs
    all_goals cases Option.some.inj hs
    case refused hcode =>
      exact .quiet (.of_eq rfl rfl rfl rfl rfl rfl rfl rfl) (by simpa [Output.IsQuiet] using hcode)
    case leader hleads => exact .distributes hleads rfl rfl rfl
    case stable hg hm hgen hstate ht => exact .answers (.touched ht rfl rfl rfl) hg hm hstate
    case waits hg hm hgen ht => exact .waits ht hg hm hgen rfl rfl rfl
  case heartbeat req =>
    cases Option.some.inj hs
    exact .quiet (.touched (s.coordinator.touched_heartbeat s.now req) rfl rfl rfl) (by simp [Output.IsQuiet])
  case leave req =>
    have hquiet : ∀ errorCode, ∀ x ∈ [Output.left req errorCode], x.IsQuiet := by simp [Output.IsQuiet]
    simp only [machine, Coordinator.leave] at hs
    cases hevict : s.coordinator.evict s.now req.groupID req.memberID
    all_goals
      rw [hevict] at hs
      cases Option.some.inj hs
    case none => exact .quiet (.of_eq rfl rfl rfl rfl rfl rfl rfl rfl) (hquiet _)
    case some c' =>
      obtain ⟨g, g', hevicts⟩ := Coordinator.evicts hevict
      exact .evicts rfl hevicts rfl rfl rfl (hquiet _)
  case receiveJoin i =>
    obtain ⟨call, hcall, heq⟩ := Option.map_eq_some_iff.mp hs
    cases heq
    exact .receivesJoin hcall
  case receiveSync i =>
    obtain ⟨⟨call, channel⟩, hcall, heq⟩ := Option.map_eq_some_iff.mp hs
    cases heq
    exact .receivesSync hcall
  case tick d =>
    cases Option.some.inj hs
    exact .quiet (.of_eq rfl rfl rfl rfl rfl rfl rfl rfl) (by simp)
  case fireJoinTimer | fireSessionTimer =>
    obtain ⟨_, _, heq⟩ := Option.map_eq_some_iff.mp hs
    cases heq
    exact .quiet (.of_eq rfl rfl rfl rfl rfl rfl rfl rfl) (by simp)
  case completeJoin i =>
    obtain ⟨groupID, hi, heq⟩ := Option.map_eq_some_iff.mp hs
    dsimp only at heq
    split at heq
    case h_1 =>
      cases heq
      exact .quiet (.of_eq rfl rfl rfl rfl rfl rfl rfl rfl) (by simp [Output.IsQuiet])
    case h_2 c' delivered hcomplete =>
      cases heq
      obtain ⟨rfl, rfl, _⟩ | ⟨g, g', leaderMembers, hcompletes⟩ := Coordinator.completes hcomplete
      · refine .quiet (.of_eq rfl rfl rfl rfl rfl rfl rfl ?_) (by simp)
        exact Function.update_eq_self_iff.mpr (if_pos rfl)
      · exact .completes hi hcompletes rfl rfl (by rw [← State.nextRound_completes hcompletes]; rfl)
  case expireMember i =>
    obtain ⟨⟨groupID, memberID⟩, hi, heq⟩ := Option.map_eq_some_iff.mp hs
    cases heq
    obtain ht | ⟨g, g', hevicts⟩ := s.coordinator.touched_or_evicts s.now groupID memberID
    · exact .quiet (.touched ht rfl rfl rfl) (by simp)
    · exact .evicts hi hevicts rfl rfl rfl (by simp)

def sampleGroup : Bytes := [103]

def sampleJoin (memberID : Bytes) : Step :=
  .join ⟨sampleGroup, [], 60000, memberID, []⟩

def sampleSync (generationID : Int) (memberID : Bytes) (assignments : List (Bytes × Bytes)) : Step :=
  .sync ⟨sampleGroup, generationID, memberID, (assignments.map fun (id, a) => ⟨id, a⟩).toAList⟩

end ConsumerGroup
