import Gokaf.Group.Theorems.Clients
import Gokaf.Group.Theorems.Rosters

open Go Protocol
open Assignor (PartitionCounts)

namespace ConsumerGroup

variable {s s' : State} {a : Step} {o os : List Output} {groupID memberID : Bytes} {delay now : Int}
  {counts : Bytes → PartitionCounts} {fresh : Prop} {label label' : Nat → JoinCall} {rosters rosters' : Rosters}

-- The assignments that the leader of a generation computes.
def Rosters.plan (rosters : Rosters) (counts : Bytes → PartitionCounts) (groupID : Bytes) (epoch : Nat) :
    Option Assignments :=
  Clients.buildAssignments (rosters groupID epoch).members (rosters groupID epoch).protocol (counts groupID)

-- The leader of the generation has its answer.
def Rosters.Led (rosters : Rosters) (os : List Output) (groupID : Bytes) (epoch : Nat) : Prop :=
  ∃ x ∈ joinAnswers os, x.fst.groupID = groupID ∧ x.fst.since + 1 = epoch ∧
    x.fst.memberID = (rosters groupID epoch).leaderID

theorem Rosters.Led.mono {epoch : Nat} (h : rosters.Led os groupID epoch) (o : List Output) :
    rosters.Led (os ++ o) groupID epoch := by
  obtain ⟨x, hx, hled⟩ := h
  exact ⟨x, by rw [joinAnswers_append]; exact List.mem_append_left _ hx, hled⟩

-- The result is what a leader of the generation gave to the member.
def Share (os : List Output) (groupID memberID : Bytes) (epoch : Nat) (result : SyncResult) : Prop :=
  ∃ assignments, .distributed groupID epoch assignments ∈ os ∧ result.assignment = given assignments memberID

theorem Share.mono {epoch : Nat} {result : SyncResult} (h : Share os groupID memberID epoch result) (o : List Output) :
    Share (os ++ o) groupID memberID epoch result := by
  obtain ⟨assignments, hmem, heq⟩ := h
  exact ⟨assignments, List.mem_append_left o hmem, heq⟩

-- The channel of a `Join` call holds a share of its member. It is one of a later generation if shares are `fresh`.
def Holds (os : List Output) (fresh : Prop) (k : JoinCall) (result : SyncResult) : Prop :=
  ∃ epoch, Share os k.groupID k.memberID epoch result ∧ (fresh → k.since < epoch)

structure Asks (fresh : Prop) (k : JoinCall) (call : SyncCall) : Prop where
  caller : call.caller = k.caller
  epoch  : fresh → call.epoch ≤ k.since + 1

-- The answer is a share of the member that asked, and not one of an earlier generation if shares are `fresh`.
def Answers (os : List Output) (fresh : Prop) (call : SyncCall) (result : SyncResult) : Prop :=
  ∃ epoch, Share os call.groupID call.memberID epoch result ∧ (fresh → call.epoch ≤ epoch)

theorem Holds.mono {k : JoinCall} {result : SyncResult} (h : Holds os fresh k result) (o : List Output) :
    Holds (os ++ o) fresh k result := by
  obtain ⟨epoch, hshare, hlt⟩ := h
  exact ⟨epoch, hshare.mono o, hlt⟩

theorem Answers.mono {call : SyncCall} {result : SyncResult} (h : Answers os fresh call result) (o : List Output) :
    Answers (os ++ o) fresh call result := by
  obtain ⟨epoch, hshare, hle⟩ := h
  exact ⟨epoch, hshare.mono o, hle⟩

theorem Holds.answers {k : JoinCall} {call : SyncCall} {result : SyncResult} (h : Holds os fresh k result)
    (hasks : Asks fresh k call) : Answers os fresh call result := by
  obtain ⟨epoch, hshare, hlt⟩ := h
  have hgroup : call.groupID = k.groupID := congrArg (·.fst) hasks.caller
  have hmember : call.memberID = k.memberID := congrArg (·.snd) hasks.caller
  refine ⟨epoch, by rwa [hgroup, hmember], fun hfresh => ?_⟩
  have := hlt hfresh
  have := hasks.epoch hfresh
  omega

-- All that is on its way from a leader to the members are their shares.
structure Shared (counts : Bytes → PartitionCounts) (fresh : Prop) (s : State) (os : List Output)
    (label : Nat → JoinCall) (rosters : Rosters) : Prop where
  distributed : ∀ groupID epoch assignments, .distributed groupID epoch assignments ∈ os →
    epoch ≤ (s.rounds groupID).epoch ∧ rosters.plan counts groupID epoch = some assignments ∧
      rosters.Led os groupID epoch
  assigned    : ∀ x m, s.coordinator.member? x = some m → m.assignment ≠ [] →
    x.snd ∈ (rosters x.fst (s.rounds x.fst).epoch).members.map (·.id)
  stable      : ∀ groupID, s.coordinator.state groupID = .stable →
    ∃ assignments, .distributed groupID (s.rounds groupID).epoch assignments ∈ os ∧
      ∀ id m, s.coordinator.member? (groupID, id) = some m → m.assignment = given assignments id
  -- Who is a member while no rebalance is prepared joined before the current generation.
  earlier     : fresh → ∀ x m, s.coordinator.member? x = some m → s.coordinator.state x.fst ≠ .preparingRebalance →
    (label m.awaitJoin).since < (s.rounds x.fst).epoch
  delivers    : Delivers s os (fun channel => Holds os fresh (label channel))
    (fun channel => Asks fresh (label channel)) (Answers os fresh)

namespace Rostered

-- An answer that is of the current generation is the answer to a call from the one before.
theorem epoch_eq {x : JoinCall × JoinResult} (ha : Answered s os label) (h : Rostered s os label rosters)
    (hx : x ∈ joinAnswers os) (hepoch : (s.rounds x.fst.groupID).epoch < 2 ^ 31)
    (hgen : x.snd.generationID = s.coordinator.generationID x.fst.groupID) :
    (s.rounds x.fst.groupID).epoch = x.fst.since + 1 := by
  obtain ⟨epoch, _, hlt, hle⟩ := ha.joined x hx
  rw [(h.joined x hx).left, ha.epoch] at hgen
  have hwrap : int32 (x.fst.since + 1 : Nat) = int32 (s.rounds x.fst.groupID).epoch := hgen
  rw [int32, int32, wrap_of_nonneg (by decide) (by omega) (by omega),
    wrap_of_nonneg (by decide) (by omega) (by omega)] at hwrap
  omega

-- The channel of a member whose call is answered belongs to that call or to a later one.
theorem since_le {x : JoinCall × JoinResult} {m : Member} (ha : Answered s os label) (h : Rostered s os label rosters)
    (hx : x ∈ joinAnswers os) (hm : s.coordinator.member? x.fst.caller = some m) :
    x.fst.since ≤ (label m.awaitJoin).since := by
  obtain ⟨channel, hlabel⟩ := ha.once.answered x hx
  have hlt : channel < s.coordinator.runtime.nextChannel := by
    by_contra hle
    have honce := ha.once.once channel
    rw [if_neg hle, ← hlabel] at honce
    have hmem : x.snd ∈ answersTo x.fst (joinAnswers os) := mem_answersTo.mpr hx
    have := List.length_pos_of_mem hmem
    omega
  rw [hlabel] at hm ⊢
  exact h.latest channel hlt m hm

end Rostered

-- No leader syncs while a rebalance is prepared.
def State.Prompt (s : State) : Step → Prop
  | .sync req => ∀ g ∈ s.coordinator.groups.lookup req.groupID, req.memberID = g.leaderID →
      req.generationID = g.generationID → g.state ≠ .preparingRebalance
  | _ => True

instance (s : State) : DecidablePred s.Prompt := fun a => by
  induction a using Step.casesOn <;> dsimp only [State.Prompt] <;> infer_instance

-- The request comes from a client that has been answered.
def Step.Comes (counts : Bytes → PartitionCounts) (os : List Output) : Step → Prop
  | .sync req => ∃ x ∈ joinAnswers os, req.groupID = x.fst.groupID ∧ req.generationID = x.snd.generationID ∧
      req.memberID = x.snd.memberID ∧ Clients.assignmentsFor counts x.fst x.snd = some req.assignments
  | _ => True

section Comes

variable {req : SyncRequest} (ha : Answered s os label) (h : Rostered s os label rosters)
  (hcomes : Step.Comes counts os (.sync req)) (hepoch : (s.rounds req.groupID).epoch < 2 ^ 31)
include ha h hcomes hepoch

theorem current_of_comes (hgen : req.generationID = s.coordinator.generationID req.groupID) :
    ∃ x ∈ joinAnswers os, (req.groupID, req.memberID) = x.fst.caller ∧ (s.rounds req.groupID).epoch = x.fst.since + 1 ∧
      Clients.assignmentsFor counts x.fst x.snd = some req.assignments := by
  obtain ⟨x, hx, hgroup, hgen', hmember, hassign⟩ := hcomes
  refine ⟨x, hx, ?_, ?_, hassign⟩
  · rw [hgroup, hmember, (h.joined x hx).left]
    rfl
  · rw [hgroup] at hepoch hgen ⊢
    exact h.epoch_eq ha hx hepoch (hgen'.symm.trans hgen)

-- A leader hands out what it computes from the roster of the current generation, which it was told.
theorem plan_of_comes {g g' : Group} {c' : Coordinator} {result : SyncResult}
    {delivered : List (SyncCall × SyncResult)} (hleads : s.coordinator.Leads req g g' c' result delivered) :
    rosters.plan counts req.groupID (s.rounds req.groupID).epoch = some req.assignments ∧
      rosters.Led os req.groupID (s.rounds req.groupID).epoch := by
  have hgen := hleads.generation.trans (Coordinator.generationID_eq hleads.lookup).symm
  have hlead := hleads.leader.trans (Coordinator.leaderID_eq hleads.lookup).symm
  obtain ⟨x, hx, hcaller, hcurrent, hassign⟩ := current_of_comes ha h hcomes hepoch hgen
  have hgroup : req.groupID = x.fst.groupID := congrArg (·.fst) hcaller
  have hmember : req.memberID = x.fst.memberID := congrArg (·.snd) hcaller
  have hne : req.memberID ≠ [] := by
    obtain ⟨m, hm⟩ := Option.isSome_iff_exists.mp (AList.lookup_isSome.mpr hleads.member)
    exact h.named (req.groupID, req.memberID) m ((Coordinator.member?_eq hleads.lookup).trans hm)
  have hself : x.fst.memberID = (rosters x.fst.groupID (x.fst.since + 1)).leaderID := by
    rw [← hmember, ← hcurrent, ← hgroup, hlead]
    exact (h.leader req.groupID).resolve_left (hlead ▸ hne)
  rw [(h.joined x hx).left, Clients.assignmentsFor, Rosters.answerTo] at hassign
  simp only [Roster.answer, if_pos hself] at hassign
  rw [hcurrent, hgroup]
  exact ⟨hassign, x, hx, rfl, rfl, hself⟩

theorem asks_of_comes {m : Member} (hm : s.coordinator.member? (req.groupID, req.memberID) = some m)
    (hgen : req.generationID = s.coordinator.generationID req.groupID) :
    Asks fresh (label m.awaitJoin) ⟨req.groupID, req.memberID, (s.rounds req.groupID).epoch⟩ := by
  obtain ⟨x, hx, hcaller, hcurrent, _⟩ := current_of_comes ha h hcomes hepoch hgen
  refine ⟨(ha.member _ m hm).right.symm, fun _ => ?_⟩
  have hle := h.since_le ha hx (hcaller ▸ hm)
  dsimp only
  omega

end Comes

namespace Shared

theorem init (counts : Bytes → PartitionCounts) (fresh : Prop) (delay now : Int) :
    Shared counts fresh (.init delay now) [] (fun channel => ⟨channel, [], [], 0⟩) fun _ _ => ⟨[], [], []⟩ where
  distributed _ _ _ h := by simp at h
  assigned _ _ hm     := by simp [State.init, Coordinator.new, Coordinator.member?] at hm
  stable _ hstate     := by simp [State.init, Coordinator.new, Coordinator.state] at hstate
  earlier _ _ _ hm    := by simp [State.init, Coordinator.new, Coordinator.member?] at hm
  delivers            := .init delay now

section Step

variable (ha : Answered s os label) (hr : Rostered s os label rosters) (h : Shared counts fresh s os label rosters)
  (hmoves : Moves s a s' o) (hlabel : ∀ channel < s.coordinator.runtime.nextChannel, label' channel = label channel)
  (hrosters : ∀ id, ∀ epoch ≤ (s.rounds id).epoch, rosters' id epoch = rosters id epoch)

-- The calls of channels that are not in use do not matter.
include h hlabel in
theorem relabel (o : List Output) :
    Delivers s os (fun channel => Holds (os ++ o) fresh (label' channel)) (fun channel => Asks fresh (label' channel))
      (Answers (os ++ o) fresh) := by
  refine h.delivers.mono (fun channel hbusy r hholds => ?_) (fun channel hbusy call hasks => ?_)
    fun _ _ hanswers => hanswers.mono o
  · rw [hlabel channel (h.delivers.lt_of_not_idle hbusy)]
    exact hholds.mono o
  · rwa [hlabel channel (h.delivers.lt_of_not_idle hbusy)]

-- The rosters of generations to come do not matter.
include h hrosters in
theorem distributed_mono {epoch : Nat} {assignments : Assignments} (o : List Output)
    (hle : ∀ id, (s.rounds id).epoch ≤ (s'.rounds id).epoch) (hmem : .distributed groupID epoch assignments ∈ os) :
    epoch ≤ (s'.rounds groupID).epoch ∧ rosters'.plan counts groupID epoch = some assignments ∧
      rosters'.Led (os ++ o) groupID epoch := by
  obtain ⟨hepoch, hplan, hled⟩ := h.distributed groupID epoch assignments hmem
  refine ⟨hepoch.trans (hle groupID), ?_, Rosters.Led.mono ?_ o⟩
  · rwa [Rosters.plan, hrosters groupID epoch hepoch]
  · rwa [Rosters.Led, hrosters groupID epoch hepoch]

include ha hr h hmoves hlabel hrosters in
theorem keeps {joiner : Bytes × Bytes} (hk : s.Keeps s' joiner) (ho : Undistributed o) (hcomes : a.Comes counts os)
    (hepoch : ∀ id, (s.rounds id).epoch < 2 ^ 31) : Shared counts fresh s' (os ++ o) label' rosters' := by
  refine ⟨fun id epoch assignments hmem => ?_, fun x m' hm' hne => ?_, fun id hstable => ?_,
    fun hfresh x m' hm' hstate => ?_, ?_⟩
  · refine h.distributed_mono hrosters o (fun id => by rw [hk.rounds]) ?_
    exact (List.mem_append.mp hmem).resolve_right (ho _ _ _)
  · rw [hk.rounds, hrosters _ _ (Nat.le_refl _)]
    obtain ⟨m, hm, hsame, _⟩ | ⟨_, _, _, _, _, hnil | ⟨m, hm, heq⟩⟩ := hk.member x m' hm'
    · rw [hsame] at hne
      exact h.assigned x m hm hne
    · exact absurd hnil hne
    · exact h.assigned x m hm (heq ▸ hne)
  · obtain ⟨assignments, hmem, hall⟩ := h.stable id (hk.stable id hstable)
    refine ⟨assignments, ?_, fun memberID m' hm' => ?_⟩
    · rw [hk.rounds]
      exact List.mem_append_left o hmem
    · obtain ⟨m, hm, hsame, _⟩ | ⟨_, hstate, _⟩ := hk.member _ m' hm'
      · rw [hsame]
        exact hall memberID m hm
      · cases hstable.symm.trans hstate
  · obtain ⟨m, hm, hsame, hprep⟩ | ⟨_, hstate', _⟩ := hk.member x m' hm'
    · rw [hsame, hk.rounds, hlabel _ (ha.member x m hm).left]
      exact h.earlier hfresh x m hm (hprep hstate)
    · exact absurd hstate' hstate
  · refine (h.relabel hlabel o).step (fun _ _ _ hholds hasks => hholds.answers hasks) ?_ hmoves ho
    cases a
    case sync req =>
      intro m hm
      refine ⟨fun hstable => ?_, fun hgen => ?_⟩
      · obtain ⟨assignments, hmem, hall⟩ := h.stable _ hstable
        exact ⟨_, ⟨assignments, List.mem_append_left o hmem, hall _ m hm⟩, fun _ => Nat.le_refl _⟩
      · have hlt := (ha.member _ m hm).left
        rw [hr.await _ m hm]
        dsimp only
        rw [hlabel _ hlt]
        exact ⟨asks_of_comes ha hr hcomes (hepoch _) hm hgen, hlt⟩
    all_goals trivial

include h hmoves hlabel hrosters in
theorem completes {i : Nat} {g g' : Group} {leaderMembers : List JoinMember} {delivered : List (JoinCall × JoinResult)}
    (ha' : Answered s' (os ++ o) label') (hr' : Rostered s' (os ++ o) label' rosters') (hi : a = .completeJoin i)
    (hsince : ∀ channel, (label channel).since ≤ (s.rounds (label channel).groupID).epoch)
    (hcompletes : s.coordinator.Completes groupID g g' leaderMembers s'.coordinator delivered)
    (hrounds : s'.rounds = Function.update s.rounds groupID ⟨(s.rounds groupID).epoch + 1, none⟩)
    (ho : Undistributed o) : Shared counts fresh s' (os ++ o) label' rosters' := by
  have hround : (s'.rounds groupID).epoch = (s.rounds groupID).epoch + 1 := by rw [hrounds, Function.update_self]
  have hother : ∀ id, id ≠ groupID → s'.rounds id = s.rounds id := by
    intro id hid
    rw [hrounds, Function.update_of_ne hid]
  have hlt : ∀ x m, s'.coordinator.member? x = some m → x.fst = groupID →
      (label' m.awaitJoin).since < (s'.rounds x.fst).epoch := by
    intro x m hm hid
    obtain ⟨hlt, hcaller⟩ := ha'.member x m hm
    rw [hlabel _ (hcompletes.runtime.nextChannel ▸ hlt)] at hcaller ⊢
    have hle := hsince m.awaitJoin
    rw [show (label m.awaitJoin).groupID = groupID from (congrArg (·.fst) hcaller).trans hid] at hle
    rw [hid]
    omega
  refine ⟨fun id epoch assignments hmem => ?_, fun x m hm hne => ?_, fun id hstable => ?_,
    fun hfresh x m hm hstate => ?_, ?_⟩
  · refine h.distributed_mono hrosters o (fun id => ?_) ((List.mem_append.mp hmem).resolve_right (ho _ _ _))
    by_cases hid : id = groupID
    case pos =>
      rw [hid, hround]
      exact Nat.le_succ _
    case neg => rw [hother id hid]
  · by_cases hid : x.fst = groupID
    case pos => exact hr'.listed x m hm (hlt x m hm hid)
    case neg =>
      rw [Coordinator.member?_of_ne hcompletes.groups hid] at hm
      rw [hother _ hid, hrosters _ _ (Nat.le_refl _)]
      exact h.assigned x m hm hne
  · have hid : id ≠ groupID := by
      rintro rfl
      rw [Coordinator.state_eq (Coordinator.lookup_insert_self hcompletes.groups), hcompletes.state] at hstable
      contradiction
    obtain ⟨assignments, hmem, hall⟩ := h.stable id (Coordinator.state_of_ne hcompletes.groups hid ▸ hstable)
    refine ⟨assignments, hother id hid ▸ List.mem_append_left o hmem, fun memberID m hm => hall memberID m ?_⟩
    rwa [Coordinator.member?_of_ne hcompletes.groups hid] at hm
  · by_cases hid : x.fst = groupID
    case pos => exact hlt x m hm hid
    case neg =>
      have hlt := (ha'.member x m hm).left
      rw [Coordinator.member?_of_ne hcompletes.groups hid] at hm
      rw [Coordinator.state_of_ne hcompletes.groups hid] at hstate
      rw [hother _ hid, hlabel _ (hcompletes.runtime.nextChannel ▸ hlt)]
      exact h.earlier hfresh x m hm hstate
  · subst hi
    exact (h.relabel hlabel o).step (fun _ _ _ hholds hasks => hholds.answers hasks) (.completeJoin ..) hmoves ho

-- What a leader hands out makes the assignments of the members their shares.
include h in
theorem assignment_eq {req : SyncRequest} {g : Group} {id : Bytes} {m m' : Member}
    (hg : s.coordinator.groups.lookup req.groupID = some g) (hm : g.members.lookup id = some m)
    (hassigned : Group.Assigned req.assignments id m m')
    (hplan : rosters.plan counts req.groupID (s.rounds req.groupID).epoch = some req.assignments) :
    m'.assignment = given req.assignments id := by
  have heq : m'.assignment = (req.assignments.lookup id).getD m.assignment := by rw [hassigned]
  rw [heq, given]
  cases hlookup : req.assignments.lookup id
  case some => rfl
  case none =>
    rw [Option.getD_none, Option.getD_none]
    by_contra hne
    have hlisted := h.assigned (req.groupID, id) m ((Coordinator.member?_eq hg).trans hm) hne
    exact AList.lookup_eq_none.mp hlookup ((Clients.mem_buildAssignments hplan).mpr hlisted)

include ha hr h hlabel hrosters in
theorem distributes {req : SyncRequest} {g g' : Group} {result : SyncResult} {delivered : List (SyncCall × SyncResult)}
    (hleads : s.coordinator.Leads req g g' s'.coordinator result delivered) (hready : s'.readySyncs = s.readySyncs)
    (hrounds : s'.rounds = Function.update s.rounds req.groupID { s.rounds req.groupID with
      distributed := (s.rounds req.groupID).distributed.or (some req.assignments) })
    (ho : o = .distributed req.groupID (s.rounds req.groupID).epoch req.assignments ::
      .synced ⟨req.groupID, req.memberID, (s.rounds req.groupID).epoch⟩ result ::
      delivered.map (fun x => .synced x.fst x.snd))
    (hcomes : Step.Comes counts os (.sync req)) (hepoch : (s.rounds req.groupID).epoch < 2 ^ 31)
    (hprompt : fresh → s.Prompt (.sync req)) : Shared counts fresh s' (os ++ o) label' rosters' := by
  have hepoch' : ∀ id, (s'.rounds id).epoch = (s.rounds id).epoch := by
    intro id
    rw [hrounds, Function.update_apply]
    split
    case isTrue hid => rw [hid]
    case isFalse    => rfl
  have hmem : Output.distributed req.groupID (s.rounds req.groupID).epoch req.assignments ∈ os ++ o := by
    rw [ho]
    exact List.mem_append_right _ List.mem_cons_self
  obtain ⟨hplan, hled⟩ := plan_of_comes ha hr hcomes hepoch hleads
  have hall : ∀ id m', g'.members.lookup id = some m' → m'.assignment = given req.assignments id ∧
      ∃ m, s.coordinator.member? (req.groupID, id) = some m ∧ m'.awaitJoin = m.awaitJoin ∧
        m'.awaitSync = m.awaitSync := by
    intro id m' hm'
    obtain ⟨m, hm, hassigned⟩ := hleads.members.lookup_right hm'
    refine ⟨h.assignment_eq hleads.lookup hm hassigned hplan, m, (Coordinator.member?_eq hleads.lookup).trans hm, ?_⟩
    rw [hassigned]
    exact ⟨rfl, rfl⟩
  have hearlier : fresh → ∀ x m, s.coordinator.member? x = some m → x.fst = req.groupID →
      (label m.awaitJoin).since < (s.rounds x.fst).epoch := by
    intro hfresh x m hm hid
    refine h.earlier hfresh x m hm ?_
    rw [hid, Coordinator.state_eq hleads.lookup]
    exact hprompt hfresh g hleads.lookup hleads.leader hleads.generation
  refine ⟨fun id epoch assignments hmem' => ?_, fun x m' hm' hne => ?_, fun id hstable => ?_,
    fun hfresh x m' hm' hstate => ?_, ?_⟩
  · cases List.mem_append.mp hmem'
    case inl hold => exact h.distributed_mono hrosters o (fun id => (hepoch' id).ge) hold
    case inr hnew =>
      simp only [ho, List.mem_cons, Output.distributed.injEq, reduceCtorEq, List.mem_map, and_false, exists_false,
        or_false] at hnew
      obtain ⟨rfl, rfl, rfl⟩ := hnew
      rw [hepoch', Rosters.plan, Rosters.Led, hrosters _ _ (Nat.le_refl _)]
      exact ⟨Nat.le_refl _, hplan, hled.mono o⟩
  · rw [hepoch', hrosters _ _ (Nat.le_refl _)]
    by_cases hid : x.fst = req.groupID
    case pos =>
      rw [Coordinator.member?_insert hleads.groups hid] at hm'
      rw [(hall x.snd m' hm').left] at hne
      rw [hid]
      refine (Clients.mem_buildAssignments hplan).mp ?_
      by_contra hnot
      rw [given, AList.lookup_eq_none.mpr hnot] at hne
      exact hne rfl
    case neg =>
      rw [Coordinator.member?_of_ne hleads.groups hid] at hm'
      exact h.assigned x m' hm' hne
  · rw [hepoch']
    by_cases hid : id = req.groupID
    case pos =>
      subst hid
      refine ⟨req.assignments, hmem, fun id m' hm' => (hall id m' ?_).left⟩
      rwa [Coordinator.member?_insert hleads.groups rfl] at hm'
    case neg =>
      obtain ⟨assignments, hmem', hall'⟩ := h.stable id (Coordinator.state_of_ne hleads.groups hid ▸ hstable)
      refine ⟨assignments, List.mem_append_left _ hmem', fun memberID m' hm' => hall' memberID m' ?_⟩
      rwa [Coordinator.member?_of_ne hleads.groups hid] at hm'
  · rw [hepoch']
    by_cases hid : x.fst = req.groupID
    case pos =>
      rw [Coordinator.member?_insert hleads.groups hid] at hm'
      obtain ⟨_, m, hm, hjoin, _⟩ := hall x.snd m' hm'
      rw [← hid] at hm
      rw [hjoin, hlabel _ (ha.member x m hm).left]
      exact hearlier hfresh x m hm hid
    case neg =>
      rw [Coordinator.member?_of_ne hleads.groups hid] at hm'
      rw [Coordinator.state_of_ne hleads.groups hid] at hstate
      rw [hlabel _ (ha.member x m' hm').left]
      exact h.earlier hfresh x m' hm' hstate
  · obtain ⟨m', hm', hself⟩ := hleads.result
    refine (h.relabel hlabel o).distributes (fun _ _ _ hholds hasks => hholds.answers hasks) hleads hready ho
      (fun id m' hm' => ?_) ⟨_, ⟨_, hmem, hself ▸ (hall _ m' hm').left⟩, fun _ => Nat.le_refl _⟩
    obtain ⟨hshare, m, hm, _, hsync⟩ := hall id m' hm'
    obtain ⟨hlt, hcaller⟩ := ha.member _ m hm
    rw [hsync, hr.await _ m hm, hlabel _ hlt]
    refine ⟨hlt, (s.rounds req.groupID).epoch, ⟨req.assignments, ?_, ?_⟩, fun hfresh => hearlier hfresh _ m hm rfl⟩
    · rwa [show (label m.awaitJoin).groupID = req.groupID from congrArg (·.fst) hcaller]
    · rwa [show (label m.awaitJoin).memberID = id from congrArg (·.snd) hcaller]

include ha hr h hlabel hrosters in
theorem step (hs : machine.step s a = some (s', o)) (hcomes : a.Comes counts os) (hprompt : fresh → s.Prompt a)
    (hepoch : ∀ id, (s.rounds id).epoch < 2 ^ 31) (ha' : Answered s' (os ++ o) label')
    (hr' : Rostered s' (os ++ o) label' rosters') : Shared counts fresh s' (os ++ o) label' rosters' := by
  have hmoves := moves hs
  cases hmoves.syncMoves
  case keeps hk ho => exact keeps ha hr h hmoves hlabel hrosters hk ho hcomes hepoch
  case distributes hsync hleads hready hrounds ho =>
    subst hsync
    exact distributes ha hr h hlabel hrosters hleads hready hrounds ho hcomes (hepoch _) hprompt
  case completes hi _ hcompletes hrounds ho =>
    exact completes h hmoves hlabel hrosters ha' hr' hi ha.since hcompletes hrounds ho

end Step
end Shared
end ConsumerGroup
