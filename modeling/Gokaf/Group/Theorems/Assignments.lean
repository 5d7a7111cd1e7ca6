import Gokaf.Group.Theorems.Delivery

open Go Protocol

namespace ConsumerGroup

variable {s s' : State} {a : Step} {as : List Step} {o os : List Output} {groupID memberID : Bytes} {epoch : Nat}
variable {call : SyncCall} {result : SyncResult} {delay now : Int}

-- What the assignments give to a member, which is nothing for one they do not mention.
def given (assignments : Assignments) (memberID : Bytes) : Bytes :=
  (assignments.lookup memberID).getD []

def Output.distribution? (groupID : Bytes) (epoch : Nat) : Output → Option Assignments
  | .distributed g e assignments => if g = groupID ∧ e = epoch then some assignments else none
  | _ => none

-- The assignments of the first leader `Sync` of a generation.
def firstDistribution (os : List Output) (groupID : Bytes) (epoch : Nat) : Option Assignments :=
  os.findSome? (·.distribution? groupID epoch)

-- The answer is what the first leader `Sync` of the generation gave to the member that asked.
def FromFirst (os : List Output) (call : SyncCall) (result : SyncResult) : Prop :=
  ∃ assignments, firstDistribution os call.groupID call.epoch = some assignments ∧
    result.assignment = given assignments call.memberID

def Consistent (os : List Output) : Prop :=
  ∀ call result, .synced call result ∈ os → result.errorCode = .none → FromFirst os call result

-- The leader gives assignments to all who have one from before, and the same ones if it syncs again.
def Group.Covers (g : Group) (assignments : Assignments) : Option Assignments → Prop
  | none       => ∀ e ∈ g.members.entries, e.snd.assignment ≠ [] → e.fst ∈ assignments
  | some first => ∀ e ∈ g.members.entries, given assignments e.fst = given first e.fst

-- No `Sync` is on its way, and no result is left over, when the next generation begins.
def InOrder (s : State) : Step → Prop
  | .sync req => ∀ g ∈ s.coordinator.groups.lookup req.groupID, req.memberID ∈ g.members →
      req.generationID = g.generationID → req.memberID = g.leaderID →
      g.Covers req.assignments (s.rounds req.groupID).distributed
  | .completeJoin i => ∀ groupID ∈ s.completeJoins[i]?, ∀ g ∈ s.coordinator.groups.lookup groupID,
      ∀ e ∈ g.members.entries, s.Idle e.snd.awaitSync
  | _ => True

instance (g : Group) (assignments : Assignments) : DecidablePred (g.Covers assignments) := fun _ => by
  unfold Group.Covers
  split <;> infer_instance

instance (s : State) : DecidablePred (InOrder s) := fun a => by
  induction a using Step.casesOn <;> dsimp only [InOrder] <;> infer_instance

theorem firstDistribution_append (os o : List Output) (groupID : Bytes) (epoch : Nat) :
    firstDistribution (os ++ o) groupID epoch =
      (firstDistribution os groupID epoch).or (firstDistribution o groupID epoch) :=
  List.findSome?_append

theorem firstDistribution_cons (x : Output) (o : List Output) (groupID : Bytes) (epoch : Nat) :
    firstDistribution (x :: o) groupID epoch =
      (x.distribution? groupID epoch).or (firstDistribution o groupID epoch) := by
  simp only [firstDistribution, List.findSome?_cons]
  cases x.distribution? groupID epoch <;> rfl

theorem FromFirst.mono (h : FromFirst os call result) (o : List Output) : FromFirst (os ++ o) call result := by
  have ⟨assignments, hfirst, heq⟩ := h
  exact ⟨assignments, by rw [firstDistribution_append, hfirst, Option.some_or], heq⟩

theorem Undistributed.firstDistribution_eq (h : Undistributed o) (groupID : Bytes) (epoch : Nat) :
    firstDistribution o groupID epoch = none := by
  refine List.findSome?_eq_none_iff.mpr fun x hx => ?_
  cases x
  case distributed => exact absurd hx (h _ _ _)
  all_goals rfl

theorem firstDistribution_undistributed (h : Undistributed o) :
    firstDistribution (os ++ o) = firstDistribution os := by
  funext groupID epoch
  rw [firstDistribution_append, h.firstDistribution_eq, Option.or_none]

-- A leader `Sync` counts if it is the first one of its generation.
theorem firstDistribution_distributed {assignments first : Assignments} {epoch : Nat} (ho : Undistributed o)
    (hfirst : (firstDistribution os groupID epoch).or (some assignments) = some first) (id : Bytes) (epoch' : Nat) :
    firstDistribution (os ++ .distributed groupID epoch assignments :: o) id epoch' =
      if id = groupID ∧ epoch' = epoch then some first else firstDistribution os id epoch' := by
  rw [firstDistribution_append, firstDistribution_cons, ho.firstDistribution_eq, Option.or_none, Output.distribution?]
  split
  case isTrue heq  => rw [if_pos ⟨heq.left.symm, heq.right.symm⟩, ← hfirst, ← heq.left, ← heq.right]
  case isFalse hne => rw [if_neg fun heq => hne ⟨heq.left.symm, heq.right.symm⟩, Option.or_none]

-- Every `Sync` channel belongs to one member and to one generation, that of all its calls and of what
-- is in it. The channels of members belong to the current one.
structure Tracked (s : State) (os : List Output) (label : Nat → SyncCall) : Prop where
  member   : ∀ x m, s.coordinator.member? x = some m → m.awaitSync < s.coordinator.runtime.nextChannel ∧
    label m.awaitSync = ⟨x.fst, x.snd, (s.rounds x.fst).epoch⟩
  rounds   : ∀ groupID, (s.rounds groupID).distributed = firstDistribution os groupID (s.rounds groupID).epoch
  later    : ∀ groupID epoch, (s.rounds groupID).epoch < epoch → firstDistribution os groupID epoch = none
  assigned : ∀ x m, s.coordinator.member? x = some m → ∀ assignments, (s.rounds x.fst).distributed = some assignments →
    m.assignment = given assignments x.snd ∨ m.assignment = [] ∧ s.coordinator.state x.fst ≠ .stable
  stable   : ∀ groupID, s.coordinator.state groupID = .stable → (s.rounds groupID).distributed.isSome
  delivers : Delivers s os (fun channel => FromFirst os (label channel)) (fun channel call => call = label channel)
    (FromFirst os)

namespace Tracked

variable {label label' : Nat → SyncCall}

theorem init (delay now : Int) : Tracked (.init delay now) [] fun _ => ⟨[], [], 0⟩ where
  member _ _ hm   := by simp [State.init, Coordinator.new, Coordinator.member?] at hm
  rounds _        := rfl
  later _ _ _     := rfl
  assigned _ _ hm := by simp [State.init, Coordinator.new, Coordinator.member?] at hm
  stable _ h      := by simp [State.init, Coordinator.new, Coordinator.state] at h
  delivers        := .init delay now

-- The calls of channels that are not in use do not matter.
theorem relabel (h : Tracked s os label) (o : List Output)
    (hlabel : ∀ channel, ¬s.Idle channel → label' channel = label channel) :
    Delivers s os (fun channel => FromFirst (os ++ o) (label' channel)) (fun channel call => call = label' channel)
      (FromFirst (os ++ o)) := by
  refine h.delivers.mono (fun channel hbusy r hr => ?_) (fun channel hbusy call hcall => ?_) fun _ _ hr => hr.mono o
  · rw [hlabel channel hbusy]
    exact hr.mono o
  · rwa [hlabel channel hbusy]

theorem keeps {joiner : Bytes × Bytes} (h : Tracked s os label) (hmoves : Moves s a s' o) (hk : s.Keeps s' joiner)
    (ho : Undistributed o) : Tracked s' (os ++ o) (Function.update label s.coordinator.runtime.nextChannel
      ⟨joiner.fst, joiner.snd, (s.rounds joiner.fst).epoch⟩) := by
  have hlabel : ∀ channel < s.coordinator.runtime.nextChannel, Function.update label s.coordinator.runtime.nextChannel
      ⟨joiner.fst, joiner.snd, (s.rounds joiner.fst).epoch⟩ channel = label channel :=
    fun channel hlt => Function.update_of_ne (by omega) ..
  refine ⟨fun x m' hm' => ?_, ?_, ?_, fun x m' hm' assignments ha => ?_, fun id hid => ?_, ?_⟩
  · rw [hk.rounds]
    obtain ⟨m, hm, hsame, _⟩ | ⟨rfl, _, _, hawait, hlt, _⟩ := hk.member x m' hm'
    · obtain ⟨hlt, hl⟩ := h.member x m hm
      rw [hsame]
      exact ⟨hlt.trans_le hk.nextChannel, (hlabel _ hlt).trans hl⟩
    · rw [hawait]
      exact ⟨hlt, Function.update_self ..⟩
  · rw [firstDistribution_undistributed ho, hk.rounds]
    exact h.rounds
  · rw [firstDistribution_undistributed ho, hk.rounds]
    exact h.later
  · rw [hk.rounds] at ha
    have hold : ∀ m, s.coordinator.member? x = some m → m'.assignment = m.assignment →
        m'.assignment = given assignments x.snd ∨ m'.assignment = [] ∧ s'.coordinator.state x.fst ≠ .stable := by
      intro m hm heq
      rw [heq]
      exact (h.assigned x m hm assignments ha).imp_right (And.imp_right fun hne hstable => hne (hk.stable _ hstable))
    obtain ⟨m, hm, hsame, _⟩ | ⟨_, hstate, _, _, _, hnil | ⟨m, hm, heq⟩⟩ := hk.member x m' hm'
    · exact hold m hm (by rw [hsame])
    · exact .inr ⟨hnil, by simp [hstate]⟩
    · exact hold m hm heq
  · rw [hk.rounds]
    exact h.stable id (hk.stable id hid)
  · refine (h.relabel o fun channel hbusy => hlabel channel (h.delivers.lt_of_not_idle hbusy)).step
      (fun _ _ _ hr hcall => hcall ▸ hr) ?_ hmoves ho
    cases a
    case sync req =>
      intro m hm
      obtain ⟨hlt, hl⟩ := h.member _ m hm
      refine ⟨fun hstable => ?_, fun _ => ⟨((hlabel _ hlt).trans hl).symm, hlt⟩⟩
      obtain ⟨first, hfirst⟩ := Option.isSome_iff_exists.mp (h.stable _ hstable)
      refine FromFirst.mono ⟨first, (h.rounds _).symm.trans hfirst, ?_⟩ o
      exact (h.assigned _ m hm first hfirst).resolve_right fun hnil => hnil.right hstable
    all_goals trivial

-- The next generation begins. All channels of its members are taken over.
theorem completes {i : Nat} {g g' : Group} {leaderMembers : List JoinMember} {delivered : List (JoinCall × JoinResult)}
    (h : Tracked s os label) (hmoves : Moves s (.completeJoin i) s' o)
    (hcompletes : s.coordinator.Completes groupID g g' leaderMembers s'.coordinator delivered)
    (hrounds : s'.rounds = Function.update s.rounds groupID ⟨(s.rounds groupID).epoch + 1, none⟩)
    (ho : Undistributed o) (hidle : ∀ e ∈ g.members.entries, s.Idle e.snd.awaitSync) :
    ∃ label', Tracked s' (os ++ o) label' := by
  have hround : s'.rounds groupID = ⟨(s.rounds groupID).epoch + 1, none⟩ := by
    rw [hrounds, Function.update_self]
  have hround' : ∀ id, id ≠ groupID → s'.rounds id = s.rounds id := by
    intro id hid
    rw [hrounds, Function.update_of_ne hid]
  -- A channel that nobody uses goes on in the current generation of its group.
  let label' : Nat → SyncCall := fun channel =>
    if s.Idle channel then
      { label channel with epoch := (s'.rounds (label channel).groupID).epoch }
    else
      label channel
  refine ⟨label', fun x m' hm' => ?_, fun id => ?_, fun id epoch hlt => ?_, fun x m' hm' assignments ha => ?_,
    fun id hstable => ?_, ?_⟩
  · rw [hcompletes.runtime.nextChannel]
    by_cases hid : x.fst = groupID
    case pos =>
      rw [Coordinator.member?_insert hcompletes.groups hid] at hm'
      obtain ⟨m, hm, hsame⟩ := hcompletes.members.lookup_right hm'
      obtain ⟨hlt, hl⟩ := h.member x m ((Coordinator.member?_eq (hid ▸ hcompletes.lookup)).trans hm)
      have hidle' := hidle ⟨x.snd, m⟩ (AList.mem_lookup_iff.mp hm)
      rw [hsame]
      refine ⟨hlt, ?_⟩
      simp only [label', if_pos hidle', hl]
    case neg =>
      rw [Coordinator.member?_of_ne hcompletes.groups hid] at hm'
      obtain ⟨hlt, hl⟩ := h.member x m' hm'
      refine ⟨hlt, ?_⟩
      simp only [label', hl, hround' _ hid, ite_self]
  · rw [firstDistribution_undistributed ho]
    by_cases hid : id = groupID
    case pos =>
      rw [hid, hround]
      exact (h.later groupID _ (Nat.lt_succ_self _)).symm
    case neg =>
      rw [hround' id hid]
      exact h.rounds id
  · rw [firstDistribution_undistributed ho]
    refine h.later id epoch (Nat.lt_of_le_of_lt ?_ hlt)
    by_cases hid : id = groupID
    case pos =>
      rw [hid, hround]
      exact Nat.le_succ _
    case neg => rw [hround' id hid]
  · by_cases hid : x.fst = groupID
    case pos =>
      rw [hid, hround] at ha
      contradiction
    case neg =>
      rw [Coordinator.member?_of_ne hcompletes.groups hid] at hm'
      rw [Coordinator.state_of_ne hcompletes.groups hid]
      exact h.assigned x m' hm' assignments (hround' _ hid ▸ ha)
  · by_cases hid : id = groupID
    case pos =>
      rw [hid, Coordinator.state_eq (Coordinator.lookup_insert_self hcompletes.groups), hcompletes.state] at hstable
      contradiction
    case neg =>
      rw [hround' id hid]
      exact h.stable id (Coordinator.state_of_ne hcompletes.groups hid ▸ hstable)
  · exact (h.relabel o fun channel hbusy => if_neg hbusy).step (fun _ _ _ hr hcall => hcall ▸ hr)
      (.completeJoin ..) hmoves ho

-- What a leader's `Sync` leaves with each member is what the first one of its generation gave.
theorem assignment_eq {req : SyncRequest} {g : Group} {m m' : Member} {first : Assignments} (h : Tracked s os label)
    (hg : s.coordinator.groups.lookup req.groupID = some g) (hm : g.members.lookup memberID = some m)
    (hassigned : Group.Assigned req.assignments memberID m m')
    (hfirst : (s.rounds req.groupID).distributed.or (some req.assignments) = some first)
    (hc : g.Covers req.assignments (s.rounds req.groupID).distributed) :
    m'.assignment = given first memberID := by
  have hentry : ⟨memberID, m⟩ ∈ g.members.entries := AList.mem_lookup_iff.mp hm
  have hassigned' : m'.assignment = (req.assignments.lookup memberID).getD m.assignment := by rw [hassigned]
  rw [hassigned']
  cases hd : (s.rounds req.groupID).distributed
  case none =>
    rw [hd] at hc hfirst
    cases hfirst
    cases hlookup : req.assignments.lookup memberID
    case some a => simp [given, hlookup]
    case none =>
      have hnil : m.assignment = [] := by
        by_contra hne
        exact AList.lookup_eq_none.mp hlookup (hc _ hentry hne)
      simp [given, hlookup, hnil]
  case some =>
    rw [hd] at hc hfirst
    cases hfirst
    have hsame := hc _ hentry
    cases hlookup : req.assignments.lookup memberID
    case some a => simpa [given, hlookup] using hsame
    case none =>
      have hnil : given first memberID = [] := by simpa [given, hlookup] using hsame.symm
      rw [Option.getD_none, hnil]
      cases h.assigned (req.groupID, memberID) m ((Coordinator.member?_eq hg).trans hm) first hd
      case inl heq => exact heq.trans hnil
      case inr heq => exact heq.left

theorem distributes {req : SyncRequest} {g g' : Group} {delivered : List (SyncCall × SyncResult)}
    (h : Tracked s os label) (hleads : s.coordinator.Leads req g g' s'.coordinator result delivered)
    (hready : s'.readySyncs = s.readySyncs)
    (hrounds : s'.rounds = Function.update s.rounds req.groupID { s.rounds req.groupID with
      distributed := (s.rounds req.groupID).distributed.or (some req.assignments) })
    (ho : o = .distributed req.groupID (s.rounds req.groupID).epoch req.assignments ::
      .synced ⟨req.groupID, req.memberID, (s.rounds req.groupID).epoch⟩ result ::
      delivered.map (fun x => .synced x.fst x.snd))
    (hc : InOrder s (.sync req)) : Tracked s' (os ++ o) label := by
  have hcovers := hc g hleads.lookup hleads.member hleads.generation hleads.leader
  obtain ⟨first, hfirst⟩ : ∃ first, (s.rounds req.groupID).distributed.or (some req.assignments) = some first := by
    cases (s.rounds req.groupID).distributed <;> exact ⟨_, rfl⟩
  have hround : s'.rounds req.groupID = ⟨(s.rounds req.groupID).epoch, some first⟩ := by
    rw [hrounds, Function.update_self, hfirst]
  have hround' : ∀ id, id ≠ req.groupID → s'.rounds id = s.rounds id := by
    intro id hid
    rw [hrounds, Function.update_of_ne hid]
  have hepoch : ∀ id, (s'.rounds id).epoch = (s.rounds id).epoch := by
    intro id
    by_cases hid : id = req.groupID
    case pos => rw [hid, hround]
    case neg => rw [hround' id hid]
  have hdist : ∀ id epoch, firstDistribution (os ++ o) id epoch =
      if id = req.groupID ∧ epoch = (s.rounds req.groupID).epoch then some first
      else firstDistribution os id epoch := by
    rw [ho]
    exact firstDistribution_distributed (by simp [Undistributed]) (h.rounds req.groupID ▸ hfirst)
  -- All members have what the first leader `Sync` of the generation gave them.
  have hfrom : ∀ id m', g'.members.lookup id = some m' → m'.awaitSync < s.coordinator.runtime.nextChannel ∧
      label m'.awaitSync = ⟨req.groupID, id, (s.rounds req.groupID).epoch⟩ ∧ m'.assignment = given first id := by
    intro id m' hm'
    obtain ⟨m, hm, hassigned⟩ := hleads.members.lookup_right hm'
    obtain ⟨hlt, hl⟩ := h.member (req.groupID, id) m ((Coordinator.member?_eq hleads.lookup).trans hm)
    refine ⟨?_, ?_, h.assignment_eq hleads.lookup hm hassigned hfirst hcovers⟩
    all_goals rwa [hassigned]
  have hresult : ∀ id m', g'.members.lookup id = some m' →
      FromFirst (os ++ o) ⟨req.groupID, id, (s.rounds req.groupID).epoch⟩ ⟨m'.assignment, .none⟩ := by
    intro id m' hm'
    exact ⟨first, by rw [hdist, if_pos ⟨rfl, rfl⟩], (hfrom id m' hm').right.right⟩
  refine ⟨fun x m' hm' => ?_, fun id => ?_, fun id epoch hlt => ?_, fun x m' hm' asg ha => ?_, fun id hstable => ?_, ?_⟩
  · rw [hepoch, hleads.runtime.nextChannel]
    by_cases hid : x.fst = req.groupID
    case pos =>
      rw [Coordinator.member?_insert hleads.groups hid] at hm'
      obtain ⟨hlt, hl, _⟩ := hfrom x.snd m' hm'
      exact ⟨hlt, hid ▸ hl⟩
    case neg => exact h.member x m' (Coordinator.member?_of_ne hleads.groups hid ▸ hm')
  · rw [hdist]
    by_cases hid : id = req.groupID
    case pos => rw [hid, hround, if_pos ⟨rfl, rfl⟩]
    case neg =>
      rw [hround' id hid, if_neg fun heq => hid heq.left]
      exact h.rounds id
  · rw [hepoch] at hlt
    rw [hdist, if_neg fun heq => by rw [heq.left, heq.right] at hlt; exact absurd hlt (Nat.lt_irrefl _)]
    exact h.later id epoch hlt
  · by_cases hid : x.fst = req.groupID
    case pos =>
      rw [Coordinator.member?_insert hleads.groups hid] at hm'
      rw [hid, hround] at ha
      cases ha
      exact .inl (hfrom x.snd m' hm').right.right
    case neg =>
      rw [Coordinator.state_of_ne hleads.groups hid]
      exact h.assigned x m' (Coordinator.member?_of_ne hleads.groups hid ▸ hm') asg (hround' _ hid ▸ ha)
  · by_cases hid : id = req.groupID
    case pos => simp [hid, hround]
    case neg =>
      rw [hround' id hid]
      exact h.stable id (Coordinator.state_of_ne hleads.groups hid ▸ hstable)
  · obtain ⟨m', hm', hself⟩ := hleads.result
    refine (h.relabel o fun _ _ => rfl).distributes (fun _ _ _ hr hcall => hcall ▸ hr) hleads hready ho
      (fun id m' hm' => ?_) (hself ▸ hresult _ m' hm')
    obtain ⟨hlt, hl, _⟩ := hfrom id m' hm'
    exact ⟨hlt, hl ▸ hresult id m' hm'⟩

end Tracked

-- One step: answers of one generation all come from its first leader `Sync`.
theorem inductive_tracked : machine.Inductive InOrder fun s os => ∃ label, Tracked s os label where
  step {s a s' o os} hinv hc hs := by
    obtain ⟨label, h⟩ := hinv
    have hmoves := moves hs
    cases hmoves.syncMoves
    case keeps hk ho => exact ⟨_, h.keeps hmoves hk ho⟩
    case distributes ha hleads hready hrounds ho =>
      subst ha
      exact ⟨label, h.distributes hleads hready hrounds ho hc⟩
    case completes ha hi hcompletes hrounds ho =>
      subst ha
      exact h.completes hmoves hcompletes hrounds ho (hc _ hi _ hcompletes.lookup)

-- The leader of the second generation leaves itself out.
def omittedMember : List Step := [
  sampleJoin [97], .tick 3000000000, .fireJoinTimer 0, .completeJoin 0, sampleSync 1 [97] [([97], [1])],
  sampleJoin [97], .tick 3000000000, .fireJoinTimer 1, .completeJoin 0, sampleSync 2 [97] []
]

def Output.synced? : Output → Option (SyncCall × SyncResult)
  | .synced call result => some (call, result)
  | _ => none

theorem Consistent.of_synced? (h : Consistent os) {call : SyncCall} {result : SyncResult}
    (hmem : (call, result) ∈ os.filterMap Output.synced?) (hnone : result.errorCode = .none) :
    (firstDistribution os call.groupID call.epoch).map (given · call.memberID) = some result.assignment := by
  have ⟨x, hx, hsynced⟩ := List.mem_filterMap.mp hmem
  unfold Output.synced? at hsynced
  split at hsynced
  case h_2 => contradiction
  case h_1 =>
    cases hsynced
    have ⟨first, hfirst, heq⟩ := h call result hx hnone
    rw [hfirst, Option.map_some, heq]

structure SyncSummary where
  synced : List (SyncCall × SyncResult)
  given  : Option Bytes
  deriving DecidableEq

theorem omittedMember_not_consistent :
    ∃ s os, machine.run (.init 3000000000 0) omittedMember = some (s, os) ∧ ¬Consistent os := by
  have hrun : (machine.run (.init 3000000000 0) omittedMember).map (fun r => SyncSummary.mk
      (r.snd.filterMap Output.synced?) ((firstDistribution r.snd sampleGroup 2).map (given · [97]))) =
      some ⟨[(⟨sampleGroup, [97], 1⟩, ⟨[1], .none⟩), (⟨sampleGroup, [97], 2⟩, ⟨[1], .none⟩)], some []⟩ := by
    decide +kernel
  have ⟨⟨s, os⟩, hs, heq⟩ := Option.map_eq_some_iff.mp hrun
  simp only [SyncSummary.mk.injEq] at heq
  refine ⟨s, os, hs, fun h => ?_⟩
  have hmem : (⟨sampleGroup, [97], 2⟩, ⟨[1], .none⟩) ∈ os.filterMap Output.synced? := by simp [heq.left]
  have hgiven := h.of_synced? hmem rfl
  rw [heq.right] at hgiven
  contradiction

-- In an orderly run all successful answers to one generation come from one and the same assignments.
theorem synced_consistent (hc : machine.Along InOrder (.init delay now) as)
    (hr : machine.run (.init delay now) as = some (s, os)) : Consistent os :=
  have ⟨_, h⟩ := inductive_tracked.run_nil ⟨_, .init delay now⟩ hc hr
  h.delivers.synced

-- The follower waits for the leader; the leader asks again later.
theorem synced_consistent_pair :
    let as : List Step := [
      sampleJoin [97], sampleJoin [98], .tick 3000000000, .fireJoinTimer 0, .completeJoin 0,
      sampleSync 1 [98] [], .receiveSync 0, sampleSync 1 [97] [([97], [1]), ([98], [2])], sampleSync 1 [98] []
    ]
    ∃ s os, machine.run (.init 3000000000 0) as = some (s, os) ∧
      os.filterMap Output.synced? = [(⟨sampleGroup, [97], 1⟩, ⟨[1], .none⟩), (⟨sampleGroup, [98], 1⟩, ⟨[2], .none⟩),
        (⟨sampleGroup, [98], 1⟩, ⟨[2], .none⟩)] ∧ Consistent os := by
  intro as
  have hc : machine.Along InOrder (.init 3000000000 0) as := by decide +kernel
  have hrun : (machine.run (.init 3000000000 0) as).map (·.snd.filterMap Output.synced?) =
      some [(⟨sampleGroup, [97], 1⟩, ⟨[1], .none⟩), (⟨sampleGroup, [98], 1⟩, ⟨[2], .none⟩),
        (⟨sampleGroup, [98], 1⟩, ⟨[2], .none⟩)] := by decide +kernel
  have ⟨⟨s, os⟩, hs, hos⟩ := Option.map_eq_some_iff.mp hrun
  exact ⟨s, os, hs, hos, synced_consistent hc hs⟩

end ConsumerGroup
