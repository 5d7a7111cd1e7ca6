import Gokaf.Group.Theorems.Members
import Gokaf.Group.Theorems.Transitions

open Go Protocol

namespace ConsumerGroup

variable {s s' : State} {a : Step} {o os : List Output} {groupID memberID : Bytes} {joiner : Bytes × Bytes}

-- No leader hands out assignments.
def Undistributed (o : List Output) : Prop :=
  ∀ groupID epoch assignments, .distributed groupID epoch assignments ∉ o

-- No generation is completed and nothing is handed out. A member is as it was, but for one that joins.
structure State.Keeps (s s' : State) (joiner : Bytes × Bytes) : Prop where
  rounds      : s'.rounds = s.rounds
  nextChannel : s.coordinator.runtime.nextChannel ≤ s'.coordinator.runtime.nextChannel
  stable      : ∀ id, s'.coordinator.state id = .stable → s.coordinator.state id = .stable
  member      : ∀ x m', s'.coordinator.member? x = some m' →
    (∃ m, s.coordinator.member? x = some m ∧ m.Same m' ∧
      (s'.coordinator.state x.fst ≠ .preparingRebalance → s.coordinator.state x.fst ≠ .preparingRebalance)) ∨
    x = joiner ∧ s'.coordinator.state x.fst = .preparingRebalance ∧
      m'.awaitJoin = s.coordinator.runtime.nextChannel ∧ m'.awaitSync = s.coordinator.runtime.nextChannel ∧
      s.coordinator.runtime.nextChannel < s'.coordinator.runtime.nextChannel ∧
      (m'.assignment = [] ∨ ∃ m, s.coordinator.member? x = some m ∧ m'.assignment = m.assignment)

namespace State.Keeps

theorem touched (hgroups : s.coordinator.groups.Rel (fun _ => Group.Touched) s'.coordinator.groups)
    (hnext : s'.coordinator.runtime.nextChannel = s.coordinator.runtime.nextChannel) (hrounds : s'.rounds = s.rounds) :
    s.Keeps s' joiner where
  rounds      := hrounds
  nextChannel := hnext.ge
  stable id   := by
    rw [Coordinator.state_of_touched hgroups]
    exact fun h => h
  member x m' hm' := by
    obtain ⟨g', hg', hm'⟩ := Coordinator.member?_eq_some.mp hm'
    obtain ⟨g, hg, htouched⟩ := hgroups.lookup_right hg'
    obtain ⟨m, hm, hsame⟩ := htouched.members.lookup_right hm'
    rw [Coordinator.state_of_touched hgroups]
    exact .inl ⟨m, Coordinator.member?_eq_some.mpr ⟨g, hg, hm⟩, hsame, fun h => h⟩

theorem joins {req : JoinRequest} {g' : Group} (h : s.coordinator.Joins s.now req s'.coordinator memberID g')
    (hrounds : s'.rounds = s.rounds) : s.Keeps s' (req.groupID, memberID) := by
  have hstate := (Coordinator.state_eq (Coordinator.lookup_insert_self h.groups)).trans h.state
  have hnext := h.nextChannel
  refine ⟨hrounds, by omega, fun id hid => ?_, fun x m' hm' => ?_⟩
  · by_cases heq : id = req.groupID
    case pos => cases hstate.symm.trans (heq ▸ hid)
    case neg => exact Coordinator.state_of_ne h.groups heq ▸ hid
  · rw [h.member?_eq, Function.update_apply] at hm'
    split at hm'
    case isTrue hx =>
      cases hm'
      subst hx
      refine .inr ⟨rfl, hstate, rfl, rfl, by omega, ?_⟩
      obtain ⟨_, hnil⟩ | ⟨g, m, hg, hm, _, heq⟩ := s.coordinator.joinedMember_cases req memberID
      · exact .inl hnil
      · exact .inr ⟨m, Coordinator.member?_eq_some.mpr ⟨g, hg, hm⟩, heq⟩
    case isFalse =>
      refine .inl ⟨m', hm', .refl m', fun hne => ?_⟩
      have heq : x.fst ≠ req.groupID := fun heq => hne (heq ▸ hstate)
      rwa [Coordinator.state_of_ne h.groups heq] at hne

theorem evicts {g g' : Group} (h : s.coordinator.Evicts s.now groupID memberID g g' s'.coordinator)
    (hrounds : s'.rounds = s.rounds) : s.Keeps s' joiner := by
  have hstate := Coordinator.state_eq (Coordinator.lookup_insert_self h.groups)
  obtain ⟨hstable, _, hsame⟩ := h.state
  refine ⟨hrounds, h.runtime.nextChannel.ge, fun id hid => ?_, fun x m' hm' => ?_⟩
  · by_cases heq : id = groupID
    case pos => exact absurd (hstate.symm.trans (heq ▸ hid)) hstable
    case neg => exact Coordinator.state_of_ne h.groups heq ▸ hid
  · have hm := hm'
    rw [h.member?_eq, Function.update_apply] at hm
    split at hm
    case isTrue => contradiction
    case isFalse =>
      refine .inl ⟨m', hm, .refl m', fun hne => ?_⟩
      by_cases heq : x.fst = groupID
      case pos =>
        rw [Coordinator.member?_insert h.groups heq] at hm'
        rw [heq, hstate] at hne
        rw [heq, Coordinator.state_eq h.lookup, ← hsame hne fun hnil => by simp [hnil] at hm']
        exact hne
      case neg => rwa [Coordinator.state_of_ne h.groups heq] at hne

end State.Keeps

-- What a step does to the members of the groups and to their assignments.
inductive SyncMoves (s : State) (a : Step) (s' : State) (o : List Output) : Prop
  | keeps {joiner : Bytes × Bytes} : s.Keeps s' joiner → Undistributed o → SyncMoves s a s' o
  | distributes {req : SyncRequest} {g g' : Group} {result : SyncResult} {delivered : List (SyncCall × SyncResult)} :
    a = .sync req → s.coordinator.Leads req g g' s'.coordinator result delivered → s'.readySyncs = s.readySyncs →
    s'.rounds = Function.update s.rounds req.groupID { s.rounds req.groupID with
      distributed := (s.rounds req.groupID).distributed.or (some req.assignments) } →
    o = .distributed req.groupID (s.rounds req.groupID).epoch req.assignments ::
      .synced ⟨req.groupID, req.memberID, (s.rounds req.groupID).epoch⟩ result ::
      delivered.map (fun x => .synced x.fst x.snd) → SyncMoves s a s' o
  | completes {i : Nat} {groupID : Bytes} {g g' : Group} {leaderMembers : List JoinMember}
      {delivered : List (JoinCall × JoinResult)} :
    a = .completeJoin i → s.completeJoins[i]? = some groupID →
    s.coordinator.Completes groupID g g' leaderMembers s'.coordinator delivered →
    s'.rounds = Function.update s.rounds groupID ⟨(s.rounds groupID).epoch + 1, none⟩ → Undistributed o →
    SyncMoves s a s' o

theorem SyncMoves.still (hgroups : s.coordinator.groups.Rel (fun _ => Group.Touched) s'.coordinator.groups)
    (hnext : s'.coordinator.runtime.nextChannel = s.coordinator.runtime.nextChannel) (hrounds : s'.rounds = s.rounds)
    (ho : Undistributed o) : SyncMoves s a s' o :=
  have hkeeps : s.Keeps s' ([], []) := .touched hgroups hnext hrounds
  .keeps hkeeps ho

theorem Moves.syncMoves (h : Moves s a s' o) : SyncMoves s a s' o := by
  cases h
  case quiet hsame hquiet =>
    exact .still hsame.groups hsame.nextChannel hsame.rounds fun _ _ _ hmem => hquiet _ hmem
  case joins hj _ _ hrounds => exact .keeps (.joins hj hrounds) (by simp [Undistributed])
  case distributes hleads _ hready hrounds => exact .distributes rfl hleads hready hrounds rfl
  case answers hsame =>
    exact .still hsame.groups hsame.nextChannel hsame.rounds (by simp [Undistributed])
  case waits ht _ _ hrounds =>
    exact .still ht.groups ht.runtime.nextChannel hrounds (by simp [Undistributed])
  case evicts he _ _ hrounds hquiet =>
    have hkeeps : s.Keeps s' ([], []) := .evicts he hrounds
    exact .keeps hkeeps fun _ _ _ hmem => hquiet _ hmem
  case completes hi hcompletes _ _ hrounds =>
    exact .completes rfl hi hcompletes hrounds (by simp [Undistributed])
  case receivesJoin | receivesSync =>
    exact .still (.refl (fun _ => Group.Touched.refl) _) rfl rfl (by simp [Undistributed])

-- Nobody waits on the channel, is about to, or has left a result in it.
def State.Idle (s : State) (channel : Nat) : Prop :=
  (s.coordinator.runtime.syncs channel).buffer = none ∧ (s.coordinator.runtime.syncs channel).receivers = [] ∧
    ∀ k ∈ s.readySyncs, k.snd ≠ channel

instance (s : State) : DecidablePred s.Idle :=
  fun channel => inferInstanceAs (Decidable (_ ∧ _ ∧ ∀ k ∈ s.readySyncs, k.snd ≠ channel))

section Delivers

variable {H H' : Nat → SyncResult → Prop} {A A' : Nat → SyncCall → Prop} {R R' : SyncCall → SyncResult → Prop}

-- What is in the channel of a member, who waits for it, and what the calls return meet the given conditions.
structure Delivers (s : State) (os : List Output) (H : Nat → SyncResult → Prop) (A : Nat → SyncCall → Prop)
    (R : SyncCall → SyncResult → Prop) : Prop where
  held   : Held s.coordinator.runtime.syncs H A
  ready  : ∀ k ∈ s.readySyncs, A k.snd k.fst ∧ k.snd < s.coordinator.runtime.nextChannel
  fresh  : ∀ channel, s.coordinator.runtime.nextChannel ≤ channel →
    (s.coordinator.runtime.syncs channel).buffer = none ∧ (s.coordinator.runtime.syncs channel).receivers = []
  synced : ∀ call result, .synced call result ∈ os → result.errorCode = .none → R call result

-- What a `Sync` returns in a stable group and the channel that it waits for meet the conditions.
def Step.Meets (s : State) (A : Nat → SyncCall → Prop) (R : SyncCall → SyncResult → Prop) : Step → Prop
  | .sync req => ∀ m, s.coordinator.member? (req.groupID, req.memberID) = some m →
    (s.coordinator.state req.groupID = .stable →
      R ⟨req.groupID, req.memberID, (s.rounds req.groupID).epoch⟩ ⟨m.assignment, .none⟩) ∧
    (req.generationID = s.coordinator.generationID req.groupID →
      A m.awaitSync ⟨req.groupID, req.memberID, (s.rounds req.groupID).epoch⟩ ∧
      m.awaitSync < s.coordinator.runtime.nextChannel)
  | _ => True

theorem Step.Meets.completeJoin (s : State) (A : Nat → SyncCall → Prop) (R : SyncCall → SyncResult → Prop) (i : Nat) :
    (Step.completeJoin i).Meets s A R :=
  trivial

namespace Delivers

theorem init (delay now : Int) : Delivers (.init delay now) [] H A R where
  held           := ⟨
    fun _ _ hr => by simp [State.init, Coordinator.new, Runtime.new, Chan.make] at hr,
    fun _ _ hk => by simp [State.init, Coordinator.new, Runtime.new, Chan.make] at hk⟩
  ready _ hk     := by simp [State.init] at hk
  fresh _ _      := ⟨rfl, rfl⟩
  synced _ _ hos := by simp at hos

theorem lt_of_not_idle {channel : Nat} (h : Delivers s os H A R) (hbusy : ¬s.Idle channel) :
    channel < s.coordinator.runtime.nextChannel := by
  by_contra hle
  obtain ⟨hbuffer, hreceivers⟩ := h.fresh channel (Nat.le_of_not_lt hle)
  exact hbusy ⟨hbuffer, hreceivers, fun k hk heq => hle (heq ▸ (h.ready k hk).right)⟩

-- The conditions of channels that are not in use do not matter.
theorem mono (h : Delivers s os H A R)
    (hH : ∀ channel, ¬s.Idle channel → ∀ result, H channel result → H' channel result)
    (hA : ∀ channel, ¬s.Idle channel → ∀ call, A channel call → A' channel call)
    (hR : ∀ call result, R call result → R' call result) : Delivers s os H' A' R' where
  held := h.held.mono (fun channel _ hr => hH channel (fun hidle => by simp [hidle.left] at hr) _)
    fun channel _ hcall => hA channel (fun hidle => by simp [hidle.right.left] at hcall) _
  ready k hk := (h.ready k hk).imp_left (hA k.snd (fun hidle => hidle.right.right k hk rfl) k.fst)
  fresh := h.fresh
  synced call result hmem hnone := hR call result (h.synced call result hmem hnone)

-- The channels stay as they are.
theorem same (h : Delivers s os H A R) (hsyncs : s'.coordinator.runtime.syncs = s.coordinator.runtime.syncs)
    (hready : ∀ k ∈ s'.readySyncs, k ∈ s.readySyncs ∨ A k.snd k.fst ∧ k.snd < s.coordinator.runtime.nextChannel)
    (hnext : s.coordinator.runtime.nextChannel ≤ s'.coordinator.runtime.nextChannel)
    (ho : ∀ call result, .synced call result ∈ o → result.errorCode = .none → R call result) :
    Delivers s' (os ++ o) H A R where
  held := hsyncs ▸ h.held
  ready k hk := ((hready k hk).elim (h.ready k) fun hk => hk).imp_right fun hlt => hlt.trans_le hnext
  fresh channel hle := by
    rw [hsyncs]
    exact h.fresh channel (hnext.trans hle)
  synced call result hmem := (List.mem_append.mp hmem).elim (h.synced call result) (ho call result)

theorem distributes {req : SyncRequest} {g g' : Group} {result : SyncResult} {delivered : List (SyncCall × SyncResult)}
    (h : Delivers s os H A R) (hanswers : ∀ channel result call, H channel result → A channel call → R call result)
    (hleads : s.coordinator.Leads req g g' s'.coordinator result delivered) (hready : s'.readySyncs = s.readySyncs)
    (ho : o = .distributed req.groupID (s.rounds req.groupID).epoch req.assignments ::
      .synced ⟨req.groupID, req.memberID, (s.rounds req.groupID).epoch⟩ result ::
      delivered.map (fun x => .synced x.fst x.snd))
    (hmembers : ∀ id m, g'.members.lookup id = some m →
      m.awaitSync < s.coordinator.runtime.nextChannel ∧ H m.awaitSync ⟨m.assignment, .none⟩)
    (hresult : R ⟨req.groupID, req.memberID, (s.rounds req.groupID).epoch⟩ result) : Delivers s' (os ++ o) H A R := by
  obtain ⟨⟨hheld, hfresh⟩, hdelivered⟩ := hleads.held h.held hanswers hmembers
  have hnext := hleads.runtime.nextChannel
  refine ⟨hheld, fun k hk => ?_, fun channel hle => ?_, fun call r hmem hnone => ?_⟩
  · rw [hready] at hk
    exact hnext.symm ▸ h.ready k hk
  · rw [hnext] at hle
    rw [hfresh channel hle]
    exact h.fresh channel hle
  · simp only [ho, List.mem_append, List.mem_cons, reduceCtorEq, false_or, Output.synced.injEq, List.mem_map] at hmem
    obtain hold | ⟨rfl, rfl⟩ | ⟨x, hnew, rfl, rfl⟩ := hmem
    · exact h.synced call r hold hnone
    · exact hresult
    · exact hdelivered x hnew

theorem receivesSync {i channel : Nat} {call : SyncCall} (h : Delivers s os H A R)
    (hanswers : ∀ channel result call, H channel result → A channel call → R call result)
    (hi : s.readySyncs[i]? = some (call, channel)) :
    Delivers ({ s with readySyncs := s.readySyncs.eraseIdx i }.setSync channel
        ((s.coordinator.runtime.syncs channel).receive call).fst)
      (os ++ ((s.coordinator.runtime.syncs channel).receive call).snd.toList.map (.synced call)) H A R := by
  obtain ⟨hcall, hlt⟩ := h.ready _ (List.mem_of_getElem? hi)
  obtain ⟨hheld, hreceived⟩ := h.held.receive hcall
  refine ⟨hheld, fun k hk => h.ready k (List.mem_of_mem_eraseIdx hk), fun channel' hle => ?_,
    fun call' result hmem hnone => ?_⟩
  · simp only [State.setSync] at hle ⊢
    rw [Function.update_of_ne (by omega)]
    exact h.fresh channel' hle
  · cases List.mem_append.mp hmem
    case inl hold => exact h.synced call' result hold hnone
    case inr hnew =>
      obtain ⟨r, hr, heq⟩ := List.mem_map.mp hnew
      cases heq
      exact hanswers _ _ _ (hreceived result (Option.mem_toList.mp hr)) hcall

-- A step that hands nothing out. A call that gets a result from a channel returns it.
theorem step (h : Delivers s os H A R)
    (hanswers : ∀ channel result call, H channel result → A channel call → R call result)
    (hmeets : a.Meets s A R) (hmoves : Moves s a s' o) (ho : Undistributed o) : Delivers s' (os ++ o) H A R := by
  cases hmoves
  case quiet hsame hquiet =>
    exact h.same hsame.syncs (fun k hk => .inl (hsame.readySyncs ▸ hk)) hsame.nextChannel.ge
      fun _ _ hmem hnone => absurd hnone (hquiet _ hmem)
  case joins hj _ hready _ =>
    refine h.same hj.runtime.syncs (fun k hk => .inl (hready ▸ hk)) ?_ (by simp)
    rw [hj.nextChannel]
    exact Nat.le_succ _
  case distributes => exact absurd List.mem_cons_self (ho _ _ _)
  case answers g m hg hm hstate hsame =>
    refine h.same hsame.syncs (fun k hk => .inl (hsame.readySyncs ▸ hk)) hsame.nextChannel.ge
      fun call result hmem _ => ?_
    obtain ⟨rfl, rfl⟩ := Output.synced.inj (List.mem_singleton.mp hmem)
    exact (hmeets m ((Coordinator.member?_eq hg).trans hm)).left ((Coordinator.state_eq hg).trans hstate)
  case waits g m hg hm hgen ht _ hready _ =>
    refine h.same ht.runtime.syncs (fun k hk => ?_) ht.runtime.nextChannel.ge (by simp)
    rw [hready, List.mem_append, List.mem_singleton] at hk
    refine hk.imp_right fun heq => ?_
    subst heq
    exact (hmeets m ((Coordinator.member?_eq hg).trans hm)).right (hgen.trans (Coordinator.generationID_eq hg).symm)
  case evicts he _ hready _ hquiet =>
    exact h.same he.runtime.syncs (fun k hk => .inl (hready ▸ hk)) he.runtime.nextChannel.ge
      fun _ _ hmem hnone => absurd hnone (hquiet _ hmem)
  case completes hcompletes _ hready _ =>
    exact h.same hcompletes.runtime.syncs (fun k hk => .inl (hready ▸ hk)) hcompletes.runtime.nextChannel.ge (by simp)
  case receivesJoin => exact h.same rfl (fun _ hk => .inl hk) (Nat.le_refl _) (by simp)
  case receivesSync hi => exact h.receivesSync hanswers hi

end Delivers
end Delivers
end ConsumerGroup
