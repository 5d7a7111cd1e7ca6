import Gokaf.Group.Theorems.Moves

open Go Protocol

namespace ConsumerGroup

variable {s s' : State} {a : Step} {as : List Step} {o os : List Output} {groupID : Bytes} {delay now : Int}

-- The representation invariant of a group.
structure Group.Valid (groupID : Bytes) (g : Group) : Prop where
  id            : g.id = groupID
  nodup         : g.joinOrder.Nodup
  mem_joinOrder : ∀ id, id ∈ g.joinOrder ↔ id ∈ g.members
  member_id     : ∀ id m, g.members.lookup id = some m → m.id = id
  empty         : g.state = .empty ↔ g.members = ∅
  leader        : g.leaderID = [] ∨ g.leaderID ∈ g.members
  led           : g.state = .completingRebalance ∨ g.state = .stable → g.leaderID ∈ g.members

namespace Group.Valid

variable {g g' : Group} {memberID : Bytes} {m : Member}

theorem new (groupID : Bytes) : Group.Valid groupID { id := groupID } where
  id              := rfl
  nodup           := .nil
  mem_joinOrder _ := by simp
  member_id _ _ h := by simp at h
  empty           := by simp
  leader          := .inl rfl
  led h           := by simp at h

theorem joinOrder_eq_nil_iff (h : g.Valid groupID) : g.joinOrder = [] ↔ g.members = ∅ := by
  rw [List.eq_nil_iff_forall_not_mem, Map.eq_empty_iff]
  exact forall_congr' fun id => not_congr (h.mem_joinOrder id)

-- The members stay the same up to what does not matter here.
theorem rel {R : Bytes → Member → Member → Prop} (h : g.Valid groupID) (hrel : g.members.Rel R g'.members)
    (hR : ∀ id m m', R id m m' → m'.id = m.id) (hid : g'.id = g.id) (horder : g'.joinOrder = g.joinOrder)
    (hstate : g'.state = .empty ↔ g.state = .empty) (hleader : g'.leaderID = [] ∨ g'.leaderID ∈ g.members)
    (hled : g'.state = .completingRebalance ∨ g'.state = .stable → g'.leaderID ∈ g.members) : g'.Valid groupID where
  id               := hid.trans h.id
  nodup            := horder ▸ h.nodup
  mem_joinOrder id := by rw [horder, h.mem_joinOrder, hrel.mem_iff]
  member_id id m' hm' := by
    have ⟨m, hm, hmm'⟩ := hrel.lookup_right hm'
    exact (hR id m m' hmm').trans (h.member_id id m hm)
  empty            := by rw [hstate, h.empty, hrel.eq_empty_iff]
  leader           := hleader.imp_right hrel.mem_iff.mpr
  led hstate'      := hrel.mem_iff.mpr (hled hstate')

theorem touched (h : g.Valid groupID) (ht : g.Touched g') : g'.Valid groupID := by
  refine h.rel ht.members (fun _ m m' (hsame : m.Same m') => ?_) ?_ ?_ ?_ ?_ ?_
  · rw [hsame]
  all_goals rw [ht.eq]
  · exact h.leader
  · exact h.led

theorem ne_empty (h : g.Valid groupID) (hm : memberID ∈ g.members) : g.state ≠ .empty :=
  fun hempty => Map.eq_empty_iff.mp (h.empty.mp hempty) memberID hm

-- A member goes; the others stay as they are.
theorem erase (h : g.Valid groupID) (hmembers : g'.members = g.members.erase memberID)
    (horder : g'.joinOrder = g.joinOrder.filter (· ≠ memberID)) (hid : g'.id = g.id)
    (hempty : g'.state = .empty ↔ g'.members = ∅) (hleader : g'.leaderID = [] ∨ g'.leaderID ∈ g'.members)
    (hled : g'.state ≠ .stable ∧ g'.state ≠ .completingRebalance) : g'.Valid groupID where
  id                := hid.trans h.id
  nodup             := horder ▸ h.nodup.filter _
  mem_joinOrder id  := by simp [horder, hmembers, h.mem_joinOrder, AList.mem_erase, and_comm]
  member_id id m hm := h.member_id id m (Map.lookup_of_erase (hmembers ▸ hm)).right
  empty             := hempty
  leader            := hleader
  led hstate        := absurd hstate (not_or.mpr hled.symm)

theorem joinOrder_ne_nil (h : g.Valid groupID) (hstate : g.state = .preparingRebalance) : g.joinOrder ≠ [] := by
  intro hnil
  have hempty := h.empty.mpr (h.joinOrder_eq_nil_iff.mp hnil)
  cases hempty.symm.trans hstate

end Group.Valid

namespace Coordinator

variable {c c' : Coordinator} {g g' : Group} {memberID : Bytes}

-- Every group of the coordinator meets the representation invariant.
def Valid (c : Coordinator) : Prop :=
  ∀ groupID g, c.groups.lookup groupID = some g → g.Valid groupID

namespace Valid

theorem insert (h : c.Valid) (hgroups : c'.groups = c.groups.insert groupID g') (hg' : g'.Valid groupID) :
    c'.Valid := by
  intro id g hg
  rw [hgroups] at hg
  by_cases hid : id = groupID
  case pos =>
    subst hid
    cases (AList.lookup_insert _).symm.trans hg
    exact hg'
  case neg =>
    rw [AList.lookup_insert_ne hid] at hg
    exact h id g hg

theorem touched (h : c.Valid) (ht : c.groups.Rel (fun _ => Group.Touched) c'.groups) : c'.Valid := by
  intro id g' hg'
  have ⟨g, hg, htouched⟩ := ht.lookup_right hg'
  exact (h id g hg).touched htouched

theorem getOrCreateGroup (h : c.Valid) (groupID : Bytes) : (c.getOrCreateGroup groupID).Valid groupID := by
  unfold Coordinator.getOrCreateGroup
  cases hg : c.groups.lookup groupID
  case none   => exact .new groupID
  case some g => exact h groupID g hg

theorem joinedGroup (h : c.Valid) (req : JoinRequest) (memberID : Bytes) :
    (c.joinedGroup req memberID).Valid req.groupID := by
  have hg := h.getOrCreateGroup req.groupID
  unfold Coordinator.joinedGroup
  refine ⟨hg.id, ?_, fun id => ?_, fun id m hm => ?_, ?_, ?_, by simp⟩
  · dsimp only
    split
    case isTrue => exact hg.nodup
    case isFalse hnew =>
      refine hg.nodup.append (List.nodup_singleton _) (List.disjoint_singleton.mpr fun hmem => ?_)
      exact hnew ((hg.mem_joinOrder memberID).mp hmem)
  · dsimp only
    rw [AList.mem_insert]
    split
    case isTrue hold =>
      rw [hg.mem_joinOrder]
      exact ⟨.inr, fun hmem => hmem.elim (· ▸ hold) fun hmem => hmem⟩
    case isFalse => rw [List.mem_append, hg.mem_joinOrder, List.mem_singleton, or_comm]
  · by_cases hid : id = memberID
    case pos =>
      subst hid
      cases (AList.lookup_insert _).symm.trans hm
      cases hm : (c.getOrCreateGroup req.groupID).members.lookup id
      case none   => simp [joinedMember, hm]
      case some m => simpa [joinedMember, hm] using hg.member_id id m hm
    case neg => exact hg.member_id id m (AList.lookup_insert_ne hid ▸ hm)
  · simp only [reduceCtorEq, false_iff]
    exact fun hempty => Map.eq_empty_iff.mp hempty memberID ((AList.mem_insert _).mpr (.inl rfl))
  · exact hg.leader.imp_right fun hmem => (AList.mem_insert _).mpr (.inr hmem)

theorem joins {req : JoinRequest} (h : c.Valid) (hj : c.Joins now req c' memberID g') : c'.Valid := by
  refine h.insert hj.groups ?_
  rw [hj.group]
  have hg := h.joinedGroup req memberID
  exact ⟨hg.id, hg.nodup, hg.mem_joinOrder, hg.member_id, hg.empty, hg.leader, hg.led⟩

theorem leads {req : SyncRequest} {result : SyncResult} {delivered : List (SyncCall × SyncResult)} (h : c.Valid)
    (hl : c.Leads req g g' c' result delivered) : c'.Valid := by
  have hvalid := h _ g hl.lookup
  have hmem : g.leaderID ∈ g.members := hl.leader ▸ hl.member
  refine h.insert hl.groups (hvalid.rel hl.members (fun _ m m' hassigned => ?_) ?_ ?_ ?_ ?_ ?_)
  · rw [Group.Assigned, Member.Same] at hassigned
    rw [hassigned]
  all_goals rw [hl.eq]
  · simpa using hvalid.ne_empty hmem
  · exact .inr hmem
  · exact fun _ => hmem

theorem evicts (h : c.Valid) (he : c.Evicts now groupID memberID g g' c') : c'.Valid := by
  have hvalid := h _ g he.lookup
  obtain ⟨hstable, hcompleting, _⟩ := he.state
  refine h.insert he.groups (hvalid.erase he.members he.joinOrder he.id ?_ ?_ ⟨hstable, hcompleting⟩)
  · cases he.goesOn
    case last hnil hstate _ _ _ => simp [hnil, hstate]
    case preparing hne hstate _ _ _ _ =>
      rw [hstate]
      exact iff_of_false (hvalid.ne_empty he.member) hne
    case rebalances hne hstate _ _ => simp [hne, hstate]
  · obtain hnil | ⟨heq, hne⟩ := he.leader
    · exact .inl hnil
    · rw [heq, he.members, AList.mem_erase]
      exact hvalid.leader.imp_right fun hmem => ⟨hne, hmem⟩

theorem completes {leaderMembers : List JoinMember} {delivered : List (JoinCall × JoinResult)} (h : c.Valid)
    (hc : c.Completes groupID g g' leaderMembers c' delivered) : c'.Valid := by
  have hvalid := h _ g hc.lookup
  have hmem := hc.leader_mem
  obtain ⟨_, _, _, _, heq⟩ := hc.leader
  refine h.insert hc.groups
    (hvalid.rel hc.members (fun _ m m' hsame => ?_) ?_ hc.joinOrder ?_ (.inr hmem) fun _ => hmem)
  · rw [Member.Same] at hsame
    rw [hsame]
  · rw [heq]
  · simpa [hc.state] using hvalid.ne_empty hmem

end Valid
end Coordinator

theorem valid_of_step (h : s.coordinator.Valid) (hs : machine.step s a = some (s', o)) : s'.coordinator.Valid := by
  cases moves hs
  case quiet hsame _                 => exact h.touched hsame.groups
  case joins hj _ _ _                => exact h.joins hj
  case distributes hleads _ _ _      => exact h.leads hleads
  case answers hsame                 => exact h.touched hsame.groups
  case waits ht _ _ _                => exact h.touched ht.groups
  case evicts _ he _ _ _ _           => exact h.evicts he
  case completes _ hcompletes _ _ _  => exact h.completes hcompletes
  case receivesJoin                  => exact h
  case receivesSync                  => exact h

namespace State

def joinTimers (s : State) : Timers Bytes :=
  s.coordinator.runtime.joinTimers

-- A callback of a join timer is due or on its way.
def Pending (s : State) (groupID : Bytes) : Prop :=
  groupID ∈ s.completeJoins ∨ s.joinTimers.Armed groupID

structure Scheduled (s : State) : Prop where
  fresh     : s.joinTimers.Fresh
  joinTimer : ∀ groupID g t, s.coordinator.groups.lookup groupID = some g → g.joinTimer = some t →
    ∃ deadline, s.joinTimers.timer t = some ⟨groupID, deadline⟩
  pending   : ∀ groupID g, s.coordinator.groups.lookup groupID = some g → g.state = .preparingRebalance →
    s.Pending groupID

namespace Scheduled

variable {g g' : Group} {memberID : Bytes}

theorem mem_eraseIdx_of_ne {ids : List Bytes} {i : Nat} {id : Bytes} (hi : ids[i]? = some groupID) (hne : id ≠ groupID)
    (hmem : id ∈ ids) : id ∈ ids.eraseIdx i := by
  obtain ⟨j, hj⟩ := List.mem_iff_getElem?.mp hmem
  rw [List.mem_eraseIdx_iff_getElem?]
  refine ⟨j, ?_, hj⟩
  rintro rfl
  cases hi.symm.trans hj
  exact hne rfl

-- No join timer is touched, and no callback runs that a group waits for.
theorem keeps (h : s.Scheduled) (htimers : s'.joinTimers = s.joinTimers)
    (hgroups : ∀ groupID g', s'.coordinator.groups.lookup groupID = some g' → g'.state = .preparingRebalance →
      groupID ∈ s.completeJoins → groupID ∈ s'.completeJoins)
    (hsame : ∀ groupID g', s'.coordinator.groups.lookup groupID = some g' →
      ∃ g, s.coordinator.groups.lookup groupID = some g ∧ g'.joinTimer = g.joinTimer ∧
        (g'.state = .preparingRebalance → g.state = .preparingRebalance)) : s'.Scheduled where
  fresh := htimers ▸ h.fresh
  joinTimer groupID g' t hg' ht := by
    have ⟨g, hg, htimer, _⟩ := hsame groupID g' hg'
    rw [htimers]
    exact h.joinTimer groupID g t hg (htimer ▸ ht)
  pending groupID g' hg' hstate := by
    have ⟨g, hg, _, hpreparing⟩ := hsame groupID g' hg'
    rw [Pending, htimers]
    exact (h.pending groupID g hg (hpreparing hstate)).imp_left (hgroups groupID g' hg' hstate)

theorem touched (h : s.Scheduled) (htimers : s'.joinTimers = s.joinTimers) (hc : s'.completeJoins = s.completeJoins)
    (ht : s.coordinator.groups.Rel (fun _ => Group.Touched) s'.coordinator.groups) : s'.Scheduled := by
  refine h.keeps htimers (fun _ _ _ _ hmem => hc ▸ hmem) fun groupID g' hg' => ?_
  have ⟨g, hg, htouched⟩ := ht.lookup_right hg'
  refine ⟨g, hg, ?_, ?_⟩
  all_goals rw [htouched.eq]
  exact id

-- One group changes, and its timer does not.
theorem setGroup (h : s.Scheduled) (htimers : s'.joinTimers = s.joinTimers) (hc : s'.completeJoins = s.completeJoins)
    (hg : s.coordinator.groups.lookup groupID = some g)
    (hgroups : s'.coordinator.groups = s.coordinator.groups.insert groupID g') (htimer : g'.joinTimer = g.joinTimer)
    (hstate : g'.state = .preparingRebalance → g.state = .preparingRebalance) : s'.Scheduled := by
  refine h.keeps htimers (fun _ _ _ _ hmem => hc ▸ hmem) fun id g'' hg'' => ?_
  rw [hgroups] at hg''
  by_cases hid : id = groupID
  case pos =>
    subst hid
    cases (AList.lookup_insert _).symm.trans hg''
    exact ⟨g, hg, htimer, hstate⟩
  case neg =>
    rw [AList.lookup_insert_ne hid] at hg''
    exact ⟨g'', hg'', rfl, fun hstate => hstate⟩

-- The timer of one group is armed, after its last one was stopped if there is one.
theorem arms {ts : Timers Bytes} (h : s.Scheduled)
    (hts : ts = s.joinTimers ∨ ∃ g t, s.coordinator.groups.lookup groupID = some g ∧ g.joinTimer = some t ∧
      ts = s.joinTimers.stop t)
    (harms : Coordinator.Arms delay now groupID ts s'.joinTimers g') (hc : s'.completeJoins = s.completeJoins)
    (hgroups : s'.coordinator.groups = s.coordinator.groups.insert groupID g') : s'.Scheduled := by
  have hfresh : ts.Fresh := by
    cases hts
    case inl heq => exact heq ▸ h.fresh
    case inr hstop =>
      have ⟨_, t, _, _, heq⟩ := hstop
      exact heq ▸ h.fresh.stop t
  have hold : ∀ id g, id ≠ groupID → s'.coordinator.groups.lookup id = some g →
      s.coordinator.groups.lookup id = some g := by
    intro id g hid hg
    rwa [hgroups, AList.lookup_insert_ne hid] at hg
  have htimers := harms.timers
  refine ⟨htimers ▸ hfresh.afterFunc, fun id g t hg ht => ?_, fun id g hg hstate => ?_⟩
  · rw [htimers]
    by_cases hid : id = groupID
    case pos =>
      subst hid
      rw [hgroups] at hg
      cases (AList.lookup_insert _).symm.trans hg
      cases harms.timer.symm.trans ht
      exact ⟨_, Function.update_self ..⟩
    case neg =>
      have ⟨deadline, htimer⟩ := h.joinTimer id g t (hold id g hid hg) ht
      cases hts
      case inl heq => exact ⟨deadline, hfresh.timer_afterFunc (heq ▸ htimer)⟩
      case inr hstop =>
        have ⟨_, u, _, _, heq⟩ := hstop
        have ⟨deadline', htimer'⟩ := Timers.callback_stop htimer u
        exact ⟨deadline', hfresh.timer_afterFunc (heq ▸ htimer')⟩
  · rw [Pending, htimers, hc]
    by_cases hid : id = groupID
    case pos => exact .inr (hid ▸ Timers.armed_afterFunc ..)
    case neg =>
      refine (h.pending id g (hold id g hid hg) hstate).imp_right fun harmed => Timers.Armed.afterFunc ?_ hfresh
      cases hts
      case inl heq => exact heq ▸ harmed
      case inr hstop =>
        have ⟨g₀, u, hg₀, hu, heq⟩ := hstop
        have ⟨deadline, htimer⟩ := h.joinTimer groupID g₀ u hg₀ hu
        exact heq ▸ harmed.stop htimer hid

theorem fires {t : Nat} {ts : Timers Bytes} (h : s.Scheduled) (hfire : s.joinTimers.fire t now = some (ts, groupID))
    (htimers : s'.joinTimers = ts) (hc : s'.completeJoins = s.completeJoins ++ [groupID])
    (hgroups : s'.coordinator.groups = s.coordinator.groups) : s'.Scheduled := by
  have ⟨deadline, htimer, heq⟩ := Timers.fire_eq_some hfire
  subst heq
  refine ⟨htimers ▸ h.fresh.stop t, fun id g u hg hu => ?_, fun id g hg hstate => ?_⟩
  · have ⟨deadline', hu'⟩ := h.joinTimer id g u (hgroups ▸ hg) hu
    exact htimers ▸ Timers.callback_stop hu' t
  · rw [Pending, htimers, hc, List.mem_append, List.mem_singleton]
    by_cases hid : id = groupID
    case pos => exact .inl (.inr hid)
    case neg =>
      cases h.pending id g (hgroups ▸ hg) hstate
      case inl hmem   => exact .inl (.inl hmem)
      case inr harmed => exact .inr (harmed.stop htimer hid)

theorem joins {req : JoinRequest} (h : s.Scheduled)
    (hj : s.coordinator.Joins s.now req s'.coordinator memberID g') (hc : s'.completeJoins = s.completeJoins) :
    s'.Scheduled := by
  have htimer := hj.timer
  split at htimer
  case isTrue hstate =>
    cases hg : s.coordinator.groups.lookup req.groupID
    case none => simp [Coordinator.getOrCreateGroup, hg] at hstate
    case some g =>
      simp only [Coordinator.getOrCreateGroup, hg, Option.getD_some] at hstate htimer
      exact h.setGroup htimer.right hc hg hj.groups htimer.left fun _ => hstate
  case isFalse => exact h.arms (.inl rfl) htimer hc hj.groups

theorem evicts (h : s.Scheduled) (hvalid : s.coordinator.Valid)
    (he : s.coordinator.Evicts s.now groupID memberID g g' s'.coordinator) (hc : s'.completeJoins = s.completeJoins) :
    s'.Scheduled := by
  cases he.goesOn
  case last hstate _ htimer hts => exact h.setGroup hts hc he.lookup he.groups htimer (by simp [hstate])
  case preparing hstate _ _ htimer hts => exact h.setGroup hts hc he.lookup he.groups htimer fun h => hstate ▸ h
  case rebalances harms =>
    have hid := (hvalid _ g he.lookup).id
    refine h.arms ?_ (hid ▸ harms) hc he.groups
    cases ht : g.joinTimer
    case none   => exact .inl rfl
    case some t => exact .inr ⟨g, t, he.lookup, ht, rfl⟩

-- The callback that runs takes its group out of the preparation.
theorem completes {i : Nat} {leaderMembers : List JoinMember} {delivered : List (JoinCall × JoinResult)}
    (h : s.Scheduled) (hi : s.completeJoins[i]? = some groupID)
    (hcompletes : s.coordinator.Completes groupID g g' leaderMembers s'.coordinator delivered)
    (hc : s'.completeJoins = s.completeJoins.eraseIdx i) : s'.Scheduled := by
  refine h.keeps hcompletes.runtime.joinTimers (fun id g₁ hg₁ hstate hmem => ?_) fun id g₁ hg₁ => ?_
  all_goals rw [hcompletes.groups] at hg₁
  · refine hc ▸ mem_eraseIdx_of_ne hi ?_ hmem
    rintro rfl
    cases (AList.lookup_insert _).symm.trans hg₁
    cases hcompletes.state.symm.trans hstate
  · by_cases hid : id = groupID
    case pos =>
      subst hid
      cases (AList.lookup_insert _).symm.trans hg₁
      obtain ⟨_, _, _, _, heq⟩ := hcompletes.leader
      exact ⟨g, hcompletes.lookup, by rw [heq], by simp [hcompletes.state]⟩
    case neg => exact ⟨g₁, AList.lookup_insert_ne hid ▸ hg₁, rfl, fun h => h⟩

-- The group of the callback has no members.
theorem idles {i : Nat} (h : s.Scheduled) (hvalid : s.coordinator.Valid) (hi : s.completeJoins[i]? = some groupID)
    (hidle : ∀ g ∈ s.coordinator.groups.lookup groupID, g.joinOrder = []) (hcoord : s'.coordinator = s.coordinator)
    (hc : s'.completeJoins = s.completeJoins.eraseIdx i) : s'.Scheduled := by
  refine h.keeps (congrArg (·.runtime.joinTimers) hcoord) (fun id g hg hstate hmem => ?_)
    fun id g hg => ⟨g, hcoord ▸ hg, rfl, fun h => h⟩
  rw [hcoord] at hg
  refine hc ▸ mem_eraseIdx_of_ne hi ?_ hmem
  rintro rfl
  exact (hvalid id g hg).joinOrder_ne_nil hstate (hidle g hg)

end Scheduled

structure Valid (s : State) : Prop where
  coordinator : s.coordinator.Valid
  scheduled   : s.Scheduled

namespace Valid

theorem init (delay now : Int) : (State.init delay now).Valid where
  coordinator _ _ h         := by simp [State.init, Coordinator.new] at h
  scheduled.fresh _ _       := rfl
  scheduled.joinTimer _ _ _ h := by simp [State.init, Coordinator.new] at h
  scheduled.pending _ _ h   := by simp [State.init, Coordinator.new] at h

theorem exists_completeJoin (h : s.Valid) (now : Int) (groupID : Bytes) :
    ∃ r, s.coordinator.completeJoin now groupID = some r :=
  Coordinator.exists_completeJoin fun g hg id hid => ((h.coordinator _ g hg).mem_joinOrder id).mp hid

-- The callback takes a group out of its preparation.
theorem exists_completeJoin_of_preparing (h : s.Valid)
    (hstate : s.coordinator.state groupID = .preparingRebalance) (now : Int) :
    ∃ c delivered, s.coordinator.completeJoin now groupID = some (c, delivered) ∧
      c.state groupID = .completingRebalance := by
  have ⟨⟨c, delivered⟩, hcomplete⟩ := h.exists_completeJoin now groupID
  refine ⟨c, delivered, hcomplete, ?_⟩
  obtain ⟨_, _, hidle⟩ | ⟨_, _, _, hcompletes⟩ := Coordinator.completes hcomplete
  · cases hg : s.coordinator.groups.lookup groupID
    case none => simp [Coordinator.state, hg] at hstate
    case some g =>
      refine absurd (hidle g hg) ((h.coordinator _ g hg).joinOrder_ne_nil ?_)
      simpa [Coordinator.state, hg] using hstate
  · simp [Coordinator.state, hcompletes.groups, hcompletes.state]

theorem scheduled_of_step (h : s.Valid) (hs : machine.step s a = some (s', o)) : s'.Scheduled := by
  have hscheduled := h.scheduled
  have hrefl := Map.Rel.refl (fun _ => Group.Touched.refl) s.coordinator.groups
  cases a
  case join req =>
    obtain ⟨g', hjoins, _⟩ := s.coordinator.joins s.now req
    simp only [machine] at hs
    generalize s.coordinator.join s.now req = r at hjoins hs
    cases Option.some.inj hs
    exact hscheduled.joins hjoins rfl
  case sync req =>
    have hsyncs := s.coordinator.syncs s.now req
    simp only [machine] at hs
    generalize s.coordinator.sync s.now req = r at hsyncs hs
    obtain ⟨c', synced⟩ := r
    cases hsyncs
    all_goals cases Option.some.inj hs
    case refused => exact hscheduled.touched rfl rfl hrefl
    case leader g g' _ _ hl =>
      have htimer : g'.joinTimer = g.joinTimer := by rw [hl.eq]
      exact hscheduled.setGroup hl.runtime.joinTimers rfl hl.lookup hl.groups htimer (by rw [hl.eq]; simp)
    case stable ht => exact hscheduled.touched ht.runtime.joinTimers rfl ht.groups
    case waits ht  => exact hscheduled.touched ht.runtime.joinTimers rfl ht.groups
  case heartbeat req =>
    have ht := s.coordinator.touched_heartbeat s.now req
    simp only [machine] at hs
    generalize s.coordinator.heartbeat s.now req = r at ht hs
    cases Option.some.inj hs
    exact hscheduled.touched ht.runtime.joinTimers rfl ht.groups
  case leave req =>
    simp only [machine, Coordinator.leave] at hs
    cases hevict : s.coordinator.evict s.now req.groupID req.memberID
    case none =>
      rw [hevict] at hs
      cases Option.some.inj hs
      exact hscheduled
    case some c' =>
      rw [hevict] at hs
      cases Option.some.inj hs
      obtain ⟨_, _, hevicts⟩ := Coordinator.evicts hevict
      exact hscheduled.evicts h.coordinator hevicts rfl
  case receiveJoin i =>
    obtain ⟨call, _, heq⟩ := Option.map_eq_some_iff.mp hs
    cases heq
    exact hscheduled.touched rfl rfl hrefl
  case receiveSync i =>
    obtain ⟨call, _, heq⟩ := Option.map_eq_some_iff.mp hs
    cases heq
    exact hscheduled.touched rfl rfl hrefl
  case tick d =>
    cases Option.some.inj hs
    exact hscheduled.touched rfl rfl hrefl
  case fireJoinTimer t =>
    obtain ⟨⟨ts, groupID⟩, hfire, heq⟩ := Option.map_eq_some_iff.mp hs
    cases heq
    exact hscheduled.fires hfire rfl rfl rfl
  case fireSessionTimer t =>
    obtain ⟨⟨ts, id⟩, _, heq⟩ := Option.map_eq_some_iff.mp hs
    cases heq
    exact hscheduled.touched rfl rfl hrefl
  case completeJoin i =>
    obtain ⟨groupID, hi, heq⟩ := Option.map_eq_some_iff.mp hs
    obtain ⟨⟨c', delivered⟩, hcomplete⟩ := h.exists_completeJoin s.now groupID
    simp only [hcomplete] at heq
    cases heq
    obtain ⟨hcoord, _, hidle⟩ | ⟨_, _, _, hcompletes⟩ := Coordinator.completes hcomplete
    · exact hscheduled.idles h.coordinator hi hidle hcoord rfl
    · exact hscheduled.completes hi hcompletes rfl
  case expireMember i =>
    obtain ⟨⟨groupID, memberID⟩, hi, heq⟩ := Option.map_eq_some_iff.mp hs
    cases heq
    obtain ht | ⟨_, _, hevicts⟩ := s.coordinator.touched_or_evicts s.now groupID memberID
    · exact hscheduled.touched ht.runtime.joinTimers rfl ht.groups
    · exact hscheduled.evicts h.coordinator hevicts rfl

theorem panicked_notMem_of_step (h : s.Valid) (hs : machine.step s a = some (s', o)) : .panicked ∉ o := by
  cases a
  case completeJoin i =>
    obtain ⟨groupID, hi, heq⟩ := Option.map_eq_some_iff.mp hs
    obtain ⟨⟨c', delivered⟩, hcomplete⟩ := h.exists_completeJoin s.now groupID
    simp only [hcomplete] at heq
    cases heq
    simp
  case sync req =>
    simp only [machine] at hs
    split at hs
    all_goals
      cases Option.some.inj hs
      simp
  case join | heartbeat | leave | tick =>
    cases Option.some.inj hs
    simp
  case receiveJoin | receiveSync | fireJoinTimer | fireSessionTimer | expireMember =>
    obtain ⟨_, _, heq⟩ := Option.map_eq_some_iff.mp hs
    cases heq
    simp

end Valid

theorem inductive_valid : machine.Inductive (fun _ _ => True) fun s os => s.Valid ∧ .panicked ∉ os where
  step h _ hs := by
    refine ⟨⟨valid_of_step h.left.coordinator hs, h.left.scheduled_of_step hs⟩, ?_⟩
    rw [List.mem_append, not_or]
    exact ⟨h.right, h.left.panicked_notMem_of_step hs⟩

end State

-- In every reachable state each group meets the representation invariant, a group that is being prepared
-- has a callback to come that completes it, and no callback has panicked or will.
theorem reachable_valid (hr : machine.run (.init delay now) as = some (s, os)) :
    (∀ groupID g, s.coordinator.groups.lookup groupID = some g → g.Valid groupID) ∧
    (∀ groupID, s.coordinator.state groupID = .preparingRebalance → s.Pending groupID ∧
      ∃ c delivered, s.coordinator.completeJoin s.now groupID = some (c, delivered) ∧
        c.state groupID = .completingRebalance) ∧
    (∀ now groupID, (s.coordinator.completeJoin now groupID).isSome) ∧ .panicked ∉ os := by
  have ⟨hvalid, hpanicked⟩ := State.inductive_valid.run_nil ⟨.init delay now, by simp⟩ (Machine.along_true _ _) hr
  refine ⟨hvalid.coordinator, fun groupID hstate => ⟨?_, hvalid.exists_completeJoin_of_preparing hstate s.now⟩,
    fun now groupID => Option.isSome_iff_exists.mpr (hvalid.exists_completeJoin now groupID), hpanicked⟩
  cases hg : s.coordinator.groups.lookup groupID
  case none   => simp [Coordinator.state, hg] at hstate
  case some g => exact hvalid.scheduled.pending groupID g hg (by simpa [Coordinator.state, hg] using hstate)

-- The last member leaves and comes back before the first join timer has fired.
theorem reachable_valid_rejoin :
    let as : List Step := [
      sampleJoin [97], .tick 1000000000, .leave ⟨sampleGroup, [97]⟩, sampleJoin [97], sampleJoin [98],
      .tick 2000000000, .fireJoinTimer 0
    ]
    ∃ s os, machine.run (.init 3000000000 0) as = some (s, os) ∧
      s.coordinator.state sampleGroup = .preparingRebalance ∧ s.Pending sampleGroup ∧ .panicked ∉ os := by
  intro as
  have hrun : (machine.run (.init 3000000000 0) as).map (·.fst.coordinator.state sampleGroup) =
      some .preparingRebalance := by decide +kernel
  have ⟨⟨s, os⟩, hs, hstate⟩ := Option.map_eq_some_iff.mp hrun
  have ⟨_, hpreparing, _, hpanicked⟩ := reachable_valid hs
  exact ⟨s, os, hs, hstate, (hpreparing _ hstate).left, hpanicked⟩

end ConsumerGroup
