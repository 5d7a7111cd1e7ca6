import Gokaf.Group.Theorems.Moves

open Go Protocol

namespace ConsumerGroup

variable {groupID memberID : Bytes} {now : Int}

namespace Coordinator

variable {c c' : Coordinator} {x : Bytes × Bytes} {m : Member} {g g' : Group}

-- The member of a group with an id.
def member? (c : Coordinator) (x : Bytes × Bytes) : Option Member :=
  (c.groups.lookup x.fst).bind (·.members.lookup x.snd)

theorem member?_eq_some :
    c.member? x = some m ↔ ∃ g, c.groups.lookup x.fst = some g ∧ g.members.lookup x.snd = some m :=
  Option.bind_eq_some_iff

theorem member?_eq (hg : c.groups.lookup x.fst = some g) : c.member? x = g.members.lookup x.snd := by
  simp [member?, hg]

theorem member?_of_ne (h : c'.groups = c.groups.insert groupID g') (hx : x.fst ≠ groupID) :
    c'.member? x = c.member? x := by
  rw [member?, h, AList.lookup_insert_ne hx, member?]

theorem member?_insert (h : c'.groups = c.groups.insert groupID g') (hx : x.fst = groupID) :
    c'.member? x = g'.members.lookup x.snd := by
  rw [member?, h, hx, AList.lookup_insert]
  rfl

theorem lookup_getOrCreateGroup (c : Coordinator) (groupID id : Bytes) :
    (c.getOrCreateGroup groupID).members.lookup id = c.member? (groupID, id) := by
  unfold getOrCreateGroup member?
  cases c.groups.lookup groupID <;> rfl

theorem Joins.member?_eq {req : JoinRequest} (h : Joins c now req c' memberID g') :
    c'.member? = Function.update c.member? (req.groupID, memberID) (some (c.joinedMember req memberID)) := by
  have hmembers : g'.members = (c.getOrCreateGroup req.groupID).members.insert memberID
      (c.joinedMember req memberID) := by
    rw [h.group]
    rfl
  funext ⟨id, id'⟩
  by_cases hid : id = req.groupID
  case pos =>
    subst hid
    rw [member?_insert h.groups rfl, hmembers]
    by_cases hid' : id' = memberID
    case pos => rw [hid', AList.lookup_insert, Function.update_self]
    case neg =>
      rw [AList.lookup_insert_ne hid', lookup_getOrCreateGroup, Function.update_of_ne (by simpa using hid')]
  case neg => rw [member?_of_ne h.groups hid, Function.update_of_ne (by simp [hid])]

theorem Evicts.member?_eq (h : Evicts c now groupID memberID g g' c') :
    c'.member? = Function.update c.member? (groupID, memberID) none := by
  funext ⟨id, id'⟩
  by_cases hid : id = groupID
  case pos =>
    subst hid
    rw [member?_insert h.groups rfl, h.members]
    by_cases hid' : id' = memberID
    case pos => rw [hid', AList.lookup_erase, Function.update_self]
    case neg =>
      rw [AList.lookup_erase_ne hid', Function.update_of_ne (by simpa using hid'), Coordinator.member?_eq h.lookup]
  case neg => rw [member?_of_ne h.groups hid, Function.update_of_ne (by simp [hid])]

end Coordinator

-- What the calls and the leader learn of a member beside its assignment.
def Member.card (m : Member) : Nat × Nat × Bytes :=
  (m.awaitJoin, m.awaitSync, m.metadata)

theorem Member.Same.card_eq {m m' : Member} (h : m.Same m') : m'.card = m.card := by
  rw [h]
  rfl

-- The cards of the members stay the same.
def Coordinator.Like (c c' : Coordinator) : Prop :=
  ∀ x, (c'.member? x).map (·.card) = (c.member? x).map (·.card)

namespace Coordinator.Like

variable {c c' : Coordinator} {g g' : Group}

theorem of_rel (h : c.groups.Rel (fun _ g g' => g.members.Rel (fun _ m m' => m'.card = m.card) g'.members) c'.groups) :
    c.Like c' := by
  intro x
  have hcards : ∀ c : Coordinator, (c.member? x).map (·.card) =
      ((c.groups.lookup x.fst).map fun g => (g.members.lookup x.snd).map (·.card)).join := by
    intro c
    unfold member?
    cases c.groups.lookup x.fst <;> rfl
  rw [hcards, hcards, h.map_lookup fun _ _ _ hmembers => hmembers.map_lookup (fun _ _ _ hcard => hcard) x.snd]

theorem member?_eq_some {x : Bytes × Bytes} {m' : Member} (h : c.Like c') (hm' : c'.member? x = some m') :
    ∃ m, c.member? x = some m ∧ m'.card = m.card := by
  have hcard := h x
  rw [hm', Option.map_some] at hcard
  have ⟨m, hm, heq⟩ := Option.map_eq_some_iff.mp hcard.symm
  exact ⟨m, hm, heq.symm⟩

theorem touched (h : c.groups.Rel (fun _ => Group.Touched) c'.groups) : c.Like c' :=
  of_rel (h.mono fun _ _ _ ht => ht.members.mono fun _ _ _ hsame => hsame.card_eq)

theorem setGroup (hg : c.groups.lookup groupID = some g) (hgroups : c'.groups = c.groups.insert groupID g')
    (hmembers : g.members.Rel (fun _ m m' => m'.card = m.card) g'.members) : c.Like c' := by
  refine of_rel ?_
  rw [hgroups]
  refine .insert (fun _ g => ?_) hg hmembers
  exact Map.Rel.refl (R := fun _ m m' => m'.card = m.card) (fun _ _ => rfl) g.members

theorem leads {req : SyncRequest} {result : SyncResult} {delivered : List (SyncCall × SyncResult)}
    (h : c.Leads req g g' c' result delivered) : c.Like c' := by
  refine .setGroup h.lookup h.groups (h.members.mono fun _ m m' hassigned => ?_)
  rw [Group.Assigned, Member.Same] at hassigned
  rw [hassigned]
  rfl

theorem completes {leaderMembers : List JoinMember} {delivered : List (JoinCall × JoinResult)}
    (h : c.Completes groupID g g' leaderMembers c' delivered) : c.Like c' :=
  .setGroup h.lookup h.groups (h.members.mono fun _ _ _ hsame => hsame.card_eq)

end Coordinator.Like

end ConsumerGroup
