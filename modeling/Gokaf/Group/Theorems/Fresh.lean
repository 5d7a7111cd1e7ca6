import Gokaf.Go.Decimal
import Gokaf.Group.Theorems.Members

open Go Protocol

-- The ids that the coordinator generates.
namespace ConsumerGroup

variable {s s' : State} {a : Step} {o os : List Output} {c : Coordinator} {id memberID clientID : Bytes}
  {seq seq' : Int} {now delay : Int} {req : JoinRequest} {n : Nat}

-- If the id could be generated, its number is not after the given one.
def Spent (seq : Int) (id : Bytes) : Prop :=
  ∀ (clientID : Bytes) (k : Nat), clientID ≠ [] → id = clientID ++ 45 :: decimal k → k ≤ seq

theorem Spent.mono (h : Spent seq id) (hseq : seq ≤ seq') : Spent seq' id :=
  fun clientID k hclient hid => (h clientID k hclient hid).trans hseq

theorem spent_decimal (hseq : 0 ≤ seq) (clientID : Bytes) : Spent seq (clientID ++ 45 :: decimal seq) :=
  fun _ _ _ hid => (append_dash_decimal_inj hseq (Int.natCast_nonneg _) hid).right.ge

-- The number is the one after the dash, for some dash that is not the first byte.
theorem spent_iff : Spent seq id ↔ ∀ i < id.length, 0 < i →
    id.drop i = 45 :: decimal (ofDecimal (id.drop (i + 1))) → ofDecimal (id.drop (i + 1)) ≤ seq := by
  constructor
  · intro h i hi hpos hdrop
    refine h (id.take i) _ ?_ (by rw [← hdrop, List.take_append_drop])
    simp only [ne_eq, List.take_eq_nil_iff, not_or]
    exact ⟨by omega, List.ne_nil_of_length_pos (by omega)⟩
  · rintro h clientID k hclient rfl
    have hk : ofDecimal ((clientID ++ 45 :: decimal k).drop (clientID.length + 1)) = k := by
      rw [← List.drop_drop, List.drop_left, List.drop_one, List.tail_cons, ofDecimal_decimal (Int.natCast_nonneg k),
        Int.toNat_natCast]
    have hle := h clientID.length (by simp) (List.length_pos_iff.mpr hclient)
    rw [hk, List.drop_left] at hle
    exact hle rfl

instance (seq : Int) (id : Bytes) : Decidable (Spent seq id) :=
  decidable_of_iff _ spent_iff.symm

namespace Coordinator

-- The name that a generated id begins with.
def clientName (clientID : Bytes) : Bytes :=
  if clientID = [] then [109, 101, 109, 98, 101, 114] else clientID

theorem clientName_ne_nil (clientID : Bytes) : clientName clientID ≠ [] := by
  unfold clientName
  split
  case isTrue       => simp
  case isFalse hcons => exact hcons

theorem memberIDFor_of_nil (c : Coordinator) (hreq : req.memberID = []) :
    c.memberIDFor req = clientName req.clientID ++ 45 :: decimal (int64 (c.nextMemberSeq + 1)) := by
  rw [memberIDFor, if_pos hreq]
  rfl

end Coordinator

-- The coordinator takes in a member that it did not have, and leaves all others alone.
structure Coordinator.Adds (c : Coordinator) (now : Int) (req : JoinRequest) : Prop where
  notMem : (c.join now req).snd.fst ∉ (c.getOrCreateGroup req.groupID).members
  added  : (c.join now req).fst.member? (req.groupID, (c.join now req).snd.fst) = some {
    id               := (c.join now req).snd.fst
    protocol         := firstProtocolName req.protocols
    metadata         := firstProtocolMetadata req.protocols
    sessionTimeoutMS := req.sessionTimeoutMS
    awaitJoin        := c.runtime.nextChannel
    awaitSync        := c.runtime.nextChannel }
  others : ∀ x ≠ (req.groupID, (c.join now req).snd.fst), (c.join now req).fst.member? x = c.member? x
  joins  : (c.join now req).fst.runtime.joins = c.runtime.joins
  syncs  : (c.join now req).fst.runtime.syncs = c.runtime.syncs

theorem Coordinator.adds (now : Int)
    (h : c.member? (req.groupID, (c.join now req).snd.fst) = none) : c.Adds now req := by
  obtain ⟨g', hj, _⟩ := c.joins now req
  have hmember := hj.member?_eq
  rw [← lookup_getOrCreateGroup] at h
  refine ⟨AList.lookup_eq_none.mp h, ?_, fun x hx => ?_, hj.runtime.joins, hj.runtime.syncs⟩
  · rw [hmember, Function.update_self, joinedMember, h]
    rfl
  · rw [hmember, Function.update_of_ne hx]

namespace Restarts

variable {a : Step} {as : List Step}

-- No client comes with an id whose number the coordinator has yet to give out.
def OwnIDs (s : State) : Step → Prop
  | .serve (.join req) => req.memberID ≠ [] → Spent s.coordinator.nextMemberSeq req.memberID
  | _                  => True

instance (s : State) : DecidablePred (OwnIDs s) := fun _ => by
  unfold OwnIDs
  split <;> infer_instance

structure Inv (n : Nat) (s : State) : Prop where
  nonneg : 0 ≤ s.coordinator.nextMemberSeq
  le     : s.coordinator.nextMemberSeq ≤ n
  spent  : ∀ x m, s.coordinator.member? x = some m → Spent s.coordinator.nextMemberSeq x.snd

namespace Inv

theorem init (n : Nat) (delay now : Int) : Inv n (.init delay now) where
  nonneg    := le_refl 0
  le        := Int.natCast_nonneg n
  spent _ _ := by simp [State.init, Coordinator.new, Coordinator.member?]

theorem like (h : Inv n s) (hlike : s.coordinator.Like s'.coordinator)
    (hseq : s'.coordinator.nextMemberSeq = s.coordinator.nextMemberSeq) : Inv (n + 1) s' where
  nonneg := hseq ▸ h.nonneg
  le     := by
    have := h.le
    rw [hseq]
    omega
  spent x m' hm' := by
    obtain ⟨m, hm, _⟩ := hlike.member?_eq_some hm'
    exact hseq ▸ h.spent x m hm

theorem joinedSeq_of_nil (h : Inv n s) (hn : n < 2 ^ 63 - 1) (hreq : req.memberID = []) :
    s.coordinator.joinedSeq req = s.coordinator.nextMemberSeq + 1 := by
  have := h.nonneg
  have := h.le
  rw [Coordinator.joinedSeq, if_pos hreq]
  exact wrap_of_nonneg (by decide) (by omega) (by omega)

theorem memberIDFor_of_nil (h : Inv n s) (hn : n < 2 ^ 63 - 1) (hreq : req.memberID = []) :
    s.coordinator.memberIDFor req =
      Coordinator.clientName req.clientID ++ 45 :: decimal (s.coordinator.nextMemberSeq + 1) := by
  have hseq := h.joinedSeq_of_nil hn hreq
  rw [Coordinator.joinedSeq, if_pos hreq] at hseq
  rw [s.coordinator.memberIDFor_of_nil hreq, hseq]

theorem join (h : Inv n s) (hn : n < 2 ^ 63 - 1)
    (hown : req.memberID ≠ [] → Spent s.coordinator.nextMemberSeq req.memberID)
    (hseq : s'.coordinator.nextMemberSeq = s.coordinator.joinedSeq req) {m' : Member}
    (hmember : s'.coordinator.member? =
      Function.update s.coordinator.member? (req.groupID, s.coordinator.memberIDFor req) (some m')) :
    Inv (n + 1) s' := by
  have := h.nonneg
  have := h.le
  -- Either the number of the new id or none is given out.
  have hjoined : s.coordinator.nextMemberSeq ≤ s.coordinator.joinedSeq req ∧ s.coordinator.joinedSeq req ≤ n + 1 ∧
      Spent (s.coordinator.joinedSeq req) (s.coordinator.memberIDFor req) := by
    by_cases hreq : req.memberID = []
    case pos =>
      rw [h.joinedSeq_of_nil hn hreq, h.memberIDFor_of_nil hn hreq]
      exact ⟨by omega, by omega, spent_decimal (by omega) _⟩
    case neg =>
      rw [Coordinator.joinedSeq, if_neg hreq, Coordinator.memberIDFor, if_neg hreq]
      exact ⟨le_refl _, by omega, hown hreq⟩
  obtain ⟨hle, hle', hspent⟩ := hjoined
  rw [← hseq] at hle hle' hspent
  refine ⟨by omega, by omega, fun x m hm => ?_⟩
  rw [hmember] at hm
  by_cases hx : x = (req.groupID, s.coordinator.memberIDFor req)
  case pos => exact hx ▸ hspent
  case neg =>
    rw [Function.update_of_ne hx] at hm
    exact (h.spent x m hm).mono hle

theorem evicts {groupID : Bytes} {g g' : Group} (h : Inv n s)
    (he : s.coordinator.Evicts s.now groupID memberID g g' s'.coordinator) : Inv (n + 1) s' where
  nonneg := he.nextMemberSeq ▸ h.nonneg
  le     := by
    have := h.le
    rw [he.nextMemberSeq]
    omega
  spent x m hm := by
    rw [he.member?_eq] at hm
    by_cases hx : x = (groupID, memberID)
    case pos =>
      rw [hx, Function.update_self] at hm
      contradiction
    case neg =>
      rw [Function.update_of_ne hx] at hm
      exact he.nextMemberSeq ▸ h.spent x m hm

theorem serve {a : ConsumerGroup.Step} (h : Inv n s) (hn : n < 2 ^ 63 - 1) (hown : OwnIDs s (.serve a))
    (hs : ConsumerGroup.machine.step s a = some (s', o)) : Inv (n + 1) s' := by
  cases moves hs
  case quiet hsame _ => exact h.like (.touched hsame.groups) hsame.nextMemberSeq
  case joins hj _ _ _ => exact h.join hn hown hj.nextMemberSeq (hj.memberID_eq ▸ hj.member?_eq)
  case distributes hleads _ _ _ => exact h.like (.leads hleads) hleads.nextMemberSeq
  case answers hsame => exact h.like (.touched hsame.groups) hsame.nextMemberSeq
  case waits ht _ _ _ => exact h.like (.touched ht.groups) ht.nextMemberSeq
  case evicts he _ _ _ _ => exact h.evicts he
  case completes hcompletes _ _ _ => exact h.like (.completes hcompletes) hcompletes.nextMemberSeq
  case receivesJoin => exact h.like (fun _ => rfl) rfl
  case receivesSync => exact h.like (fun _ => rfl) rfl

end Inv

theorem inductive_inv : machine.InductiveUpTo OwnIDs (2 ^ 63 - 1) fun n s _ => Inv n s where
  step {_ _ a _ _ _} hn h hown hs := by
    cases a
    case serve a => exact h.serve hn hown hs
    case restart =>
      cases Option.some.inj hs
      exact .init _ _ _

-- A `Join` without an id adds a new member, whatever the clients have done before and however often the
-- broker has restarted.
theorem adds_of_ownIDs (hn : as.length < 2 ^ 63 - 1) (hown : machine.Along OwnIDs (.init delay now) as)
    (hr : machine.run (.init delay now) as = some (s, os)) (hreq : req.memberID = []) :
    s.coordinator.Adds s.now req := by
  have h := inductive_inv.run_nil (.init 0 delay now) (by omega) hown hr
  refine Coordinator.adds s.now (Option.eq_none_iff_forall_ne_some.mpr fun m hm => ?_)
  obtain ⟨_, hj, _⟩ := s.coordinator.joins s.now req
  have hspent := h.spent _ m hm
  rw [hj.memberID_eq, h.memberIDFor_of_nil hn hreq] at hspent
  have hnonneg := h.nonneg
  have hle := hspent _ (s.coordinator.nextMemberSeq + 1).toNat (Coordinator.clientName_ne_nil _)
    (by rw [Int.toNat_of_nonneg (by omega)])
  omega

def namedJoin (memberID : Bytes) : JoinRequest :=
  ⟨sampleGroup, [97], 60000, memberID, []⟩

-- A member gets the id "a-1" before a restart and another one after it.
def namesakes : List Step :=
  [.serve (.join (namedJoin [])), .restart, .serve (.join (namedJoin []))]

-- The other member comes with its own id.
theorem adds_of_ownIDs_rejoin :
    ∃ s os, machine.run (.init 3000000000 0) (namesakes ++ [.serve (.join (namedJoin [97, 45, 49]))]) = some (s, os) ∧
      (s.coordinator.getOrCreateGroup sampleGroup).joinOrder = [[97, 45, 49]] ∧
      s.coordinator.Adds s.now (namedJoin []) := by
  have hrun : (machine.run (.init 3000000000 0) (namesakes ++ [.serve (.join (namedJoin [97, 45, 49]))])).map
      (fun r => (r.fst.coordinator.getOrCreateGroup sampleGroup).joinOrder) = some [[97, 45, 49]] := by
    decide +kernel
  obtain ⟨⟨s, os⟩, hs, horder⟩ := Option.map_eq_some_iff.mp hrun
  exact ⟨s, os, hs, horder, adds_of_ownIDs (by decide) (by decide +kernel) hs rfl⟩

-- A member joins again after a restart, with the id from before, which the next one gets as well.
theorem restart_not_adds :
    ∃ s os, machine.run (.init 3000000000 0) [.serve (.join (namedJoin [])), .restart,
        .serve (.join (namedJoin [97, 45, 49]))] = some (s, os) ∧
      ¬s.coordinator.Adds s.now (namedJoin []) := by
  have hrun : (machine.run (.init 3000000000 0) [.serve (.join (namedJoin [])), .restart,
      .serve (.join (namedJoin [97, 45, 49]))]).map (fun r =>
        decide ((r.fst.coordinator.join r.fst.now (namedJoin [])).snd.fst ∈
          (r.fst.coordinator.getOrCreateGroup sampleGroup).members)) = some true := by
    decide +kernel
  obtain ⟨⟨s, os⟩, hs, hmem⟩ := Option.map_eq_some_iff.mp hrun
  exact ⟨s, os, hs, fun h => h.notMem (of_decide_eq_true hmem)⟩

end Restarts
end ConsumerGroup
