import Mathlib.Data.List.InsertIdx
import Gokaf.Group.Theorems.Members

open Go Protocol

namespace ConsumerGroup

-- Whose session an output shows to be renewed: a `Join` is made, or a `Heartbeat` or `Sync` is answered
-- without an error.
def Output.renewed? : Output → Option (Bytes × Bytes)
  | .joining call _          => some (call.groupID, call.memberID)
  | .synced call result      => if result.errorCode = .none then some (call.groupID, call.memberID) else none
  | .heartbeat req errorCode => if errorCode = .none then some (req.groupID, req.memberID) else none
  | _                        => none

def Output.heartbeat? : Output → Option (HeartbeatRequest × ErrorCode)
  | .heartbeat req errorCode => some (req, errorCode)
  | _                        => none

def renewed (o : List Output) : List (Bytes × Bytes) :=
  o.filterMap Output.renewed?

def State.renewed (s : State) (a : Step) : List (Bytes × Bytes) :=
  (machine.step s a).elim [] fun r => ConsumerGroup.renewed r.snd

namespace Step

def isJoin : Step → Bool
  | join _ => true
  | _      => false

end Step

-- The coordinator as it is seen by somebody who remembers, for each callback in flight, whether the session
-- of its member was renewed after the timer fired.
namespace Renewal

structure Callback where
  target  : Bytes × Bytes
  renewed : Bool
  deriving DecidableEq, Repr

structure State where
  state     : ConsumerGroup.State
  callbacks : List Callback

def Callback.observe (o : List Output) (cb : Callback) : Callback :=
  { cb with renewed := cb.renewed || (ConsumerGroup.renewed o).contains cb.target }

def observe (callbacks : List Callback) (a : Step) (s' : ConsumerGroup.State) (o : List Output) : List Callback :=
  let callbacks := callbacks.map (·.observe o)
  match a with
  | .fireSessionTimer _ => callbacks ++ s'.expirations.getLast?.toList.map fun target => ⟨target, false⟩
  | .expireMember i     => callbacks.eraseIdx i
  | _                   => callbacks

def machine : Machine State Step Output where
  step w a := (ConsumerGroup.machine.step w.state a).map fun (s', o) => (⟨s', observe w.callbacks a s' o⟩, o)

def init (rebalanceDelay now : Int) : State where
  state     := .init rebalanceDelay now
  callbacks := []

namespace State

def isMember (w : State) (x : Bytes × Bytes) : Bool :=
  (w.state.coordinator.member? x).isSome

-- No callback that has been overtaken by a renewal removes its member when it gets to run.
def Spares (w : State) : Prop :=
  ∀ i cb, w.callbacks[i]? = some cb → cb.renewed = true → w.isMember cb.target = true →
    ∀ w' o, machine.step w (.expireMember i) = some (w', o) → w'.isMember cb.target = true

end State

-- The session of a member is renewed only while no callback of its session timer is in flight.
def InTurn (w : State) (a : Step) : Prop :=
  ∀ x ∈ w.state.renewed a, w.isMember x = true ∨ a.isJoin = true → x ∉ w.state.expirations

instance (w : State) (a : Step) : Decidable (InTurn w a) :=
  inferInstanceAs (Decidable (∀ x ∈ w.state.renewed a, _))

section Step

variable {s s' : ConsumerGroup.State} {a : Step} {o : List Output} {x : Bytes × Bytes}

-- The callbacks in flight change only when a timer fires and when one of them runs.
theorem expirations_of_step (hs : ConsumerGroup.machine.step s a = some (s', o)) :
    (∃ t y, a = .fireSessionTimer t ∧ s'.expirations = s.expirations ++ [y] ∧ o = []) ∨
      (∃ i, a = .expireMember i ∧ s'.expirations = s.expirations.eraseIdx i ∧ o = []) ∨
      (∀ callbacks, observe callbacks a s' o = callbacks.map (·.observe o)) ∧ s'.expirations = s.expirations := by
  cases a
  case fireSessionTimer t =>
    obtain ⟨⟨ts, id⟩, -, heq⟩ := Option.map_eq_some_iff.mp hs
    cases heq
    exact .inl ⟨t, id, rfl, rfl, rfl⟩
  case expireMember i =>
    obtain ⟨⟨groupID, memberID⟩, -, heq⟩ := Option.map_eq_some_iff.mp hs
    cases heq
    exact .inr (.inl ⟨i, rfl, rfl, rfl⟩)
  case sync req =>
    refine .inr (.inr ⟨fun _ => rfl, ?_⟩)
    simp only [ConsumerGroup.machine] at hs
    split at hs <;> cases hs <;> rfl
  case completeJoin i =>
    refine .inr (.inr ⟨fun _ => rfl, ?_⟩)
    obtain ⟨groupID, -, heq⟩ := Option.map_eq_some_iff.mp hs
    simp only at heq
    split at heq <;> cases heq <;> rfl
  case receiveJoin | receiveSync | fireJoinTimer =>
    refine .inr (.inr ⟨fun _ => rfl, ?_⟩)
    obtain ⟨_, -, heq⟩ := Option.map_eq_some_iff.mp hs
    cases heq
    rfl
  all_goals
    cases hs
    exact .inr (.inr ⟨fun _ => rfl, rfl⟩)

theorem isSome_of_like {c c' : Coordinator} (h : c.Like c') (x : Bytes × Bytes) :
    (c'.member? x).isSome = (c.member? x).isSome := by
  have := congrArg Option.isSome (h x)
  simpa using this

theorem renewed_of_evicted {y : Bytes × Bytes} (ha : s.evicted? a = some y)
    (hs : ConsumerGroup.machine.step s a = some (s', o)) : renewed o = [] := by
  cases a <;> simp only [ConsumerGroup.State.evicted?, reduceCtorEq] at ha
  case leave req =>
    cases hs
    rfl
  case expireMember i =>
    obtain ⟨id, -, heq⟩ := Option.map_eq_some_iff.mp hs
    cases heq
    rfl

-- A `Join` makes one member and renews it, `Leave` and expiry remove one, and nothing else adds or removes any.
theorem members_of_step (hs : ConsumerGroup.machine.step s a = some (s', o)) :
    (a.isJoin = true ∧ ∃ y m, s'.coordinator.member? = Function.update s.coordinator.member? y (some m) ∧
        renewed o = [y]) ∨
      (∃ y, s'.coordinator.member? = Function.update s.coordinator.member? y none ∧ renewed o = []) ∨
      (a.isJoin = false ∧ s.coordinator.Like s'.coordinator) := by
  by_cases hjoin : a.isJoin = true
  case pos =>
    cases a <;> simp only [Step.isJoin, Bool.false_eq_true] at hjoin
    case join req =>
      cases moves hs
      case quiet hquiet =>
        have hout := congrArg (Option.map (·.snd)) hs
        simp only [ConsumerGroup.machine, Option.map_some, Option.some.injEq] at hout
        exact absurd (hquiet _ (hout ▸ List.mem_cons_self)) id
      case joins hcall _ _ _ hj =>
        subst hcall
        exact .inl ⟨rfl, _, _, hj.member?_eq, rfl⟩
      case evicts ha _ _ _ _ _ => cases ha
  case neg =>
    have hjoin : a.isJoin = false := by simpa using hjoin
    cases moves hs
    case quiet hsame _ => exact .inr (.inr ⟨hjoin, .touched hsame.groups⟩)
    case joins => cases hjoin
    case distributes hleads _ _ _ => exact .inr (.inr ⟨rfl, .leads hleads⟩)
    case answers hsame => exact .inr (.inr ⟨rfl, .touched hsame.groups⟩)
    case waits ht _ _ _ => exact .inr (.inr ⟨rfl, .touched ht.groups⟩)
    case evicts ha he _ _ _ _ => exact .inr (.inl ⟨_, he.member?_eq, renewed_of_evicted ha hs⟩)
    case completes hi hcompletes _ _ _ => exact .inr (.inr ⟨rfl, .completes hcompletes⟩)
    case receivesJoin => exact .inr (.inr ⟨rfl, fun _ => rfl⟩)
    case receivesSync => exact .inr (.inr ⟨rfl, fun _ => rfl⟩)

-- Who is a member after a step was one before or is renewed by it.
theorem isSome_or_renewed (hs : ConsumerGroup.machine.step s a = some (s', o))
    (hx : (s'.coordinator.member? x).isSome = true) : (s.coordinator.member? x).isSome = true ∨ x ∈ renewed o := by
  obtain ⟨-, y, m, hmember, hnew⟩ | ⟨y, hmember, -⟩ | ⟨-, hlike⟩ := members_of_step hs
  case inl =>
    by_cases hxy : x = y
    case pos => exact .inr (by rw [hnew, hxy]; exact List.mem_cons_self)
    case neg =>
      rw [hmember, Function.update_of_ne hxy] at hx
      exact .inl hx
  case inr.inl =>
    by_cases hxy : x = y
    case pos =>
      rw [hmember, hxy, Function.update_self] at hx
      contradiction
    case neg =>
      rw [hmember, Function.update_of_ne hxy] at hx
      exact .inl hx
  case inr.inr => exact .inl (isSome_of_like hlike x ▸ hx)

theorem isSome_iff_of_renewed (hs : ConsumerGroup.machine.step s a = some (s', o)) (hx : x ∈ renewed o) :
    (s'.coordinator.member? x).isSome = true ↔ (s.coordinator.member? x).isSome = true ∨ a.isJoin = true := by
  obtain ⟨hjoin, y, m, hmember, hnew⟩ | ⟨y, -, hnone⟩ | ⟨hjoin, hlike⟩ := members_of_step hs
  case inl =>
    rw [hnew, List.mem_singleton] at hx
    rw [hmember, hx, Function.update_self]
    exact iff_of_true rfl (.inr hjoin)
  case inr.inl =>
    rw [hnone] at hx
    contradiction
  case inr.inr => simp [isSome_of_like hlike x, hjoin]

end Step

theorem member?_expireMember (c : Coordinator) (now : Int) (x : Bytes × Bytes) :
    (c.expireMember now x.fst x.snd).member? x = none := by
  unfold Coordinator.expireMember
  cases h : c.evict now x.fst x.snd
  case some c' =>
    obtain ⟨_, _, he⟩ := Coordinator.evicts h
    rw [Option.getD_some, he.member?_eq]
    exact Function.update_self ..
  case none =>
    rw [Option.getD_none, Coordinator.member?, Option.bind_eq_none_iff]
    intro g hg
    simp only [Coordinator.evict, hg, Option.bind_eq_bind, Option.bind_some, Option.bind_eq_none_iff] at h
    cases hm : g.members.lookup x.snd
    case none   => rfl
    case some m =>
      have := h m hm
      contradiction

namespace State

variable {w w' : State} {a : Step} {o : List Output} {x : Bytes × Bytes}

theorem step_eq_some (hs : machine.step w a = some (w', o)) :
    ConsumerGroup.machine.step w.state a = some (w'.state, o) ∧ w'.callbacks = observe w.callbacks a w'.state o := by
  obtain ⟨⟨s', o'⟩, hs', heq⟩ := Option.map_eq_some_iff.mp hs
  cases heq
  exact ⟨hs', rfl⟩

theorem renewed_eq (hs : machine.step w a = some (w', o)) : w.state.renewed a = renewed o := by
  rw [ConsumerGroup.State.renewed, (step_eq_some hs).left]
  rfl

-- The callbacks that are remembered are those in flight.
def Matches (w : State) : Prop :=
  w.callbacks.map (·.target) = w.state.expirations

theorem observe_nil (callbacks : List Callback) : callbacks.map (·.observe []) = callbacks := by
  have hid : Callback.observe [] = id := by
    funext cb
    simp [Callback.observe, renewed]
  rw [hid, List.map_id]

-- The callbacks after a step are the ones before it as they are seen from its outputs, one fewer or one more.
theorem callbacks_of_step (hs : machine.step w a = some (w', o)) :
    (∃ y, w'.callbacks = w.callbacks ++ [⟨y, false⟩] ∧ w'.state.expirations = w.state.expirations ++ [y] ∧ o = []) ∨
      (∃ i, w'.callbacks = w.callbacks.eraseIdx i ∧ w'.state.expirations = w.state.expirations.eraseIdx i ∧ o = []) ∨
      (w'.callbacks = w.callbacks.map (·.observe o) ∧ w'.state.expirations = w.state.expirations) := by
  obtain ⟨hs, hcallbacks⟩ := step_eq_some hs
  obtain ⟨t, y, rfl, hexp, rfl⟩ | ⟨i, rfl, hexp, rfl⟩ | ⟨hobserve, hexp⟩ := expirations_of_step hs
  case inl => exact .inl ⟨y, by simp [hcallbacks, observe, hexp, observe_nil], hexp, rfl⟩
  case inr.inl => exact .inr (.inl ⟨i, by simp [hcallbacks, observe, observe_nil], hexp, rfl⟩)
  case inr.inr => exact .inr (.inr ⟨hcallbacks.trans (hobserve _), hexp⟩)

theorem Matches.step (h : w.Matches) (hs : machine.step w a = some (w', o)) : w'.Matches := by
  unfold Matches at h ⊢
  obtain ⟨y, hcallbacks, hexp, -⟩ | ⟨i, hcallbacks, hexp, -⟩ | ⟨hcallbacks, hexp⟩ := callbacks_of_step hs
  case inl => rw [hcallbacks, hexp, ← h, List.map_append, List.map_singleton]
  case inr.inl => rw [hcallbacks, hexp, ← h, List.eraseIdx_map]
  case inr.inr =>
    rw [hcallbacks, hexp, ← h, List.map_map]
    rfl

theorem Matches.mem_expirations (h : w.Matches) : x ∈ w.state.expirations ↔ ∃ cb ∈ w.callbacks, cb.target = x := by
  rw [← h, List.mem_map]

-- A callback that has been overtaken finds its member gone.
def Settled (w : State) : Prop :=
  ∀ cb ∈ w.callbacks, cb.renewed = true → w.isMember cb.target = false

-- The callback that runs does not ask whether it has been overtaken.
theorem isMember_expireMember {i : Nat} (hx : w.state.expirations[i]? = some x) :
    ∃ w', machine.step w (.expireMember i) = some (w', []) ∧ w'.isMember x = false := by
  refine ⟨_, Option.map_eq_some_iff.mpr ⟨_, Option.map_eq_some_iff.mpr ⟨x, hx, rfl⟩, rfl⟩, ?_⟩
  exact Option.isSome_eq_false_iff.mpr (Option.isNone_iff_eq_none.mpr (member?_expireMember ..))

theorem spares_iff_settled (h : w.Matches) : w.Spares ↔ w.Settled := by
  constructor
  · intro hspares cb hcb hrenewed
    obtain ⟨i, hi⟩ := List.mem_iff_getElem?.mp hcb
    have hx : w.state.expirations[i]? = some cb.target := by
      rw [← h, List.getElem?_map, hi]
      rfl
    obtain ⟨w', hs, hgone⟩ := isMember_expireMember hx
    by_contra hmember
    have hstays := hspares i cb hi hrenewed (eq_true_of_ne_false hmember) w' [] hs
    exact absurd (hgone.symm.trans hstays) Bool.false_ne_true
  · intro hsettled i cb hi hrenewed hmember
    have hgone := hsettled cb (List.mem_of_getElem? hi) hrenewed
    exact absurd (hgone.symm.trans hmember) Bool.false_ne_true

theorem overtaken_of_step (hs : machine.step w a = some (w', o)) {cb' : Callback} (hcb' : cb' ∈ w'.callbacks)
    (hrenewed : cb'.renewed = true) :
    ∃ cb ∈ w.callbacks, cb.target = cb'.target ∧ (cb.renewed = true ∨ cb.target ∈ renewed o) := by
  obtain ⟨y, hcallbacks, -⟩ | ⟨i, hcallbacks, -⟩ | ⟨hcallbacks, -⟩ := callbacks_of_step hs
  all_goals
    rw [hcallbacks] at hcb'
  case inl =>
    obtain hcb' | hcb' := List.mem_append.mp hcb'
    case inl => exact ⟨cb', hcb', rfl, .inl hrenewed⟩
    case inr =>
      rw [List.mem_singleton.mp hcb'] at hrenewed
      contradiction
  case inr.inl => exact ⟨cb', List.mem_of_mem_eraseIdx hcb', rfl, .inl hrenewed⟩
  case inr.inr =>
    obtain ⟨cb, hcb, rfl⟩ := List.mem_map.mp hcb'
    refine ⟨cb, hcb, rfl, ?_⟩
    simpa [Callback.observe] using hrenewed

theorem overtaken_of_renewed (h : w.Matches) (hs : machine.step w a = some (w', o)) (hx : x ∈ w.state.expirations)
    (hrenewed : x ∈ renewed o) : ∃ cb' ∈ w'.callbacks, cb'.target = x ∧ cb'.renewed = true := by
  obtain ⟨cb, hcb, rfl⟩ := h.mem_expirations.mp hx
  obtain ⟨y, -, -, rfl⟩ | ⟨i, -, -, rfl⟩ | ⟨hcallbacks, -⟩ := callbacks_of_step hs
  case inr.inr =>
    rw [hcallbacks]
    refine ⟨cb.observe o, List.mem_map_of_mem hcb, rfl, ?_⟩
    simp [Callback.observe, hrenewed]
  all_goals contradiction

theorem settled_step_iff (h : w.Matches) (hsettled : w.Settled) (hs : machine.step w a = some (w', o)) :
    w'.Settled ↔ InTurn w a := by
  have hstep := (step_eq_some hs).left
  unfold InTurn
  rw [renewed_eq hs]
  constructor
  · intro hsettled' x hx hmember hexp
    obtain ⟨cb', hcb', rfl, hrenewed⟩ := overtaken_of_renewed h hs hexp hx
    have hgone := hsettled' cb' hcb' hrenewed
    have hstays := (isSome_iff_of_renewed hstep hx).mpr hmember
    exact absurd (hgone.symm.trans hstays) Bool.false_ne_true
  · intro hturn cb' hcb' hrenewed'
    obtain ⟨cb, hcb, htarget, hrenewed⟩ := overtaken_of_step hs hcb' hrenewed'
    rw [← htarget]
    by_contra hne
    have hmember' : (w'.state.coordinator.member? cb.target).isSome = true := eq_true_of_ne_false hne
    have hx : cb.target ∈ renewed o := by
      obtain hrenewed | hx := hrenewed
      case inr => exact hx
      case inl =>
        refine (isSome_or_renewed hstep hmember').resolve_left fun hmember => ?_
        exact absurd ((hsettled cb hcb hrenewed).symm.trans hmember) Bool.false_ne_true
    refine hturn cb.target hx ((isSome_iff_of_renewed hstep hx).mp hmember') ?_
    exact h.mem_expirations.mpr ⟨cb, hcb, rfl⟩

end State

theorem inTurn_of_none {w : State} {a : Step} (hs : machine.step w a = none) : InTurn w a := by
  intro x hx
  rw [ConsumerGroup.State.renewed, Option.map_eq_none_iff.mp hs] at hx
  contradiction

-- Callbacks that have been overtaken spare their members throughout a run exactly if no session is renewed while a
-- callback of its timer is in flight.
theorem spares_iff_inTurn (rebalanceDelay now : Int) (as : List Step) :
    (∀ bs, bs <+: as → ∀ w os, machine.run (init rebalanceDelay now) bs = some (w, os) → w.Spares) ↔
      machine.Along InTurn (init rebalanceDelay now) as := by
  have hinit : (init rebalanceDelay now).Matches := rfl
  refine (Machine.along_iff_forall_reached (Q := State.Matches) (fun h hspares hs => ?_) inTurn_of_none hinit ?_).symm
  · have hsettled := (State.spares_iff_settled h).mp hspares
    exact ⟨h.step hs, (State.spares_iff_settled (h.step hs)).trans (State.settled_step_iff h hsettled hs)⟩
  · intro i cb hi
    contradiction

-- The session timer fires while the heartbeat is on its way.
def lateHeartbeat : List Step := [
  sampleJoin [97], .receiveJoin 0, .tick 3000000000, .fireJoinTimer 0, .completeJoin 0, .tick 60000000000,
  .fireSessionTimer 0, .heartbeat ⟨sampleGroup, 1, [97]⟩
]

theorem lateHeartbeat_not_spared :
    ∃ w os, machine.run (init 3000000000 0) lateHeartbeat = some (w, os) ∧
      os.filterMap Output.heartbeat? = [(⟨sampleGroup, 1, [97]⟩, .none)] ∧ ¬w.Spares := by
  have hanswer : (machine.run (init 3000000000 0) lateHeartbeat).map (·.snd.filterMap Output.heartbeat?) =
      some [(⟨sampleGroup, 1, [97]⟩, .none)] := by decide +kernel
  have hrun : (machine.run (init 3000000000 0) lateHeartbeat).map (fun r =>
      (r.fst.callbacks[0]?, r.fst.state.expirations[0]?, r.fst.isMember (sampleGroup, [97]))) =
      some (some ⟨(sampleGroup, [97]), true⟩, some (sampleGroup, [97]), true) := by decide +kernel
  obtain ⟨⟨w, os⟩, hs, heq⟩ := Option.map_eq_some_iff.mp hrun
  simp only [Prod.mk.injEq] at heq
  obtain ⟨hi, hx, hmember⟩ := heq
  rw [hs, Option.map_some, Option.some.injEq] at hanswer
  refine ⟨w, os, hs, hanswer, fun hspares => ?_⟩
  obtain ⟨w', hs', hgone⟩ := State.isMember_expireMember hx
  exact absurd (hgone.symm.trans (hspares 0 _ hi rfl hmember w' [] hs')) Bool.false_ne_true

end Renewal

end ConsumerGroup
