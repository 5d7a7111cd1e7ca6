import Gokaf.Network.Leading
import Gokaf.Network.Theorems.Produce
import Gokaf.Replication.Theorems.PartitionState
import Gokaf.Storage.Theorems.Refinement

open Go Protocol Replication

namespace Network

namespace Call

-- The call goes on with the same batch. It cannot come to stand for the replicas on its way.
structure Advances (c c' : Call) : Prop where
  id         : c'.id = c.id
  batch      : c'.batch = c.batch
  baseOffset : c'.response.baseOffset = c.response.baseOffset
  acksAll    : c'.isAcksAll → c.isAcksAll

theorem Advances.refl (c : Call) : c.Advances c :=
  ⟨rfl, rfl, rfl, fun h => h⟩

theorem advances_phase (c : Call) (phase : Phase) : c.Advances { c with phase } :=
  ⟨rfl, rfl, rfl, fun h => h⟩

theorem wake_cases (ws : List Waiter) (c : Call) :
    c.wake ws = c ∨ ∃ deadline, c.wake ws = { c with phase := .released deadline } ∧ ∃ w ∈ ws, w.id = c.id := by
  unfold wake
  split
  case h_2 => exact .inl rfl
  case h_1 deadline _ =>
    split
    case isFalse => exact .inl rfl
    case isTrue hany =>
      have ⟨w, hw, hid⟩ := List.any_eq_true.mp hany
      exact .inr ⟨deadline, rfl, w, hw, of_decide_eq_true hid⟩

theorem advances_wake (ws : List Waiter) (c : Call) : c.Advances (c.wake ws) := by
  cases wake_cases ws c
  case inl h =>
    rw [h]
    exact .refl c
  case inr h =>
    have ⟨deadline, h, _⟩ := h
    exact h ▸ c.advances_phase _

end Call

namespace Leading

variable {l : Leading} {id : Nat} {now : Int} {ws : List Waiter} {phase : Call.Phase}
variable {All Past All' Past' : Bytes → Int → Prop}

-- The calls of a partition. `All` holds of every batch and offset that a call for all replicas is
-- about, `Past` of those that may be acknowledged at any time.
structure Inv (All Past : Bytes → Int → Prop) (l : Leading) : Prop where
  ids    : (l.calls.map (·.id)).Nodup
  id_lt  : ∀ c ∈ l.calls, c.id < l.nextID
  waiter : ∀ st ∈ l.led, ∀ w ∈ st.waiters, w.id < l.nextID ∧
    ∀ c ∈ l.calls, c.id = w.id → w.target = c.response.baseOffset + 1
  all    : ∀ c ∈ l.calls, c.isAcksAll → All c.batch c.response.baseOffset
  past   : ∀ c ∈ l.calls, c.isAcksAll → c.isPast → Past c.batch c.response.baseOffset

namespace Inv

theorem new {led : Option PartitionState} (h : ∀ st ∈ led, st.waiters = []) : Inv All Past (.new led) where
  ids    := .nil
  id_lt  := by simp [Leading.new]
  waiter st hst w hw := by simp [h st hst] at hw
  all    := by simp [Leading.new]
  past   := by simp [Leading.new]

theorem mono (h : Inv All Past l) (hall : ∀ b o, All b o → All' b o) (hpast : ∀ b o, Past b o → Past' b o) :
    Inv All' Past' l where
  ids    := h.ids
  id_lt  := h.id_lt
  waiter := h.waiter
  all c hc ha := hall _ _ (h.all c hc ha)
  past c hc ha hp := hpast _ _ (h.past c hc ha hp)

-- What is known of all calls that are past their wait can be made part of `Past`.
theorem and_past {Q : Bytes → Int → Prop} (h : Inv All Past l)
    (hq : ∀ c ∈ l.calls, c.isAcksAll → c.isPast → Q c.batch c.response.baseOffset) :
    Inv All (fun b o => Past b o ∧ Q b o) l where
  ids    := h.ids
  id_lt  := h.id_lt
  waiter := h.waiter
  all    := h.all
  past c hc ha hp := ⟨h.past c hc ha hp, hq c hc ha hp⟩

-- The state of the partition is kept, or starts without waiters.
theorem setLed {led : Option PartitionState} (h : Inv All Past l)
    (hled : ∀ st ∈ led, st ∈ l.led ∨ st.waiters = []) : Inv All Past { l with led } where
  ids    := h.ids
  id_lt  := h.id_lt
  waiter st hst w hw := by
    cases hled st hst
    case inl hold  => exact h.waiter st hold w hw
    case inr hnone => simp [hnone] at hw
  all    := h.all
  past   := h.past

theorem eq_of_id_eq (h : Inv All Past l) {c c' : Call} (hc : c ∈ l.calls) (hc' : c' ∈ l.calls)
    (hid : c.id = c'.id) : c = c' :=
  List.inj_on_of_nodup_map h.ids hc hc' hid

-- Calls go on, and waiters come only from calls.
theorem map {f : Call → Call} {led : Option PartitionState} (h : Inv All Past l) (hf : ∀ c : Call, c.Advances (f c))
    (hled : ∀ st' ∈ led, ∀ w ∈ st'.waiters, (∃ st ∈ l.led, w ∈ st.waiters) ∨
      ∃ c ∈ l.calls, w = ⟨c.id, c.response.baseOffset + 1⟩)
    (hpast : ∀ c ∈ l.calls, (f c).isAcksAll → (f c).isPast → Past c.batch c.response.baseOffset) :
    Inv All Past { l with led, calls := l.calls.map f } where
  ids := by
    have heq : (l.calls.map f).map (·.id) = l.calls.map (·.id) := by
      rw [List.map_map]
      exact List.map_congr_left fun c _ => (hf c).id
    rw [heq]
    exact h.ids
  id_lt := by
    refine List.forall_mem_map.mpr fun c hc => ?_
    rw [(hf c).id]
    exact h.id_lt c hc
  waiter st' hst' w hw := by
    have hw' : w.id < l.nextID ∧ ∀ c ∈ l.calls, c.id = w.id → w.target = c.response.baseOffset + 1 := by
      cases hled st' hst' w hw
      case inl hold =>
        have ⟨st, hst, hw⟩ := hold
        exact h.waiter st hst w hw
      case inr hnew =>
        have ⟨c, hc, heq⟩ := hnew
        subst heq
        refine ⟨h.id_lt c hc, fun c' hc' hid => ?_⟩
        rw [h.eq_of_id_eq hc' hc hid]
    refine ⟨hw'.left, List.forall_mem_map.mpr fun c hc hid => ?_⟩
    rw [(hf c).baseOffset]
    exact hw'.right c hc ((hf c).id.symm.trans hid)
  all := by
    refine List.forall_mem_map.mpr fun c hc ha => ?_
    rw [(hf c).batch, (hf c).baseOffset]
    exact h.all c hc ((hf c).acksAll ha)
  past := by
    refine List.forall_mem_map.mpr fun c hc ha hp => ?_
    rw [(hf c).batch, (hf c).baseOffset]
    exact hpast c hc ha hp

-- A fetch was recorded: a call that wakes up has its offset below the new watermark.
theorem recorded {st st' : PartitionState} (h : Inv All Past l) (hst : st ∈ l.led)
    (hkept : ∀ w ∈ st'.waiters, w ∈ st.waiters ∨ ∃ c ∈ l.calls, w = ⟨c.id, c.response.baseOffset + 1⟩)
    (hreleased : ∀ w ∈ ws, w ∈ st.waiters ∧ w.target ≤ st'.highWatermark)
    (hpast : ∀ b o, Past b o → Past' b o)
    (hnew : ws ≠ [] → ∀ b o, All b o → o < st'.highWatermark → Past' b o) :
    Inv All Past' (l.recorded (some st') ws) := by
  refine (h.mono (fun _ _ h => h) hpast).map (Call.advances_wake ws) (fun st'' hst'' w hw => ?_)
    (fun c hc ha hp => ?_)
  · cases hst''
    exact (hkept w hw).imp_left fun hw => ⟨st, hst, hw⟩
  · cases c.wake_cases ws
    case inl hsame =>
      rw [hsame] at ha hp
      exact hpast _ _ (h.past c hc ha hp)
    case inr hwake =>
      have ⟨_, _, w, hw, hid⟩ := hwake
      have ⟨hmem, htarget⟩ := hreleased w hw
      have := (h.waiter st hst w hmem).right c hc hid.symm
      have hne : ws ≠ [] := List.ne_nil_of_mem hw
      exact hnew hne _ _ (h.all c hc ((c.advances_wake ws).acksAll ha)) (by omega)

theorem setPhase (h : Inv All Past l)
    (hpast : ∀ c ∈ l.calls, c.id = id → c.isAcksAll → { c with phase }.isPast → Past c.batch c.response.baseOffset) :
    Inv All Past (l.setPhase id phase) := by
  refine h.map (fun c => ?_) (fun st hst w hw => .inl ⟨st, hst, hw⟩) (fun c hc ha hp => ?_)
  · split
    case isTrue  => exact c.advances_phase phase
    case isFalse => exact .refl c
  · split at ha
    case isTrue hid =>
      rw [if_pos hid] at hp
      exact hpast c hc hid ha hp
    case isFalse hid =>
      rw [if_neg hid] at hp
      exact h.past c hc ha hp

theorem expire {l' : Leading} (h : Inv All Past l) (hs : l.expire id now = some l') :
    Inv All Past l' ∧ l'.log = l.log ∧ l'.led = l.led.map (·.removeWaiter id) := by
  simp only [Leading.expire] at hs
  split at hs
  case h_1 => contradiction
  split at hs
  case h_3 => contradiction
  all_goals
    split at hs
    case isFalse => contradiction
    case isTrue =>
      cases Option.some.inj hs
      refine ⟨h.map (fun c => ?_) (fun st' hst' w hw => ?_) (fun c hc ha hp => ?_), rfl, rfl⟩
      · split
        case isTrue  => exact ⟨rfl, rfl, rfl, fun ha => by simp [Call.isAcksAll] at ha⟩
        case isFalse => exact .refl c
      · have ⟨st, hst, heq⟩ := Option.mem_map.mp hst'
        subst heq
        exact .inl ⟨st, hst, (List.mem_filter.mp hw).left⟩
      · split at ha
        case isTrue => simp [Call.isAcksAll] at ha
        case isFalse hid =>
          rw [if_neg hid] at hp
          exact h.past c hc ha hp

theorem finish {l' : Leading} {c : Call} (h : Inv All Past l) (hs : l.finish id = some (l', c)) :
    Inv All Past l' ∧ l'.log = l.log ∧ l'.led = l.led ∧ (c.isAcksAll → Past c.batch c.response.baseOffset) := by
  simp only [Leading.finish] at hs
  split at hs
  case h_1 => contradiction
  case h_2 c' hfind =>
    split at hs
    case isFalse => contradiction
    case isTrue hp =>
      cases Option.some.inj hs
      have hsub : ∀ c ∈ l.calls.filter (·.id ≠ id), c ∈ l.calls := fun c hc => (List.mem_filter.mp hc).left
      refine ⟨?_, rfl, rfl, fun ha => h.past c (List.mem_of_find?_eq_some hfind) ha hp⟩
      exact {
        ids    := h.ids.sublist (List.filter_sublist.map _)
        id_lt  := fun c hc => h.id_lt c (hsub c hc)
        waiter := fun st hst w hw =>
          ⟨(h.waiter st hst w hw).left, fun c hc => (h.waiter st hst w hw).right c (hsub c hc)⟩
        all    := fun c hc => h.all c (hsub c hc)
        past   := fun c hc => h.past c (hsub c hc)
      }

-- What a call does when it comes to its wait, on a broker that has a `PartitionState`.
theorem await {l' : Leading} {st : PartitionState} (h : Inv All Past l) (hst : l.led = some st)
    (hs : l.await id now = some l') :
    ∃ c ∈ l.calls, ∃ s' ws st', PartitionState.Recomputed (st.raise (c.response.baseOffset + 1)) now s' ws ∧
      l'.log = l.log ∧ l'.led = some st' ∧ st' = { s' with waiters := st'.waiters } ∧
      ∀ Past' : Bytes → Int → Prop, (∀ b o, Past b o → Past' b o) →
        (∀ b o, All b o → o < s'.highWatermark → Past' b o) → Inv All Past' l' := by
  simp only [Leading.await] at hs
  split at hs
  case h_1 => contradiction
  case h_2 c hfind =>
    have hmem := List.mem_of_find?_eq_some hfind
    have hid : c.id = id := by simpa using List.find?_some hfind
    split at hs
    case h_2 => contradiction
    case h_1 timeoutMS hphase =>
      rw [hst] at hs
      dsimp only at hs
      have ⟨s', ws, hr, hcases⟩ := st.waitForHighWatermark_cases id (c.response.baseOffset + 1) now
      have hkept : ∀ w ∈ s'.waiters, w ∈ st.waiters := by simpa using hr.kept
      have hreleased : ∀ w ∈ ws, w ∈ st.waiters ∧ w.target ≤ s'.highWatermark := by simpa using hr.released
      cases hcases
      case inl hpass =>
        have ⟨hle, hpass⟩ := hpass
        rw [hpass] at hs
        cases Option.some.inj hs
        refine ⟨c, hmem, s', ws, s', hr, rfl, rfl, rfl, fun Past' hpast hnew => ?_⟩
        refine (h.recorded hst (fun w hw => .inl (hkept w hw)) hreleased hpast fun _ => hnew).setPhase
          fun c' hc' hid' ha _ => ?_
        have ⟨c'', hc'', heq⟩ := List.mem_map.mp hc'
        subst heq
        have hadv := c''.advances_wake ws
        have := h.eq_of_id_eq hc'' hmem ((hadv.id.symm.trans hid').trans hid.symm)
        subst this
        rw [hadv.batch, hadv.baseOffset]
        exact hnew _ _ (h.all _ hmem (hadv.acksAll ha)) (by omega)
      case inr hpark =>
        rw [hpark] at hs
        cases Option.some.inj hs
        refine ⟨c, hmem, s', ws, _, hr, rfl, rfl, rfl, fun Past' hpast hnew => ?_⟩
        let parked : PartitionState := { s' with waiters := s'.waiters ++ [⟨id, c.response.baseOffset + 1⟩] }
        have hparked : Inv All Past' (l.recorded (some parked) ws) := by
          refine h.recorded hst (fun w hw => ?_) hreleased hpast fun _ => hnew
          cases List.mem_append.mp hw
          case inl hw => exact .inl (hkept w hw)
          case inr hw => exact .inr ⟨c, hmem, hid ▸ List.mem_singleton.mp hw⟩
        refine hparked.setPhase fun c' _ _ _ hp => ?_
        simp [Call.isPast] at hp

theorem snoc {l' : Leading} {c : Call} (h : Inv All Past l) (hled : l'.led = l.led)
    (hcalls : l'.calls = l.calls ++ [c]) (hid : c.id = l.nextID) (hnext : l'.nextID = l.nextID + 1)
    (hall : c.isAcksAll → All c.batch c.response.baseOffset)
    (hpast : c.isAcksAll → c.isPast → Past c.batch c.response.baseOffset) : Inv All Past l' where
  ids := by
    rw [hcalls, List.map_append, List.map_singleton, List.nodup_append]
    refine ⟨h.ids, List.nodup_singleton _, ?_⟩
    simp only [List.mem_map, List.mem_singleton, forall_exists_index, and_imp]
    rintro _ c' hc' rfl _ rfl
    have := h.id_lt c' hc'
    omega
  id_lt := by
    rw [hcalls, List.forall_mem_append, List.forall_mem_singleton]
    refine ⟨fun c' hc' => ?_, by omega⟩
    have := h.id_lt c' hc'
    omega
  waiter st hst w hw := by
    have ⟨hlt, htarget⟩ := h.waiter st (hled ▸ hst) w hw
    rw [hcalls, List.forall_mem_append, List.forall_mem_singleton]
    exact ⟨by omega, htarget, by omega⟩
  all := by
    rw [hcalls, List.forall_mem_append, List.forall_mem_singleton]
    exact ⟨h.all, hall⟩
  past := by
    rw [hcalls, List.forall_mem_append, List.forall_mem_singleton]
    exact ⟨h.past, hpast⟩

-- A new call. If it does not have to wait, it must be past its wait for good.
theorem produce {nodeID : Int} {leader : Option Int} {topicName : Bytes} {partitionIndex : Int} {batch : Bytes}
    {acks timeoutMS : Int} {producers : Producer.Manager} {log : Except IOError Storage.Log}
    {produced : Produced} (h : Inv All Past l)
    (hp : producePartition Storage.Log.appendWithOffset nodeID leader topicName partitionIndex batch l.producers
      (.ok l.log) = (producers, log, produced))
    (hall : acks = -1 → produced.response.errorCode = .none → All batch produced.response.baseOffset)
    (hpast : acks = -1 → ∀ r, produced = .answer r → r.errorCode = .none → Past batch r.baseOffset) :
    Inv All Past (l.produce nodeID leader topicName partitionIndex batch acks timeoutMS) := by
  simp only [Leading.produce, hp]
  refine h.snoc rfl rfl rfl rfl (fun ha => ?_) (fun ha hpast' => ?_)
  all_goals
    simp only [Call.isAcksAll, decide_eq_true_eq] at ha
    have ⟨hacks, hnone⟩ := ha
  · exact hall hacks hnone
  · cases produced
    case answer r => exact hpast hacks r rfl hnone
    case waitForAllAcks r =>
      have hr : r.errorCode = .none := hnone
      simp [Call.isPast, hacks, hr] at hpast'

end Inv

theorem recorded_none (h : l.led = none) : l.recorded none [] = l := by
  have hwake : Call.wake [] = id := by
    funext c
    exact (c.wake_cases []).resolve_right (by simp)
  simp [recorded, release, hwake, ← h]

theorem cachedOffset?_eq_some {topicName : Bytes} {partitionIndex o : Int} {batch : Bytes}
    (hpid : 0 ≤ Batch.pid batch)
    (hcheck : l.producers.checkSequenceLocked ⟨Batch.pid batch, topicName, partitionIndex⟩ (Batch.baseSeq batch) =
      ⟨.duplicate, o⟩) : l.cachedOffset? topicName partitionIndex batch = some o := by
  simp [cachedOffset?, Producer.Manager.checkSequence, hcheck, hpid]

theorem producePartition_of_ne {nodeID leader : Int} (h : leader ≠ nodeID) (topicName : Bytes)
    (partitionIndex : Int) (batch : Bytes) :
    producePartition Storage.Log.appendWithOffset nodeID (some leader) topicName partitionIndex batch l.producers
      (.ok l.log) = (l.producers, .ok l.log, .answer ⟨partitionIndex, .notLeaderForPartition, -1⟩) := by
  simp [producePartition, h]

theorem log_produce_of_ne {nodeID leader : Int} (h : leader ≠ nodeID) (topicName : Bytes) (partitionIndex : Int)
    (batch : Bytes) (acks timeoutMS : Int) :
    (l.produce nodeID (some leader) topicName partitionIndex batch acks timeoutMS).log = l.log := by
  simp only [produce, producePartition_of_ne h]

theorem log_of_await {l' : Leading} (hs : l.await id now = some l') : l'.log = l.log := by
  simp only [await] at hs
  split at hs
  case h_1 => contradiction
  split at hs
  case h_2 => contradiction
  split at hs
  case h_1 => exact Option.some.inj hs ▸ rfl
  case h_2 =>
    split at hs
    all_goals exact Option.some.inj hs ▸ rfl

theorem log_of_expire {l' : Leading} (hs : l.expire id now = some l') : l'.log = l.log := by
  simp only [expire] at hs
  split at hs
  case h_1 => contradiction
  split at hs
  case h_3 => contradiction
  all_goals
    split at hs
    case isTrue  => exact Option.some.inj hs ▸ rfl
    case isFalse => contradiction

theorem log_of_finish {l' : Leading} {c : Call} (hs : l.finish id = some (l', c)) : l'.log = l.log := by
  simp only [finish] at hs
  split at hs
  case h_1 => contradiction
  split at hs
  case isTrue  => exact congrArg (·.fst.log) (Option.some.inj hs).symm
  case isFalse => contradiction

-- A produce on a log with the entries `L`: nothing is appended, and only a copy of an earlier batch is
-- answered without an error, or the batch gets the next offset.
theorem producePartition_cases {L : List Bytes} (h : l.log.Stores L) (nodeID : Int) (leader : Option Int)
    (topicName : Bytes) (partitionIndex : Int) {batch : Bytes} (hb : batch.length < 2 ^ 32)
    (hlen : L.length + 1 < 2 ^ 63) :
    ∃ producers log produced,
      producePartition Storage.Log.appendWithOffset nodeID leader topicName partitionIndex batch l.producers
        (.ok l.log) = (producers, .ok log, produced) ∧
      ((log = l.log ∧ ∃ r, produced = .answer r ∧ (r.errorCode = .none →
          leader = some nodeID ∧ l.cachedOffset? topicName partitionIndex batch = some r.baseOffset)) ∨
        leader = some nodeID ∧ log.Stores (L ++ [Batch.withBaseOffset batch L.length]) ∧
          produced = .waitForAllAcks ⟨partitionIndex, .none, L.length⟩) := by
  have ⟨l', happend, hl'⟩ := h.appendWithOffset Batch.stamp hb hlen
  rcases hp : producePartition Storage.Log.appendWithOffset nodeID leader topicName partitionIndex batch
    l.producers (.ok l.log) with ⟨producers, log, produced⟩
  cases produces hp
  case refused r hr => exact ⟨_, l.log, _, rfl, .inl ⟨rfl, r, rfl, fun h => absurd h hr⟩⟩
  case failed hlog ha hr =>
    cases hlog
    rw [happend] at ha
    cases ha
  case duplicate hleader _ hlog hpid hcheck =>
    cases hlog
    exact ⟨_, _, _, rfl, .inl ⟨rfl, _, rfl, fun _ => ⟨hleader, cachedOffset?_eq_some hpid hcheck⟩⟩⟩
  case appended hleader _ hlog _ _ ha =>
    cases hlog
    rw [happend] at ha
    cases ha
    exact ⟨_, _, _, rfl, .inr ⟨hleader, hl', rfl⟩⟩
  case plain hleader _ hlog _ ha =>
    cases hlog
    rw [happend] at ha
    cases ha
    exact ⟨_, _, _, rfl, .inr ⟨hleader, hl', rfl⟩⟩

end Leading
end Network
