import Gokaf.Network.Theorems.Leading
import Gokaf.Replication.Theorems.Execution

open Go Protocol Replication

namespace Replication.PartitionState

variable {s : PartitionState} {now : Int}

-- Whoever waits, waits for a follower that has not asked for what is behind its target.
def Short (s : PartitionState) : Prop :=
  ∀ w ∈ s.waiters, ∃ b ∈ s.replicas, b ≠ s.leaderID ∧ (s.followerOffset b).getD 0 < w.target

-- Nobody waits for what is reached.
def Unsatisfied (s : PartitionState) : Prop :=
  ∀ w ∈ s.waiters, s.highWatermark < w.target

theorem Unsatisfied.recomputeAndRelease (h : s.Unsatisfied) (now : Int) : (s.recomputeAndRelease now).fst.Unsatisfied :=
  forall_lt_recomputeAndRelease h

theorem Short.of_kept {s' : PartitionState} {released : List Waiter} (h : s.Short) (hr : Recomputed s now s' released) :
    s'.Short := by
  intro w hw
  obtain ⟨b, hb, hne, hlt⟩ := h w (hr.kept w hw)
  rw [hr.eq]
  exact ⟨b, hb, hne, hlt⟩

-- A fetch has read the end of the leader's log after that of the follower's.
theorem Short.recordFollowerFetch {b f e : Int} (h : s.Short) (hu : s.Unsatisfied) (hle : f ≤ e) :
    (s.recordFollowerFetch b f e now).fst.Short := by
  have hr := s.recordFollowerFetch_recomputed b f e now
  intro w hw
  have hu' : (s.fetched b f e now).Unsatisfied := hu
  have hlt := hu'.recomputeAndRelease now w hw
  have hwatermark : (s.fetched b f e now).watermark now < w.target := hr.highWatermark ▸ hlt
  rw [hr.eq]
  cases watermark_lt_iff.mp hwatermark
  case inr hfollower =>
    obtain ⟨b', hb', hne, hlt'⟩ := hfollower
    exact ⟨b', (mem_isr hb' hne).left, hne, hlt'⟩
  case inl hend =>
    -- The target is behind all that the fetch knows of, so whoever was in the way still is.
    obtain ⟨b', hb', hne, hlt'⟩ := h w (hr.kept w hw)
    refine ⟨b', hb', hne, ?_⟩
    by_cases heq : b' = b
    case pos =>
      subst heq
      dsimp only
      rw [followerOffset_fetched_self, Option.getD_some]
      exact lt_of_le_of_lt hle hend
    case neg =>
      dsimp only
      rwa [followerOffset_fetched_of_ne heq]

theorem Short.updateHighWatermark (h : s.Short) (e : Int) : (s.updateHighWatermark e now).fst.Short :=
  Short.of_kept (s := { s with leaderEndOffset := e }) h (s.updateHighWatermark_recomputed e now)

theorem Short.raise (h : s.Short) (target : Int) : (s.raise target).Short := by
  intro w hw
  rw [waiters_raise] at hw
  obtain ⟨b, hb, hne, hlt⟩ := h w hw
  unfold PartitionState.raise
  split
  all_goals exact ⟨b, hb, hne, hlt⟩

theorem le_leaderEndOffset_raise (s : PartitionState) (target : Int) : target ≤ (s.raise target).leaderEndOffset := by
  unfold raise
  split
  case isTrue      => exact le_refl target
  case isFalse hlt => exact not_lt.mp hlt

-- What `WaitForHighWatermark` leaves as it is.
theorem raise_eq (s : PartitionState) (target : Int) :
    s.raise target = { s with leaderEndOffset := (s.raise target).leaderEndOffset } := by
  unfold raise
  split <;> rfl

def park (s : PartitionState) (w : Waiter) : PartitionState :=
  { s with waiters := s.waiters ++ [w] }

theorem waitForHighWatermark_eq (s : PartitionState) (id : Nat) (target now : Int) :
    s.waitForHighWatermark id target now =
      let r := (s.raise target).recomputeAndRelease now
      if target ≤ r.fst.highWatermark then
        (r.fst, r.snd, true)
      else
        (r.fst.park ⟨id, target⟩, r.snd, false) :=
  rfl

-- Whoever is parked waits for a follower, as the leader itself has what is waited for.
theorem Short.park {target : Int} {s' : PartitionState} {released : List Waiter} (h : s.Short) (id : Nat)
    (hr : Recomputed (s.raise target) now s' released) (hlt : s'.highWatermark < target) :
    (s'.park ⟨id, target⟩).Short := by
  intro w hw
  cases List.mem_append.mp hw
  case inl hold => exact (h.raise target).of_kept hr w hold
  case inr hnew =>
    cases List.mem_singleton.mp hnew
    rw [hr.highWatermark, watermark_lt_iff] at hlt
    obtain ⟨b, hb, hne, hlt'⟩ := hlt.resolve_left (not_lt.mpr (s.le_leaderEndOffset_raise target))
    rw [hr.eq]
    exact ⟨b, (mem_isr hb hne).left, hne, hlt'⟩

theorem Short.removeWaiter (h : s.Short) (id : Nat) : (s.removeWaiter id).Short :=
  fun w hw => h w (List.mem_filter.mp hw).left

end Replication.PartitionState

namespace Network

namespace Call

-- The call has gone on from `c` to `c'`.
structure Passes (c c' : Call) : Prop where
  id         : c'.id = c.id
  baseOffset : c'.response.baseOffset = c.response.baseOffset
  past       : c.isPast → c'.isPast
  appended   : ∀ timeoutMS, c'.phase = .appended timeoutMS → c.phase = .appended timeoutMS

theorem Passes.refl (c : Call) : c.Passes c :=
  ⟨rfl, rfl, fun h => h, fun _ h => h⟩

theorem passes_wake (ws : List Waiter) (c : Call) : c.Passes (c.wake ws) := by
  cases c.wake_cases ws
  case inl heq =>
    rw [heq]
    exact .refl c
  case inr h =>
    obtain ⟨deadline, heq, _⟩ := h
    rw [heq]
    exact ⟨rfl, rfl, fun _ => rfl, fun _ h => by cases h⟩

end Call

namespace Leading

variable {l l' : Leading} {st : PartitionState} {id : Nat} {now : Int}

-- Every call of `l'` comes from one of `l`.
def Continues (l l' : Leading) : Prop :=
  l'.nextID = l.nextID ∧ ∀ c' ∈ l'.calls, ∃ c ∈ l.calls, c.Passes c'

theorem continues_map {f : Call → Call} (hcalls : l'.calls = l.calls.map f) (hnext : l'.nextID = l.nextID)
    (hf : ∀ c ∈ l.calls, c.Passes (f c)) : l.Continues l' := by
  refine ⟨hnext, fun c' hc' => ?_⟩
  obtain ⟨c, hc, rfl⟩ := List.mem_map.mp (hcalls ▸ hc')
  exact ⟨c, hc, hf c hc⟩

theorem continues_recorded (l : Leading) (led : Option PartitionState) (ws : List Waiter) :
    l.Continues (l.recorded led ws) :=
  continues_map rfl rfl fun c _ => c.passes_wake ws

theorem Continues.trans {l'' : Leading} (h : l.Continues l') (h' : l'.Continues l'') : l.Continues l'' := by
  refine ⟨h'.left.trans h.left, fun c'' hc'' => ?_⟩
  obtain ⟨c', hc', hp'⟩ := h'.right c'' hc''
  obtain ⟨c, hc, hp⟩ := h.right c' hc'
  exact ⟨c, hc, hp'.id.trans hp.id, hp'.baseOffset.trans hp.baseOffset, fun h => hp'.past (hp.past h),
    fun t h => hp.appended t (hp'.appended t h)⟩

-- The state of a leader whose parked calls are all on the list of waiters, each of them for a reason.
structure Parks (l : Leading) (st : PartitionState) : Prop where
  led         : l.led = some st
  calls       : l.Inv (fun _ _ => True) (fun _ _ => True)
  parked      : ∀ c ∈ l.calls, ∀ deadline, c.phase = .waiting deadline → ⟨c.id, c.response.baseOffset + 1⟩ ∈ st.waiters
  unsatisfied : st.Unsatisfied
  short       : st.Short

-- What a call does when it comes to its wait.
theorem await_cases (hled : l.led = some st) (hs : l.await id now = some l') :
    ∃ c timeoutMS r, c ∈ l.calls ∧ c.id = id ∧ c.phase = .appended timeoutMS ∧
      (st.raise (c.response.baseOffset + 1)).recomputeAndRelease now = r ∧
      (l' = (l.recorded (some r.fst) r.snd).setPhase id .answering ∨
        r.fst.highWatermark < c.response.baseOffset + 1 ∧ ∃ deadline,
          l' = (l.recorded (some (r.fst.park ⟨id, c.response.baseOffset + 1⟩)) r.snd).setPhase id
            (.waiting deadline)) := by
  simp only [Leading.await] at hs
  split at hs
  case h_1 => contradiction
  case h_2 c hfind =>
    split at hs
    case h_2 => contradiction
    case h_1 timeoutMS hphase =>
      refine ⟨c, timeoutMS, _, List.mem_of_find?_eq_some hfind, by simpa using List.find?_some hfind, hphase, rfl, ?_⟩
      rw [hled] at hs
      dsimp only at hs
      rw [PartitionState.waitForHighWatermark_eq] at hs
      dsimp only at hs
      by_cases hle : c.response.baseOffset + 1 ≤
          ((st.raise (c.response.baseOffset + 1)).recomputeAndRelease now).fst.highWatermark
      case pos =>
        rw [if_pos hle] at hs
        exact .inl (Option.some.inj hs).symm
      case neg =>
        rw [if_neg hle] at hs
        exact .inr ⟨not_le.mp hle, _, (Option.some.inj hs).symm⟩

namespace Parks

theorem recorded {st' : PartitionState} {ws : List Waiter} (h : l.Parks st)
    (hkept : ∀ w ∈ st'.waiters, w ∈ st.waiters ∨ ∃ c ∈ l.calls, w = ⟨c.id, c.response.baseOffset + 1⟩)
    (hreleased : ∀ w ∈ ws, w ∈ st.waiters ∧ w.target ≤ st'.highWatermark)
    (hall : ∀ w ∈ st.waiters, w ∈ st'.waiters ∨ w ∈ ws) (hu : st'.Unsatisfied) (hs : st'.Short) :
    (l.recorded (some st') ws).Parks st' where
  led         := rfl
  calls       := h.calls.recorded h.led hkept hreleased (fun _ _ h => h) fun _ _ _ _ _ => trivial
  unsatisfied := hu
  short       := hs
  parked c' hc' deadline hphase := by
    obtain ⟨c, hc, rfl⟩ := List.mem_map.mp hc'
    cases c.wake_cases ws
    case inr hwake =>
      obtain ⟨_, heq, _⟩ := hwake
      rw [heq] at hphase
      cases hphase
    case inl heq =>
      rw [heq] at hphase ⊢
      refine (hall _ (h.parked c hc deadline hphase)).resolve_right fun hw => ?_
      have hany : ws.any (·.id = c.id) := List.any_eq_true.mpr ⟨_, hw, by simp⟩
      rw [Call.wake, hphase] at heq
      simp only [hany, if_true] at heq
      have := congrArg Call.phase heq
      rw [hphase] at this
      cases this

theorem recompute {t : PartitionState} (h : l.Parks st) (hw : t.waiters = st.waiters)
    (hhw : t.highWatermark = st.highWatermark) (now : Int) (hs : (t.recomputeAndRelease now).fst.Short) :
    (l.recorded (some (t.recomputeAndRelease now).fst) (t.recomputeAndRelease now).snd).Parks
      (t.recomputeAndRelease now).fst := by
  have hr := t.recomputeAndRelease_recomputed now
  have hu : t.Unsatisfied := by
    intro w hmem
    rw [hhw]
    exact h.unsatisfied w (hw ▸ hmem)
  refine h.recorded (fun w hmem => .inl (hw ▸ hr.kept w hmem)) (fun w hmem => hw ▸ hr.released w hmem)
    (fun w hmem => ?_) (hu.recomputeAndRelease now) hs
  rw [← hw] at hmem
  exact List.mem_append.mp ((t.perm_recomputeAndRelease now).mem_iff.mp hmem)

theorem setPhase {phase : Call.Phase} (h : l.Parks st) (hphase : ∀ c ∈ l.calls, c.id = id → ∀ deadline,
    phase = .waiting deadline → ⟨c.id, c.response.baseOffset + 1⟩ ∈ st.waiters) : (l.setPhase id phase).Parks st where
  led         := h.led
  calls       := h.calls.setPhase fun _ _ _ _ _ => trivial
  unsatisfied := h.unsatisfied
  short       := h.short
  parked c' hc' deadline hwaiting := by
    obtain ⟨c, hc, rfl⟩ := List.mem_map.mp hc'
    by_cases hid : c.id = id
    case pos =>
      rw [if_pos hid] at hwaiting ⊢
      exact hphase c hc hid deadline hwaiting
    case neg =>
      rw [if_neg hid] at hwaiting ⊢
      exact h.parked c hc deadline hwaiting

-- The phase of the one call under `id` changes.
theorem continues_setPhase {phase : Call.Phase} (h : l.Parks st) {c : Call} (hc : c ∈ l.calls) (hid : c.id = id)
    (hpast : c.isPast → { c with phase }.isPast) (happended : ∀ timeoutMS, phase ≠ .appended timeoutMS) :
    l.Continues (l.setPhase id phase) := by
  refine continues_map rfl rfl fun c' hc' => ?_
  split
  case isFalse => exact .refl c'
  case isTrue hid' =>
    have := h.calls.eq_of_id_eq hc' hc (hid'.trans hid.symm)
    subst this
    exact ⟨rfl, rfl, hpast, fun t ht => absurd ht (happended t)⟩

theorem await (h : l.Parks st) (hs : l.await id now = some l') :
    ∃ st', l'.Parks st' ∧ st'.replicas = st.replicas ∧ st'.leaderID = st.leaderID ∧
      st'.followerOffset = st.followerOffset ∧ l.Continues l' := by
  obtain ⟨c, timeoutMS, r, hc, hid, hphase, hrec, hcases⟩ := await_cases h.led hs
  generalize htarget : c.response.baseOffset + 1 = target at hrec hcases
  have hr := (st.raise target).recomputeAndRelease_recomputed now
  have hhw : (st.raise target).highWatermark = st.highWatermark := by rw [st.raise_eq target]
  have hparks := h.recompute (st.waiters_raise target) hhw now ((h.short.raise target).of_kept hr)
  have hperm := (st.raise target).perm_recomputeAndRelease now
  rw [hrec] at hr hparks hperm
  have heq : r.fst.replicas = st.replicas ∧ r.fst.leaderID = st.leaderID ∧
      r.fst.followerOffset = st.followerOffset := by
    rw [hr.eq, st.raise_eq target]
    exact ⟨rfl, rfl, rfl⟩
  have hnot : ¬c.isPast := by simp [Call.isPast, hphase]
  -- The call itself is not among those that are woken up.
  have hwake : c.wake r.snd = c := by rw [Call.wake, hphase]
  have hc' (led : Option PartitionState) : c ∈ (l.recorded led r.snd).calls :=
    List.mem_map.mpr ⟨c, hc, hwake⟩
  cases hcases
  case inl hpass =>
    subst hpass
    refine ⟨r.fst, hparks.setPhase (by simp), heq.left, heq.right.left, heq.right.right, ?_⟩
    refine (l.continues_recorded _ _).trans (hparks.continues_setPhase (hc' _) hid (fun h => absurd h hnot) ?_)
    simp
  case inr hpark =>
    obtain ⟨hlt, deadline, rfl⟩ := hpark
    have hparks' : (l.recorded (some (r.fst.park ⟨id, target⟩)) r.snd).Parks (r.fst.park ⟨id, target⟩) := by
      refine h.recorded (fun w hw => ?_) (fun w hw => ?_) (fun w hw => ?_) (fun w hw => ?_) (h.short.park id hr hlt)
      · cases List.mem_append.mp hw
        case inl hold => exact .inl (st.waiters_raise target ▸ hr.kept w hold)
        case inr hnew => exact .inr ⟨c, hc, by rw [List.mem_singleton.mp hnew, hid, htarget]⟩
      · exact st.waiters_raise target ▸ hr.released w hw
      · rw [← st.waiters_raise target, hperm.mem_iff, List.mem_append] at hw
        exact hw.imp_left fun hkept => List.mem_append_left _ hkept
      · cases List.mem_append.mp hw
        case inl hold => exact hparks.unsatisfied w hold
        case inr hnew =>
          cases List.mem_singleton.mp hnew
          exact hlt
    refine ⟨_, hparks'.setPhase fun c' hc'' hid' _ _ => ?_, heq.left, heq.right.left, heq.right.right, ?_⟩
    · have := hparks'.calls.eq_of_id_eq hc'' (hc' _) (hid'.trans hid.symm)
      subst this
      rw [htarget, hid]
      exact List.mem_append_right _ (List.mem_singleton_self _)
    · refine (l.continues_recorded _ _).trans (hparks'.continues_setPhase (hc' _) hid (fun h => absurd h hnot) ?_)
      simp

theorem expire (h : l.Parks st) (hs : l.expire id now = some l') :
    l'.Parks (st.removeWaiter id) ∧ l.Continues l' := by
  obtain ⟨hcalls, _, hled⟩ := h.calls.expire hs
  rw [h.led] at hled
  simp only [Leading.expire] at hs
  split at hs
  case h_1 => contradiction
  split at hs
  case h_3 => contradiction
  all_goals
    split at hs
    case isFalse => contradiction
    case isTrue =>
      cases Option.some.inj hs
      refine ⟨⟨hled, hcalls, fun c' hc' deadline hphase => ?_, fun w hw => ?_, h.short.removeWaiter id⟩, ?_⟩
      · obtain ⟨c, hc, rfl⟩ := List.mem_map.mp hc'
        by_cases hid : c.id = id
        case pos =>
          rw [if_pos hid] at hphase
          cases hphase
        case neg =>
          rw [if_neg hid] at hphase ⊢
          exact List.mem_filter.mpr ⟨h.parked c hc deadline hphase, by simpa using hid⟩
      · exact h.unsatisfied w (List.mem_filter.mp hw).left
      · refine continues_map rfl rfl fun c hc => ?_
        split
        case isFalse => exact .refl c
        case isTrue  => exact ⟨rfl, rfl, fun _ => rfl, by simp⟩

theorem finish {c : Call} (h : l.Parks st) (hs : l.finish id = some (l', c)) : l'.Parks st ∧ l.Continues l' := by
  obtain ⟨hcalls, _, hled, _⟩ := h.calls.finish hs
  simp only [Leading.finish] at hs
  split at hs
  case h_1 => contradiction
  case h_2 =>
    split at hs
    case isFalse => contradiction
    case isTrue =>
      cases Option.some.inj hs
      have hsub : ∀ c ∈ l.calls.filter (·.id ≠ id), c ∈ l.calls := fun c hc => (List.mem_filter.mp hc).left
      exact ⟨⟨hled.trans h.led, hcalls, fun c hc => h.parked c (hsub c hc), h.unsatisfied, h.short⟩, rfl,
        fun c hc => ⟨c, hsub c hc, .refl c⟩⟩

-- A new call is not parked yet.
theorem produce (h : l.Parks st) (nodeID : Int) (leader : Option Int) (topicName : Bytes) (partitionIndex : Int)
    (batch : Bytes) (acks timeoutMS : Int) :
    (l.produce nodeID leader topicName partitionIndex batch acks timeoutMS).Parks st := by
  rcases hp : producePartition Storage.Log.appendWithOffset nodeID leader topicName partitionIndex batch l.producers
    (.ok l.log) with ⟨producers, log, produced⟩
  have hcalls : (l.produce nodeID leader topicName partitionIndex batch acks timeoutMS).Inv (fun _ _ => True)
      (fun _ _ => True) := h.calls.produce hp (fun _ _ => trivial) fun _ _ _ _ => trivial
  simp only [Leading.produce, hp] at hcalls ⊢
  refine ⟨h.led, hcalls, fun c hc deadline hphase => ?_, h.unsatisfied, h.short⟩
  cases List.mem_append.mp hc
  case inl hold => exact h.parked c hold deadline hphase
  case inr hnew =>
    cases List.mem_singleton.mp hnew
    dsimp only at hphase
    split at hphase
    case h_1 => cases hphase
    case h_2 =>
      split at hphase
      all_goals cases hphase

end Parks
end Leading

end Network
