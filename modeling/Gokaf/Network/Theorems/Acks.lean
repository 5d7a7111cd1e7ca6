import Gokaf.Network.Acks
import Gokaf.Network.Theorems.Leading

open Go Protocol Replication

namespace Network.Acking

variable {p : Setup} {s s' : State} {os : List Answer} {as : List Step} {now : Int}

-- Calls that may answer for the replicas are below the watermark, which only lags behind what it
-- would be now.
structure Inv (s : State) (st : PartitionState) : Prop where
  led   : s.leader.led = some st
  le    : st.highWatermark ≤ st.watermark s.now
  calls : s.leader.Inv (fun _ _ => True) (fun _ o => o < st.highWatermark)

theorem Inv.isReplicated {st : PartitionState} (h : Inv s st) {c : Call}
    (hc : c.isAcksAll → c.response.baseOffset < st.highWatermark) :
    Answer.IsReplicated ⟨c, s.leader.led, s.now⟩ := by
  intro hacks hnone
  have hlt := hc (by simpa [Call.isAcksAll] using ⟨hacks, hnone⟩)
  refine ⟨st, h.led, hlt, fun b hb hne => ?_⟩
  obtain ⟨hr, hi⟩ := PartitionState.mem_isr hb hne
  have hle : c.response.baseOffset + 1 ≤ st.watermark s.now := le_trans hlt h.le
  exact (PartitionState.le_watermark_iff.mp hle).right b hr hne hi

theorem Inv.produce {st : PartitionState} (h : Inv s st) {batch : Bytes} {acks timeoutMS : Int}
    (hc : Orderly p s (.produce batch acks timeoutMS)) :
    Inv { s with
      leader := s.leader.produce p.nodeID (some p.nodeID) p.topicName p.partitionIndex batch acks timeoutMS } st := by
  rcases hp : producePartition Storage.Log.appendWithOffset p.nodeID (some p.nodeID) p.topicName p.partitionIndex
    batch s.leader.producers (.ok s.leader.log) with ⟨producers, log, produced⟩
  refine ⟨?_, h.le, h.calls.produce hp (fun _ _ => trivial) (fun hacks r hr hnone => ?_)⟩
  · simp only [Leading.produce, hp]
    exact h.led
  · subst hr
    cases produces hp
    case refused hne   => contradiction
    case failed hne    => contradiction
    case duplicate hpid hcheck =>
      exact hc hacks _ (Leading.cachedOffset?_eq_some hpid hcheck) st h.led

-- The state of the partition is touched. All calls that are past their wait must stay covered.
theorem Inv.recorded {st t st' : PartitionState} {ws : List Waiter} (h : Inv s st)
    (hr : PartitionState.Recomputed t s.now st' ws) (ht : t.waiters = st.waiters) (hpast : s.Settled st'.highWatermark)
    {followers : Int → Storage.Log} {fetches : List Fetch} :
    Inv { s with leader := s.leader.recorded (some st') ws, followers, fetches } st' where
  led := rfl
  le  := by rw [hr.highWatermark, hr.watermark]
  calls := by
    refine (h.calls.and_past (Q := fun _ o => o < st'.highWatermark) hpast).recorded h.led
      (fun w hw => .inl ?_) (fun w hw => ?_) (fun _ _ h => h.right) (fun _ _ _ _ ho => ho)
    · exact ht ▸ hr.kept w hw
    · exact ht ▸ hr.released w hw

theorem Inv.await {st : PartitionState} {leader : Leading} {id : Nat} (h : Inv s st)
    (hs : s.leader.await id s.now = some leader) : ∃ st', Inv { s with leader } st' := by
  have ⟨c, _, s', ws, st', hr, _, hled, heq, hinv⟩ := h.calls.await h.led hs
  have hw : st'.highWatermark = s'.highWatermark := by rw [heq]
  have hle : st.highWatermark ≤ st'.highWatermark := by
    rw [hw, hr.highWatermark]
    exact h.le.trans (PartitionState.watermark_le_raise ..)
  refine ⟨st', hled, ?_, hinv _ (fun _ o ho => lt_of_lt_of_le ho hle) (fun _ o _ ho => hw ▸ ho)⟩
  have hwatermark : st'.watermark s.now = s'.watermark s.now := by
    rw [heq]
    rfl
  rw [hw, hwatermark, hr.highWatermark, hr.watermark]

-- One step: what is past its wait stays below the watermark.
theorem inductive_inv (p : Setup) :
    (machine p).Inductive (Orderly p) fun s os => (∃ st, Inv s st) ∧ ∀ a ∈ os, a.IsReplicated where
  step {s a s' o os} hinv hc hs := by
    have ⟨⟨st, h⟩, hos⟩ := hinv
    suffices (∃ st, Inv s' st) ∧ ∀ a ∈ o, a.IsReplicated from
      ⟨this.left, List.forall_mem_append.mpr ⟨hos, this.right⟩⟩
    cases a
    case produce batch acks timeoutMS =>
      cases Option.some.inj hs
      exact ⟨⟨st, h.produce hc⟩, by simp⟩
    case await id =>
      have ⟨leader, hawait, heq⟩ := Option.map_eq_some_iff.mp hs
      cases heq
      exact ⟨h.await hawait, by simp⟩
    case expire id =>
      have ⟨leader, hexpire, heq⟩ := Option.map_eq_some_iff.mp hs
      cases heq
      have ⟨hcalls, _, hled⟩ := h.calls.expire hexpire
      rw [h.led] at hled
      exact ⟨⟨st.removeWaiter id, hled, h.le, hcalls⟩, by simp⟩
    case finish id =>
      have ⟨⟨leader, c⟩, hfinish, heq⟩ := Option.map_eq_some_iff.mp hs
      cases heq
      have ⟨hcalls, _, hled, hpast⟩ := h.calls.finish hfinish
      have h' : Inv { s with leader } st := ⟨hled.trans h.led, h.le, hcalls⟩
      exact ⟨⟨st, h'⟩, List.forall_mem_singleton.mpr (h'.isReplicated hpast)⟩
    case fetch replicaID =>
      cases Option.some.inj hs
      exact ⟨⟨st, h.led, h.le, h.calls⟩, by simp⟩
    case consume offset =>
      cases Option.some.inj hs
      exact ⟨⟨st, h.led, h.le, h.calls⟩, by simp⟩
    case recordFollowerFetch i =>
      simp only [machine, h.led] at hs
      split at hs
      case h_2 => contradiction
      case h_1 fetch st₀ hfetch hst =>
        cases Option.some.inj hst
        split at hs
        case isTrue => contradiction
        case isFalse =>
          cases Option.some.inj hs
          have ⟨hf, he⟩ := hc fetch hfetch
          have hr := st.recordFollowerFetch_recomputed fetch.replicaID fetch.fetchOffset fetch.endOffset s.now
          refine ⟨⟨_, h.recorded hr rfl fun c hcall ha hp => ?_⟩, by simp⟩
          rw [hr.highWatermark]
          exact PartitionState.lt_watermark_fetched (lt_of_lt_of_le (h.calls.past c hcall ha hp) h.le)
            (hf c hcall ha hp) (he c hcall ha hp)
    case highWatermark i =>
      simp only [machine, h.led] at hs
      split at hs
      case h_2 => contradiction
      case h_1 fetch st₀ hfetch hst =>
        cases Option.some.inj hst
        split at hs
        case isTrue => contradiction
        case isFalse =>
          cases Option.some.inj hs
          have he := hc fetch hfetch
          have hr := st.updateHighWatermark_recomputed fetch.endOffset s.now
          refine ⟨⟨_, h.recorded hr rfl fun c hcall ha hp => ?_⟩, by simp⟩
          rw [hr.highWatermark]
          exact PartitionState.lt_watermark_updated (lt_of_lt_of_le (h.calls.past c hcall ha hp) h.le)
            (he c hcall ha hp)
    case tick d =>
      cases Option.some.inj hs
      exact ⟨⟨st, h.led, h.le.trans (PartitionState.watermark_le_of_le (by dsimp only; omega)), h.calls⟩, by simp⟩

theorem inv_init (p : Setup) (now : Int) : Inv (.init p now) (.new p.replicas p.nodeID lagTimeout now) where
  led := rfl
  le  := le_rfl
  calls := .new fun st hst => by
    cases hst
    rfl

def samplePair : Setup where
  nodeID         := 1
  topicName      := [116]
  partitionIndex := 0
  replicas       := [1, 2]

-- What an answer says, with the watermark at that moment.
def Answer.outcome (a : Answer) : Int × ErrorCode × Int × Option Int :=
  (a.call.acks, a.call.response.errorCode, a.call.response.baseOffset, a.led.map (·.highWatermark))

-- The first attempt times out because the follower never fetches; the second is a duplicate.
def resentBeforeReplicated : List Step := [
  .produce (Batch.headerOnly 1 0 1) (-1) 1, .await 0, .tick 1000000, .expire 0, .finish 0,
  .produce (Batch.headerOnly 1 0 1) (-1) 1, .finish 1
]

theorem resentBeforeReplicated_not_replicated :
    ∃ s os, (machine samplePair).run (.init samplePair 0) resentBeforeReplicated = some (s, os) ∧
      ∃ a ∈ os, ¬a.IsReplicated := by
  have hrun : ((machine samplePair).run (.init samplePair 0) resentBeforeReplicated).map (·.snd.map (·.outcome)) =
      some [(-1, .requestTimedOut, 0, some 0), (-1, .none, 0, some 0)] := by decide +kernel
  have ⟨⟨s, os⟩, hs, hos⟩ := Option.map_eq_some_iff.mp hrun
  have hmem : (-1, ErrorCode.none, 0, some 0) ∈ os.map (·.outcome) := by
    rw [hos]
    simp
  have ⟨a, ha, hout⟩ := List.mem_map.mp hmem
  simp only [Answer.outcome, Prod.mk.injEq] at hout
  refine ⟨s, os, hs, a, ha, fun h => ?_⟩
  have ⟨st, hst, hlt, _⟩ := h hout.left hout.right.left
  have hhw := hout.right.right.right
  rw [hst, Option.map_some, Option.some.injEq] at hhw
  omega

-- In an orderly run no acknowledgement for all replicas comes too early.
theorem acknowledged_isReplicated (hc : (machine p).Along (Orderly p) (.init p now) as)
    (hr : (machine p).run (.init p now) as = some (s, os)) : ∀ a ∈ os, a.IsReplicated :=
  ((inductive_inv p).run_nil ⟨⟨_, inv_init p now⟩, by simp⟩ hc hr).right

-- The follower catches up, and a copy of the batch comes in afterwards.
theorem acknowledged_isReplicated_resent :
    let as : List Step := [
      .produce (Batch.headerOnly 1 0 1) (-1) 0, .await 0,
      .fetch 2, .recordFollowerFetch 0, .highWatermark 0,
      .fetch 2, .recordFollowerFetch 0, .highWatermark 0,
      .finish 0,
      .produce (Batch.headerOnly 1 0 1) (-1) 0, .finish 1
    ]
    ∃ s os, (machine samplePair).run (.init samplePair 0) as = some (s, os) ∧
      os.map (·.outcome) = [(-1, .none, 0, some 1), (-1, .none, 0, some 1)] ∧ ∀ a ∈ os, a.IsReplicated := by
  intro as
  have hc : (machine samplePair).Along (Orderly samplePair) (.init samplePair 0) as := by decide +kernel
  have hrun : ((machine samplePair).run (.init samplePair 0) as).map (·.snd.map (·.outcome)) =
      some [(-1, .none, 0, some 1), (-1, .none, 0, some 1)] := by decide +kernel
  have ⟨⟨s, os⟩, hs, hos⟩ := Option.map_eq_some_iff.mp hrun
  exact ⟨s, os, hs, hos, acknowledged_isReplicated hc hs⟩

end Network.Acking
