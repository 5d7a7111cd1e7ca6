import Gokaf.Network.Serving
import Gokaf.Network.Theorems.Leading
import Gokaf.Replication.Theorems.Execution
import Gokaf.Storage.Theorems.Growth

open Go Protocol Replication

namespace Replication.PartitionState

variable {st : PartitionState} {e e' now : Int}

-- All offsets that followers have asked for are in a log that ends at `e`, or come next.
def Within (st : PartitionState) (e : Int) : Prop :=
  ∀ b x, st.followerOffset b = some x → 0 ≤ x ∧ x ≤ e

theorem Within.mono (h : st.Within e) (he : e ≤ e') : st.Within e' :=
  fun b x hx => ⟨(h b x hx).left, (h b x hx).right.trans he⟩

theorem within_new {replicas : List Int} {leaderID lagTimeout : Int} (he : 0 ≤ e) :
    (new replicas leaderID lagTimeout now).Within e := by
  intro b x hx
  simp only [new, recompute] at hx
  split at hx
  case isFalse => contradiction
  case isTrue =>
    cases hx
    exact ⟨le_rfl, he⟩

theorem Within.fetched {b f e'' : Int} (h : st.Within e) (hl : 0 ≤ f) (hu : f ≤ e) :
    (st.fetched b f e'' now).Within e := by
  intro b' x hx
  by_cases heq : b' = b
  case pos =>
    subst heq
    rw [followerOffset_fetched_self] at hx
    cases hx
    exact ⟨hl, hu⟩
  case neg =>
    rw [followerOffset_fetched_of_ne heq] at hx
    exact h b' x hx

-- Then the watermark is in the log as well.
theorem Within.highWatermark {st' : PartitionState} {ws : List Waiter} (h : st.Within e) (he : 0 ≤ e)
    (hend : st.leaderEndOffset = e) (hr : Recomputed st now st' ws) :
    0 ≤ st'.highWatermark ∧ st'.highWatermark ≤ e := by
  rw [hr.highWatermark]
  refine ⟨le_watermark_iff.mpr ⟨hend ▸ he, fun b _ _ _ => ?_⟩, hend ▸ (le_watermark_iff.mp le_rfl).left⟩
  cases hx : st.followerOffset b
  case none   => exact le_rfl
  case some x => exact (h b x hx).left

theorem Recomputed.followerOffset {st st' : PartitionState} {ws : List Waiter} (h : Recomputed st now st' ws) :
    st'.followerOffset = st.followerOffset := by
  rw [h.eq]

end Replication.PartitionState

namespace Network

namespace Leading

open PartitionState

variable {l l' : Leading} {id : Nat} {now : Int}

theorem followerOffset_await (h : l.await id now = some l') :
    l'.led.map (·.followerOffset) = l.led.map (·.followerOffset) := by
  simp only [await] at h
  split at h
  case h_1 => contradiction
  case h_2 c _ =>
    split at h
    case h_2 => contradiction
    case h_1 =>
      split at h
      case h_1 hled =>
        cases Option.some.inj h
        rfl
      case h_2 st hled =>
        obtain ⟨s', ws, hr, hcases⟩ := st.waitForHighWatermark_cases id (c.response.baseOffset + 1) now
        have hoffset : s'.followerOffset = st.followerOffset := by
          rw [hr.followerOffset, raise]
          split <;> rfl
        rw [hled, Option.map_some, ← hoffset]
        obtain ⟨-, hpass⟩ | hpark := hcases
        · rw [hpass] at h
          cases Option.some.inj h
          rfl
        · rw [hpark] at h
          cases Option.some.inj h
          rfl

theorem followerOffset_expire (h : l.expire id now = some l') :
    l'.led.map (·.followerOffset) = l.led.map (·.followerOffset) := by
  simp only [expire] at h
  split at h
  case h_1 => contradiction
  split at h
  case h_3 => contradiction
  all_goals
    split at h
    case isFalse => contradiction
    case isTrue =>
      cases Option.some.inj h
      cases l.led <;> rfl

theorem led_of_finish {c : Call} (h : l.finish id = some (l', c)) : l'.led = l.led := by
  simp only [finish] at h
  split at h
  case h_1 => contradiction
  split at h
  case isTrue  => exact congrArg (·.fst.led) (Option.some.inj h).symm
  case isFalse => contradiction

theorem endOffset_produce (l : Leading) (nodeID : Int) (leader : Option Int) (topicName : Bytes)
    (partitionIndex : Int) (batch : Bytes) (acks timeoutMS : Int) :
    let l' := l.produce nodeID leader topicName partitionIndex batch acks timeoutMS
    l'.log.endOffset = l.log.endOffset ∨ l'.log.endOffset = int64 (l.log.endOffset + 1) := by
  rcases hp : producePartition Storage.Log.appendWithOffset nodeID leader topicName partitionIndex batch
    l.producers (.ok l.log) with ⟨producers, log, produced⟩
  simp only [produce, hp]
  have happend {r} (ha : l.log.appendWithOffset batch Batch.stamp = r) :
      r.fst.endOffset = l.log.endOffset ∨ r.fst.endOffset = int64 (l.log.endOffset + 1) :=
    ha ▸ l.log.nextOffset_appendWithOffset batch Batch.stamp none
  cases produces hp
  case refused => exact .inl rfl
  case duplicate hlog _ _ =>
    cases hlog
    exact .inl rfl
  case failed hlog ha _ | appended hlog _ _ ha | plain hlog _ ha =>
    cases hlog
    exact happend ha

end Leading

section Fetch

variable {st : PartitionState} {replicaID f e now : Int}

theorem recordFetch_of_neg (h : replicaID < 0) :
    recordFetch (some st) replicaID f e now = (some (st.updateHighWatermark e now).fst,
      (st.updateHighWatermark e now).snd, (st.updateHighWatermark e now).fst.highWatermark) := by
  simp [recordFetch, not_le.mpr h]

-- The second recomputation finds what the first one has left.
theorem recordFetch_of_nonneg (st : PartitionState) (f e now : Int) (h : 0 ≤ replicaID) :
    ∃ st' ws, recordFetch (some st) replicaID f e now = (some st', ws, st'.highWatermark) ∧
      PartitionState.Recomputed (st.fetched replicaID f e now) now st' ws := by
  have hfetch := st.recordFollowerFetch_recomputed replicaID f e now
  have hupdate := (st.recordFollowerFetch replicaID f e now).fst.updateHighWatermark_recomputed e now
  have hsame : { (st.recordFollowerFetch replicaID f e now).fst with leaderEndOffset := e } =
      (st.recordFollowerFetch replicaID f e now).fst := by
    rw [hfetch.eq]
    rfl
  rw [hsame] at hupdate
  refine ⟨_, _, ?_, hfetch.trans hupdate⟩
  simp only [recordFetch, if_pos h]

variable {σ : Type*} (ops : Fetchable σ) (log : σ) (i hw m : Int)

@[simp]
theorem highWatermark_answerFetch : (answerFetch ops log i e hw f m).highWatermark = hw := by
  simp only [answerFetch]
  repeat' split
  all_goals rfl

theorem errorCode_answerFetch :
    (answerFetch ops log i e hw f m).errorCode = .offsetOutOfRange ↔ f < 0 ∨ e < f := by
  simp only [answerFetch]
  split
  case isTrue h => exact iff_of_true rfl h
  case isFalse h =>
    refine iff_of_false ?_ h
    repeat' split
    all_goals simp

end Fetch

namespace Serving

open PartitionState

variable {p : Setup} {s s' : State} {a : Step} {as : List Step} {o os : List Output} {base : Int} {n : Nat}

structure Inv (base : Int) (n : Nat) (s : State) : Prop where
  nonneg : 0 ≤ s.leader.log.endOffset
  le     : s.leader.log.endOffset ≤ base + n
  within : ∀ st ∈ s.leader.led, st.Within s.leader.log.endOffset

theorem Inv.advance (h : Inv base n s) (hn : base + n + 1 < 2 ^ 63)
    (hlog : s'.leader.log.endOffset = s.leader.log.endOffset ∨
      s'.leader.log.endOffset = int64 (s.leader.log.endOffset + 1))
    (hled : ∀ st ∈ s'.leader.led, st.Within s.leader.log.endOffset) : Inv base (n + 1) s' := by
  have hnonneg := h.nonneg
  have hle := h.le
  have hsucc : int64 (s.leader.log.endOffset + 1) = s.leader.log.endOffset + 1 :=
    wrap_of_nonneg (by decide) (by omega) (by norm_num; omega)
  rw [hsucc] at hlog
  exact ⟨by omega, by push_cast; omega, fun st hst => (hled st hst).mono (by omega)⟩

-- Nobody's offset changes.
theorem Inv.keep (h : Inv base n s) (hn : base + n + 1 < 2 ^ 63)
    (hlog : s'.leader.log.endOffset = s.leader.log.endOffset ∨
      s'.leader.log.endOffset = int64 (s.leader.log.endOffset + 1))
    (hled : s'.leader.led.map (·.followerOffset) = s.leader.led.map (·.followerOffset)) : Inv base (n + 1) s' := by
  refine h.advance hn hlog fun st' hst' b x hx => ?_
  rw [hst', Option.map_some] at hled
  obtain ⟨st, hst, heq⟩ := Option.map_eq_some_iff.mp hled.symm
  rw [← heq] at hx
  exact h.within st hst b x hx

theorem Inv.faithful_iff (h : Inv base n s) : Faithful p s a ↔ InRange s a := by
  cases a
  case fetch known opened replicaID f m =>
    cases known
    case false => exact iff_of_true ⟨by simp, le_rfl, h.nonneg⟩ (by simp [InRange])
    cases opened
    case false => exact iff_of_true ⟨by simp, le_rfl, h.nonneg⟩ (by simp [InRange])
    simp only [Faithful, InRange, State.fetch, fetchPartition, if_true, not_true_eq_false, if_false, forall_const,
      errorCode_answerFetch, highWatermark_answerFetch, storageLog]
    cases hled : s.leader.led
    case none => simpa [recordFetch] using h.nonneg
    case some st =>
      have hwithin := h.within st hled
      by_cases hid : 0 ≤ replicaID
      case neg =>
        have hsame : { st with leaderEndOffset := s.leader.log.endOffset }.Within s.leader.log.endOffset := hwithin
        have hr := st.updateHighWatermark_recomputed s.leader.log.endOffset s.now
        rw [recordFetch_of_neg (not_le.mp hid)]
        refine iff_of_true ⟨fun _ => ⟨congrArg some hr.followerOffset, ?_⟩, hsame.highWatermark h.nonneg rfl hr⟩
          fun _ hid' => absurd hid' hid
        rintro _ ⟨⟩
        exact List.Subset.refl _
      case pos =>
        obtain ⟨st', ws, heq, hr⟩ :=
          recordFetch_of_nonneg st f s.leader.log.endOffset s.now hid
        rw [heq]
        constructor
        case mp =>
          rintro ⟨hrejected, -⟩ _ _
          by_contra hout
          -- What is recorded now has not been there before, for it is out of range.
          obtain ⟨hoffsets, -⟩ := hrejected (by omega)
          have hoffsets : st'.followerOffset = st.followerOffset := Option.some.inj hoffsets
          have hnew : st.followerOffset replicaID = some f := by
            rw [← hoffsets, hr.followerOffset, followerOffset_fetched_self]
          exact hout (hwithin replicaID f hnew)
        case mpr =>
          intro hin
          obtain ⟨hl, hu⟩ := hin rfl hid
          exact ⟨by omega, (hwithin.fetched hl hu).highWatermark h.nonneg rfl hr⟩
  all_goals exact Iff.rfl

-- A fetch in range keeps all offsets in range.
theorem Inv.within_fetch (h : Inv base n s) {known opened : Bool} {replicaID f m : Int}
    (hc : InRange s (.fetch known opened replicaID f m)) :
    ∀ st ∈ (s.fetch p known opened replicaID f m).fst, st.Within s.leader.log.endOffset := by
  cases known
  case false => exact h.within
  cases opened
  case false => exact h.within
  simp only [State.fetch, fetchPartition, if_true, not_true_eq_false, if_false, storageLog]
  cases hled : s.leader.led
  case none => simp [recordFetch]
  case some st =>
    have hwithin := h.within st hled
    by_cases hid : 0 ≤ replicaID
    case neg =>
      have hr := st.updateHighWatermark_recomputed s.leader.log.endOffset s.now
      rw [recordFetch_of_neg (not_le.mp hid)]
      rintro _ ⟨⟩
      rw [Within, hr.followerOffset]
      exact hwithin
    case pos =>
      obtain ⟨hl, hu⟩ := hc rfl rfl (by rw [hled]; rfl) hid
      obtain ⟨st', ws, heq, hr⟩ :=
        recordFetch_of_nonneg st f s.leader.log.endOffset s.now hid
      rw [heq]
      rintro _ ⟨⟩
      rw [Within, hr.followerOffset]
      exact hwithin.fetched hl hu

theorem Inv.within_startFollowing (h : Inv base n s) (nodeID : Int) (partition : Topic.Partition) :
    ∀ st ∈ (Replica.startFollowing ⟨s.leader.led, s.source⟩ nodeID s.now partition).led,
      st.Within s.leader.log.endOffset := by
  unfold Replica.startFollowing
  split
  case isTrue => exact h.within
  split
  case isTrue =>
    split
    case h_1 hled => exact h.within
    case h_2 =>
      rintro _ ⟨⟩
      exact within_new h.nonneg
  case isFalse =>
    split
    case h_1 => exact h.within
    case h_2 => simp

theorem inductive_inv (p : Setup) {N : Nat} (hN : base + N < 2 ^ 63) :
    (machine p).InductiveUpTo InRange N fun n s _ => Inv base n s where
  step {n s a s' o os} hlt h hc hs := by
    have hn : base + n + 1 < 2 ^ 63 := by omega
    cases a
    case produce leader batch acks timeoutMS =>
      cases Option.some.inj hs
      refine h.keep hn (s.leader.endOffset_produce ..) ?_
      simp only [Leading.produce]
    case await id =>
      obtain ⟨leader, hawait, heq⟩ := Option.map_eq_some_iff.mp hs
      cases heq
      exact h.keep hn (.inl (congrArg _ (Leading.log_of_await hawait))) (Leading.followerOffset_await hawait)
    case expire id =>
      obtain ⟨leader, hexpire, heq⟩ := Option.map_eq_some_iff.mp hs
      cases heq
      exact h.keep hn (.inl (congrArg _ (Leading.log_of_expire hexpire))) (Leading.followerOffset_expire hexpire)
    case finish id =>
      obtain ⟨⟨leader, call⟩, hfinish, heq⟩ := Option.map_eq_some_iff.mp hs
      cases heq
      exact h.keep hn (.inl (congrArg _ (Leading.log_of_finish hfinish)))
        (congrArg (Option.map _) (Leading.led_of_finish hfinish))
    case fetch known opened replicaID f m =>
      cases Option.some.inj hs
      exact h.advance hn (.inl rfl) (h.within_fetch hc)
    case isr =>
      cases Option.some.inj hs
      refine h.keep hn (.inl rfl) ?_
      rw [Option.map_map]
      rfl
    case startFollowing partition =>
      cases Option.some.inj hs
      exact h.advance hn (.inl rfl) (h.within_startFollowing p.nodeID partition)
    case replicate batch =>
      simp only [machine] at hs
      split at hs
      case isTrue => contradiction
      case isFalse =>
        cases Option.some.inj hs
        exact h.keep hn (s.leader.log.nextOffset_appendWithOffset ..) rfl
    case tick d =>
      cases Option.some.inj hs
      exact h.keep hn (.inl rfl) rfl

def sampleSetup : Setup where
  nodeID         := 1
  topicName      := [116]
  partitionIndex := 0

-- A batch waits for the follower.
def parked : List Step := [
  .startFollowing ⟨0, 1, [1, 2], [1, 2]⟩, .produce (some 1) (Batch.headerOnly (-1) 0 1) (-1) 0, .await 0
]

-- The follower asks for an offset behind the end of the log and is refused, and the batch is acknowledged for all
-- replicas. Asking for the watermark would not have released it.
theorem parked_not_faithful :
    ∃ s os, (machine sampleSetup).run (.init .empty 0) parked = some (s, os) ∧
      (s.fetch sampleSetup true true 2 100 0).snd.snd.errorCode = .offsetOutOfRange ∧
      ¬Faithful sampleSetup s (.fetch true true 2 100 0) := by
  have hrun : ((machine sampleSetup).run (.init .empty 0) parked).map (fun r =>
      ((r.fst.fetch sampleSetup true true 2 100 0).snd.fst,
        (r.fst.fetch sampleSetup true true 2 100 0).snd.snd.errorCode,
        r.fst.leader.led.map fun st => (st.updateHighWatermark r.fst.leader.log.endOffset r.fst.now).snd)) =
      some ([⟨0, 1⟩], .offsetOutOfRange, some []) := by decide +kernel
  obtain ⟨⟨s, os⟩, hs, heq⟩ := Option.map_eq_some_iff.mp hrun
  simp only [Prod.mk.injEq] at heq
  obtain ⟨hreleased, hcode, hplain⟩ := heq
  obtain ⟨st, hst, hnone⟩ := Option.map_eq_some_iff.mp hplain
  refine ⟨s, os, hs, hcode, fun h => ?_⟩
  have hsub : (s.fetch sampleSetup true true 2 100 0).snd.fst ⊆ _ := (h.left hcode).right st hst
  rw [hreleased, hnone] at hsub
  simp at hsub

theorem faithful_iff_inRange {log : Storage.Log} {now : Int} (hlog : 0 ≤ log.endOffset)
    (hlen : log.endOffset + as.length < 2 ^ 63) :
    (machine p).Along (Faithful p) (.init log now) as ↔ (machine p).Along InRange (.init log now) as := by
  have hinit : Inv log.endOffset 0 (State.init log now) :=
    ⟨hlog, by simp [State.init], by simp [State.init, Leading.new]⟩
  exact (inductive_inv p hlen).along_iff (fun _ h => h.faithful_iff) (o := []) hinit (by omega)

-- The follower asks for what it has not got yet, and a consumer for something that is not there.
theorem faithful_iff_inRange_parked :
    (machine sampleSetup).Along (Faithful sampleSetup) (.init .empty 0)
      (parked ++ [.fetch true true (-1) 100 0, .fetch true true 2 0 0, .fetch true true 2 1 0]) :=
  (faithful_iff_inRange (by decide) (by decide)).mpr (by decide +kernel)

end Serving

end Network
