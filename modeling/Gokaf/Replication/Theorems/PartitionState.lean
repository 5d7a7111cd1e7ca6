import Gokaf.Replication.PartitionState

open Go

namespace Replication.PartitionState

variable {s s' : PartitionState} {now now' x : Int} {released : List Waiter}

theorem le_foldl_min_iff (p : Int → Prop) [DecidablePred p] (f : Int → Int) (bs : List Int) (e : Int) :
    x ≤ bs.foldl (fun next b => if p b then next else if f b < next then f b else next) e ↔
      x ≤ e ∧ ∀ b ∈ bs, ¬p b → x ≤ f b := by
  induction bs generalizing e
  case nil => simp
  case cons b bs hi =>
    rw [List.foldl_cons, hi, List.forall_mem_cons]
    split
    case isTrue hp => simp [hp]
    case isFalse hp =>
      split
      all_goals
        simp only [hp, not_false_eq_true, forall_const]
        constructor
        · rintro ⟨hx, hbs⟩
          exact ⟨by omega, by omega, hbs⟩
        · rintro ⟨hx, hb, hbs⟩
          exact ⟨by omega, hbs⟩

-- The watermark is the least of the leader's end offset and the offsets of the followers in the ISR.
theorem le_watermark_iff : x ≤ s.watermark now ↔
    x ≤ s.leaderEndOffset ∧ ∀ b ∈ s.replicas, b ≠ s.leaderID → s.followerInISR b now →
      x ≤ (s.followerOffset b).getD 0 := by
  have hfold : s.watermark now = s.replicas.foldl (fun next b =>
      if b = s.leaderID ∨ ¬s.followerInISR b now then next
      else if (s.followerOffset b).getD 0 < next then (s.followerOffset b).getD 0 else next)
      s.leaderEndOffset := by
    unfold watermark
    congr 1
    funext next b
    by_cases h₁ : b = s.leaderID
    case pos => simp [h₁]
    case neg => by_cases h₂ : s.followerInISR b now <;> simp [h₁, h₂]
  rw [hfold, le_foldl_min_iff (fun b => b = s.leaderID ∨ ¬s.followerInISR b now)]
  simp only [not_or, not_not, and_imp]

theorem followerInISR_of_le {b : Int} (h : now ≤ now') (hi : s.followerInISR b now') : s.followerInISR b now := by
  unfold followerInISR at hi ⊢
  split at hi
  case h_1 => contradiction
  case h_2 =>
    simp only [decide_eq_true_eq] at hi ⊢
    omega

-- Followers only drop out of the ISR as time goes by.
theorem watermark_le_of_le (h : now ≤ now') : s.watermark now ≤ s.watermark now' := by
  have ⟨hend, hfollowers⟩ := le_watermark_iff.mp (le_refl (s.watermark now))
  exact le_watermark_iff.mpr ⟨hend, fun b hb hne hi => hfollowers b hb hne (followerInISR_of_le h hi)⟩

theorem mem_isr {b : Int} (hb : b ∈ s.isr now) (hne : b ≠ s.leaderID) :
    b ∈ s.replicas ∧ s.followerInISR b now := by
  cases hb
  case head => contradiction
  case tail hb =>
    have ⟨hr, hi⟩ := List.mem_filter.mp hb
    exact ⟨hr, by simpa [hne] using hi⟩

-- All that a recomputation changes: the watermark, and which waiters are left.
structure Recomputed (s : PartitionState) (now : Int) (s' : PartitionState) (released : List Waiter) :
    Prop where
  eq       : s' = { s with highWatermark := s.watermark now, waiters := s'.waiters }
  released : ∀ w ∈ released, w ∈ s.waiters ∧ w.target ≤ s'.highWatermark
  kept     : ∀ w ∈ s'.waiters, w ∈ s.waiters

theorem Recomputed.highWatermark (h : Recomputed s now s' released) : s'.highWatermark = s.watermark now := by
  rw [h.eq]

theorem Recomputed.watermark (h : Recomputed s now s' released) (t : Int) : s'.watermark t = s.watermark t := by
  rw [h.eq]
  rfl

-- A second recomputation at the same time finds the same watermark.
theorem Recomputed.trans {s'' : PartitionState} {released' : List Waiter} (h : Recomputed s now s' released)
    (h' : Recomputed s' now s'' released') : Recomputed s now s'' (released ++ released') where
  eq := by
    rw [h'.eq, h.watermark, h.eq]
  released w hw := by
    rw [h'.highWatermark, h.watermark, ← h.highWatermark]
    cases List.mem_append.mp hw
    case inl hw => exact h.released w hw
    case inr hw =>
      have ⟨hmem, htarget⟩ := h'.released w hw
      rw [h'.highWatermark, h.watermark, ← h.highWatermark] at htarget
      exact ⟨h.kept w hmem, htarget⟩
  kept w hw := h.kept w (h'.kept w hw)

theorem recomputeAndRelease_recomputed (s : PartitionState) (now : Int) :
    Recomputed s now (s.recomputeAndRelease now).fst (s.recomputeAndRelease now).snd := by
  unfold recomputeAndRelease recompute
  split
  case h_1 heq =>
    have hs := (Prod.mk.inj heq).left
    subst hs
    refine ⟨rfl, fun w hw => ?_, fun w hw => (List.mem_filter.mp hw).left⟩
    have ⟨hmem, htarget⟩ := List.mem_filter.mp hw
    exact ⟨hmem, of_decide_eq_true htarget⟩
  case h_2 heq =>
    have hs := (Prod.mk.inj heq).left
    subst hs
    exact ⟨rfl, by simp, fun w hw => hw⟩

-- `WaitForHighWatermark` knows of at least as many entries as its caller waits for.
def raise (s : PartitionState) (target : Int) : PartitionState :=
  if s.leaderEndOffset < target then { s with leaderEndOffset := target } else s

theorem waitForHighWatermark_cases (s : PartitionState) (id : Nat) (target now : Int) :
    ∃ s' ws, Recomputed (s.raise target) now s' ws ∧
      (target ≤ s'.highWatermark ∧ s.waitForHighWatermark id target now = (s', ws, true) ∨
        s.waitForHighWatermark id target now =
          ({ s' with waiters := s'.waiters ++ [⟨id, target⟩] }, ws, false)) := by
  have h := recomputeAndRelease_recomputed (s.raise target) now
  refine ⟨_, _, h, ?_⟩
  simp only [waitForHighWatermark]
  rw [← raise]
  split
  case isTrue hle => exact .inl ⟨hle, rfl⟩
  case isFalse    => exact .inr rfl

@[simp]
theorem waiters_raise (s : PartitionState) (target : Int) : (s.raise target).waiters = s.waiters := by
  unfold raise
  split <;> rfl

@[simp]
theorem followerInISR_raise (s : PartitionState) (target b now : Int) :
    (s.raise target).followerInISR b now = s.followerInISR b now := by
  unfold raise
  split <;> rfl

-- The state with the fetch of a follower, before the watermark is recomputed.
def fetched (s : PartitionState) (brokerID fetchOffset leaderEndOffset now : Int) : PartitionState :=
  { s with
    followerOffset := Function.update s.followerOffset brokerID (some fetchOffset)
    followerSeen := Function.update s.followerSeen brokerID (some now)
    leaderEndOffset }

-- A fetch brings its follower into the ISR and nobody else.
theorem followerInISR_fetched {b f e b' : Int} (hlag : 0 ≤ s.lagTimeout) :
    (s.fetched b f e now).followerInISR b' now ↔ b' = b ∨ s.followerInISR b' now := by
  by_cases heq : b' = b
  case pos => simp [heq, fetched, followerInISR, hlag]
  case neg => simp [heq, fetched, followerInISR]

theorem recordFollowerFetch_recomputed (s : PartitionState) (b f e now : Int) :
    Recomputed (s.fetched b f e now) now (s.recordFollowerFetch b f e now).fst
      (s.recordFollowerFetch b f e now).snd :=
  recomputeAndRelease_recomputed _ _

theorem updateHighWatermark_recomputed (s : PartitionState) (e now : Int) :
    Recomputed { s with leaderEndOffset := e } now (s.updateHighWatermark e now).fst
      (s.updateHighWatermark e now).snd :=
  recomputeAndRelease_recomputed _ _

-- The watermark stays above everything that is below it, below the fetch and below the leader's end.
theorem lt_watermark_fetched {b f e o : Int} (ho : o < s.watermark now) (hf : o < f) (he : o < e) :
    o < (s.fetched b f e now).watermark now := by
  have ⟨_, hfollowers⟩ := le_watermark_iff.mp ho
  refine le_watermark_iff.mpr ⟨he, fun b' hb' hne hi => ?_⟩
  simp only [fetched, followerInISR] at hi ⊢
  by_cases heq : b' = b
  case pos =>
    subst heq
    rw [Function.update_self]
    exact hf
  case neg =>
    rw [Function.update_of_ne heq] at hi ⊢
    exact hfollowers b' hb' hne hi

theorem lt_watermark_updated {e o : Int} (ho : o < s.watermark now) (he : o < e) :
    o < { s with leaderEndOffset := e }.watermark now := by
  have ⟨_, hfollowers⟩ := le_watermark_iff.mp ho
  exact le_watermark_iff.mpr ⟨he, hfollowers⟩

theorem watermark_le_raise (s : PartitionState) (target now : Int) :
    s.watermark now ≤ (s.raise target).watermark now := by
  have ⟨hend, hfollowers⟩ := le_watermark_iff.mp (le_refl (s.watermark now))
  unfold raise
  split
  case isTrue hlt => exact le_watermark_iff.mpr ⟨by dsimp only; omega, hfollowers⟩
  case isFalse    => exact le_rfl

end Replication.PartitionState
