import Gokaf.Replication.Execution
import Gokaf.Replication.Theorems.PartitionState
import Mathlib.Order.Bounds.Basic

open Go

namespace Replication

namespace PartitionState

variable {s s' : PartitionState} {now : Int} {released : List Waiter}

-- The end offset of the leader, and the offsets of the other replicas that have been seen lately.
def offsets (s : PartitionState) (now : Int) : Set Int :=
  { x | x = s.leaderEndOffset ∨
    ∃ b ∈ s.replicas, b ≠ s.leaderID ∧ s.followerInISR b now ∧ x = (s.followerOffset b).getD 0 }

theorem isLeast_watermark (s : PartitionState) (now : Int) : IsLeast (s.offsets now) (s.watermark now) := by
  obtain ⟨hend, hfollowers⟩ := le_watermark_iff.mp (le_refl (s.watermark now))
  constructor
  case left =>
    -- Otherwise one more would still be below all of them.
    by_contra hmem
    have hsucc : s.watermark now + 1 ≤ s.watermark now := by
      refine le_watermark_iff.mpr ⟨?_, fun b hb hne hi => ?_⟩
      · exact lt_of_le_of_ne hend fun heq => hmem (.inl heq)
      · exact lt_of_le_of_ne (hfollowers b hb hne hi) fun heq => hmem (.inr ⟨b, hb, hne, hi, heq⟩)
    omega
  case right =>
    rintro x (rfl | ⟨b, hb, hne, hi, rfl⟩)
    · exact hend
    · exact hfollowers b hb hne hi

-- Every waiter is released or kept.
theorem perm_recomputeAndRelease (s : PartitionState) (now : Int) :
    s.waiters.Perm ((s.recomputeAndRelease now).fst.waiters ++ (s.recomputeAndRelease now).snd) := by
  unfold recomputeAndRelease recompute
  split
  case h_1 heq =>
    have hs := (Prod.mk.inj heq).left
    subst hs
    simp only [releaseWaiters, decide_not]
    exact (List.filter_append_perm _ s.waiters).symm.trans List.perm_append_comm
  case h_2 heq =>
    have hs := (Prod.mk.inj heq).left
    subst hs
    simp

-- A waiter that is left parked waits for the leader or for somebody in the ISR.
theorem watermark_lt_iff {x : Int} : s.watermark now < x ↔
    s.leaderEndOffset < x ∨ ∃ b ∈ s.isr now, b ≠ s.leaderID ∧ (s.followerOffset b).getD 0 < x := by
  rw [← not_iff_not, not_lt, le_watermark_iff]
  push Not
  refine and_congr_right fun _ => ⟨fun h b hb hne => ?_, fun h b hb hne hi => ?_⟩
  · exact h b (mem_isr hb hne).left hne (mem_isr hb hne).right
  · refine h b (List.mem_cons_of_mem _ (List.mem_filter.mpr ⟨hb, ?_⟩)) hne
    exact decide_eq_true ⟨hne, hi⟩

-- Unless the watermark stays as it is, the waiters are examined.
theorem forall_lt_recomputeAndRelease (h : ∀ w ∈ s.waiters, s.highWatermark < w.target) :
    ∀ w ∈ (s.recomputeAndRelease now).fst.waiters, (s.recomputeAndRelease now).fst.highWatermark < w.target := by
  unfold recomputeAndRelease recompute
  split
  case h_1 heq =>
    cases (Prod.mk.inj heq).left
    intro w hw
    have hnot := (List.mem_filter.mp hw).right
    exact lt_of_not_ge (of_decide_eq_true hnot)
  case h_2 heq =>
    obtain ⟨hs, hsame⟩ := Prod.mk.inj heq
    subst hs
    have hsame : s.watermark now = s.highWatermark := by simpa using hsame
    simpa [hsame] using h

section Fetched

variable {b b' f e x : Int}

theorem followerOffset_fetched_self : (s.fetched b f e now).followerOffset b = some f :=
  Function.update_self ..

theorem followerOffset_fetched_of_ne (h : b' ≠ b) : (s.fetched b f e now).followerOffset b' = s.followerOffset b' :=
  Function.update_of_ne h ..

theorem followerInISR_fetched_self : (s.fetched b f e now).followerInISR b now ↔ 0 ≤ s.lagTimeout := by
  simp [fetched, followerInISR]

theorem followerInISR_fetched_of_ne (h : b' ≠ b) :
    (s.fetched b f e now).followerInISR b' now = s.followerInISR b' now := by
  simp [fetched, followerInISR, Function.update_of_ne h]

-- A fetch puts its own offset in the way of the watermark, and nothing else.
theorem le_watermark_fetched_iff (hx : x ≤ s.watermark now) (he : x ≤ e) :
    x ≤ (s.fetched b f e now).watermark now ↔
      (b ∈ s.replicas → b ≠ s.leaderID → 0 ≤ s.lagTimeout → x ≤ f) := by
  obtain ⟨-, hfollowers⟩ := le_watermark_iff.mp hx
  rw [le_watermark_iff]
  constructor
  case mp =>
    rintro ⟨-, h⟩ hb hne hlag
    have hf := h b hb hne (followerInISR_fetched_self.mpr hlag)
    rwa [followerOffset_fetched_self] at hf
  case mpr =>
    refine fun hf => ⟨he, fun b' hb' hne hi => ?_⟩
    by_cases heq : b' = b
    case pos =>
      subst heq
      rw [followerOffset_fetched_self]
      exact hf hb' hne (followerInISR_fetched_self.mp hi)
    case neg =>
      rw [followerInISR_fetched_of_ne heq] at hi
      rw [followerOffset_fetched_of_ne heq]
      exact hfollowers b' hb' hne hi

end Fetched

-- A broker that is not one of the followers brings nothing but the end offset.
theorem watermark_fetched_of_not_follower {b f e : Int} (h : b ∉ s.replicas ∨ b = s.leaderID) :
    (s.fetched b f e now).watermark now = { s with leaderEndOffset := e }.watermark now := by
  refine eq_of_forall_le_iff fun x => ?_
  rw [le_watermark_iff, le_watermark_iff]
  refine and_congr_right fun _ => forall₂_congr fun b' hb' => forall_congr' fun hne => ?_
  have hb : b' ≠ b := by
    rintro rfl
    exact h.elim (· hb') hne
  rw [followerInISR_fetched_of_ne hb, followerOffset_fetched_of_ne hb]
  rfl

end PartitionState

namespace Tracking

open PartitionState

variable {s s' : Tracking} {a : Step} {as : List Step} {o os : List Output}

-- The state that a step computes the watermark of.
def prepared (s : Tracking) : Step → PartitionState
  | .recordFollowerFetch b f e   => s.state.fetched b f e s.now
  | .waitForHighWatermark target => s.state.raise target
  | .highWatermark e             => { s.state with leaderEndOffset := e }
  | _                            => s.state

-- What a step can do. The first three examine the waiters, `isr` does not.
inductive Moves (s : Tracking) (a : Step) : Tracking → List Output → Prop
  | examines {p ws} : (∀ target, a ≠ .waitForHighWatermark target) → a ≠ .isr → a.recomputes →
    (s.prepared a).recomputeAndRelease s.now = (p, ws) → Moves s a { s with state := p } (ws.map .closed)
  | returns {target p ws} : a = .waitForHighWatermark target →
    (s.prepared a).recomputeAndRelease s.now = (p, ws) → target ≤ p.highWatermark →
    Moves s a { s with state := p, nextID := s.nextID + 1 } (ws.map .closed ++ [.returned target])
  | parks {target p ws} : a = .waitForHighWatermark target →
    (s.prepared a).recomputeAndRelease s.now = (p, ws) → p.highWatermark < target →
    Moves s a { s with
      state := { p with waiters := p.waiters ++ [⟨s.nextID, target⟩] }, nextID := s.nextID + 1 } (ws.map .closed)
  | isr : a = .isr → Moves s a { s with state := { s.state with highWatermark := s.state.watermark s.now } } []
  | timeout {id} : a = .timeout id → Moves s a { s with state := s.state.removeWaiter id } []
  | tick {d : Nat} : a = .tick d → Moves s a { s with now := s.now + d } []

theorem moves (h : machine.step s a = some (s', o)) : Moves s a s' o := by
  cases a
  case recordFollowerFetch b f e =>
    cases h
    exact .examines (by simp) (by simp) rfl rfl
  case waitForHighWatermark target =>
    have hs : s.state.waitForHighWatermark s.nextID target s.now =
        let r := (s.prepared (.waitForHighWatermark target)).recomputeAndRelease s.now
        if target ≤ r.fst.highWatermark then (r.fst, r.snd, true)
        else ({ r.fst with waiters := r.fst.waiters ++ [⟨s.nextID, target⟩] }, r.snd, false) := rfl
    simp only [machine, hs] at h
    split at h
    case isTrue hle =>
      cases h
      exact .returns rfl rfl hle
    case isFalse hgt =>
      simp only [Bool.false_eq_true, if_false, List.append_nil] at h
      cases h
      exact .parks rfl rfl (lt_of_not_ge hgt)
  case highWatermark e =>
    cases h
    exact .examines (by simp) (by simp) rfl rfl
  case isr =>
    cases h
    exact .isr rfl
  case timeout id =>
    cases h
    exact .timeout rfl
  case tick d =>
    cases h
    exact .tick rfl

end Tracking

end Replication
