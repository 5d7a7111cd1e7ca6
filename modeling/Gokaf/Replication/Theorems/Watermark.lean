import Gokaf.Replication.Theorems.Execution
import Mathlib.Data.List.Perm.Subperm

open Go

namespace Replication

-- Numbers below `n`, each of them at most once.
structure Numbered (n : Nat) (ids : List Nat) : Prop where
  nodup : ids.Nodup
  lt    : ∀ id ∈ ids, id < n

namespace Numbered

variable {n n' : Nat} {ids ids' : List Nat}

theorem subperm (h : Numbered n ids) (hs : ids'.Subperm ids) : Numbered n ids' where
  nodup := by
    obtain ⟨l, hperm, hsub⟩ := hs
    exact hperm.nodup_iff.mp (h.nodup.sublist hsub)
  lt id hid := h.lt id (hs.subset hid)

theorem mono (h : Numbered n ids) (hle : n ≤ n') : Numbered n' ids where
  nodup := h.nodup
  lt id hid := (h.lt id hid).trans_le hle

theorem cons (h : Numbered n ids) : Numbered (n + 1) (n :: ids) where
  nodup := List.nodup_cons.mpr ⟨fun hn => (h.lt n hn).ne rfl, h.nodup⟩
  lt := List.forall_mem_cons.mpr ⟨n.lt_succ_self, (h.mono n.le_succ).lt⟩

end Numbered

namespace Tracking

open PartitionState

variable {s s' : Tracking} {a : Step} {as : List Step} {o os : List Output} {p : PartitionState} {ws : List Waiter}

@[simp]
theorem waiters_prepared (s : Tracking) (a : Step) : (s.prepared a).waiters = s.state.waiters := by
  cases a
  case waitForHighWatermark target => exact waiters_raise ..
  all_goals rfl

theorem recomputed (h : (s.prepared a).recomputeAndRelease s.now = (p, ws)) :
    Recomputed (s.prepared a) s.now p ws := by
  have hr := recomputeAndRelease_recomputed (s.prepared a) s.now
  rwa [h] at hr

theorem perm_examined (h : (s.prepared a).recomputeAndRelease s.now = (p, ws)) :
    s.state.waiters.Perm (p.waiters ++ ws) := by
  have hp := perm_recomputeAndRelease (s.prepared a) s.now
  rwa [h, waiters_prepared] at hp

@[simp]
theorem filterMap_closedID?_map_closed (ws : List Waiter) :
    (ws.map Output.closed).filterMap Output.closedID? = ws.map (·.id) := by
  induction ws
  case nil => rfl
  case cons w ws hi => simp [Output.closedID?, hi]

-- The channels that are open, and then those that have been closed.
def ids (s : Tracking) (os : List Output) : List Nat :=
  s.state.waiters.map (·.id) ++ os.filterMap Output.closedID?

theorem perm_ids (h : s.state.waiters.Perm (p.waiters ++ ws)) (os : List Output) :
    (p.waiters.map (·.id) ++ (os.filterMap Output.closedID? ++ ws.map (·.id))).Perm (s.ids os) := by
  have hids := (h.map (·.id)).symm
  rw [List.map_append] at hids
  calc (p.waiters.map (·.id) ++ (os.filterMap Output.closedID? ++ ws.map (·.id))).Perm
        (p.waiters.map (·.id) ++ (ws.map (·.id) ++ os.filterMap Output.closedID?)) :=
          List.perm_append_comm.append_left _
    _ = (p.waiters.map (·.id) ++ ws.map (·.id)) ++ os.filterMap Output.closedID? := by rw [List.append_assoc]
    List.Perm _ (s.ids os) := hids.append_right _

-- Every channel is open or closed, never both and never twice.
theorem inductive_numbered : machine.Inductive (fun _ _ => True) fun s os => Numbered s.nextID (s.ids os) where
  step {s a s' o os} hi _ hs := by
    cases moves hs
    case examines p ws _ _ _ heq =>
      refine hi.subperm (List.Perm.subperm ?_)
      simp only [ids, List.filterMap_append, filterMap_closedID?_map_closed]
      exact perm_ids (perm_examined heq) os
    case returns target p ws _ heq _ =>
      refine (hi.subperm (List.Perm.subperm ?_)).mono s.nextID.le_succ
      have hreturned : [Output.returned target].filterMap Output.closedID? = [] := rfl
      simp only [ids, List.filterMap_append, filterMap_closedID?_map_closed, hreturned, List.append_nil]
      exact perm_ids (perm_examined heq) os
    case parks target p ws _ heq _ =>
      refine hi.cons.subperm (List.Perm.subperm ?_)
      have hperm := (perm_ids (perm_examined heq) os).cons s.nextID
      simp only [ids, List.map_append, List.map_cons, List.map_nil, List.filterMap_append,
        filterMap_closedID?_map_closed, List.append_assoc, List.singleton_append]
      exact List.perm_middle.trans hperm
    case isr _ => simpa [ids] using hi
    case timeout id _ =>
      refine hi.subperm (List.Sublist.subperm ?_)
      simp only [ids, removeWaiter, List.append_nil]
      exact (List.filter_sublist.map _).append_right _
    case tick d _ => simpa [ids] using hi

-- A step records the offset of the follower that fetches.
theorem followerOffset_step (h : machine.step s a = some (s', o)) (b : Int) :
    (s'.state.followerOffset b).getD 0 = a.fetchOffset b ((s.state.followerOffset b).getD 0) := by
  have hprepared : ((s.prepared a).followerOffset b).getD 0 = a.fetchOffset b ((s.state.followerOffset b).getD 0) := by
    cases a
    case recordFollowerFetch brokerID f e =>
      simp only [prepared, fetched, Step.fetchOffset, Function.update_apply, eq_comm]
      split <;> rfl
    case waitForHighWatermark target =>
      simp only [prepared, raise]
      split <;> rfl
    all_goals rfl
  cases moves h
  case examines _ _ _ heq       => rw [← hprepared, (recomputed heq).eq]
  case returns _ heq _ | parks _ heq _ => rw [← hprepared, (recomputed heq).eq]
  case isr heq | timeout heq | tick heq => rw [heq]; rfl

theorem followerOffset_run (h : machine.run s as = some (s', os)) (b : Int) :
    (s'.state.followerOffset b).getD 0 =
      as.foldl (fun offset a => a.fetchOffset b offset) ((s.state.followerOffset b).getD 0) := by
  induction as generalizing s os
  case nil =>
    cases h
    rfl
  case cons a as hi =>
    obtain ⟨s₁, o, o', hs, hr, -⟩ := Machine.run_cons_eq_some.mp h
    rw [List.foldl_cons, ← followerOffset_step hs b]
    exact hi hr

-- What the watermark is after a step, and what happens to the waiters.
structure Sound (s : Tracking) (a : Step) (s' : Tracking) (o : List Output) : Prop where
  least    : a.recomputes → IsLeast (s'.state.offsets s.now) s'.state.highWatermark
  outsider : ∀ b f e, a = .recordFollowerFetch b f e → b ∉ s.state.replicas ∨ b = s.state.leaderID →
    s'.state.highWatermark = (s.state.updateHighWatermark e s.now).fst.highWatermark
  returns  : ∀ r ∈ o, r.target ≤ s'.state.leaderEndOffset ∧ ∀ b ∈ s'.state.isr s.now, b ≠ s'.state.leaderID →
    r.target ≤ (s'.state.followerOffset b).getD 0
  enters   : ∀ w ∈ s'.state.waiters, w ∈ s.state.waiters ∨ a = .waitForHighWatermark w.target ∧ w.id = s.nextID
  leaves   : ∀ w ∈ s.state.waiters, w ∈ s'.state.waiters ∨ .closed w ∈ o ∨ a = .timeout w.id

theorem isLeast_highWatermark {q : PartitionState} {now : Int} (h : Recomputed q now p ws) :
    IsLeast (p.offsets now) p.highWatermark := by
  rw [h.highWatermark, ← h.watermark]
  exact isLeast_watermark p now

-- Everybody in the ISR has got as far as the watermark.
theorem le_of_le_highWatermark {q : PartitionState} {now target : Int} (h : Recomputed q now p ws)
    (hle : target ≤ p.highWatermark) :
    target ≤ p.leaderEndOffset ∧ ∀ b ∈ p.isr now, b ≠ p.leaderID → target ≤ (p.followerOffset b).getD 0 := by
  rw [h.highWatermark, ← h.watermark] at hle
  obtain ⟨hend, hfollowers⟩ := le_watermark_iff.mp hle
  exact ⟨hend, fun b hb hne => hfollowers b (mem_isr hb hne).left hne (mem_isr hb hne).right⟩

theorem target_le_of_mem_closed {q : PartitionState} {now : Int} (h : Recomputed q now p ws) {r : Output}
    (hr : r ∈ ws.map Output.closed) : r.target ≤ p.highWatermark := by
  obtain ⟨w, hw, rfl⟩ := List.mem_map.mp hr
  exact (h.released w hw).right

theorem mem_of_mem_kept (h : (s.prepared a).recomputeAndRelease s.now = (p, ws)) {w : Waiter}
    (hw : w ∈ p.waiters) : w ∈ s.state.waiters := by
  have hmem := (recomputed h).kept w hw
  rwa [waiters_prepared] at hmem

theorem kept_or_closed (h : (s.prepared a).recomputeAndRelease s.now = (p, ws)) {w : Waiter}
    (hw : w ∈ s.state.waiters) : w ∈ p.waiters ∨ .closed w ∈ ws.map Output.closed := by
  cases List.mem_append.mp ((perm_examined h).mem_iff.mp hw)
  case inl hw => exact .inl hw
  case inr hw => exact .inr (List.mem_map_of_mem hw)

theorem sound (h : machine.step s a = some (s', o)) : Sound s a s' o := by
  cases moves h
  case examines p ws hwait hisr hrec heq =>
    have hr := recomputed heq
    constructor
    case least => exact fun _ => isLeast_highWatermark hr
    case outsider =>
      rintro b f e rfl hb
      rw [hr.highWatermark, (updateHighWatermark_recomputed ..).highWatermark]
      exact watermark_fetched_of_not_follower hb
    case returns => exact fun r hmem => le_of_le_highWatermark hr (target_le_of_mem_closed hr hmem)
    case enters  => exact fun w hw => .inl (mem_of_mem_kept heq hw)
    case leaves  => exact fun w hw => (kept_or_closed heq hw).imp_right .inl
  case returns target p ws ha heq hle =>
    subst ha
    have hr := recomputed heq
    constructor
    case least    => exact fun _ => isLeast_highWatermark hr
    case outsider => simp
    case returns =>
      intro r hmem
      refine le_of_le_highWatermark hr ?_
      cases List.mem_append.mp hmem
      case inl hmem => exact target_le_of_mem_closed hr hmem
      case inr hmem =>
        cases List.mem_singleton.mp hmem
        exact hle
    case enters => exact fun w hw => .inl (mem_of_mem_kept heq hw)
    case leaves =>
      exact fun w hw => (kept_or_closed heq hw).imp_right fun hclosed => .inl (List.mem_append_left _ hclosed)
  case parks target p ws ha heq hgt =>
    subst ha
    have hr := recomputed heq
    have hleast := isLeast_highWatermark hr
    have hreturns r (hmem : r ∈ ws.map Output.closed) := le_of_le_highWatermark hr (target_le_of_mem_closed hr hmem)
    constructor
    case least    => exact fun _ => hleast
    case outsider => simp
    case returns  => exact hreturns
    case enters =>
      intro w hw
      cases List.mem_append.mp hw
      case inl hw => exact .inl (mem_of_mem_kept heq hw)
      case inr hw =>
        cases List.mem_singleton.mp hw
        exact .inr ⟨rfl, rfl⟩
    case leaves =>
      exact fun w hw => (kept_or_closed heq hw).imp (List.mem_append_left _) .inl
  case isr ha =>
    subst ha
    exact ⟨fun _ => isLeast_watermark s.state s.now, by simp, by simp, fun w hw => .inl hw, fun w hw => .inl hw⟩
  case timeout id ha =>
    subst ha
    refine ⟨by simp [Step.recomputes], by simp, by simp, fun w hw => .inl (List.mem_filter.mp hw).left, fun w hw => ?_⟩
    by_cases hid : w.id = id
    case pos => exact .inr (.inr (by rw [hid]))
    case neg => exact .inl (List.mem_filter.mpr ⟨hw, by simpa using hid⟩)
  case tick d ha =>
    subst ha
    exact ⟨by simp [Step.recomputes], by simp, by simp, fun w hw => .inl hw, fun w hw => .inl hw⟩

section Runs

variable {replicas : List Int} {leaderID lagTimeout now : Int}

theorem followerOffset_new (b : Int) :
    ((Tracking.new replicas leaderID lagTimeout now).state.followerOffset b).getD 0 = 0 := by
  simp only [Tracking.new, PartitionState.new, recompute]
  split <;> rfl

-- No call is parked whose target has been reached.
def NoneSatisfied (s : Tracking) : Prop :=
  ∀ w ∈ s.state.waiters, s.state.highWatermark < w.target

-- When `ISR` is called, everyone parked still waits for the leader or for a follower that is in the ISR by then.
def Awaiting (s : Tracking) : Step → Prop
  | .isr => ∀ w ∈ s.state.waiters, s.state.leaderEndOffset < w.target ∨
    ∃ b ∈ s.state.isr s.now, b ≠ s.state.leaderID ∧ (s.state.followerOffset b).getD 0 < w.target
  | _ => True

theorem noneSatisfied_step_iff (hs : machine.step s a = some (s', o)) (h : s.NoneSatisfied) :
    s'.NoneSatisfied ↔ s.Awaiting a := by
  have hexamined {p ws} (heq : (s.prepared a).recomputeAndRelease s.now = (p, ws)) :
      ∀ w ∈ p.waiters, p.highWatermark < w.target := by
    have hprepared : (s.prepared a).highWatermark = s.state.highWatermark := by
      cases a
      case waitForHighWatermark target =>
        simp only [prepared, raise]
        split <;> rfl
      all_goals rfl
    have hbefore : ∀ w ∈ (s.prepared a).waiters, (s.prepared a).highWatermark < w.target := by
      rw [waiters_prepared, hprepared]
      exact h
    have hall : ∀ w ∈ ((s.prepared a).recomputeAndRelease s.now).fst.waiters, _ :=
      forall_lt_recomputeAndRelease hbefore
    rwa [heq] at hall
  cases moves hs
  case examines p ws hwait hisr _ heq =>
    refine iff_of_true (hexamined heq) ?_
    cases a
    case isr => contradiction
    all_goals trivial
  case returns target p ws ha heq _ =>
    refine iff_of_true (hexamined heq) ?_
    rw [ha]
    trivial
  case parks target p ws ha heq hgt =>
    refine iff_of_true (fun w hw => ?_) (by rw [ha]; trivial)
    cases List.mem_append.mp hw
    case inl hw => exact hexamined heq w hw
    case inr hw =>
      cases List.mem_singleton.mp hw
      exact hgt
  case isr ha =>
    subst ha
    exact forall₂_congr fun w _ => watermark_lt_iff
  case timeout id ha =>
    refine iff_of_true (fun w hw => h w (List.mem_filter.mp hw).left) (by rw [ha]; trivial)
  case tick d ha =>
    exact iff_of_true h (by rw [ha]; trivial)

theorem exists_step (s : Tracking) (a : Step) : ∃ s' o, machine.step s a = some (s', o) := by
  cases a <;> exact ⟨_, _, rfl⟩

theorem noneSatisfied_iff (as : List Step) :
    (∀ bs, bs <+: as → ∀ s os, machine.run (.new replicas leaderID lagTimeout now) bs = some (s, os) →
      s.NoneSatisfied) ↔
    machine.Along Awaiting (.new replicas leaderID lagTimeout now) as := by
  have hnew : (Tracking.new replicas leaderID lagTimeout now).NoneSatisfied := List.forall_mem_nil _
  refine (Machine.along_iff_forall_begins (fun s a => ?_) hnew).symm
  obtain ⟨s', o, hs⟩ := exists_step s a
  exact ⟨s', o, hs, noneSatisfied_step_iff hs⟩

-- The follower drops out of the ISR and `ISR` moves the watermark. Nobody looks at the waiter any more, not
-- even when the watermark is asked for again.
theorem not_noneSatisfied_isr :
    ∃ s os, machine.run (.new [1, 2] 1 10 0)
      [.waitForHighWatermark 1, .tick 11, .isr, .highWatermark 1, .tick 1, .recordFollowerFetch 2 1 1] =
        some (s, os) ∧ os = [] ∧ s.state.highWatermark = 1 ∧ ¬s.NoneSatisfied := by
  refine ⟨_, _, rfl, rfl, rfl, fun h => ?_⟩
  exact absurd (h ⟨0, 1⟩ List.mem_cons_self) (by decide)

theorem le_watermark_of_run (h : machine.run (.new replicas leaderID lagTimeout now) as = some (s, os)) :
    s.state.highWatermark ≤ s.state.watermark s.now := by
  have hind : machine.Inductive (fun _ _ => True) fun s _ => s.state.highWatermark ≤ s.state.watermark s.now := by
    refine ⟨fun {s a s' o os} hi _ hs => ?_⟩
    cases moves hs
    case examines _ _ _ heq | returns _ heq _ | parks _ heq _ =>
      have hr := recomputed heq
      exact (hr.highWatermark.trans (hr.watermark _).symm).le
    case isr _ => exact le_rfl
    case timeout _ => exact hi
    case tick _ => exact hi.trans (watermark_le_of_le (by simp))
  exact hind.run_nil le_rfl (Machine.along_true _ _) h

-- Neither the end offset of the leader nor the offsets of a follower go back.
def Advances (s : Tracking) : Step → Prop
  | .recordFollowerFetch b f e => s.state.leaderEndOffset ≤ e ∧
    (b ∈ s.state.replicas → b ≠ s.state.leaderID → (s.state.followerOffset b).getD 0 ≤ f)
  | .highWatermark e => s.state.leaderEndOffset ≤ e
  | _ => True

instance (s : Tracking) : DecidablePred s.Advances := fun _ => by
  unfold Tracking.Advances
  split <;> infer_instance

-- A follower that has dropped out of the ISR is back, behind the watermark.
def Reenters (s : Tracking) : Step → Prop
  | .recordFollowerFetch b f _ => b ∈ s.state.replicas ∧ b ≠ s.state.leaderID ∧ 0 ≤ s.state.lagTimeout ∧
    ¬s.state.followerInISR b s.now ∧ f < s.state.highWatermark
  | _ => False

theorem le_watermark_prepared_iff (hle : s.state.highWatermark ≤ s.state.watermark s.now) (ha : s.Advances a) :
    s.state.highWatermark ≤ (s.prepared a).watermark s.now ↔ ¬s.Reenters a := by
  obtain ⟨hend, hfollowers⟩ := le_watermark_iff.mp hle
  cases a
  case recordFollowerFetch b f e =>
    obtain ⟨he, hf⟩ := ha
    refine (le_watermark_fetched_iff hle (hend.trans he)).trans ⟨fun h hre => ?_, fun h hb hne hlag => ?_⟩
    · obtain ⟨hb, hne, hlag, -, hlt⟩ := hre
      exact (h hb hne hlag).not_gt hlt
    · by_contra hlt
      refine h ⟨hb, hne, hlag, fun hi => hlt ?_, not_le.mp hlt⟩
      -- A follower in the ISR has an offset at or above the watermark, and it does not go back.
      exact (hfollowers b hb hne hi).trans (hf hb hne)
  case waitForHighWatermark target => exact iff_of_true (hle.trans (watermark_le_raise ..)) id
  case highWatermark e =>
    exact iff_of_true (le_watermark_iff.mpr ⟨hend.trans ha, hfollowers⟩) id
  all_goals exact iff_of_true hle id

theorem highWatermark_lt_iff (h : machine.run (.new replicas leaderID lagTimeout now) as = some (s, os))
    (ha : s.Advances a) (hs : machine.step s a = some (s', o)) :
    s'.state.highWatermark < s.state.highWatermark ↔ s.Reenters a := by
  have hle := le_watermark_of_run h
  have hprepared {p ws} (heq : (s.prepared a).recomputeAndRelease s.now = (p, ws)) :
      p.highWatermark < s.state.highWatermark ↔ s.Reenters a := by
    rw [(recomputed heq).highWatermark, ← not_le, le_watermark_prepared_iff hle ha, not_not]
  cases moves hs
  case examines _ _ _ heq | returns _ heq _ => exact hprepared heq
  case parks _ heq _ =>
    have := hprepared heq
    exact this
  case isr ha =>
    subst ha
    exact iff_of_false hle.not_gt id
  case timeout ha | tick ha =>
    subst ha
    exact iff_of_false (lt_irrefl _) id

-- The follower is silent until it is out of the ISR, and then asks for its first record.
theorem highWatermark_lt_silent :
    ∃ s os, machine.run (.new [1, 2] 1 10 0) [.tick 11, .highWatermark 5] = some (s, os) ∧
      machine.Along Advances (.new [1, 2] 1 10 0) [.tick 11, .highWatermark 5, .recordFollowerFetch 2 0 5] ∧
      ∃ s' o, machine.step s (.recordFollowerFetch 2 0 5) = some (s', o) ∧
        s'.state.highWatermark = 0 ∧ s.state.highWatermark = 5 := by
  exact ⟨_, _, rfl, by decide, _, _, rfl, rfl, rfl⟩

theorem highWatermark_lt_iff_silent :
    ∃ s os, machine.run (.new [1, 2] 1 10 0) [.tick 11, .highWatermark 5] = some (s, os) ∧
      s.Advances (.recordFollowerFetch 2 0 5) ∧
      ∃ s' o, machine.step s (.recordFollowerFetch 2 0 5) = some (s', o) ∧
        (s'.state.highWatermark < s.state.highWatermark ↔ s.Reenters (.recordFollowerFetch 2 0 5)) := by
  obtain ⟨s, os, hr, hend, hoffset⟩ : ∃ s os, machine.run (.new [1, 2] 1 10 0) [.tick 11, .highWatermark 5] =
      some (s, os) ∧ s.state.leaderEndOffset = 5 ∧ s.state.followerOffset 2 = some 0 :=
    ⟨_, _, rfl, rfl, rfl⟩
  have ha : s.Advances (.recordFollowerFetch 2 0 5) := ⟨hend.le, fun _ _ => by rw [hoffset]; rfl⟩
  obtain ⟨s', o, hs⟩ := exists_step s (.recordFollowerFetch 2 0 5)
  exact ⟨s, os, hr, ha, s', o, hs, highWatermark_lt_iff hr ha hs⟩

end Runs

end Tracking

end Replication
