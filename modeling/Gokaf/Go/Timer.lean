import Mathlib.Logic.Function.Basic

namespace Go

-- A timer of `time.AfterFunc`. It is armed as long as it has a deadline.
structure Timer (κ : Type*) where
  callback : κ
  deadline : Option Int
  deriving DecidableEq, Repr

structure Timers (κ : Type*) where
  next  : Nat
  timer : Nat → Option (Timer κ)

namespace Timers

variable {κ : Type*}

def none : Timers κ where
  next    := 0
  timer _ := .none

def afterFunc (ts : Timers κ) (now d : Int) (callback : κ) : Timers κ × Nat :=
  (⟨ts.next + 1, Function.update ts.timer ts.next (some ⟨callback, some (now + d)⟩)⟩, ts.next)

-- The callback of a timer that has fired already is not stopped.
def stop (ts : Timers κ) (t : Nat) : Timers κ :=
  { ts with timer := Function.update ts.timer t ((ts.timer t).map fun timer => { timer with deadline := .none }) }

def reset (ts : Timers κ) (t : Nat) (now d : Int) : Timers κ :=
  { ts with
    timer := Function.update ts.timer t ((ts.timer t).map fun timer => { timer with deadline := some (now + d) }) }

-- The timer fires: its callback gets a goroutine of its own.
def fire (ts : Timers κ) (t : Nat) (now : Int) : Option (Timers κ × κ) :=
  match ts.timer t with
  | some ⟨callback, some deadline⟩ => if deadline ≤ now then some (ts.stop t, callback) else .none
  | _ => .none

variable {ts ts' : Timers κ} {now d : Int} {k k' : κ} {t : Nat} {timer : Timer κ}

-- Timers that are yet to be made do not exist.
def Fresh (ts : Timers κ) : Prop :=
  ∀ t, ts.next ≤ t → ts.timer t = .none

-- The callback is due at some time.
def Armed (ts : Timers κ) (k : κ) : Prop :=
  ∃ t deadline, ts.timer t = some ⟨k, some deadline⟩

theorem Fresh.afterFunc (h : ts.Fresh) : (ts.afterFunc now d k).fst.Fresh := by
  intro t (hle : ts.next + 1 ≤ t)
  simp only [Timers.afterFunc]
  rw [Function.update_of_ne (by omega)]
  exact h t (by omega)

theorem Fresh.stop (h : ts.Fresh) (t : Nat) : (ts.stop t).Fresh := by
  intro u hle
  by_cases hu : u = t
  case pos => simp [Timers.stop, hu, h t (hu ▸ hle)]
  case neg => simpa [Timers.stop, Function.update_of_ne hu] using h u hle

-- A new timer does not touch the others.
theorem Fresh.timer_afterFunc (h : ts.Fresh) (ht : ts.timer t = some timer) :
    (ts.afterFunc now d k).fst.timer t = some timer := by
  have hne : t ≠ ts.next := by
    rintro rfl
    cases ht.symm.trans (h _ (Nat.le_refl _))
  simp [Timers.afterFunc, Function.update_of_ne hne, ht]

theorem armed_afterFunc (ts : Timers κ) (now d : Int) (k : κ) : (ts.afterFunc now d k).fst.Armed k :=
  ⟨ts.next, now + d, Function.update_self ..⟩

theorem Armed.afterFunc (h : ts.Armed k') (hfresh : ts.Fresh) : (ts.afterFunc now d k).fst.Armed k' :=
  have ⟨t, deadline, ht⟩ := h
  ⟨t, deadline, hfresh.timer_afterFunc ht⟩

theorem callback_stop {deadline : Option Int} (h : ts.timer t = some ⟨k, deadline⟩) (u : Nat) :
    ∃ deadline', (ts.stop u).timer t = some ⟨k, deadline'⟩ := by
  by_cases hu : t = u
  case pos =>
    subst hu
    exact ⟨.none, by simp [stop, h]⟩
  case neg => exact ⟨deadline, by simp [stop, Function.update_of_ne hu, h]⟩

theorem Armed.stop {deadline : Option Int} (h : ts.Armed k') (ht : ts.timer t = some ⟨k, deadline⟩) (hk : k' ≠ k) :
    (ts.stop t).Armed k' := by
  have ⟨u, deadline', hu⟩ := h
  have hne : u ≠ t := by
    rintro rfl
    cases ht.symm.trans hu
    exact hk rfl
  exact ⟨u, deadline', by simp [Timers.stop, Function.update_of_ne hne, hu]⟩

theorem fire_eq_some (h : ts.fire t now = some (ts', k)) :
    ∃ deadline, ts.timer t = some ⟨k, some deadline⟩ ∧ ts' = ts.stop t := by
  unfold fire at h
  split at h
  case h_1 callback deadline ht =>
    split at h
    case isTrue =>
      cases h
      exact ⟨deadline, ht, rfl⟩
    case isFalse => contradiction
  case h_2 => contradiction

end Timers
end Go
