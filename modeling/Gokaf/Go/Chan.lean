import Mathlib.Data.List.Basic

namespace Go

-- A channel of capacity one. A goroutine of which `κ` tells what it needs to go on may be parked in a
-- receive, but only while there is nothing to receive.
structure Chan (α κ : Type*) where
  buffer    : Option α
  receivers : List κ
  parked    : receivers ≠ [] → buffer = none

namespace Chan

variable {α κ : Type*}

def make : Chan α κ where
  buffer    := none
  receivers := []
  parked _  := rfl

-- `select { case ch <- a: default: }`. The longest waiting receiver gets the value, if there is one.
def send : Chan α κ → α → Chan α κ × Option κ
  | ⟨buffer, k :: ks, parked⟩, _ => (⟨buffer, ks, fun _ => parked (List.cons_ne_nil k ks)⟩, some k)
  | ⟨buffer, [], _⟩, a           => (⟨buffer.or (some a), [], fun h => absurd rfl h⟩, none)

-- `<-ch`, which returns a value or parks.
def receive : Chan α κ → κ → Chan α κ × Option α
  | ⟨some a, receivers, _⟩, _ => (⟨none, receivers, fun _ => rfl⟩, some a)
  | ⟨none, receivers, _⟩, k   => (⟨none, receivers ++ [k], fun _ => rfl⟩, none)

-- Who receives the value was waiting for it; nobody else is affected.
theorem send_cases (ch : Chan α κ) (a : α) :
    (∃ k, ch.receivers = k :: (ch.send a).fst.receivers ∧ (ch.send a).snd = some k ∧
        ch.buffer = none ∧ (ch.send a).fst.buffer = none) ∨
      ch.receivers = [] ∧ (ch.send a).fst.receivers = [] ∧ (ch.send a).snd = none ∧
        (ch.send a).fst.buffer = ch.buffer.or (some a) := by
  rcases ch with ⟨buffer, _ | ⟨k, ks⟩, parked⟩
  case nil => exact .inr ⟨rfl, rfl, rfl, rfl⟩
  case cons =>
    have hnone := parked (List.cons_ne_nil k ks)
    exact .inl ⟨k, rfl, rfl, hnone, hnone⟩

theorem receivers_send_subset (ch : Chan α κ) (a : α) : (ch.send a).fst.receivers ⊆ ch.receivers := by
  cases ch.send_cases a
  case inl hsend =>
    have ⟨k, hreceivers, _⟩ := hsend
    rw [hreceivers]
    exact List.subset_cons_self _ _
  case inr hsend => simp [hsend.right.left]

theorem mem_receivers_of_send {ch : Chan α κ} {a : α} {k : κ} (h : k ∈ (ch.send a).snd) : k ∈ ch.receivers := by
  cases ch.send_cases a
  case inl hsend =>
    have ⟨k', hreceivers, hsnd, _⟩ := hsend
    cases hsnd.symm.trans h
    simp [hreceivers]
  case inr hsend => cases hsend.right.right.left.symm.trans h

-- A full channel takes no other value.
theorem buffer_send_of_some {ch : Chan α κ} {a b : α} (h : ch.buffer = some a) : (ch.send b).fst.buffer = some a := by
  cases ch.send_cases b
  case inl hsend =>
    have ⟨_, _, _, hnone, _⟩ := hsend
    cases h.symm.trans hnone
  case inr hsend => rw [hsend.right.right.right, h, Option.some_or]

theorem receive_cases (ch : Chan α κ) (k : κ) :
    (∃ a, ch.buffer = some a ∧ (ch.receive k).snd = some a ∧ (ch.receive k).fst.buffer = none ∧
        ch.receivers = [] ∧ (ch.receive k).fst.receivers = []) ∨
      ch.buffer = none ∧ (ch.receive k).snd = none ∧ (ch.receive k).fst.buffer = none ∧
        (ch.receive k).fst.receivers = ch.receivers ++ [k] := by
  rcases ch with ⟨_ | a, receivers, parked⟩
  case none => exact .inr ⟨rfl, rfl, rfl, rfl⟩
  case some =>
    have hnil : receivers = [] := by
      by_contra h
      cases parked h
    exact .inl ⟨a, rfl, rfl, rfl, hnil, hnil⟩

-- All who wait for a value: the parked ones, and those who are about to receive.
def waiting (ch : Chan α κ) (ready : List κ) : List κ :=
  ch.receivers ++ ready

-- There is a value for everyone who waits.
def Settled (ch : Chan α κ) (ready : List κ) : Prop :=
  (ch.waiting ready).length ≤ ch.buffer.toList.length

instance (ch : Chan α κ) (ready : List κ) : Decidable (ch.Settled ready) :=
  inferInstanceAs (Decidable (_ ≤ _))

-- Nobody comes, and who takes the value goes.
structure Serves (ch : Chan α κ) (ready : List κ) (ch' : Chan α κ) (ready' : List κ) : Prop where
  subset : ch'.waiting ready' ⊆ ch.waiting ready
  length : (ch'.waiting ready').length + ch.buffer.toList.length ≤ (ch.waiting ready).length + ch'.buffer.toList.length

namespace Serves

variable {ch ch' ch'' : Chan α κ} {ready ready' ready'' : List κ}

theorem refl (ch : Chan α κ) (ready : List κ) : Serves ch ready ch ready :=
  ⟨List.Subset.refl _, Nat.le_refl _⟩

theorem trans (h : Serves ch ready ch' ready') (h' : Serves ch' ready' ch'' ready'') :
    Serves ch ready ch'' ready'' := by
  have hle  := h.length
  have hle' := h'.length
  exact ⟨List.Subset.trans h'.subset h.subset, by omega⟩

theorem settled (h : Serves ch ready ch' ready') (hs : ch.Settled ready) : ch'.Settled ready' := by
  have hle := h.length
  unfold Settled at hs ⊢
  omega

theorem perm (ch : Chan α κ) (h : ready.Perm ready') : Serves ch ready ch ready' where
  subset := (h.append_left ch.receivers).symm.subset
  length := Nat.le_of_eq (by rw [waiting, waiting, (h.append_left ch.receivers).length_eq])

end Serves

theorem serves_send (ch : Chan α κ) (a : α) (ready : List κ) : Serves ch ready (ch.send a).fst ready := by
  cases ch.send_cases a
  case inl h =>
    have ⟨k, hreceivers, _, hbuffer, hbuffer'⟩ := h
    constructor
    · simp [waiting, hreceivers]
    · simp only [waiting, hreceivers, hbuffer, hbuffer', List.length_append, List.length_cons]
      omega
  case inr h =>
    have ⟨hreceivers, hreceivers', _, hbuffer⟩ := h
    constructor
    · simp [waiting, hreceivers, hreceivers']
    · rw [waiting, waiting, hreceivers, hreceivers', hbuffer]
      cases ch.buffer <;> simp

theorem serves_receive (ch : Chan α κ) {k : κ} {ready ready' : List κ} (h : ready.Perm (k :: ready')) :
    Serves ch ready (ch.receive k).fst ready' := by
  have hlength := h.length_eq
  rw [List.length_cons] at hlength
  have hready : ready' ⊆ ready := fun x hx => h.mem_iff.mpr (List.mem_cons_of_mem k hx)
  have hk : k ∈ ready := h.mem_iff.mpr List.mem_cons_self
  cases ch.receive_cases k
  case inl h =>
    have ⟨a, hbuffer, _, hbuffer', hreceivers, hreceivers'⟩ := h
    constructor
    · simpa [waiting, hreceivers, hreceivers'] using hready
    · simp [waiting, hreceivers, hreceivers', hbuffer, hbuffer', hlength]
  case inr h =>
    have ⟨hbuffer, _, hbuffer', hreceivers⟩ := h
    constructor
    · simpa [waiting, hreceivers, hk] using List.subset_append_of_subset_right _ hready
    · simp only [waiting, hreceivers, hbuffer, hbuffer', List.length_append, List.length_singleton]
      omega

end Chan
end Go
