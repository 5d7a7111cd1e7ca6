import Mathlib.Data.List.Induction

-- What can be said about the order of the events in a history.
namespace History

variable {α : Type*} {p q : α → Prop} {os : List α} {o : α}

-- Between any two events of the one kind there is one of the other kind.
def Separated (p q : α → Prop) (os : List α) : Prop :=
  ∀ xs ys zs o o', os = xs ++ o :: (ys ++ o' :: zs) → p o → p o' → ∃ d ∈ ys, q d

-- There was an event of the one kind, and none of the other kind since.
def Since (p q : α → Prop) (os : List α) : Prop :=
  ∃ xs o ys, os = xs ++ o :: ys ∧ p o ∧ ∀ d ∈ ys, ¬q d

theorem separated_nil : Separated p q [] := by
  intro xs ys zs o o' h
  simp at h

theorem not_since_nil : ¬Since p q [] := by
  rintro ⟨xs, o, ys, h, _⟩
  simp at h

theorem Since.of_append (h : Since p q (os ++ [o])) : p o ∨ Since p q os ∧ ¬q o := by
  have ⟨xs, o', ys, heq, hp, hq⟩ := h
  cases ys using List.reverseRecOn
  case nil =>
    have ⟨_, heq⟩ := List.append_inj' heq rfl
    cases heq
    exact .inl hp
  case append_singleton ys d _ =>
    rw [← List.cons_append, ← List.append_assoc] at heq
    have ⟨hos, heq⟩ := List.append_inj' heq rfl
    cases heq
    exact .inr ⟨⟨xs, o', ys, hos, hp, fun d hd => hq d (List.mem_append_left _ hd)⟩, hq o (by simp)⟩

theorem Separated.append (h : Separated p q os) (ho : p o → ¬Since p q os) : Separated p q (os ++ [o]) := by
  intro xs ys zs o₁ o₂ heq h₁ h₂
  cases zs using List.reverseRecOn
  case append_singleton zs d _ =>
    rw [← List.cons_append, ← List.append_assoc, ← List.cons_append, ← List.append_assoc] at heq
    exact h xs ys zs o₁ o₂ (by simpa using (List.append_inj' heq rfl).left) h₁ h₂
  case nil =>
    rw [← List.cons_append, ← List.append_assoc] at heq
    have ⟨hos, heq⟩ := List.append_inj' heq rfl
    cases heq
    by_contra hnone
    exact ho h₂ ⟨xs, o₁, ys, hos, h₁, fun d hd hq => hnone ⟨d, hd, hq⟩⟩

theorem Since.of_append_forall {os' : List α} (h : Since p q (os ++ os')) (hp : ∀ o ∈ os', ¬p o) : Since p q os := by
  induction os' generalizing os
  case nil => simpa using h
  case cons o os' hi =>
    rw [List.append_cons] at h
    have hsince := hi h fun o ho => hp o (List.mem_cons_of_mem _ ho)
    cases hsince.of_append
    case inl hpo   => exact absurd hpo (hp o List.mem_cons_self)
    case inr hprev => exact hprev.left

theorem Separated.append_forall {os' : List α} (h : Separated p q os) (hp : ∀ o ∈ os', ¬p o) :
    Separated p q (os ++ os') := by
  induction os' generalizing os
  case nil => simpa using h
  case cons o os' hi =>
    rw [List.append_cons]
    exact hi (h.append fun hpo => absurd hpo (hp o List.mem_cons_self)) fun o ho => hp o (List.mem_cons_of_mem _ ho)

end History
