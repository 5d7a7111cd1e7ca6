import Gokaf.Machine

-- Refinement of a step relation by a machine.
namespace Machine

variable {σ τ α ω : Type*}

-- A run of a step relation, with everything it emits.
inductive Trace (T : τ → α → List ω → τ → Prop) : τ → List α → List ω → τ → Prop
  | nil (t : τ) : Trace T t [] [] t
  | cons {t t₁ t' : τ} {a : α} {as : List α} {o os : List ω} :
    T t a o t₁ → Trace T t₁ as os t' → Trace T t (a :: as) (o ++ os) t'

-- The first `N` steps that meet the condition are enabled, and the relation takes them along.
structure RefinesUpTo (m : Machine σ α ω) (T : τ → α → List ω → τ → Prop) (C : α → Prop) (N : Nat)
    (R : Nat → σ → τ → Prop) : Prop where
  step : ∀ {n s t a}, n < N → R n s t → C a → ∃ s' o t', m.step s a = some (s', o) ∧ T t a o t' ∧ R (n + 1) s' t'

variable {m : Machine σ α ω} {T : τ → α → List ω → τ → Prop} {C : α → Prop} {N n : Nat} {R : Nat → σ → τ → Prop} {s : σ}
  {t t' : τ} {as : List α} {os : List ω}

theorem RefinesUpTo.run (h : m.RefinesUpTo T C N R) (hR : R n s t) (hn : n + as.length ≤ N) (hC : ∀ a ∈ as, C a) :
    ∃ s' os t', m.run s as = some (s', os) ∧ Trace T t as os t' ∧ R (n + as.length) s' t' := by
  induction as generalizing n s t
  case nil => exact ⟨s, [], t, rfl, .nil t, hR⟩
  case cons a as hi =>
    rw [List.length_cons, Nat.add_comm as.length, ← Nat.add_assoc] at hn ⊢
    obtain ⟨s₁, o, t₁, hs, hT, hR₁⟩ := h.step (by omega) hR (hC a List.mem_cons_self)
    obtain ⟨s', os, t', hr, htrace, hR'⟩ := hi hR₁ hn fun a ha => hC a (List.mem_cons_of_mem _ ha)
    exact ⟨s', o ++ os, t', run_cons_of_some hs hr, .cons hT htrace, hR'⟩

-- What every step keeps, the whole run keeps.
theorem Trace.invariant {P : τ → Prop} {D : α → Prop} (hstep : ∀ {t a o t'}, P t → D a → T t a o t' → P t')
    (h : Trace T t as os t') (hP : P t) (hD : ∀ a ∈ as, D a) : P t' := by
  induction h
  case nil => exact hP
  case cons hT _ hi => exact hi (hstep hP (hD _ List.mem_cons_self) hT) fun a ha => hD a (List.mem_cons_of_mem _ ha)

end Machine
