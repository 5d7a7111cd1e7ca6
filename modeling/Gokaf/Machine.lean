import Mathlib.Data.List.Basic

-- A state machine whose steps may be disabled and may emit outputs.
structure Machine (σ α ω : Type*) where
  step : σ → α → Option (σ × List ω)

namespace Machine

variable {σ α ω : Type*} (m : Machine σ α ω)

-- The state reached by the given steps and everything they emitted, in order.
def run (s : σ) : List α → Option (σ × List ω)
  | [] => some (s, [])
  | a :: as =>
    match m.step s a with
    | none         => none
    | some (s', o) => (run s' as).map fun (s'', os) => (s'', o ++ os)

-- Every step of the run meets the condition `C` in the state it is taken from.
def Along (C : σ → α → Prop) (s : σ) : List α → Prop
  | []      => True
  | a :: as => C s a ∧ ∀ s' o, m.step s a = some (s', o) → Along C s' as

variable {m} {C : σ → α → Prop} {s s' : σ} {a : α} {as bs : List α} {o os : List ω}

@[simp]
theorem run_nil : m.run s [] = some (s, []) :=
  rfl

theorem run_cons_eq_some :
    m.run s (a :: as) = some (s', os) ↔
      ∃ s₁ o o', m.step s a = some (s₁, o) ∧ m.run s₁ as = some (s', o') ∧ os = o ++ o' := by
  simp only [run]
  cases hs : m.step s a
  case none => simp
  case some r =>
    have ⟨s₁, o⟩ := r
    simp only [Option.map_eq_some_iff, Option.some.injEq, Prod.mk.injEq, Prod.exists]
    constructor
    · rintro ⟨s₂, o', hr, rfl, rfl⟩
      exact ⟨s₁, o, o', ⟨rfl, rfl⟩, hr, rfl⟩
    · rintro ⟨_, _, o', ⟨rfl, rfl⟩, hr, rfl⟩
      exact ⟨s', o', hr, rfl, rfl⟩

theorem run_cons_of_some {s₁ : σ} {o' : List ω} (h : m.step s a = some (s₁, o)) (hr : m.run s₁ as = some (s', o')) :
    m.run s (a :: as) = some (s', o ++ o') :=
  run_cons_eq_some.mpr ⟨s₁, o, o', h, hr, rfl⟩

theorem run_append_of_some {s₁ : σ} {o' : List ω} (h : m.run s as = some (s₁, o)) (hr : m.run s₁ bs = some (s', o')) :
    m.run s (as ++ bs) = some (s', o ++ o') := by
  induction as generalizing s o
  case nil =>
    cases h
    exact hr
  case cons a as hi =>
    obtain ⟨s₂, o₁, o₂, hs, hr₂, rfl⟩ := run_cons_eq_some.mp h
    rw [List.cons_append, List.append_assoc]
    exact run_cons_of_some hs (hi hr₂)

theorem along_cons_of_none (h : m.step s a = none) : m.Along C s (a :: as) ↔ C s a := by
  simp [Along, h]

theorem along_cons_of_some (h : m.step s a = some (s', o)) :
    m.Along C s (a :: as) ↔ C s a ∧ m.Along C s' as := by
  simp [Along, h]

instance decidableAlong [∀ s a, Decidable (C s a)] : (s : σ) → (as : List α) → Decidable (m.Along C s as)
  | _, [] => isTrue trivial
  | s, a :: as =>
    match h : m.step s a with
    | none         => decidable_of_iff _ (along_cons_of_none h).symm
    | some (s', _) =>
      have := decidableAlong s' as
      decidable_of_iff _ (along_cons_of_some h).symm

-- An invariant over the number of steps, a state and the outputs so far. A step that meets the
-- condition keeps it, if it is one of the first `N`.
structure InductiveUpTo (m : Machine σ α ω) (C : σ → α → Prop) (N : Nat) (Inv : Nat → σ → List ω → Prop) :
    Prop where
  step : ∀ {n s a s' o os}, n < N → Inv n s os → C s a → m.step s a = some (s', o) → Inv (n + 1) s' (os ++ o)

theorem InductiveUpTo.run {N n : Nat} {Inv : Nat → σ → List ω → Prop} (h : m.InductiveUpTo C N Inv)
    (hi : Inv n s os) (hn : n + as.length ≤ N) (hc : m.Along C s as) (hr : m.run s as = some (s', o)) :
    Inv (n + as.length) s' (os ++ o) := by
  induction as generalizing n s os o
  case nil =>
    cases hr
    simpa using hi
  case cons a as ih =>
    have ⟨s₁, o₁, o₂, hs, hr, ho⟩ := run_cons_eq_some.mp hr
    rw [List.length_cons, Nat.add_comm as.length, ← Nat.add_assoc] at hn ⊢
    have := ih (h.step (by omega) hi hc.left hs) hn (hc.right _ _ hs) hr
    rwa [ho, ← List.append_assoc]

-- The same for a run from its first step on.
theorem InductiveUpTo.run_nil {N : Nat} {Inv : Nat → σ → List ω → Prop} (h : m.InductiveUpTo C N Inv)
    (hi : Inv 0 s []) (hn : as.length ≤ N) (hc : m.Along C s as) (hr : m.run s as = some (s', os)) :
    Inv as.length s' os := by
  simpa using h.run hi (by simpa using hn) hc hr

-- An invariant over a state and the outputs so far that every step keeps if it meets the condition.
structure Inductive (m : Machine σ α ω) (C : σ → α → Prop) (Inv : σ → List ω → Prop) : Prop where
  step : ∀ {s a s' o os}, Inv s os → C s a → m.step s a = some (s', o) → Inv s' (os ++ o)

variable {Inv : σ → List ω → Prop}

theorem Inductive.upTo (h : m.Inductive C Inv) (N : Nat) : m.InductiveUpTo C N fun _ => Inv where
  step _ := h.step

theorem Inductive.run (h : m.Inductive C Inv) (hi : Inv s os) (hc : m.Along C s as)
    (hr : m.run s as = some (s', o)) : Inv s' (os ++ o) :=
  (h.upTo as.length).run (n := 0) hi (by omega) hc hr

-- The same for a run that starts without outputs.
theorem Inductive.run_nil (h : m.Inductive C Inv) (hi : Inv s []) (hc : m.Along C s as)
    (hr : m.run s as = some (s', os)) : Inv s' os := by
  simpa using h.run hi hc hr

theorem Along.mono {C' : σ → α → Prop} (h : m.Along C s as) (hC : ∀ s a, C s a → C' s a) :
    m.Along C' s as := by
  induction as generalizing s
  case nil          => trivial
  case cons a as ih => exact ⟨hC _ _ h.left, fun _ _ hs => ih (h.right _ _ hs)⟩

theorem Along.and {C' : σ → α → Prop} (h : m.Along C s as) (h' : m.Along C' s as) :
    m.Along (fun s a => C s a ∧ C' s a) s as := by
  induction as generalizing s
  case nil => trivial
  case cons a as ih =>
    exact ⟨⟨h.left, h'.left⟩, fun s' o hs => ih (h.right s' o hs) (h'.right s' o hs)⟩

theorem along_of_forall {P : α → Prop} (h : ∀ a ∈ as, P a) (s : σ) : m.Along (fun _ a => P a) s as := by
  induction as generalizing s
  case nil => trivial
  case cons a as ih =>
    exact ⟨h a List.mem_cons_self, fun s' _ _ => ih (fun a ha => h a (List.mem_cons_of_mem _ ha)) s'⟩

theorem along_true (s : σ) (as : List α) : m.Along (fun _ _ => True) s as :=
  along_of_forall (fun _ _ => trivial) s

theorem Along.of_append (h : m.Along C s (as ++ bs)) : m.Along C s as := by
  induction as generalizing s
  case nil          => trivial
  case cons a as ih => exact ⟨h.left, fun s' o hs => ih (h.right s' o hs)⟩

theorem Along.append (h : m.Along C s (as ++ bs)) (hr : m.run s as = some (s', os)) :
    m.Along C s as ∧ m.Along C s' bs := by
  refine ⟨h.of_append, ?_⟩
  induction as generalizing s os
  case nil =>
    cases hr
    exact h
  case cons a as ih =>
    obtain ⟨s₁, o₁, o₂, hs, hr, -⟩ := run_cons_eq_some.mp hr
    exact ih (h.right s₁ o₁ hs) hr

-- Where the invariant makes two conditions on a step agree, they agree on whole runs.
theorem InductiveUpTo.along_iff {D : σ → α → Prop} {N n : Nat} {Inv : Nat → σ → List ω → Prop}
    (h : m.InductiveUpTo C N Inv) (hiff : ∀ {n s a os}, n < N → Inv n s os → (D s a ↔ C s a)) (hi : Inv n s o)
    (hn : n + as.length ≤ N) : m.Along D s as ↔ m.Along C s as := by
  induction as generalizing n s o
  case nil => exact Iff.rfl
  case cons a as ih =>
    rw [List.length_cons] at hn
    have hstep := hiff (a := a) (by omega) hi
    constructor
    all_goals
      rintro ⟨hc, hrest⟩
    · have hc := hstep.mp hc
      exact ⟨hc, fun s' o' hs => (ih (h.step (by omega) hi hc hs) (by omega)).mp (hrest s' o' hs)⟩
    · exact ⟨hstep.mpr hc, fun s' o' hs => (ih (h.step (by omega) hi hc hs) (by omega)).mpr (hrest s' o' hs)⟩

-- A property that a step keeps exactly if it meets the condition holds throughout a run exactly if all
-- of its steps do.
theorem along_iff_forall_reached {P Q : σ → Prop}
    (hstep : ∀ {s a s' o}, Q s → P s → m.step s a = some (s', o) → Q s' ∧ (P s' ↔ C s a))
    (hnone : ∀ {s a}, m.step s a = none → C s a) (hq : Q s) (h : P s) :
    m.Along C s as ↔ ∀ bs, bs <+: as → ∀ s' os, m.run s bs = some (s', os) → P s' := by
  induction as generalizing s
  case nil =>
    refine iff_of_true trivial fun bs hbs s' os hr => ?_
    cases List.prefix_nil.mp hbs
    cases hr
    exact h
  case cons a as hi =>
    cases hs : m.step s a
    case none =>
      refine iff_of_true ((along_cons_of_none hs).mpr (hnone hs)) fun bs hbs s' os hr => ?_
      cases bs
      case nil =>
        cases hr
        exact h
      case cons b bs =>
        obtain ⟨rfl, -⟩ := List.cons_prefix_cons.mp hbs
        obtain ⟨s₁, o, o', hs', -, -⟩ := run_cons_eq_some.mp hr
        cases hs.symm.trans hs'
    case some r =>
      obtain ⟨s₁, o⟩ := r
      obtain ⟨hq₁, hiff⟩ := hstep hq h hs
      rw [along_cons_of_some hs]
      constructor
      · rintro ⟨hc, hc'⟩ bs hbs s' os hr
        cases bs
        case nil =>
          cases hr
          exact h
        case cons b bs =>
          obtain ⟨rfl, htail⟩ := List.cons_prefix_cons.mp hbs
          obtain ⟨s₂, o₁, o₂, hs', hr, -⟩ := run_cons_eq_some.mp hr
          cases hs.symm.trans hs'
          exact (hi hq₁ (hiff.mpr hc)).mp hc' bs htail s' o₂ hr
      · intro hall
        have h₁ : P s₁ := hall [a] (List.cons_prefix_cons.mpr ⟨rfl, List.nil_prefix⟩) s₁ (o ++ [])
          (run_cons_of_some hs run_nil)
        refine ⟨hiff.mp h₁, (hi hq₁ h₁).mpr fun bs hbs s' os hr => ?_⟩
        exact hall (a :: bs) (List.cons_prefix_cons.mpr ⟨rfl, hbs⟩) s' (o ++ os) (run_cons_of_some hs hr)

-- The same for a machine whose steps are never disabled.
theorem along_iff_forall_begins {P : σ → Prop}
    (hstep : ∀ s a, ∃ s' o, m.step s a = some (s', o) ∧ (P s → (P s' ↔ C s a))) (h : P s) :
    m.Along C s as ↔ ∀ bs, bs <+: as → ∀ s' os, m.run s bs = some (s', os) → P s' := by
  refine along_iff_forall_reached (Q := fun _ => True) (fun {s a s' o} _ hp hs => ?_) (fun {s a} hs => ?_) trivial h
  · obtain ⟨s₁, o₁, hs₁, hiff⟩ := hstep s a
    cases hs₁.symm.trans hs
    exact ⟨trivial, hiff hp⟩
  · obtain ⟨s₁, o₁, hs₁, -⟩ := hstep s a
    cases hs₁.symm.trans hs

end Machine
