import Gokaf.Go.Fault

namespace Go

-- Computations that read bytes and can fail.
abbrev DecoderT (n : Type → Type*) := StateT Bytes (ExceptT Fault n)

-- What such a computation has done to a state of type `σ` by the time it fails stays done.
abbrev Effect (σ : Type) := DecoderT (StateM σ)

namespace Effect

variable {σ τ α β γ δ : Type}

-- The outcome, with the bytes that are left, and the state afterwards.
def exec (x : Effect σ α) (bs : Bytes) (s : σ) : Except Fault (α × Bytes) × σ :=
  x bs s

def update (f : σ → α × σ) : Effect σ α :=
  modifyGetThe σ f

-- The computation on a part of the state.
def zoom (get : τ → σ) (set : σ → τ → τ) (x : Effect σ α) : Effect τ α :=
  fun bs t => ((x.exec bs (get t)).fst, set (x.exec bs (get t)).snd t)

theorem exec_pure (a : α) (bs : Bytes) (s : σ) : exec (pure a : Effect σ α) bs s = (.ok (a, bs), s) :=
  rfl

theorem exec_throw (e : Fault) (bs : Bytes) (s : σ) : exec (throw e : Effect σ α) bs s = (.error e, s) :=
  rfl

theorem exec_update (f : σ → α × σ) (bs : Bytes) (s : σ) : exec (update f) bs s = (.ok ((f s).fst, bs), (f s).snd) :=
  rfl

theorem exec_bind (x : Effect σ α) (f : α → Effect σ β) (bs : Bytes) (s : σ) :
    exec (x >>= f) bs s =
      match exec x bs s with
      | (.ok (a, bs'), s') => exec (f a) bs' s'
      | (.error e, s')     => (.error e, s') := by
  change (ExceptT.bind (x bs) fun p => f p.fst p.snd) s = _
  simp only [ExceptT.bind, ExceptT.mk, bind, StateT.bind, exec]
  rcases x bs s with ⟨_ | ⟨a, bs'⟩, s'⟩
  case error => rfl
  case ok    => rfl

theorem exec_bind_of_ok {x : Effect σ α} {a : α} {bs bs' : Bytes} {s s' : σ} (h : exec x bs s = (.ok (a, bs'), s'))
    (f : α → Effect σ β) : exec (x >>= f) bs s = exec (f a) bs' s' := by
  rw [exec_bind, h]

-- Outcomes that differ at most in the value.
inductive Agree (V : α → β → Prop) : Except Fault (α × Bytes) → Except Fault (β × Bytes) → Prop
  | ok {a : α} {b : β} (bs : Bytes) (h : V a b) : Agree V (.ok (a, bs)) (.ok (b, bs))
  | error (e : Fault) : Agree V (.error e) (.error e)

theorem Agree.error_iff {V : α → β → Prop} {x : Except Fault (α × Bytes)} {y : Except Fault (β × Bytes)}
    (h : Agree V x y) (e : Fault) : x = .error e ↔ y = .error e := by
  cases h
  case ok bs h  => simp only [reduceCtorEq]
  case error e' => simp only [Except.error.injEq]

-- Two computations that read the same bytes and fail alike, from related states to related states.
def Simulates (R : σ → τ → Prop) (V : α → β → Prop) (x : Effect σ α) (y : Effect τ β) : Prop :=
  ∀ bs ⦃s t⦄, R s t → Agree V (x.exec bs s).fst (y.exec bs t).fst ∧ R (x.exec bs s).snd (y.exec bs t).snd

-- For computations whose values do not matter.
def Any (_ : α) (_ : β) : Prop :=
  True

variable {R : σ → τ → Prop} {V : α → β → Prop} {W : γ → δ → Prop}

theorem simulates_pure {a : α} {b : β} (h : V a b) : Simulates R V (pure a) (pure b) :=
  fun bs _ _ hr => ⟨.ok bs h, hr⟩

theorem simulates_update {f : σ → α × σ} {g : τ → β × τ} (hv : ∀ s t, R s t → V (f s).fst (g t).fst)
    (hr : ∀ s t, R s t → R (f s).snd (g t).snd) : Simulates R V (update f) (update g) :=
  fun bs s t h => ⟨.ok bs (hv s t h), hr s t h⟩

namespace Simulates

variable {x : Effect σ α} {y : Effect τ β} {f : α → Effect σ γ} {g : β → Effect τ δ}

theorem bind (h : Simulates R V x y) (hf : ∀ a b, V a b → Simulates R W (f a) (g b)) :
    Simulates R W (x >>= f) (y >>= g) := by
  intro bs s t hr
  rw [exec_bind, exec_bind]
  obtain ⟨hv, hr'⟩ := h bs hr
  rcases hx : x.exec bs s with ⟨out, s'⟩
  rcases hy : y.exec bs t with ⟨out', t'⟩
  rw [hx, hy] at hv hr'
  cases hv
  case ok bs' hv => exact hf _ _ hv bs' hr'
  case error e   => exact ⟨.error e, hr'⟩

theorem bind_eq {x : Effect σ α} {y : Effect τ α} {g : α → Effect τ δ} (h : Simulates R Eq x y)
    (hf : ∀ a, Simulates R W (f a) (g a)) : Simulates R W (x >>= f) (y >>= g) :=
  h.bind fun a _ hab => hab ▸ hf a

theorem rounds (h : Simulates R Any x y) (n : Nat) : Simulates R Any (Go.rounds x n) (Go.rounds y n) := by
  induction n
  case zero      => exact simulates_pure trivial
  case succ n hi => exact h.bind fun _ _ _ => hi.bind fun _ _ _ => simulates_pure trivial

theorem forRange (h : Simulates R Any x y) (n : Int) : Simulates R Any (Go.forRange n x) (Go.forRange n y) :=
  h.rounds n.toNat

end Simulates

section Stateless

variable {n : Type → Type*} [Monad n] [LawfulMonad n]

-- A computation that has nothing to do with the monad below, as a decoder without one.
def Stateless (x : DecoderT n α) (d : StateT Bytes (Except Fault) α) : Prop :=
  ∀ bs, x bs = ExceptT.mk (pure (d.run bs))

theorem stateless_pure (a : α) : Stateless (pure a : DecoderT n α) (pure a) :=
  fun _ => rfl

theorem stateless_throw (e : Fault) : Stateless (throw e : DecoderT n α) (throw e) := by
  intro bs
  change (pure (Except.error e : Except Fault α) >>= _ : n (Except Fault (α × Bytes))) = pure (.error e)
  rw [pure_bind]
  rfl

namespace Stateless

variable {x : DecoderT n α} {d : StateT Bytes (Except Fault) α}

theorem bind {f : α → DecoderT n β} {g : α → StateT Bytes (Except Fault) β}
    (h : Stateless x d) (hf : ∀ a, Stateless (f a) (g a)) : Stateless (x >>= f) (d >>= g) := by
  intro bs
  change (x bs >>= ExceptT.bindCont fun p => f p.fst p.snd : n (Except Fault (β × Bytes))) = _
  rw [h, StateT.run_bind, ExceptT.mk, pure_bind]
  cases d.run bs
  case error e => rfl
  case ok r    => exact hf r.fst r.snd

theorem rounds (h : Stateless x d) (k : Nat) : Stateless (Go.rounds x k) (Go.rounds d k) := by
  induction k
  case zero      => exact stateless_pure []
  case succ k hi => exact h.bind fun a => hi.bind fun as => stateless_pure (a :: as)

theorem forRange (h : Stateless x d) (k : Int) : Stateless (Go.forRange k x) (Go.forRange k d) :=
  h.rounds k.toNat

theorem exec {x : Effect σ α} (h : Stateless x d) (bs : Bytes) (s : σ) : x.exec bs s = (d.run bs, s) :=
  congrFun (h bs) s

theorem simulates {x : Effect σ α} {y : Effect τ α} (h : Stateless x d) (h' : Stateless y d) : Simulates R Eq x y := by
  intro bs s t hr
  rw [h.exec, h'.exec]
  refine ⟨?_, hr⟩
  cases d.run bs
  case error e => exact .error e
  case ok r    => exact .ok r.snd rfl

end Stateless

theorem stateless_makeSlice (k : Int) : Stateless (makeSlice k : DecoderT n Unit) (makeSlice k) := by
  unfold makeSlice
  split
  case isTrue  => exact stateless_throw _
  case isFalse => exact stateless_pure ()

end Stateless

end Effect
end Go
