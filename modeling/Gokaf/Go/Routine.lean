import Gokaf.Go.Effect

namespace Go

-- What a goroutine is still to do. Each step is one access to what it shares with others, in surroundings of its own,
-- and cannot be taken as long as the goroutine blocks there. Between two steps the others have their turn.
inductive Routine (ε σ α : Type) : Type 1
  | done (a : α)
  | step {β : Type} (act : ε → σ → Option (β × σ)) (next : β → Routine ε σ α)

namespace Routine

variable {ε σ τ α β γ : Type}

def bind : Routine ε σ α → (α → Routine ε σ β) → Routine ε σ β
  | done a, f        => f a
  | step act next, f => step act fun b => (next b).bind f

instance : Monad (Routine ε σ) where
  pure := done
  bind := bind

theorem bind_done (r : Routine ε σ α) : r.bind done = r := by
  induction r
  case done a           => rfl
  case step act next hi => exact congrArg (step act) (funext hi)

theorem bind_bind (r : Routine ε σ α) (f : α → Routine ε σ β) (g : β → Routine ε σ γ) :
    (r.bind f).bind g = r.bind fun a => (f a).bind g := by
  induction r
  case done a           => rfl
  case step act next hi => exact congrArg (step act) (funext hi)

instance : LawfulMonad (Routine ε σ) :=
  .mk' _ bind_done (fun _ _ => rfl) bind_bind

-- The goroutine and the state after its next step.
def resume (e : ε) : Routine ε σ α → σ → Option (Routine ε σ α × σ)
  | done _, _        => none
  | step act next, s => (act e s).map fun r => (next r.fst, r.snd)

-- Where a goroutine comes that is left alone: it is done or blocks.
def alone (e : ε) : Routine ε σ α → σ → Routine ε σ α × σ
  | done a, s        => (done a, s)
  | step act next, s =>
    match act e s with
    | none        => (step act next, s)
    | some (b, s) => (next b).alone e s

-- The number of steps to there.
def length (e : ε) : Routine ε σ α → σ → Nat
  | done _, _        => 0
  | step act next, s =>
    match act e s with
    | none        => 0
    | some (b, s) => (next b).length e s + 1

-- The goroutine on a part of the state.
def zoom (get : τ → σ) (set : σ → τ → τ) : Routine ε σ α → Routine ε τ α
  | done a        => done a
  | step act next => step (fun e t => (act e (get t)).map fun r => (r.fst, set r.snd t)) fun b => (next b).zoom get set

-- All that the goroutine can return.
def Always (P : α → Prop) : Routine ε σ α → Prop
  | done a      => P a
  | step _ next => ∀ b, (next b).Always P

variable {e : ε} {r : Routine ε σ α}

theorem always_true (r : Routine ε σ α) : r.Always fun _ => True := by
  induction r
  case done a           => trivial
  case step act next hi => exact hi

theorem Always.bind {P : α → Prop} {Q : β → Prop} {f : α → Routine ε σ β} (h : r.Always P)
    (hf : ∀ a, P a → (f a).Always Q) : (r.bind f).Always Q := by
  induction r
  case done a           => exact hf a h
  case step act next hi => exact fun b => hi b (h b)

theorem Always.resume {P : α → Prop} {r' : Routine ε σ α} {s s' : σ} (h : r.Always P)
    (hr : r.resume e s = some (r', s')) : r'.Always P := by
  cases r
  case done a => contradiction
  case step act next =>
    obtain ⟨p, hact, heq⟩ := Option.map_eq_some_iff.mp hr
    cases heq
    exact h p.fst

theorem alone_bind (f : α → Routine ε σ β) (s : σ) :
    (r.bind f).alone e s =
      match r.alone e s with
      | (done a, s')        => (f a).alone e s'
      | (step act next, s') => ((step act next).bind f, s') := by
  induction r generalizing s
  case done a => rfl
  case step act next hi =>
    rw [bind, alone, alone]
    cases hact : act e s
    case none   => rfl
    case some r => exact hi r.fst r.snd

theorem alone_zoom {get : τ → σ} {set : σ → τ → τ} (hget : ∀ s t, get (set s t) = s) (hid : ∀ t, set (get t) t = t)
    (hset : ∀ s s' t, set s' (set s t) = set s' t) (t : τ) :
    (r.zoom get set).alone e t = ((r.alone e (get t)).fst.zoom get set, set (r.alone e (get t)).snd t) := by
  induction r generalizing t
  case done a => simp only [zoom, alone, hid]
  case step act next hi =>
    rw [zoom, alone, alone]
    cases hact : act e (get t)
    case none   => simp [zoom, hid]
    case some r => simp [hi, hget, hset]

end Routine

-- The goroutine of a request: it reads bytes and can fail.
abbrev Goroutine (ε σ : Type) := DecoderT (Routine ε σ)

namespace Goroutine

variable {ε σ τ α β : Type}

-- An access that does not block.
def access (f : ε → σ → α × σ) : Goroutine ε σ α :=
  fun bs => .step (fun e s => some (f e s)) fun a => .done (.ok (a, bs))

-- The goroutine waits for something that comes from its surroundings.
def await (arrived : ε → Option α) : Goroutine ε σ α :=
  fun bs => .step (fun e s => (arrived e).map (·, s)) fun a => .done (.ok (a, bs))

def zoom (get : τ → σ) (set : σ → τ → τ) (x : Goroutine ε σ α) : Goroutine ε τ α :=
  fun bs => (x bs).zoom get set

-- What a goroutine does that is left alone, in surroundings that do not change.
def effect (e : ε) (x : Goroutine ε σ α) : Effect σ α := fun bs s =>
  match (x bs).alone e s with
  | (.done r, s)  => (r, s)
  | (.step .., s) => (.error .parked, s)

variable {e : ε} {x : Goroutine ε σ α}

-- A failure ends the goroutine.
theorem always_bind {f : α → Goroutine ε σ β} {bs : Bytes} {P : Except Fault (α × Bytes) → Prop}
    {Q : Except Fault (β × Bytes) → Prop} (h : (x bs).Always P) (hok : ∀ a bs', P (.ok (a, bs')) → (f a bs').Always Q)
    (herror : ∀ fault, P (.error fault) → Q (.error fault)) : ((x >>= f) bs).Always Q := by
  refine Routine.Always.bind h fun r hr => ?_
  rcases r with fault | ⟨a, bs'⟩
  case error => exact herror fault hr
  case ok    => exact hok a bs' hr

theorem effect_eq_of_stateless {y : Effect σ α} {d : StateT Bytes (Except Fault) α} (hx : Effect.Stateless x d)
    (hy : Effect.Stateless y d) : x.effect e = y := by
  funext bs s
  rw [effect, hx]
  exact (hy.exec bs s).symm

@[simp]
theorem effect_pure (a : α) : effect e (pure a : Goroutine ε σ α) = pure a :=
  rfl

@[simp]
theorem effect_throw (fault : Fault) : effect e (throw fault : Goroutine ε σ α) = throw fault :=
  rfl

@[simp]
theorem effect_bind (f : α → Goroutine ε σ β) : (x >>= f).effect e = x.effect e >>= fun a => (f a).effect e := by
  funext bs s
  refine Eq.trans ?_ ((x.effect e).exec_bind (fun a => (f a).effect e) bs s).symm
  have hbind : (x >>= f) bs = Routine.bind (x bs) (ExceptT.bindCont fun p => f p.fst p.snd) := rfl
  rw [effect, hbind, Routine.alone_bind, Effect.exec, effect]
  rcases (x bs).alone e s with ⟨(fault | ⟨a, bs'⟩) | ⟨act, next⟩, s'⟩
  · rfl
  · rfl
  · rfl

@[simp]
theorem effect_map (f : α → β) : (f <$> x).effect e = f <$> x.effect e := by
  simp only [map_eq_pure_bind, effect_bind, effect_pure]

@[simp]
theorem effect_access (f : ε → σ → α × σ) : effect e (access f) = .update (f e) :=
  rfl

theorem effect_await (arrived : ε → Option α) :
    effect e (await arrived : Goroutine ε σ α) =
      match arrived e with
      | none   => throw .parked
      | some a => pure a := by
  funext bs s
  rw [effect, await, Routine.alone]
  cases arrived e
  case none   => rfl
  case some a => rfl

theorem effect_zoom {get : τ → σ} {set : σ → τ → τ} (hget : ∀ s t, get (set s t) = s) (hid : ∀ t, set (get t) t = t)
    (hset : ∀ s s' t, set s' (set s t) = set s' t) : (x.zoom get set).effect e = (x.effect e).zoom get set := by
  funext bs t
  rw [effect, zoom, Routine.alone_zoom hget hid hset, Effect.zoom, Effect.exec, effect]
  rcases (x bs).alone e (get t) with ⟨r | ⟨act, next⟩, s'⟩
  case done => rfl
  case step => rfl

theorem effect_rounds (x : Goroutine ε σ α) (n : Nat) : (rounds x n).effect e = rounds (x.effect e) n := by
  induction n
  case zero      => rfl
  case succ n hi => simp only [rounds, effect_bind, effect_pure, hi]

@[simp]
theorem effect_forRange (x : Goroutine ε σ α) (n : Int) : (forRange n x).effect e = forRange n (x.effect e) :=
  effect_rounds x n.toNat

@[simp]
theorem effect_mapM (f : β → Goroutine ε σ α) (bs : List β) :
    (bs.mapM f).effect e = bs.mapM fun b => (f b).effect e := by
  induction bs
  case nil          => rfl
  case cons b bs hi => simp only [List.mapM_cons, effect_bind, effect_pure, hi]

end Goroutine
end Go
