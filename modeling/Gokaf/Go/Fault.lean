import Gokaf.Go.File

namespace Go

-- The runtime panics that the program can reach.
inductive Panic
  | makeSlice (cap : Int)
  | divide
  deriving DecidableEq, Repr

inductive Error
  | eof
  | unexpectedEOF
  | varintTooLong
  | negativeLength (n : Int)
  | zeroLength
  | magic (m : UInt8)
  | shortBatch
  | recordType (t : Int)
  | correlationID (id : Int)
  | io (e : IOError)
  | pingDropped
  deriving DecidableEq, Repr

-- How a call can end other than by returning a value: with an error value, in a panic that takes the
-- process down, or not at all, being parked on a channel that nobody serves.
inductive Fault
  | error (e : Error)
  | panic (p : Panic)
  | parked
  deriving DecidableEq, Repr

-- The process outlives a call that ends so.
def Survives {α : Type} (out : Except Fault α) : Prop :=
  ∀ p, out ≠ .error (.panic p)

@[simp]
theorem survives_ok {α : Type} (a : α) : Survives (.ok a) := by
  rintro p ⟨⟩

@[simp]
theorem survives_error_iff {α : Type} {fault : Fault} :
    Survives (.error fault : Except Fault α) ↔ ∀ p, fault ≠ .panic p := by
  simp [Survives]

section

variable {m : Type → Type*} [Monad m] {α : Type}

-- `make([]T, 0, n)`. Only the capacity is looked at.
def makeSlice [MonadExcept Fault m] (n : Int) : m Unit :=
  if n < 0 then throw (.panic (.makeSlice n)) else pure ()

-- `n` rounds of `body`, with their results.
def rounds (body : m α) : Nat → m (List α)
  | 0     => pure []
  | n + 1 => do
    let a ← body
    let as ← rounds body n
    return a :: as

-- `for i := 0; i < n; i++ { body }`, with the results of the rounds.
def forRange (n : Int) (body : m α) : m (List α) :=
  rounds body n.toNat

end

end Go
