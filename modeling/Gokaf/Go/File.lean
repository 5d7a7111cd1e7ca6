import Gokaf.Go.Bytes

namespace Go

-- What a failed file operation reports. `io.EOF` is told apart by the readers; every other failure
-- is passed on as it is.
inductive IOError
  | eof
  | negativeOffset
  | failed
  deriving DecidableEq, Repr

-- `(*os.File).ReadAt` with a buffer of `n` bytes on a file with the given contents: the buffer is
-- filled, or the error is not nil.
def readAt (file : Bytes) (pos : Int) (n : Nat) : Except IOError Bytes :=
  if pos < 0 then
    .error .negativeOffset
  else if n = 0 then
    .ok []
  else if pos.toNat + n ≤ file.length then
    .ok ((file.drop pos.toNat).take n)
  else
    .error .eof

theorem readAt_append (pre mid post : Bytes) :
    readAt (pre ++ mid ++ post) pre.length mid.length = .ok mid := by
  simp only [readAt, Int.natCast_nonneg, not_lt.mpr, if_false, Int.toNat_natCast]
  split
  case isTrue h  => rw [List.length_eq_zero_iff.mp h]
  case isFalse h => simp

theorem readAt_eof {file : Bytes} {pos n : Nat} (hn : n ≠ 0) (h : file.length < pos + n) :
    readAt file pos n = .error .eof := by
  simp only [readAt, Int.natCast_nonneg, not_lt.mpr, if_false, Int.toNat_natCast, hn]
  rw [if_neg (by omega)]

theorem eq_ok_of_toOption {ε α : Type} {x : Except ε α} {a : α} (h : x.toOption = some a) : x = .ok a := by
  cases x
  case error => cases h
  case ok    => exact congrArg Except.ok (Option.some.inj h)

end Go
