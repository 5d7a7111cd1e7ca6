import Gokaf.Go.Effect
import Gokaf.Protocol.Types

open Go Effect

namespace Protocol

variable {n : Type → Type*} [Monad n] [LawfulMonad n]

theorem stateless_fail {α : Type} (e : Error) : Stateless (fail e : DecoderT n α) (fail e) :=
  stateless_throw (.error e)

theorem stateless_getThe : Stateless (getThe Bytes : DecoderT n Bytes) (getThe Bytes) :=
  fun _ => rfl

theorem stateless_set (bs : Bytes) : Stateless (set bs : DecoderT n Unit) (set bs) :=
  fun _ => rfl

theorem stateless_readFull (k : Nat) : Stateless (readFull k : DecoderT n Bytes) (readFull k) := by
  refine stateless_getThe.bind fun bs => ?_
  split
  case isTrue => exact (stateless_set _).bind fun _ => stateless_pure _
  case isFalse =>
    split
    case isTrue  => exact stateless_fail _
    case isFalse => exact stateless_fail _

theorem stateless_readInt (w : Nat) : Stateless (readInt w : DecoderT n Int) (readInt w) :=
  (stateless_readFull (w / 8)).bind fun _ => stateless_pure _

theorem stateless_readInt16 : Stateless (readInt16 : DecoderT n Int) readInt16 :=
  stateless_readInt 16

theorem stateless_readInt32 : Stateless (readInt32 : DecoderT n Int) readInt32 :=
  stateless_readInt 32

theorem stateless_readInt64 : Stateless (readInt64 : DecoderT n Int) readInt64 :=
  stateless_readInt 64

theorem stateless_readArrayLen : Stateless (readArrayLen : DecoderT n Int) readArrayLen :=
  stateless_readInt 32

theorem stateless_readString : Stateless (readString : DecoderT n Bytes) readString := by
  refine (stateless_readInt 16).bind fun k => ?_
  split
  case isTrue  => exact stateless_fail _
  case isFalse => exact stateless_readFull _

theorem stateless_readNullableString :
    Stateless (readNullableString : DecoderT n (Option Bytes)) readNullableString := by
  refine (stateless_readInt 16).bind fun k => ?_
  split
  case isTrue  => exact stateless_pure none
  case isFalse => exact (stateless_readFull _).bind fun _ => stateless_pure _

theorem stateless_readBytes : Stateless (readBytes : DecoderT n (Option Bytes)) readBytes := by
  refine (stateless_readInt 32).bind fun k => ?_
  split
  case isTrue  => exact stateless_pure none
  case isFalse => exact (stateless_readFull _).bind fun _ => stateless_pure _

end Protocol
