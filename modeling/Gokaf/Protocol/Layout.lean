import Gokaf.Protocol.Types

open Go

namespace Protocol

-- How the fields of a message follow one another. A sized array is one whose reader makes a slice for it as soon as it
-- has read the number of elements.
inductive Layout
  | none
  | fixed (n : Nat)
  | string
  | nullableString
  | bytes
  | varint
  | varintBytes
  | array (sized : Bool) (element : Layout)
  | seq (first second : Layout)

instance : Append Layout := ⟨.seq⟩

-- How far the fields of a message reach into the bytes: they end somewhere, they do not, or the reader comes upon a
-- sized array with a negative number of elements.
inductive Extent
  | ends (rest : Bytes)
  | cut
  | negative (n : Int)
  deriving DecidableEq, Repr

namespace Extent

def bind : Extent → (Bytes → Extent) → Extent
  | ends rest, f => f rest
  | cut, _ => cut
  | negative n, _ => negative n

def times (f : Bytes → Extent) : Nat → Bytes → Extent
  | 0, bs     => ends bs
  | n + 1, bs => (f bs).bind (times f n)

end Extent

namespace Layout

def fields : List Layout → Layout
  | []      => none
  | f :: fs => f ++ fields fs

def skip (n : Nat) (bs : Bytes) : Extent :=
  if n ≤ bs.length then .ends (bs.drop n) else .cut

-- The bytes behind a length of `w` bits. A negative length stands for nothing, or is not allowed.
def skipCounted (w : Nat) (nullable : Bool) (bs : Bytes) : Extent :=
  (skip (w / 8) bs).bind fun rest =>
    let n := sint w (bs.take (w / 8))
    if n < 0 then (if nullable then .ends rest else .cut) else skip n.toNat rest

-- What follows a varint, given its value.
def skipVarint (next : Int → Bytes → Extent) (bs : Bytes) : Extent :=
  match (readVarint : Decoder Int).run bs with
  | .error _      => .cut
  | .ok (n, rest) => next n rest

def scan : Layout → Bytes → Extent
  | none, bs => .ends bs
  | fixed n, bs => skip n bs
  | string, bs => skipCounted 16 false bs
  | nullableString, bs => skipCounted 16 true bs
  | bytes, bs => skipCounted 32 true bs
  | varint, bs => skipVarint (fun _ rest => .ends rest) bs
  | varintBytes, bs => skipVarint (fun n rest => if n < 0 then .ends rest else skip n.toNat rest) bs
  | array sized element, bs =>
    (skip 4 bs).bind fun rest =>
      let n := sint 32 (bs.take 4)
      if n < 0 then (if sized then .negative n else .ends rest) else .times element.scan n.toNat rest
  | seq first second, bs => (first.scan bs).bind second.scan

end Layout
end Protocol
