import Gokaf.Go.Int
import Mathlib.Data.List.Induction

namespace Go

abbrev Bytes := List UInt8

namespace BigEndian

-- The value of `binary.BigEndian.Uint16`, `Uint32` and `Uint64` on the bytes of the right length.
def uint (bs : Bytes) : Nat :=
  bs.foldl (fun n b => n * 256 + b.toNat) 0

-- The `w` bytes that `PutUint16`, `PutUint32` and `PutUint64` store.
def put : Nat → Nat → Bytes
  | 0, _ => []
  | w + 1, n => put w (n / 256) ++ [UInt8.ofNat n]

@[simp]
theorem length_put (w n : Nat) : (put w n).length = w := by
  induction w generalizing n
  case zero      => rfl
  case succ w hi => simp [put, hi]

theorem uint_append_singleton (bs : Bytes) (b : UInt8) : uint (bs ++ [b]) = uint bs * 256 + b.toNat := by
  simp [uint]

theorem uint_put (w n : Nat) : uint (put w n) = n % 256 ^ w := by
  induction w generalizing n
  case zero => simp [put, uint, Nat.mod_one]
  case succ w hi =>
    have h : n % 256 ^ (w + 1) = n % 256 + 256 * (n / 256 % 256 ^ w) := by
      rw [Nat.pow_succ', Nat.mod_mul]
    rw [put, uint_append_singleton, hi, UInt8.toNat_ofNat', h]
    omega

theorem uint_put_of_lt {w n : Nat} (h : n < 256 ^ w) : uint (put w n) = n := by
  rw [uint_put, Nat.mod_eq_of_lt h]

theorem put_uint (bs : Bytes) : put bs.length (uint bs) = bs := by
  induction bs using List.reverseRecOn
  case nil => rfl
  case append_singleton bs b hi =>
    have hb := UInt8.toNat_lt b
    have hdiv : (uint bs * 256 + b.toNat) / 256 = uint bs := by omega
    have hlast : UInt8.ofNat (uint bs * 256 + b.toNat) = b := by
      rw [← UInt8.toNat_inj, UInt8.toNat_ofNat']
      omega
    rw [List.length_append, List.length_singleton, put, uint_append_singleton, hdiv, hi, hlast]

theorem uint_lt (bs : Bytes) : uint bs < 256 ^ bs.length := by
  have h := uint_put bs.length (uint bs)
  rw [put_uint] at h
  rw [h]
  exact Nat.mod_lt _ (Nat.pow_pos (by decide))

end BigEndian

-- `int64(binary.BigEndian.Uint64(bs))` and its narrower kin, on bytes of the width of the type.
def sint (w : Nat) (bs : Bytes) : Int :=
  wrap w (BigEndian.uint bs)

-- The bytes stored for `uint64(x)` and its narrower kin.
def putInt (w : Nat) (x : Int) : Bytes :=
  BigEndian.put (w / 8) (unsigned w x)

@[simp]
theorem length_putInt (w : Nat) (x : Int) : (putInt w x).length = w / 8 := by
  simp [putInt]

theorem sint_putInt {w : Nat} (x : Int) (hw : 8 ∣ w) : sint w (putInt w x) = wrap w x := by
  obtain ⟨v, rfl⟩ := hw
  have h : unsigned (8 * v) x < 256 ^ v := by
    have := unsigned_lt (8 * v) x
    rwa [Nat.pow_mul] at this
  rw [sint, putInt, Nat.mul_div_cancel_left v (by decide), BigEndian.uint_put_of_lt h, wrap_unsigned]

theorem putInt_uint {w : Nat} {bs : Bytes} (hw : w = 8 * bs.length) : putInt w (BigEndian.uint bs) = bs := by
  have hlt : BigEndian.uint bs < 2 ^ w := by
    rw [hw, Nat.pow_mul]
    exact BigEndian.uint_lt bs
  rw [putInt, unsigned_natCast_of_lt hlt, hw, Nat.mul_div_cancel_left _ (by decide), BigEndian.put_uint]

theorem putInt_sint {w : Nat} {bs : Bytes} (hw : w = 8 * bs.length) : putInt w (sint w bs) = bs := by
  rw [putInt, sint, unsigned_wrap]
  exact putInt_uint hw

-- What `fmt` prints for an integer under `%d`.
def decimal (x : Int) : Bytes :=
  let digits := (Nat.toDigits 10 x.natAbs).map fun c => UInt8.ofNat c.toNat
  if x < 0 then 45 :: digits else digits

-- The slice expression `bs[i:j]`, for bounds within the length.
def slice (bs : Bytes) (i j : Nat) : Bytes :=
  (bs.drop i).take (j - i)

end Go
