import Gokaf.Protocol.Theorems.Types

open Go

namespace Protocol

variable {v result shift : UInt32} {b : UInt8} {k fuel : Nat}

-- The seven bits of a byte that count.
theorem toNat_payload (b : UInt8) : (b &&& 0x7f).toUInt32.toNat = b.toNat % 128 := by
  have h : (0x7f : UInt8).toNat = 2 ^ 7 - 1 := rfl
  rw [UInt8.toNat_toUInt32, UInt8.toNat_and, h, Nat.and_two_pow_sub_one_eq_mod]

theorem toNat_or_flag (b : UInt8) : (b ||| 0x80).toNat % 128 = b.toNat % 128 := by
  have h : ∀ b : BitVec 8, (b ||| 0x80#8).toNat % 128 = b.toNat % 128 := by decide
  exact h b.toBitVec

theorem and_flag_eq_zero_iff (b : UInt8) : b &&& 0x80 = 0 ↔ b.toNat < 128 := by
  have h : ∀ b : BitVec 8, b &&& 0x80#8 = 0#8 ↔ b.toNat < 128 := by decide
  rw [← UInt8.toBitVec_inj]
  exact h b.toBitVec

theorem or_flag_and_flag (b : UInt8) : (b ||| 0x80) &&& 0x80 ≠ 0 := by
  have h : ∀ b : BitVec 8, (b ||| 0x80#8) &&& 0x80#8 ≠ 0#8 := by decide
  rw [ne_eq, ← UInt8.toBitVec_inj]
  exact h b.toBitVec

-- A group of bits is put in front of those that are there.
theorem toNat_or_shiftLeft {x : UInt32} (hshift : shift.toNat = k) (hk : k < 32) (hresult : result.toNat < 2 ^ k)
    (hx : x.toNat * 2 ^ k < 2 ^ 32) : (result ||| (x <<< shift)).toNat = result.toNat + x.toNat * 2 ^ k := by
  rw [UInt32.toNat_or, UInt32.toNat_shiftLeft, hshift, Nat.mod_eq_of_lt hk, Nat.shiftLeft_eq, Nat.mod_eq_of_lt hx,
    ← Nat.shiftLeft_eq, Nat.or_comm, ← Nat.shiftLeft_add_eq_or_of_lt hresult, Nat.add_comm]

theorem reads_readByte (b : UInt8) : Reads readByte [b] b :=
  (reads_readFull [b]).bind_pure (·.headD 0)

-- A round that goes on, and the last round.
theorem reads_go_cons {bs : Bytes} {w : UInt32} (hb : b &&& 0x80 ≠ 0)
    (h : Reads (readUnsignedVarint.go fuel (result ||| ((b &&& 0x7f).toUInt32 <<< shift)) (shift + 7)) bs w) :
    Reads (readUnsignedVarint.go (fuel + 1) result shift) (b :: bs) w := by
  intro rest
  have hrun : (readUnsignedVarint.go (fuel + 1) result shift : Decoder _).run ([b] ++ (bs ++ rest)) = _ :=
    (reads_readByte b).run_bind _
  rw [if_neg hb, h rest] at hrun
  exact hrun

theorem reads_go_last (hb : b &&& 0x80 = 0) :
    Reads (readUnsignedVarint.go (fuel + 1) result shift) [b] (result ||| ((b &&& 0x7f).toUInt32 <<< shift)) := by
  intro rest
  have hrun : (readUnsignedVarint.go (fuel + 1) result shift : Decoder _).run ([b] ++ rest) = _ :=
    (reads_readByte b).run_bind _
  rw [if_pos hb] at hrun
  exact hrun

-- `k` groups have been read into `result`, and `v` is what is left of the value.
theorem reads_readUnsignedVarint_go (hk : k + fuel = maxVarintBytes) (hshift : shift.toNat = 7 * k)
    (hresult : result.toNat < 2 ^ (7 * k)) (hv : v.toNat < 2 ^ (7 * fuel)) (hfuel : fuel ≠ 0) {w : UInt32}
    (hw : w.toNat = result.toNat + v.toNat * 2 ^ (7 * k)) :
    Reads (readUnsignedVarint.go fuel result shift) (writeUnsignedVarint.go fuel v) w := by
  induction fuel generalizing k v result shift
  case zero => contradiction
  case succ fuel hi =>
    have hmax : maxVarintBytes = 5 := rfl
    have hwlt := w.toNat_lt
    have hbyte : v.toUInt8.toNat = v.toNat % 256 := UInt32.toNat_toUInt8 v
    simp only [writeUnsignedVarint.go]
    split
    case isTrue hge =>
      have hge : 128 ≤ v.toNat := hge
      have hpow : 2 ^ (7 * (k + 1)) = 128 * 2 ^ (7 * k) := by
        rw [Nat.mul_add, Nat.pow_add, Nat.mul_comm]
      have hpayload : ((v.toUInt8 ||| 0x80) &&& 0x7f).toUInt32.toNat = v.toNat % 128 := by
        rw [toNat_payload, toNat_or_flag, hbyte]
        omega
      have hsplit : v.toNat * 2 ^ (7 * k) = v.toNat % 128 * 2 ^ (7 * k) + v.toNat / 128 * 2 ^ (7 * (k + 1)) := by
        rw [hpow, ← Nat.mul_assoc, ← Nat.add_mul, Nat.mod_add_div']
      have hor := toNat_or_shiftLeft (x := ((v.toUInt8 ||| 0x80) &&& 0x7f).toUInt32) hshift (by omega) hresult
        (by rw [hpayload]; omega)
      rw [hpayload] at hor
      have hright : (v >>> 7).toNat = v.toNat / 128 := by
        rw [UInt32.toNat_shiftRight]
        exact Nat.shiftRight_eq_div_pow v.toNat 7
      refine reads_go_cons (or_flag_and_flag _) (hi (k := k + 1) (by omega) ?_ ?_ ?_ ?_ ?_)
      · rw [UInt32.toNat_add, hshift]
        have h7 : (7 : UInt32).toNat = 7 := rfl
        omega
      · have hle : v.toNat % 128 * 2 ^ (7 * k) ≤ 127 * 2 ^ (7 * k) := Nat.mul_le_mul_right _ (by omega)
        rw [hor, hpow]
        omega
      · rw [hright, Nat.div_lt_iff_lt_mul (by decide)]
        have hsucc : 2 ^ (7 * (fuel + 1)) = 2 ^ (7 * fuel) * 128 := by rw [Nat.mul_add, Nat.pow_add]
        omega
      · rintro rfl
        omega
      · rw [hw, hor, hright, hsplit, Nat.add_assoc]
    case isFalse hlt =>
      have hlt : v.toNat < 128 := not_le.mp hlt
      have hpayload : (v.toUInt8 &&& 0x7f).toUInt32.toNat = v.toNat := by
        rw [toNat_payload, hbyte]
        omega
      have hor := toNat_or_shiftLeft (x := (v.toUInt8 &&& 0x7f).toUInt32) hshift (by omega) hresult
        (by rw [hpayload]; omega)
      rw [hpayload, ← hw] at hor
      rw [← UInt32.toNat_inj.mp hor]
      exact reads_go_last ((and_flag_eq_zero_iff _).mpr (by omega))

theorem reads_readUnsignedVarint (v : UInt32) : Reads readUnsignedVarint (writeUnsignedVarint v) v := by
  have hlt := v.toNat_lt
  have hbound : v.toNat < 2 ^ (7 * maxVarintBytes) := by
    have hmax : (2 : Nat) ^ (7 * maxVarintBytes) = 34359738368 := by decide
    omega
  exact reads_readUnsignedVarint_go (k := 0) (Nat.zero_add _) rfl (by decide) hbound (by decide) (by simp)

theorem toNat_xor_allOnes (z : UInt32) : (z ^^^ (0 - 1)).toNat = 2 ^ 32 - 1 - z.toNat := by
  have h : (z ^^^ (0 - 1)).toBitVec = ~~~z.toBitVec := by
    rw [UInt32.toBitVec_xor]
    exact BitVec.xor_allOnes
  rw [← UInt32.toNat_toBitVec, h, BitVec.toNat_not]
  rfl

theorem unzigzag_eq (z : UInt32) :
    unzigzag z = if z.toNat % 2 = 0 then (z.toNat / 2 : Int) else -(z.toNat / 2 : Int) - 1 := by
  have hlt := z.toNat_lt
  have hshift : (z >>> 1).toNat = z.toNat / 2 := by
    rw [UInt32.toNat_shiftRight]
    exact Nat.shiftRight_eq_div_pow z.toNat 1
  have hand : (z &&& 1).toNat = z.toNat % 2 := by
    rw [UInt32.toNat_and]
    exact Nat.and_one_is_mod _
  unfold unzigzag
  split
  case isTrue heven =>
    have hzero : z &&& 1 = 0 := UInt32.toNat_inj.mp (hand.trans heven)
    have hxor : (z >>> 1) ^^^ (0 - (z &&& 1) : UInt32) = z >>> 1 := by simp [hzero]
    rw [hxor, hshift, int32, wrap_of_nonneg (by decide) (by omega) (by omega)]
    omega
  case isFalse hodd =>
    have hone : z &&& 1 = 1 := UInt32.toNat_inj.mp (hand.trans (Nat.mod_two_ne_zero.mp hodd))
    rw [hone, toNat_xor_allOnes, hshift]
    simp only [int32, wrap]
    omega

theorem unzigzag_zigzag {x : Int} (h : IsInt32 x) : unzigzag (zigzag x) = x := by
  obtain ⟨hl, hu⟩ := h
  have hz : ((zigzag x).toNat : Int) = if x < 0 then -2 * x - 1 else 2 * x := by
    rw [zigzag, UInt32.toNat_ofNat', Nat.mod_eq_of_lt (unsigned_lt 32 _), unsigned_cast]
    split <;> omega
  rw [unzigzag_eq]
  split at hz <;> split <;> omega

theorem reads_readVarint {x : Int} (h : IsInt32 x) : Reads readVarint (writeVarint x) x := by
  have hread := (reads_readUnsignedVarint (zigzag x)).bind_pure unzigzag
  rwa [unzigzag_zigzag h] at hread

end Protocol
