import Gokaf.Go.Bytes
import Mathlib.Data.List.Basic

namespace Go

variable {x y : Int} {n : Nat} {b : UInt8} {bs bs' cs cs' : Bytes}

theorem decimal_of_nonneg (h : 0 ≤ x) :
    decimal x = (Nat.toDigits 10 x.toNat).map fun c => UInt8.ofNat c.toNat := by
  rw [decimal, if_neg (by omega), show x.natAbs = x.toNat by omega]

theorem toNat_of_mem_toDigits {c : Char} (h : c ∈ Nat.toDigits 10 n) : 48 ≤ c.toNat ∧ c.toNat ≤ 57 :=
  Char.isDigit_iff_toNat.mp (Nat.isDigit_of_mem_toDigits (by decide) (by decide) h)

theorem isDigit_of_mem_decimal (h : 0 ≤ x) (hb : b ∈ decimal x) : 48 ≤ b.toNat ∧ b.toNat ≤ 57 := by
  rw [decimal_of_nonneg h] at hb
  obtain ⟨c, hc, rfl⟩ := List.mem_map.mp hb
  have hdigit := toNat_of_mem_toDigits hc
  rw [UInt8.toNat_ofNat', Nat.mod_eq_of_lt (by omega)]
  exact hdigit

-- The digits as characters again.
theorem map_decimal (h : 0 ≤ x) : (decimal x).map (fun b => Char.ofNat b.toNat) = Nat.toDigits 10 x.toNat := by
  rw [decimal_of_nonneg h, List.map_map]
  refine (List.map_congr_left fun c hc => ?_).trans (List.map_id _)
  have hdigit := toNat_of_mem_toDigits hc
  rw [Function.comp_apply, UInt8.toNat_ofNat', Nat.mod_eq_of_lt (by omega), Char.ofNat_toNat, id]

def ofDecimal (bs : Bytes) : Nat :=
  Nat.ofDigitChars 10 (bs.map fun b => Char.ofNat b.toNat) 0

theorem ofDecimal_decimal (h : 0 ≤ x) : ofDecimal (decimal x) = x.toNat := by
  rw [ofDecimal, map_decimal h, Nat.ofDigitChars_ten_toDigits]

theorem decimal_inj (hx : 0 ≤ x) (hy : 0 ≤ y) (h : decimal x = decimal y) : x = y := by
  have hvalue := congrArg ofDecimal h
  rw [ofDecimal_decimal hx, ofDecimal_decimal hy] at hvalue
  omega

theorem dash_notMem_decimal (h : 0 ≤ x) : 45 ∉ decimal x := by
  intro hb
  have := (isDigit_of_mem_decimal h hb).left
  contradiction

-- The last separator is the same one.
theorem append_cons_inj_of_notMem (hbs : b ∉ cs) (hbs' : b ∉ cs') (h : bs ++ b :: cs = bs' ++ b :: cs') :
    bs = bs' ∧ cs = cs' := by
  rcases List.append_eq_append_iff.mp h with ⟨as, hbs', has⟩ | ⟨as, hbs, has⟩
  all_goals
    cases as
    case nil => simp_all
    case cons a as =>
      obtain ⟨_, hcs⟩ := List.cons.inj has
      simp_all

-- What `fmt` prints under `%s-%d` says what it was given.
theorem append_dash_decimal_inj (hx : 0 ≤ x) (hy : 0 ≤ y) (h : bs ++ 45 :: decimal x = bs' ++ 45 :: decimal y) :
    bs = bs' ∧ x = y := by
  obtain ⟨hbs, hdecimal⟩ := append_cons_inj_of_notMem (dash_notMem_decimal hx) (dash_notMem_decimal hy) h
  exact ⟨hbs, decimal_inj hx hy hdecimal⟩

end Go
