import Mathlib.Data.Int.CardIntervalMod

-- Residues of the numbers below a bound, and how often each of them occurs.
namespace Residue

open Finset

variable {n p r r' : Nat}

-- Consecutive numbers, not more than `n` of them, are different modulo `n`.
theorem eq_of_add_mod_eq {a : Nat} (hr : r < n) (hr' : r' < n) (h : (a + r) % n = (a + r') % n) : r = r' :=
  Nat.ModEq.eq_of_lt_of_lt (Nat.ModEq.add_left_cancel' a h) hr hr'

theorem countP_range (count : Nat) (P : Nat → Prop) [DecidablePred P] :
    (List.range count).countP P = #{i ∈ range count | P i} := by
  rw [List.countP_eq_length_filter]
  rfl

theorem card_add_mod (hp : p < n) (hr : r < n) (count : Nat) :
    #{i ∈ range count | (i + r) % n = p} = count / n + if (p + n - r) % n < count % n then 1 else 0 := by
  have hn : 0 < n := Nat.zero_lt_of_lt hp
  rw [← Nat.count_modEq_card count hn, Nat.count_eq_card_filter_range]
  congr 1
  refine filter_congr fun i _ => ?_
  have hcancel : i + r ≡ p + n - r + r [MOD n] ↔ i ≡ p + n - r [MOD n] :=
    ⟨Nat.ModEq.add_right_cancel' r, fun h => h.add_right r⟩
  rw [← hcancel, Nat.sub_add_cancel (by omega), Nat.ModEq, Nat.add_mod_right, Nat.mod_eq_of_lt hp]

theorem card_mod (hp : p < n) (count : Nat) :
    #{i ∈ range count | i % n = p} = count / n + if p < count % n then 1 else 0 := by
  have hcard := card_add_mod hp (Nat.zero_lt_of_lt hp) count
  rwa [Nat.sub_zero, Nat.add_mod_right, Nat.mod_eq_of_lt hp] at hcard

end Residue
