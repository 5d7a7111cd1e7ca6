import Mathlib.Algebra.Order.Ring.Int
import Mathlib.Tactic.Linarith
import Mathlib.Tactic.Ring

namespace Go

-- Conversion to a signed integer type of `w` bits: the value the type can hold that is congruent to
-- `x` modulo `2 ^ w`.
def wrap (w : Nat) (x : Int) : Int :=
  (x + 2 ^ (w - 1)) % 2 ^ w - 2 ^ (w - 1)

def int16 (x : Int) : Int := wrap 16 x

def int32 (x : Int) : Int := wrap 32 x

def int64 (x : Int) : Int := wrap 64 x

-- A value of the type `int32`.
def IsInt32 (x : Int) : Prop :=
  -2 ^ 31 ≤ x ∧ x < 2 ^ 31

instance : DecidablePred IsInt32 :=
  fun x => inferInstanceAs (Decidable (-2 ^ 31 ≤ x ∧ x < 2 ^ 31))

-- Conversion to an unsigned integer type of `w` bits.
def unsigned (w : Nat) (x : Int) : Nat :=
  (x % 2 ^ w).toNat

theorem two_pow_pred_add {w : Nat} (hw : 0 < w) : (2 : Int) ^ (w - 1) + 2 ^ (w - 1) = 2 ^ w := by
  obtain ⟨v, rfl⟩ : ∃ v, w = v + 1 := ⟨w - 1, by omega⟩
  simp only [Nat.add_sub_cancel]
  ring

theorem wrap_of_mem {w : Nat} {x : Int} (hw : 0 < w) (hl : -2 ^ (w - 1) ≤ x) (hu : x < 2 ^ (w - 1)) :
    wrap w x = x := by
  have h := two_pow_pred_add hw
  rw [wrap, Int.emod_eq_of_lt (by linarith) (by linarith)]
  ring

theorem wrap_of_nonneg {w : Nat} {x : Int} (hw : 0 < w) (hl : 0 ≤ x) (hu : x < 2 ^ (w - 1)) :
    wrap w x = x := by
  have : (0 : Int) < 2 ^ (w - 1) := by positivity
  exact wrap_of_mem hw (by linarith) hu

theorem wrap_lt {w : Nat} (hw : 0 < w) (x : Int) : wrap w x < 2 ^ (w - 1) := by
  have h := two_pow_pred_add hw
  have := Int.emod_lt_of_pos (x + 2 ^ (w - 1)) (show (0 : Int) < 2 ^ w by positivity)
  simp only [wrap]
  linarith

theorem neg_le_wrap (w : Nat) (x : Int) : -2 ^ (w - 1) ≤ wrap w x := by
  have := Int.emod_nonneg (x + 2 ^ (w - 1)) (show (2 : Int) ^ w ≠ 0 by positivity)
  simp only [wrap]
  linarith

theorem wrap_le_of_nonneg (w : Nat) {x : Int} (hx : 0 ≤ x) : wrap w x ≤ x := by
  have hpos : (0 : Int) ≤ 2 ^ (w - 1) := by positivity
  have hdiv : 0 ≤ 2 ^ w * ((x + 2 ^ (w - 1)) / 2 ^ w) := by positivity
  rw [wrap, Int.emod_def]
  omega

theorem isInt32_int32 (x : Int) : IsInt32 (int32 x) :=
  ⟨neg_le_wrap 32 x, wrap_lt (by decide) x⟩

theorem wrap_emod (w : Nat) (x : Int) : wrap w (x % 2 ^ w) = wrap w x := by
  simp [wrap, Int.emod_add_emod]

theorem wrap_add_wrap (w : Nat) (x y : Int) : wrap w (x + wrap w y) = wrap w (x + y) := by
  have h : x + ((y + 2 ^ (w - 1)) % 2 ^ w - 2 ^ (w - 1)) + 2 ^ (w - 1) =
      x + (y + 2 ^ (w - 1)) % 2 ^ w := by ring
  simp only [wrap, h, Int.add_emod_emod, add_assoc]

theorem wrap_wrap (w : Nat) (x : Int) : wrap w (wrap w x) = wrap w x := by
  simpa using wrap_add_wrap w 0 x

theorem unsigned_lt (w : Nat) (x : Int) : unsigned w x < 2 ^ w := by
  have h₁ := Int.emod_lt_of_pos x (show (0 : Int) < 2 ^ w by positivity)
  have h₂ := Int.emod_nonneg x (show (2 : Int) ^ w ≠ 0 by positivity)
  zify
  rw [unsigned, Int.toNat_of_nonneg h₂]
  exact h₁

theorem unsigned_cast (w : Nat) (x : Int) : (unsigned w x : Int) = x % 2 ^ w :=
  Int.toNat_of_nonneg <| Int.emod_nonneg _ (by positivity)

theorem unsigned_natCast_of_lt {w n : Nat} (h : n < 2 ^ w) : unsigned w n = n := by
  have h' : (n : Int) < 2 ^ w := by exact_mod_cast h
  rw [unsigned, Int.emod_eq_of_lt (Int.natCast_nonneg n) h', Int.toNat_natCast]

-- A two's complement round trip through the unsigned type of the same width.
theorem wrap_unsigned (w : Nat) (x : Int) : wrap w (unsigned w x) = wrap w x := by
  rw [unsigned_cast, wrap_emod]

theorem unsigned_wrap (w : Nat) (x : Int) : unsigned w (wrap w x) = unsigned w x := by
  simp [unsigned, wrap]

end Go
