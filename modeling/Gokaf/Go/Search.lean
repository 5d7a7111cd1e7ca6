import Mathlib.Order.Basic

namespace Go

-- `sort.Search`: the smallest index in `[0, n)` at which `f` holds, for an `f` that stays true once
-- it is true, and `n` if there is none. Each round at least halves the interval `[i, j)`, so `n`
-- rounds always suffice.
def search (n : Nat) (f : Nat → Bool) : Nat :=
  go n 0 n
where
  go : Nat → Nat → Nat → Nat
    | 0, i, _ => i
    | fuel + 1, i, j =>
      if i < j then
        let h := (i + j) / 2
        if !f h then go fuel (h + 1) j else go fuel i h
      else
        i

structure IsFirst (n : Nat) (f : Nat → Bool) (r : Nat) : Prop where
  le    : r ≤ n
  below : ∀ k < r, f k = false
  above : ∀ k, r ≤ k → k < n → f k = true

theorem search.go_isFirst {n : Nat} {f : Nat → Bool} (mono : ∀ a b, a ≤ b → f a = true → f b = true)
    (fuel i j : Nat) (hf : j - i ≤ fuel) (hij : i ≤ j) (hjn : j ≤ n)
    (hb : ∀ k < i, f k = false) (ha : ∀ k, j ≤ k → k < n → f k = true) :
    IsFirst n f (search.go f fuel i j) := by
  induction fuel generalizing i j
  case zero =>
    obtain rfl : i = j := by omega
    exact ⟨hjn, hb, ha⟩
  case succ fuel hi =>
    simp only [search.go]
    split
    case isFalse h =>
      obtain rfl : i = j := by omega
      exact ⟨hjn, hb, ha⟩
    case isTrue h =>
      cases hm : f ((i + j) / 2)
      case false =>
        refine hi _ _ (by omega) (by omega) hjn (fun k hk => ?_) ha
        by_contra hc
        have := mono k ((i + j) / 2) (by omega) (by simpa using hc)
        simp [hm] at this
      case true =>
        refine hi _ _ (by omega) (by omega) (by omega) hb (fun k hk hn => ?_)
        exact mono _ k hk hm

theorem search_isFirst {n : Nat} {f : Nat → Bool} (mono : ∀ a b, a ≤ b → f a = true → f b = true) :
    IsFirst n f (search n f) :=
  search.go_isFirst mono n 0 n (by omega) (by omega) (Nat.le_refl n) (by omega) (by omega)

end Go
