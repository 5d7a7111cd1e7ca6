import Mathlib.Data.List.Infix

-- Two lists of which one is the beginning of the other.
def Compatible {α : Type*} (xs ys : List α) : Prop :=
  xs <+: ys ∨ ys <+: xs

namespace Compatible

variable {α : Type*} {xs xs' ys ys' zs : List α}

theorem refl (xs : List α) : Compatible xs xs :=
  .inl (List.prefix_refl xs)

theorem symm (h : Compatible xs ys) : Compatible ys xs :=
  Or.symm h

theorem of_isPrefix (h : xs <+: zs) (h' : ys <+: zs) : Compatible xs ys :=
  List.prefix_or_prefix_of_prefix h h'

theorem mono (h : Compatible xs ys) (hx : xs' <+: xs) (hy : ys' <+: ys) : Compatible xs' ys' := by
  cases h
  case inl h => exact of_isPrefix (hx.trans h) hy
  case inr h => exact of_isPrefix hx (hy.trans h)

theorem isPrefix_of_length_le (h : Compatible xs ys) (hle : xs.length ≤ ys.length) : xs <+: ys := by
  cases h
  case inl h => exact h
  case inr h => rw [h.eq_of_length_le hle]

theorem getElem?_of_isPrefix {i : Nat} {x : α} (h : xs <+: ys) (hx : xs[i]? = some x) : ys[i]? = some x := by
  obtain ⟨zs, rfl⟩ := h
  rw [List.getElem?_append_left (List.getElem?_eq_some_iff.mp hx).fst, hx]

theorem eq_of_getElem? {i : Nat} {x y : α} (h : Compatible xs ys) (hx : xs[i]? = some x) (hy : ys[i]? = some y) :
    x = y := by
  cases h
  case inl h => exact Option.some.inj ((getElem?_of_isPrefix h hx).symm.trans hy)
  case inr h => exact Option.some.inj (hx.symm.trans (getElem?_of_isPrefix h hy))

end Compatible
