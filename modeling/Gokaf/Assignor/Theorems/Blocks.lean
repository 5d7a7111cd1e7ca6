import Gokaf.Assignor.Theorems.Assignor

open Go

namespace Assignor

-- Consecutive blocks of the given sizes.
def tile : Int → List Nat → List (List Int)
  | _, []                => []
  | start, size :: sizes => interval start (start + size) :: tile (start + size) sizes

theorem flatten_tile (start : Int) (sizes : List Nat) :
    (tile start sizes).flatten = interval start (start + sizes.sum) := by
  induction sizes generalizing start
  case nil => simp [tile]
  case cons size sizes hi =>
    rw [tile, List.flatten_cons, hi, List.sum_cons, Nat.cast_add, ← Int.add_assoc]
    exact interval_append (by omega) (by omega)

section Members

variable {perMember extra cursor n : Int} {i k : Nat}

theorem isInt32_memberCount (h : IsInt32 perMember) (i : Nat) : IsInt32 (memberCount perMember extra i) := by
  unfold memberCount
  split
  case isTrue  => exact isInt32_int32 _
  case isFalse => exact h

-- None of the `k` members from index `i` on has a negative count.
def Nonneg (perMember extra : Int) (k i : Nat) : Prop :=
  ∀ j < k, 0 ≤ memberCount perMember extra (i + j)

theorem nonneg_succ_iff :
    Nonneg perMember extra (k + 1) i ↔ 0 ≤ memberCount perMember extra i ∧ Nonneg perMember extra k (i + 1) := by
  simp only [Nonneg, Nat.forall_lt_succ_left, Nat.add_zero, Nat.add_assoc, Nat.add_comm 1]

-- The partitions that the members from index `i` on get.
def blocks (perMember extra : Int) : Nat → Nat → Int → List (List Int)
  | 0, _, _ => []
  | k + 1, i, cursor =>
    let count := memberCount perMember extra i
    if count = 0 then
      [] :: blocks perMember extra k (i + 1) cursor
    else
      interval cursor (int32 (cursor + count)) :: blocks perMember extra k (i + 1) (int32 (cursor + count))

-- The members from index `i` on share out `sizes`, and the cursor stays an `int32`.
theorem blocks_eq_tile {size : Nat → Nat} (hsize : ∀ j < k, memberCount perMember extra (i + j) = size (i + j))
    (hcursor : 0 ≤ cursor) (hsum : cursor + ((List.range' i k).map size).sum < 2 ^ 31) :
    blocks perMember extra k i cursor = tile cursor ((List.range' i k).map size) := by
  induction k generalizing i cursor
  case zero => rfl
  case succ k hi =>
    simp only [List.range'_succ, List.map_cons, List.sum_cons, Nat.cast_add] at hsum ⊢
    have hnext : int32 (cursor + size i) = cursor + size i :=
      wrap_of_nonneg (by decide) (by omega) (by norm_num; omega)
    have hstep : ∀ j < k, memberCount perMember extra (i + 1 + j) = size (i + 1 + j) := by
      intro j hj
      have := hsize (j + 1) (by omega)
      rwa [Nat.add_comm j 1, ← Nat.add_assoc] at this
    have hhead : memberCount perMember extra i = size i := hsize 0 (by omega)
    rw [blocks, tile, hhead]
    split
    case isTrue hzero =>
      rw [hzero, add_zero, interval_self, hi hstep hcursor (by omega)]
    case isFalse =>
      rw [hnext, hi hstep (by omega) (by omega)]

-- A negative cursor is never handed out only if nothing is.
theorem memberCount_eq_zero_of_neg (hnonneg : Nonneg perMember extra k i) (h32 : IsInt32 perMember)
    (hneg : -2 ^ 31 ≤ cursor ∧ cursor < 0) (hblocks : ∀ b ∈ blocks perMember extra k i cursor, ∀ p ∈ b, 0 ≤ p) :
    ∀ j < k, memberCount perMember extra (i + j) = 0 := by
  induction k generalizing i
  case zero => omega
  case succ k hi =>
    obtain ⟨hhead, htail⟩ := nonneg_succ_iff.mp hnonneg
    have hint : IsInt32 (memberCount perMember extra i) := isInt32_memberCount h32 i
    have hzero : memberCount perMember extra i = 0 := by
      by_contra hne
      have hnext : int32 (cursor + memberCount perMember extra i) = cursor + memberCount perMember extra i :=
        wrap_of_mem (by decide) (by norm_num; omega) (by norm_num; obtain ⟨_, _⟩ := hint; omega)
      have hfirst := hblocks (interval cursor (cursor + memberCount perMember extra i))
        (by rw [blocks, if_neg hne, hnext]; exact List.mem_cons_self) cursor (by rw [mem_interval]; omega)
      omega
    rw [blocks, if_pos hzero] at hblocks
    rw [Nat.forall_lt_succ_left]
    refine ⟨hzero, fun j hj => ?_⟩
    rw [Nat.add_comm j 1, ← Nat.add_assoc]
    exact hi htail (fun b hb => hblocks b (List.mem_cons_of_mem _ hb)) j hj

def total (perMember extra : Int) : Nat → Nat → Int
  | 0, _     => 0
  | k + 1, i => memberCount perMember extra i + total perMember extra k (i + 1)

theorem total_nonneg (h : Nonneg perMember extra k i) : 0 ≤ total perMember extra k i := by
  induction k generalizing i
  case zero => exact Int.le_refl 0
  case succ k hi =>
    obtain ⟨hhead, htail⟩ := nonneg_succ_iff.mp h
    rw [total]
    exact Int.add_nonneg hhead (hi htail)

-- What is handed out below `n` adds up to at most `n`, unless the last of it takes the cursor round.
theorem total_le {m : Nat} (hnonneg : Nonneg perMember extra (m + k) i) (h32 : IsInt32 perMember)
    (hn : n < 2 ^ 31) (hcursor : 0 ≤ cursor ∧ cursor ≤ n)
    (hblocks : ∀ b ∈ blocks perMember extra (m + k) i cursor, ∀ p ∈ b, 0 ≤ p ∧ p < n)
    (hround : cursor + total perMember extra m i < 2 ^ 31 ∨ ∃ j < k, memberCount perMember extra (i + m + j) ≠ 0) :
    cursor + total perMember extra m i ≤ n := by
  induction m generalizing i cursor
  case zero =>
    rw [total]
    omega
  case succ m hi =>
    rw [Nat.add_right_comm] at hnonneg hblocks
    obtain ⟨hhead, htail⟩ := nonneg_succ_iff.mp hnonneg
    have hint : IsInt32 (memberCount perMember extra i) := isInt32_memberCount h32 i
    have hrest : 0 ≤ total perMember extra m (i + 1) := total_nonneg fun j hj => htail j (by omega)
    rw [total, ← Int.add_assoc] at hround ⊢
    rw [show i + (m + 1) = i + 1 + m by omega] at hround
    rw [blocks] at hblocks
    by_cases hzero : memberCount perMember extra i = 0
    case pos =>
      rw [if_pos hzero] at hblocks
      rw [hzero, Int.add_zero] at hround ⊢
      exact hi htail hcursor (fun b hb => hblocks b (List.mem_cons_of_mem _ hb)) hround
    case neg =>
      rw [if_neg hzero] at hblocks
      by_cases hlt : cursor + memberCount perMember extra i < 2 ^ 31
      case pos =>
        have hnext : int32 (cursor + memberCount perMember extra i) = cursor + memberCount perMember extra i :=
          wrap_of_nonneg (by decide) (by omega) (by norm_num; omega)
        rw [hnext] at hblocks
        have hlast := hblocks _ List.mem_cons_self (cursor + memberCount perMember extra i - 1)
          (by rw [mem_interval]; omega)
        exact hi htail (by omega) (fun b hb => hblocks b (List.mem_cons_of_mem _ hb)) hround
      case neg =>
        obtain ⟨j, hj, hne⟩ := hround.resolve_left (by omega)
        have hneg : -2 ^ 31 ≤ int32 (cursor + memberCount perMember extra i) ∧
            int32 (cursor + memberCount perMember extra i) < 0 := by
          have := hint.right
          simp only [int32, wrap]
          omega
        have hall := memberCount_eq_zero_of_neg htail h32 hneg
          (fun b hb p hp => (hblocks b (List.mem_cons_of_mem _ hb) p hp).left) (m + j) (by omega)
        rw [← Nat.add_assoc] at hall
        exact absurd hall hne

theorem memberCount_of_lt (h : i < 2 ^ 31) :
    memberCount perMember extra i = if (i : Int) < extra then int32 (perMember + 1) else perMember := by
  rw [memberCount, show int32 i = i from wrap_of_nonneg (by decide) (by omega) (by norm_num; omega)]

-- From index `2 ^ 31` on the converted index is negative, and the member counts as one of the first.
theorem memberCount_of_ge (h : 2 ^ 31 ≤ i) (hi : i < 2 ^ 32) (hextra : 0 ≤ extra) :
    memberCount perMember extra i = int32 (perMember + 1) := by
  have hneg : int32 i < extra := by
    simp only [int32, wrap]
    omega
  rw [memberCount, if_pos hneg]

theorem le_total (h32 : IsInt32 perMember) (hpos : 1 ≤ perMember) (h : Nonneg perMember extra k i) :
    (k : Int) ≤ total perMember extra k i := by
  induction k generalizing i
  case zero => exact Int.le_refl 0
  case succ k hi =>
    obtain ⟨hhead, htail⟩ := nonneg_succ_iff.mp h
    have hrest := hi htail
    have hone : 1 ≤ memberCount perMember extra i := by
      have := h32.right
      by_cases hextra : int32 i < extra
      case pos =>
        rw [memberCount, if_pos hextra] at hhead ⊢
        simp only [int32, wrap] at hhead ⊢
        omega
      case neg =>
        rw [memberCount, if_neg hextra]
        exact hpos
    rw [total]
    omega

theorem total_zero (h : i + k ≤ 2 ^ 31) : total 0 extra k i = max 0 (min (k : Int) (extra - i)) := by
  induction k generalizing i
  case zero =>
    rw [total]
    omega
  case succ k hi =>
    have hone : int32 (0 + 1) = 1 := rfl
    rw [total, hi (by omega), memberCount_of_lt (by omega), hone]
    split <;> omega

theorem total_succ_last : total perMember extra (k + 1) i =
    total perMember extra k i + memberCount perMember extra (i + k) := by
  induction k generalizing i
  case zero => simp [total]
  case succ k hi => rw [total, hi, total, Int.add_assoc, Nat.add_right_comm, Nat.add_assoc]

-- More than `2 ^ 31` members cannot share out a topic: a count is negative, or the first `2 ^ 31` of them use
-- the topic up and more is handed out after them.
theorem not_within_of_lt {d : Int} (hk : 2 ^ 31 < k) (hd : d = int32 k) (hne : d ≠ 0) (hn : 0 ≤ n ∧ n < 2 ^ 31)
    (hnonneg : Nonneg (int32 (n.tdiv d)) (n.tmod d) k 0) :
    ¬ ∀ b ∈ blocks (int32 (n.tdiv d)) (n.tmod d) k 0 0, ∀ p ∈ b, 0 ≤ p ∧ p < n := by
  intro hblocks
  have hdiv : d * n.tdiv d + n.tmod d = n := Int.mul_tdiv_add_tmod n d
  have hquo : int32 (n.tdiv d) = n.tdiv d := by
    have := Int.natAbs_tdiv_le_natAbs n d
    exact wrap_of_mem (by decide) (by norm_num; omega) (by norm_num; omega)
  have hextra : 0 ≤ n.tmod d := Int.tmod_nonneg d hn.left
  have hmod : n.tmod d ≤ n ∧ n.tmod d < d.natAbs := by
    have habs := Int.natAbs_tmod n d
    have hle := Nat.mod_le n.natAbs d.natAbs
    have hlt := Nat.mod_lt n.natAbs (Int.natAbs_pos.mpr hne)
    omega
  have h32 := isInt32_int32 (n.tdiv d)
  rw [hquo] at hblocks hnonneg h32
  obtain ⟨q, hq⟩ : ∃ q, n.tdiv d = q := ⟨_, rfl⟩
  obtain ⟨r, hr⟩ : ∃ r, n.tmod d = r := ⟨_, rfl⟩
  rw [hq] at hblocks hnonneg hdiv h32
  rw [hr] at hblocks hnonneg hdiv hextra hmod
  obtain ⟨K, hK⟩ : ∃ K : Nat, K = 2 ^ 31 := ⟨_, rfl⟩
  obtain ⟨e, rfl⟩ : ∃ e, k = K + 1 + e := ⟨k - (K + 1), by omega⟩
  obtain hpos | rfl | hneg := lt_trichotomy 0 q
  case inl =>
    have hfront : (K : Int) ≤ total q r K 0 := le_total h32 hpos fun j hj => hnonneg j (by omega)
    have hlater : memberCount q r (0 + K + 0) ≠ 0 := by
      have := h32.right
      rw [memberCount_of_ge (by omega) (by omega) hextra]
      simp only [int32, wrap]
      omega
    rw [Nat.add_assoc] at hnonneg hblocks
    have := total_le hnonneg h32 hn.right ⟨Int.le_refl 0, hn.left⟩ hblocks (.inr ⟨0, by omega, hlater⟩)
    omega
  case inr.inl =>
    have hone {i : Nat} (hi : 2 ^ 31 ≤ i) (hi' : i < 2 ^ 32) : memberCount 0 r i = 1 :=
      memberCount_of_ge hi hi' hextra
    have hfront : total 0 r (K + 1) 0 = n + 1 := by
      rw [total_succ_last, total_zero (by omega), hone (by omega) (by omega)]
      omega
    have hround : 0 + total 0 r (K + 1) 0 < 2 ^ 31 ∨ ∃ j < e, memberCount 0 r (0 + (K + 1) + j) ≠ 0 := by
      by_cases hlt : n + 1 < 2 ^ 31
      case pos => exact .inl (by omega)
      case neg =>
        -- A single member more makes the divisor `-n`, which goes into `n`.
        have he : 0 < e := by
          simp only [int32, wrap] at hd
          omega
        refine .inr ⟨0, he, ?_⟩
        rw [hone (by omega) (by omega)]
        decide
    have := total_le hnonneg h32 hn.right ⟨Int.le_refl 0, hn.left⟩ hblocks hround
    omega
  case inr.inr =>
    have hcount := hnonneg r.toNat (by omega)
    rw [memberCount_of_lt (by omega), if_neg (by omega)] at hcount
    omega

end Members

section Sizes

variable {n : Int}

-- The block sizes of `n` partitions over `k` members.
def size (n k j : Nat) : Nat :=
  n / k + if j < n % k then 1 else 0

theorem sum_range_size (n k : Nat) (m : Nat) : ((List.range m).map (size n k)).sum = m * (n / k) + min m (n % k) := by
  induction m
  case zero => simp
  case succ m hi =>
    rw [List.range_succ, List.map_append, List.sum_append, hi, List.map_singleton, List.sum_singleton, size,
      Nat.succ_mul]
    split <;> omega

theorem sum_size {n k : Nat} (hk : 0 < k) : ((List.range k).map (size n k)).sum = n := by
  have hlt := Nat.mod_lt n hk
  rw [sum_range_size, Nat.min_eq_right (by omega)]
  exact Nat.div_add_mod n k

theorem size_antitone {n k j j' : Nat} (h : j ≤ j') : size n k j' ≤ size n k j := by
  unfold size
  split <;> split <;> omega

theorem size_le_succ (n k j j' : Nat) : size n k j ≤ size n k j' + 1 := by
  unfold size
  split <;> split <;> omega

variable {k : Nat} (hk : 0 < k) (hle : k ≤ 2 ^ 31) (hn : 0 ≤ n ∧ n < 2 ^ 31)
include hk hle hn

-- `int32` holds up to `2 ^ 31 - 1`, but with `2 ^ 31` members the quotient is `0` whatever the sign.
theorem tdiv_int32 : n.tdiv (int32 k) = (n.toNat / k : Nat) ∧ n.tmod (int32 k) = (n.toNat % k : Nat) := by
  obtain ⟨m, rfl⟩ := Int.eq_ofNat_of_zero_le hn.left
  rw [Int.toNat_natCast]
  obtain hlt | rfl := Nat.lt_or_eq_of_le hle
  case inl =>
    rw [show int32 k = k from wrap_of_nonneg (by decide) (by omega) (by norm_num; omega)]
    exact ⟨rfl, rfl⟩
  case inr =>
    have hmin : int32 (2 ^ 31 : Nat) = -((2 ^ 31 : Nat) : Int) := by decide
    rw [hmin, Int.tdiv_neg, Int.tmod_neg, Nat.div_eq_of_lt (by omega), Int.tdiv_eq_zero_of_lt (by omega) (by omega)]
    exact ⟨rfl, rfl⟩

theorem memberCount_eq_size {j : Nat} (hj : j < k) :
    memberCount (int32 (n.tdiv (int32 k))) (n.tmod (int32 k)) j = size n.toNat k j := by
  obtain ⟨hdiv, hmod⟩ := tdiv_int32 hk hle hn
  have hquo := Nat.div_le_self n.toNat k
  have hsum := Nat.div_add_mod n.toNat k
  rw [hdiv, hmod, memberCount_of_lt (by omega), size]
  obtain ⟨q, hq⟩ : ∃ q, n.toNat / k = q := ⟨_, rfl⟩
  obtain ⟨r, hr⟩ : ∃ r, n.toNat % k = r := ⟨_, rfl⟩
  rw [hq] at hquo hsum ⊢
  rw [hr] at hsum ⊢
  rw [show int32 q = q from wrap_of_nonneg (by decide) (by omega) (by norm_num; omega)]
  by_cases hextra : j < r
  case pos =>
    -- A remainder leaves room for one more.
    have hroom : q ≤ k * q := Nat.le_mul_of_pos_left q hk
    rw [if_pos (by omega), if_pos hextra, int32, wrap_of_nonneg (by decide) (by omega) (by norm_num; omega)]
    rfl
  case neg => rw [if_neg (by omega), if_neg hextra, Nat.add_zero]

theorem nonneg_of_le : Nonneg (int32 (n.tdiv (int32 k))) (n.tmod (int32 k)) k 0 := by
  intro j hj
  rw [Nat.zero_add, memberCount_eq_size hk hle hn hj]
  exact Int.natCast_nonneg _

theorem blocks_eq_sizes : blocks (int32 (n.tdiv (int32 k))) (n.tmod (int32 k)) k 0 0 =
    tile 0 ((List.range k).map (size n.toNat k)) := by
  rw [List.range_eq_range']
  refine blocks_eq_tile (fun j hj => ?_) (Int.le_refl 0) ?_
  case refine_1 => rw [Nat.zero_add, memberCount_eq_size hk hle hn hj]
  case refine_2 =>
    rw [← List.range_eq_range', sum_size hk]
    omega

end Sizes

end Assignor
