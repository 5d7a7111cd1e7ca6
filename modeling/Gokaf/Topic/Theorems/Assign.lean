import Gokaf.Residue
import Gokaf.Topic.Assign
import Mathlib.Algebra.BigOperators.Ring.Finset
import Mathlib.Algebra.Order.BigOperators.Group.Finset

open Residue

namespace Topic

-- The positions in a list of `n` brokers that the replicas of a partition are taken from.
def replicaPositions (n rf partition : Nat) : List Nat :=
  (List.range rf).map fun replica => (partition % n + replica) % n

def placement (count n rf : Nat) : List (List Nat) :=
  (List.range count).map (replicaPositions n rf)

variable {count n rf partition p q : Nat}

section Window

theorem length_replicaPositions (n rf partition : Nat) : (replicaPositions n rf partition).length = rf := by
  simp [replicaPositions]

theorem lt_of_mem_replicaPositions (hn : 0 < n) (hp : p ∈ replicaPositions n rf partition) : p < n := by
  obtain ⟨replica, -, rfl⟩ := List.mem_map.mp hp
  exact Nat.mod_lt _ hn

theorem nodup_replicaPositions (hrf : rf ≤ n) (partition : Nat) : (replicaPositions n rf partition).Nodup := by
  refine List.Nodup.map_on (fun r hr r' hr' heq => ?_) List.nodup_range
  rw [List.mem_range] at hr hr'
  exact eq_of_add_mod_eq (by omega) (by omega) heq

theorem mem_replicaPositions : p ∈ replicaPositions n rf partition ↔ ∃ r < rf, (partition + r) % n = p := by
  simp [replicaPositions]

theorem head?_replicaPositions (hrf : 0 < rf) (partition : Nat) :
    (replicaPositions n rf partition).head? = some (partition % n) := by
  obtain ⟨rf, rfl⟩ := Nat.exists_eq_succ_of_ne_zero hrf.ne'
  simp [replicaPositions, List.range_succ_eq_map]

end Window

section Counting

open Finset

-- What is left of the last, incomplete turn around the brokers.
def remainder (count n rf p : Nat) : Nat :=
  #{r ∈ range rf | (p + n - r) % n < count % n}

theorem remainder_le (hrf : rf ≤ n) : remainder count n rf p ≤ min rf (count % n) := by
  refine le_min ?_ ?_
  · exact (card_filter_le _ _).trans (card_range rf).le
  · have hcard : remainder count n rf p ≤ #(range (count % n)) := card_le_card_of_injOn
      (fun r => (p + n - r) % n) ?maps ?inj
    case maps =>
      intro r hr
      simpa using (mem_filter.mp hr).right
    case inj =>
      intro r hr r' hr' heq
      have hlt := mem_range.mp (mem_filter.mp hr).left
      have hlt' := mem_range.mp (mem_filter.mp hr').left
      have hmod : p + n - r ≡ p + n - r' [MOD n] := heq
      have hadd := hmod.add_right (r + r')
      rw [show p + n - r + (r + r') = p + n + r' by omega, show p + n - r' + (r + r') = p + n + r by omega] at hadd
      exact (eq_of_add_mod_eq (by omega) (by omega) hadd).symm
    rwa [card_range] at hcard

-- The replicas of one partition are at different positions, so what is counted replica by replica adds up.
theorem countP_mem_placement (hp : p < n) (hrf : rf ≤ n) :
    (placement count n rf).countP (p ∈ ·) = rf * (count / n) + remainder count n rf p := by
  have hunion : {i ∈ range count | p ∈ replicaPositions n rf i} =
      (range rf).biUnion fun r => {i ∈ range count | (i + r) % n = p} := by
    ext i
    simp only [mem_filter, mem_range, mem_biUnion, mem_replicaPositions]
    tauto
  have hdisjoint : ∀ r ∈ range rf, ∀ r' ∈ range rf, r ≠ r' →
      Disjoint {i ∈ range count | (i + r) % n = p} {i ∈ range count | (i + r') % n = p} := by
    intro r hr r' hr' hne
    refine disjoint_filter.mpr fun i _ h h' => hne ?_
    rw [mem_range] at hr hr'
    exact eq_of_add_mod_eq (a := i) (by omega) (by omega) (h.trans h'.symm)
  rw [placement, List.countP_map]
  refine (countP_range count (p ∈ replicaPositions n rf ·)).trans ?_
  rw [hunion, card_biUnion hdisjoint, sum_congr rfl fun r hr => card_add_mod hp (by simp at hr; omega) count,
    sum_add_distrib, sum_const, card_range, nsmul_eq_mul, Nat.cast_id, remainder, card_filter]

theorem ceil_div (hn : 0 < n) (h : 0 < count % n) : (count + n - 1) / n = count / n + 1 := by
  have hlt := Nat.mod_lt count hn
  have hdiv := Nat.div_add_mod count n
  have hone : (n + (count % n - 1)) / n = 1 := by
    rw [Nat.add_div_left _ hn, Nat.div_eq_of_lt (by omega)]
  conv_lhs => rw [← hdiv, show n * (count / n) + count % n + n - 1 = n + (count % n - 1) + n * (count / n) by omega]
  rw [Nat.add_mul_div_left _ _ hn, hone, Nat.add_comm]

theorem countP_head_placement (hp : p < n) (hrf : 0 < rf) :
    (placement count n rf).countP (·.head? = some p) = count / n + if p < count % n then 1 else 0 := by
  rw [placement, List.countP_map, ← card_mod hp count, ← countP_range]
  refine List.countP_congr fun i _ => ?_
  simp [head?_replicaPositions hrf]

end Counting

theorem assignReplicas_eq {brokerIDs : List Int} (hcount : 0 < count) (hrf : 0 < rf) (hids : brokerIDs ≠ []) :
    assignReplicas count brokerIDs rf = (placement count brokerIDs.length rf).map (·.map (brokerIDs.getD · 0)) := by
  rw [assignReplicas, if_neg (by simp [hids]; omega)]
  simp [placement, replicaPositions, Function.comp_def]

-- A position leads its share of the partitions, rounded up or down, and no position gets many more replicas than
-- another one.
theorem assignReplicas_balanced {brokerIDs : List Int} (hcount : 0 < count) (hrf : 1 ≤ rf)
    (hle : rf ≤ brokerIDs.length) :
    ∃ positions : List (List Nat),
      assignReplicas count brokerIDs rf = positions.map (·.map (brokerIDs.getD · 0)) ∧
      positions.length = count ∧
      (∀ ps ∈ positions, ps.length = rf ∧ ps.Nodup ∧ ∀ p ∈ ps, p < brokerIDs.length) ∧
      (∀ p < brokerIDs.length, positions.countP (·.head? = some p) = count / brokerIDs.length ∨
        positions.countP (·.head? = some p) = (count + brokerIDs.length - 1) / brokerIDs.length) ∧
      (brokerIDs.length ∣ count → ∀ p < brokerIDs.length, positions.countP (p ∈ ·) = rf * count / brokerIDs.length) ∧
      ∀ p < brokerIDs.length, ∀ q < brokerIDs.length,
        positions.countP (p ∈ ·) ≤ positions.countP (q ∈ ·) + min rf (count % brokerIDs.length) := by
  have hn : 0 < brokerIDs.length := by omega
  refine ⟨placement count brokerIDs.length rf, ?_, ?_, ?_, ?_, ?_, ?_⟩
  · exact assignReplicas_eq hcount hrf (List.ne_nil_of_length_pos hn)
  · simp [placement]
  · intro ps hps
    obtain ⟨partition, -, rfl⟩ := List.mem_map.mp hps
    refine ⟨length_replicaPositions .., nodup_replicaPositions hle partition, fun p hp => ?_⟩
    exact lt_of_mem_replicaPositions hn hp
  · intro p hp
    rw [countP_head_placement hp hrf]
    split
    case isTrue h  => exact .inr (ceil_div hn (by omega)).symm
    case isFalse h => exact .inl rfl
  · intro hdvd p hp
    have hrem : remainder count brokerIDs.length rf p ≤ min rf (count % brokerIDs.length) := remainder_le hle
    rw [Nat.mod_eq_zero_of_dvd hdvd] at hrem
    rw [countP_mem_placement hp hle, Nat.mul_div_assoc rf hdvd]
    omega
  · intro p hp q hq
    have hrem : remainder count brokerIDs.length rf p ≤ min rf (count % brokerIDs.length) := remainder_le hle
    rw [countP_mem_placement hp hle, countP_mem_placement hq hle]
    omega

-- Four partitions and six partitions on three brokers.
theorem assignReplicas_balanced_trio :
    (∃ positions : List (List Nat),
      assignReplicas (4 : Nat) [1, 2, 3] (2 : Nat) = positions.map (·.map ([(1 : Int), 2, 3].getD · 0)) ∧
      positions.length = 4 ∧ (∀ ps ∈ positions, ps.length = 2 ∧ ps.Nodup ∧ ∀ p ∈ ps, p < 3) ∧
      (∀ p < 3, positions.countP (·.head? = some p) = 1 ∨ positions.countP (·.head? = some p) = 2) ∧
      ∀ p < 3, ∀ q < 3, positions.countP (p ∈ ·) ≤ positions.countP (q ∈ ·) + 1) ∧
    ∃ positions : List (List Nat),
      assignReplicas (6 : Nat) [1, 2, 3] (2 : Nat) = positions.map (·.map ([(1 : Int), 2, 3].getD · 0)) ∧
      ∀ p < 3, positions.countP (p ∈ ·) = 4 := by
  have hle : 2 ≤ [(1 : Int), 2, 3].length := by decide
  obtain ⟨four, heq, hlen, hall, hleaders, -, hreplicas⟩ :=
    @assignReplicas_balanced 4 2 [1, 2, 3] (by decide) (by decide) hle
  obtain ⟨six, heq', -, -, -, heven, -⟩ := @assignReplicas_balanced 6 2 [1, 2, 3] (by decide) (by decide) hle
  exact ⟨⟨four, heq, hlen, hall, hleaders, hreplicas⟩, six, heq', heven (by decide)⟩

example : assignReplicas 4 [1, 2, 3] 2 = [[1, 2], [2, 3], [3, 1], [1, 2]] := by decide

end Topic
