import Gokaf.Cluster.Liveness
import Mathlib.Data.List.Chain
import Mathlib.Data.List.Infix

open Go

namespace Cluster

def Callback.id : Callback → Int
  | onDown id | onUp id => id

-- The highest of the ids with the property `P`, if one is above `c₀`, and `c₀` otherwise.
structure IsHighest (P : Int → Bool) (c₀ : Int) (ids : List Int) (c : Int) : Prop where
  start_le  : c₀ ≤ c
  le        : ∀ id ∈ ids, P id → id ≤ c
  eq_or_mem : c = c₀ ∨ c ∈ ids ∧ P c

theorem isHighest_foldl (P : Int → Bool) (c₀ : Int) (ids : List Int) :
    IsHighest P c₀ ids (ids.foldl (fun c id => if P id ∧ c < id then id else c) c₀) := by
  induction ids generalizing c₀
  case nil => exact ⟨Int.le_refl _, nofun, .inl rfl⟩
  case cons id ids hi =>
    rw [List.foldl_cons]
    split
    case isTrue h =>
      have h' := hi id
      refine ⟨by have := h'.start_le; omega, List.forall_mem_cons.mpr ⟨fun _ => h'.start_le, h'.le⟩, .inr ?_⟩
      cases h'.eq_or_mem
      case inl heq  => simp [heq, h.left]
      case inr hmem => exact ⟨List.mem_cons_of_mem _ hmem.left, hmem.right⟩
    case isFalse h =>
      have h' := hi c₀
      refine ⟨h'.start_le, List.forall_mem_cons.mpr ⟨fun hP => ?_, h'.le⟩, h'.eq_or_mem.imp_right ?_⟩
      · have := h'.start_le
        have := not_and.mp h hP
        omega
      · exact fun hmem => ⟨List.mem_cons_of_mem _ hmem.left, hmem.right⟩

namespace LivenessMonitor

variable {lm lm' : LivenessMonitor} {id id' : Int} {ok : Bool} {callback : Option Callback} {outcomes : List Bool}
  {callbacks : List Callback}

-- What a record leaves as it is.
structure Keeps (lm : LivenessMonitor) (id : Int) (lm' : LivenessMonitor) (callback : Option Callback) : Prop where
  self       : lm'.self = lm.self
  membership : lm'.membership = lm.membership
  failAfter  : lm'.failAfter = lm.failAfter
  alive      : ∀ id', id' ≠ id → lm'.alive id' = lm.alive id'
  misses     : ∀ id', id' ≠ id → lm'.misses id' = lm.misses id'
  callback   : ∀ c ∈ callback, c.id = id

theorem keeps_record (hr : lm.record id ok = (lm', callback)) : Keeps lm id lm' callback := by
  simp only [record, recordMiss, recordSuccess] at hr
  split at hr
  case isTrue =>
    cases hr
    refine ⟨rfl, rfl, rfl, fun _ h => Function.update_of_ne h .., fun _ h => Function.update_of_ne h .., fun c hc => ?_⟩
    split at hc <;> cases hc
    rfl
  case isFalse =>
    split at hr <;> cases hr
    case isTrue =>
      refine ⟨rfl, rfl, rfl, fun _ h => Function.update_of_ne h .., fun _ h => Function.update_of_ne h ..,
        fun c hc => ?_⟩
      cases hc
      rfl
    case isFalse => exact ⟨rfl, rfl, rfl, fun _ _ => rfl, fun _ h => Function.update_of_ne h ..,
      fun c hc => by cases hc⟩

theorem isHighest_controllerID (lm : LivenessMonitor) :
    IsHighest lm.alive (-1) lm.membership.ids lm.controllerID :=
  isHighest_foldl ..

-- The callbacks about a peer alternate, the first one is `onDown`, and the last one fits what the monitor thinks.
structure Announced (id : Int) (alive : Bool) (callbacks : List Callback) : Prop where
  chain : callbacks.IsChain (· ≠ ·)
  first : ∀ c ∈ callbacks.head?, c = .onDown id
  last  : alive = false ↔ callbacks.getLast? = some (.onDown id)

theorem Announced.down (h : Announced id true callbacks) : Announced id false (callbacks ++ [.onDown id]) where
  chain := by
    refine List.isChain_append.mpr ⟨h.chain, List.isChain_singleton _, fun c hc c' hc' heq => ?_⟩
    cases hc'
    have := h.last.mpr (heq ▸ hc)
    contradiction
  first := by
    intro c hc
    cases callbacks
    case nil  => simpa using hc.symm
    case cons => exact h.first c hc
  last := by simp

theorem Announced.up (h : Announced id false callbacks) : Announced id true (callbacks ++ [.onUp id]) where
  chain := by
    refine List.isChain_append.mpr ⟨h.chain, List.isChain_singleton _, fun c hc c' hc' heq => ?_⟩
    cases hc'
    rw [h.last.mp rfl, Option.mem_some] at hc
    cases hc.trans heq
  first := by
    intro c hc
    cases callbacks
    case nil  => cases h.last.mp rfl
    case cons => exact h.first c hc
  last := by simp

-- What a monitor knows of a peer after the given outcomes of pings, and what it has said about it.
structure Tracks (lm : LivenessMonitor) (id : Int) (outcomes : List Bool) (callbacks : List Callback) : Prop where
  misses    : ∃ k : Nat, lm.misses id = int64 k ∧ ∀ n, List.replicate n false <:+ outcomes ↔ n ≤ k
  dead      : lm.alive id = false ↔ List.replicate lm.failAfter.toNat false <:+ outcomes
  announced : Announced id (lm.alive id) callbacks

namespace Tracks

theorem new {m : Membership} (self : Int) (hid : id ∈ m.ids) (failAfter : Int) :
    (new m self failAfter).Tracks id [] [] where
  misses    := ⟨0, rfl, fun n => by simp⟩
  dead      := by
    simp only [LivenessMonitor.new, hid, List.suffix_nil, List.replicate_eq_nil_iff]
    split <;> simp
    omega
  announced := ⟨.nil, nofun, by simp [LivenessMonitor.new, hid]⟩

-- A record is about one peer only.
theorem keep (h : lm.Tracks id outcomes callbacks) (hkeeps : Keeps lm id' lm' callback) (hne : id ≠ id') :
    lm'.Tracks id outcomes callbacks := by
  refine ⟨?_, ?_, ?_⟩
  · rw [hkeeps.misses id hne]
    exact h.misses
  · rw [hkeeps.alive id hne, hkeeps.failAfter]
    exact h.dead
  · rw [hkeeps.alive id hne]
    exact h.announced

theorem recordSuccess (h : lm.Tracks id outcomes callbacks) (hpos : 0 < lm.failAfter)
    (hr : lm.recordSuccess id = (lm', callback)) :
    lm'.Tracks id (outcomes ++ [true]) (callbacks ++ callback.toList) := by
  have hnone : ∀ n, List.replicate n false <:+ outcomes ++ [true] ↔ n ≤ 0 := by
    intro n
    cases n
    case zero => simp
    case succ n => simp [List.replicate_succ', List.suffix_concat_iff]
  cases hr
  refine ⟨⟨0, by simp [int64, wrap], hnone⟩, ?_, ?_⟩
  · simp only [Function.update_self, Bool.true_eq_false, false_iff, hnone]
    omega
  · have hannounced := h.announced
    cases halive : lm.alive id
    case true  => simpa [halive] using hannounced
    case false => simpa [halive] using (halive ▸ hannounced).up

theorem recordMiss (h : lm.Tracks id outcomes callbacks) (hlt : lm.failAfter < 2 ^ 63)
    (hr : lm.recordMiss id = (lm', callback)) :
    lm'.Tracks id (outcomes ++ [false]) (callbacks ++ callback.toList) := by
  obtain ⟨k, hk, hcount⟩ := h.misses
  have hcount' : ∀ n, List.replicate n false <:+ outcomes ++ [false] ↔ n ≤ k + 1 := by
    intro n
    cases n
    case zero => simp
    case succ n => rw [List.replicate_succ', List.suffix_append_self_iff, hcount, Nat.add_le_add_iff_right]
  have hmisses : int64 (lm.misses id + 1) = int64 ((k + 1 : Nat) : Int) := by
    rw [hk, Int.add_comm, int64, int64, wrap_add_wrap, Int.natCast_add, Int.add_comm]
    rfl
  have hdead := h.dead
  rw [hcount] at hdead
  have hannounced := h.announced
  simp only [LivenessMonitor.recordMiss, Function.update_self, hmisses] at hr
  cases halive : lm.alive id
  case false =>
    -- The count may have wrapped around, but nothing asks for it any more.
    simp only [halive, Bool.false_eq_true, and_false, if_false] at hr
    cases hr
    refine ⟨⟨k + 1, by simp, hcount'⟩, ?_, by simpa using hannounced⟩
    have := hdead.mp halive
    simp only [halive, true_iff, hcount']
    omega
  case true =>
    have hlt' : k < lm.failAfter.toNat := by
      have := mt hdead.mpr (by simp [halive])
      omega
    have hexact : int64 ((k + 1 : Nat) : Int) = (k + 1 : Nat) := wrap_of_nonneg (by decide) (by omega) (by omega)
    rw [halive] at hannounced
    simp only [halive, and_true, hexact] at hr
    split at hr
    case isTrue hle =>
      cases hr
      refine ⟨⟨k + 1, by rw [hexact]; exact Function.update_self .., hcount'⟩, ?_, by simpa using hannounced.down⟩
      simp only [Function.update_self, true_iff, hcount']
      omega
    case isFalse hle =>
      cases hr
      refine ⟨⟨k + 1, by rw [hexact]; exact Function.update_self .., hcount'⟩, ?_, by simpa [halive] using hannounced⟩
      simp only [halive, Bool.true_eq_false, false_iff, hcount']
      omega

theorem record (h : lm.Tracks id outcomes callbacks) (hpos : 0 < lm.failAfter) (hlt : lm.failAfter < 2 ^ 63)
    (hr : lm.record id ok = (lm', callback)) :
    lm'.Tracks id (outcomes ++ [ok]) (callbacks ++ callback.toList) := by
  cases ok
  case true  => exact h.recordSuccess hpos hr
  case false => exact h.recordMiss hlt hr

end Tracks
end LivenessMonitor
end Cluster
