import Gokaf.Producer.Theorems.Sequence

open Go

namespace Producer

variable {s s' : State} {m m' : Manager} {call : Call} {calls : List Call} {key : SeqKey} {b : Batch}
  {log log' : List Batch} {result : Except IOError Check} {os : List (Except IOError Check)}

-- Sequence numbers run from zero to 2 ^ 31 - 1 and start again at zero.
def successor (sequence : Int) : Int :=
  if sequence = 2 ^ 31 - 1 then 0 else sequence + 1

def Batch.lastSequence (b : Batch) : Int :=
  (b.baseSeq + b.recordCount - 1) % 2 ^ 31

-- The fields of a batch are int32, and it has at least one record.
structure Batch.Proper (b : Batch) : Prop where
  baseSeq     : IsInt32 b.baseSeq
  one_le      : 1 ≤ b.recordCount
  recordCount : IsInt32 b.recordCount

-- The state of a producer is about its last batch in the log.
structure Remembers (m : Manager) (log : List Batch) : Prop where
  proper : ∀ b ∈ log, b.Proper
  last   : ∀ key b, (log.filter (·.key = key)).getLast? = some b →
    ∃ offset, m.seqs key = some ⟨int32 (b.baseSeq + b.recordCount - 1), offset, b.recordCount⟩

theorem Remembers.appends (h : Remembers m log) (hc : call.batch.Proper)
    (ha : Appends m call log m' log' result) : Remembers m' log' := by
  cases ha
  case refused => exact h
  case failed  => exact h
  case appended offset _ _ =>
    refine ⟨List.forall_mem_append.mpr ⟨h.proper, by simpa using hc⟩, fun key b hb => ?_⟩
    rw [List.filter_append] at hb
    by_cases hkey : key = call.batch.key
    case pos =>
      subst hkey
      rw [List.filter_cons_of_pos (by simp), List.filter_nil, List.getLast?_concat] at hb
      cases hb
      exact ⟨offset, Manager.seqs_committedLocked_self ..⟩
    case neg =>
      rw [List.filter_cons_of_neg (by simpa using Ne.symm hkey), List.filter_nil, List.append_nil] at hb
      rw [Manager.seqs_committedLocked_of_ne hkey]
      exact h.last key b hb

theorem inductive_remembers :
    machine.Inductive (fun _ call => call.batch.Proper) fun s _ => Remembers s.manager s.log where
  step h hc hs := by
    obtain ⟨_, _, ha⟩ := appends_of_step hs
    exact h.appends hc ha

theorem successor_lastSequence (b : Batch) : successor b.lastSequence = (b.baseSeq + b.recordCount) % 2 ^ 31 := by
  unfold successor Batch.lastSequence
  by_cases hlast : (b.baseSeq + b.recordCount - 1) % 2 ^ 31 = 2 ^ 31 - 1
  case pos =>
    rw [if_pos hlast]
    omega
  case neg =>
    rw [if_neg hlast]
    omega

-- The number after the last one, in the space of sequence numbers and in an int32.
theorem Batch.Proper.successor_eq_iff (h : b.Proper) :
    successor b.lastSequence = int32 (b.baseSeq + b.recordCount) ↔
      0 ≤ b.baseSeq + b.recordCount ∧ b.baseSeq + b.recordCount < 2 ^ 31 := by
  obtain ⟨⟨hl, hu⟩, hone, -, hcount⟩ := h
  rw [successor_lastSequence]
  simp only [int32, wrap]
  omega

theorem Batch.Proper.successor_ne (h : b.Proper) : successor b.lastSequence ≠ b.baseSeq := by
  obtain ⟨⟨hl, hu⟩, hone, -, hcount⟩ := h
  rw [successor_lastSequence]
  omega

theorem Remembers.append_iff (h : Remembers m log) (hb : (log.filter (·.key = key)).getLast? = some b) :
    (m.checkSequenceLocked key (successor b.lastSequence)).decision = .append ↔
      0 ≤ b.baseSeq + b.recordCount ∧ b.baseSeq + b.recordCount < 2 ^ 31 := by
  have hproper := h.proper b (List.mem_filter.mp (List.mem_of_getLast? hb)).left
  obtain ⟨offset, hstate⟩ := h.last key b hb
  have hlastBase : int32 (int32 (b.baseSeq + b.recordCount - 1) - b.recordCount + 1) = b.baseSeq := by
    obtain ⟨hl, hu⟩ := hproper.baseSeq
    simp only [int32, wrap]
    omega
  have hnext : int32 (int32 (b.baseSeq + b.recordCount - 1) + 1) = int32 (b.baseSeq + b.recordCount) := by
    simp only [int32, wrap]
    omega
  simp only [Manager.checkSequenceLocked, hstate, hlastBase, hnext]
  rw [← hproper.successor_eq_iff]
  split
  case isTrue heq => exact absurd heq hproper.successor_ne
  case isFalse =>
    split
    case isTrue heq  => exact iff_of_true rfl heq
    case isFalse hne =>
      refine iff_of_false ?_ hne
      split <;> simp

theorem successor_append_iff (hc : ∀ call ∈ calls, call.batch.Proper) (hr : machine.run .init calls = some (s, os))
    (hb : (s.stored key).getLast? = some b) :
    (s.manager.checkSequenceLocked key (successor b.lastSequence)).decision = .append ↔
      0 ≤ b.baseSeq + b.recordCount ∧ b.baseSeq + b.recordCount < 2 ^ 31 := by
  have hinit : Remembers State.init.manager State.init.log := ⟨by simp [State.init], by simp [State.init]⟩
  have h := inductive_remembers.run_nil hinit (Machine.along_of_forall hc _) hr
  exact h.append_iff hb

-- The producer has used all numbers, and its next batch starts again at zero. A batch that crosses the limit is
-- followed by one that starts at one.
theorem successor_not_append :
    let key : SeqKey := ⟨1, [116], 0⟩
    ((machine.run .init [⟨⟨key, 0, 2 ^ 31 - 1⟩, .ok 0⟩, ⟨⟨key, 2 ^ 31 - 1, 1⟩, .ok 1⟩]).map fun r =>
      ((r.fst.stored key).getLast?.map (successor ·.lastSequence),
        (r.fst.manager.checkSequenceLocked key 0).decision)) = some (some 0, .duplicate) ∧
    ((machine.run .init [⟨⟨key, 0, 2 ^ 31 - 1⟩, .ok 0⟩, ⟨⟨key, 2 ^ 31 - 1, 2⟩, .ok 1⟩]).map fun r =>
      ((r.fst.stored key).getLast?.map (successor ·.lastSequence),
        (r.fst.manager.checkSequenceLocked key 1).decision)) = some (some 1, .outOfOrder) := by
  decide +kernel

theorem successor_append_iff_second :
    let key : SeqKey := ⟨1, [116], 0⟩
    ∃ s os, machine.run .init [⟨⟨key, 0, 3⟩, .ok 0⟩, ⟨⟨key, 3, 2⟩, .ok 1⟩] = some (s, os) ∧
      (s.stored key).getLast? = some ⟨key, 3, 2⟩ ∧ (s.manager.checkSequenceLocked key 5).decision = .append := by
  intro key
  obtain ⟨s, os, hr, hb⟩ : ∃ s os, machine.run .init [⟨⟨key, 0, 3⟩, .ok 0⟩, ⟨⟨key, 3, 2⟩, .ok 1⟩] = some (s, os) ∧
      (s.stored key).getLast? = some ⟨key, 3, 2⟩ := ⟨_, _, rfl, by decide⟩
  refine ⟨s, os, hr, hb, (successor_append_iff ?_ hr hb).mpr (by decide)⟩
  simp only [List.forall_mem_cons, List.not_mem_nil, false_implies, implies_true, and_true]
  exact ⟨⟨by decide, by decide, by decide⟩, ⟨by decide, by decide, by decide⟩⟩

end Producer
