import Gokaf.Producer.Execution

open Go

namespace Producer

variable {s s' : State} {m m' : Manager} {call : Call} {calls : List Call} {key : SeqKey} {b : Batch}
  {log log' bs : List Batch} {result : Except IOError Check} {os : List (Except IOError Check)}

namespace Manager

theorem seqs_committedLocked_self (m : Manager) (key : SeqKey) (baseSeq recordCount baseOffset : Int) :
    (m.committedLocked key baseSeq recordCount baseOffset).seqs key =
      some ⟨int32 (baseSeq + recordCount - 1), baseOffset, recordCount⟩ :=
  Function.update_self ..

theorem seqs_committedLocked_of_ne {key' : SeqKey} (h : key' ≠ key) (m : Manager)
    (baseSeq recordCount baseOffset : Int) :
    (m.committedLocked key baseSeq recordCount baseOffset).seqs key' = m.seqs key' :=
  Function.update_of_ne h ..

-- A decision depends on the state of its own key only.
theorem checkSequenceLocked_congr (h : m'.seqs key = m.seqs key) (baseSeq : Int) :
    m'.checkSequenceLocked key baseSeq = m.checkSequenceLocked key baseSeq := by
  rw [checkSequenceLocked, h, checkSequenceLocked]

end Manager

-- What a call can do. Anything but a successful append leaves all as it is.
inductive Appends (m : Manager) (call : Call) (log : List Batch) :
    Manager → List Batch → Except IOError Check → Prop
  | refused {check : Check} : m.checkSequenceLocked call.batch.key call.batch.baseSeq = check →
    check.decision ≠ .append → Appends m call log m log (.ok check)
  | failed {e : IOError} : (m.checkSequenceLocked call.batch.key call.batch.baseSeq).decision = .append →
    call.outcome = .error e → Appends m call log m log (.error e)
  | appended {offset : Int} : (m.checkSequenceLocked call.batch.key call.batch.baseSeq).decision = .append →
    call.outcome = .ok offset →
    Appends m call log (m.committedLocked call.batch.key call.batch.baseSeq call.batch.recordCount offset)
      (log ++ [call.batch]) (.ok { decision := .append, cachedOffset := offset })

theorem appends (m : Manager) (call : Call) (log : List Batch) :
    let r := m.appendCall call log
    Appends m call log r.fst r.snd.fst r.snd.snd := by
  by_cases hcheck : (m.checkSequenceLocked call.batch.key call.batch.baseSeq).decision = .append
  case neg =>
    simp only [Manager.appendCall, Manager.appendBatch, if_pos hcheck]
    exact .refused rfl hcheck
  case pos =>
    simp only [Manager.appendCall, Manager.appendBatch, if_neg (not_not.mpr hcheck), Call.append]
    cases houtcome : call.outcome
    case error e   => exact .failed hcheck houtcome
    case ok offset => exact .appended hcheck houtcome

-- A batch of at least one record whose sequence numbers are below 2 ^ 31. In an int32 the next number
-- is the least one.
structure Batch.InRange (b : Batch) : Prop where
  baseSeq     : -2 ^ 31 < b.baseSeq
  one_le      : 1 ≤ b.recordCount
  recordCount : b.recordCount < 2 ^ 31
  sequences   : b.baseSeq + b.recordCount ≤ 2 ^ 31

def total (bs : List Batch) : Int :=
  (bs.map (·.recordCount)).sum

-- Each batch starts where the ones before it end.
def Contiguous (bs : List Batch) : Prop :=
  ∀ i b, bs[i]? = some b → b.baseSeq = total (bs.take i)

-- The sequence numbers of the records of a batch.
def Batch.sequences (b : Batch) : List Int :=
  (List.range b.recordCount.toNat).map fun n : Nat => b.baseSeq + n

@[simp]
theorem total_append (bs : List Batch) (b : Batch) : total (bs ++ [b]) = total bs + b.recordCount := by
  simp [total]

theorem Contiguous.append (h : Contiguous bs) (hb : b.baseSeq = total bs) : Contiguous (bs ++ [b]) := by
  intro i b' hi
  cases Nat.lt_or_ge i bs.length
  case inl hlt =>
    rw [List.getElem?_append_left hlt] at hi
    rw [List.take_append_of_le_length hlt.le]
    exact h i b' hi
  case inr hle =>
    rw [List.getElem?_append_right hle] at hi
    have ⟨hlt, heq⟩ := List.getElem?_eq_some_iff.mp hi
    have hi : i = bs.length := by
      simp only [List.length_singleton] at hlt
      omega
    subst hi
    rw [List.take_left]
    simpa [← heq] using hb

-- All sequence numbers from zero on, each of them once and in order.
theorem Contiguous.flatMap_sequences (h : Contiguous bs) (hcount : ∀ b ∈ bs, 1 ≤ b.recordCount) :
    bs.flatMap Batch.sequences = (List.range (total bs).toNat).map Nat.cast ∧ 0 ≤ total bs := by
  induction bs using List.reverseRecOn
  case nil => exact ⟨rfl, Int.le_refl _⟩
  case append_singleton bs b hi =>
    have hinit : Contiguous bs := by
      intro i b' hi
      have hlt := (List.getElem?_eq_some_iff.mp hi).fst
      have hb := h i b' (by rwa [List.getElem?_append_left hlt])
      rwa [List.take_append_of_le_length hlt.le] at hb
    have hlast : b.baseSeq = total bs := by
      have hb := h bs.length b (by simp)
      rwa [List.take_left] at hb
    have ⟨hflat, hpos⟩ := hi hinit fun b hb => hcount b (List.mem_append_left _ hb)
    have hone := hcount b (by simp)
    have hsplit : (total bs + b.recordCount).toNat = (total bs).toNat + b.recordCount.toNat := by omega
    rw [total_append]
    refine ⟨?_, by omega⟩
    rw [List.flatMap_append, hflat, hsplit, List.range_add, List.map_append]
    congr 1
    simp only [List.flatMap_cons, List.flatMap_nil, List.append_nil, Batch.sequences, hlast, List.map_map]
    refine List.map_congr_left fun n _ => ?_
    simp only [Function.comp_apply, Nat.cast_add]
    omega

-- What the state of a producer says about its batches in the log.
def SeqState.Sums (bs : List Batch) : Option SeqState → Prop
  | none       => bs = []
  | some state => state.lastSequence = total bs - 1 ∧ 0 < total bs ∧ total bs ≤ 2 ^ 31 ∧
      0 < state.lastRecordCount ∧ state.lastRecordCount ≤ total bs

structure Valid (m : Manager) (log : List Batch) : Prop where
  count      : ∀ b ∈ log, 1 ≤ b.recordCount
  contiguous : ∀ key, Contiguous (log.filter (·.key = key))
  sums       : ∀ key, SeqState.Sums (log.filter (·.key = key)) (m.seqs key)

-- A batch that is accepted is the next one.
theorem SeqState.Sums.baseSeq_eq (h : SeqState.Sums bs (m.seqs key)) (hb : b.InRange)
    (hcheck : (m.checkSequenceLocked key b.baseSeq).decision = .append) : b.baseSeq = total bs := by
  unfold Manager.checkSequenceLocked at hcheck
  cases hstate : m.seqs key
  case none =>
    rw [hstate] at h hcheck
    cases h
    by_contra hne
    simp [show b.baseSeq ≠ 0 from hne] at hcheck
  case some state =>
    rw [hstate] at h hcheck
    have ⟨hlast, hpos, hle, _, _⟩ := h
    have hnext : b.baseSeq = int32 (state.lastSequence + 1) := by
      by_contra hne
      simp only [if_neg hne] at hcheck
      split at hcheck
      case isTrue  => contradiction
      case isFalse => split at hcheck <;> contradiction
    rw [hlast, Int.sub_add_cancel] at hnext
    -- The number after the last one of an int32 is not in the range.
    have hne : total bs ≠ 2 ^ 31 := by
      intro heq
      rw [heq] at hnext
      have := hb.baseSeq
      simp only [int32, wrap] at hnext
      omega
    rwa [int32, wrap_of_nonneg (by decide) (by omega) (by omega)] at hnext

theorem Valid.appends (h : Valid m log) (hc : call.batch.InRange) (ha : Appends m call log m' log' result) :
    Valid m' log' := by
  cases ha
  case refused => exact h
  case failed  => exact h
  case appended offset hcheck houtcome =>
    have hbase := (h.sums call.batch.key).baseSeq_eq hc hcheck
    have ⟨_, hone, hlt, hrange⟩ := hc
    have hpos : 0 ≤ total (log.filter (·.key = call.batch.key)) :=
      ((h.contiguous call.batch.key).flatMap_sequences fun b hb => h.count b (List.mem_filter.mp hb).left).right
    have hother : ∀ key, key ≠ call.batch.key →
        (log ++ [call.batch]).filter (·.key = key) = log.filter (·.key = key) := by
      intro key hkey
      simp [List.filter_append, Ne.symm hkey]
    have hself : (log ++ [call.batch]).filter (·.key = call.batch.key) =
        log.filter (·.key = call.batch.key) ++ [call.batch] := by
      simp [List.filter_append]
    refine ⟨List.forall_mem_append.mpr ⟨h.count, by simpa using hone⟩, fun key => ?_, fun key => ?_⟩
    · by_cases hkey : key = call.batch.key
      case pos =>
        subst hkey
        rw [hself]
        exact (h.contiguous _).append hbase
      case neg =>
        rw [hother key hkey]
        exact h.contiguous key
    · by_cases hkey : key = call.batch.key
      case pos =>
        subst hkey
        rw [hself, Manager.seqs_committedLocked_self]
        have hlast : int32 (call.batch.baseSeq + call.batch.recordCount - 1) =
            call.batch.baseSeq + call.batch.recordCount - 1 := wrap_of_nonneg (by decide) (by omega) (by omega)
        simp only [SeqState.Sums, total_append, hlast]
        omega
      case neg =>
        rw [hother key hkey, Manager.seqs_committedLocked_of_ne hkey]
        exact h.sums key

theorem Appends.seqs_eq (ha : Appends m call log m' log' result) (hkey : key ≠ call.batch.key) :
    m'.seqs key = m.seqs key := by
  cases ha
  case refused  => rfl
  case failed   => rfl
  case appended => exact Manager.seqs_committedLocked_of_ne hkey ..

theorem appends_of_step (hs : machine.step s call = some (s', os)) :
    ∃ result, os = [result] ∧ Appends s.manager call s.log s'.manager s'.log result := by
  cases Option.some.inj hs
  exact ⟨_, rfl, appends ..⟩

theorem valid_init : Valid State.init.manager State.init.log where
  count _ hb       := by simp [State.init] at hb
  contiguous _ _ _ := by simp [State.init]
  sums _           := rfl

theorem inductive_valid : machine.Inductive (fun _ call => call.batch.InRange) fun s _ => Valid s.manager s.log where
  step h hc hs :=
    have ⟨_, _, ha⟩ := appends_of_step hs
    h.appends hc ha

-- Sending a batch once more whose append failed.
theorem step_again {e : IOError} (hs : machine.step s call = some (s', [.error e])) (offset : Int) :
    s' = s ∧ ∃ s'', machine.step s ⟨call.batch, .ok offset⟩ = some (s'', [.ok ⟨.append, offset⟩]) ∧
      s''.log = s.log ++ [call.batch] := by
  have ⟨_, heq, ha⟩ := appends_of_step hs
  have ⟨m', log'⟩ := s'
  cases heq
  cases ha
  case failed hcheck _ =>
    have ⟨⟨m'', log''⟩, result, hs'⟩ : ∃ s'' result, machine.step s ⟨call.batch, .ok offset⟩ = some (s'', [result]) :=
      ⟨_, _, rfl⟩
    have ⟨_, heq, ha'⟩ := appends_of_step hs'
    cases heq
    cases ha'
    case refused hrefused hne => exact absurd (hrefused ▸ hcheck) hne
    case failed houtcome => contradiction
    case appended houtcome =>
      cases houtcome
      exact ⟨rfl, _, hs', rfl⟩

-- The batches of a producer in a partition are stored in sequence and at most once. A batch whose append
-- failed is accepted if it comes again, and no call has a say in another producer's or partition's batches.
theorem appended_in_sequence (hc : ∀ call ∈ calls, call.batch.InRange) (hr : machine.run .init calls = some (s, os)) :
    (∀ key, (∀ i b, (s.stored key)[i]? = some b →
        b.baseSeq = (((s.stored key).take i).map (·.recordCount)).sum) ∧
      ∃ n, (s.stored key).flatMap Batch.sequences = (List.range n).map Nat.cast) ∧
    (∀ call s' e, machine.step s call = some (s', [.error e]) → s' = s ∧ ∀ offset,
      ∃ s'', machine.step s' ⟨call.batch, .ok offset⟩ = some (s'', [.ok ⟨.append, offset⟩]) ∧
        s''.log = s'.log ++ [call.batch]) ∧
    ∀ call s' os, machine.step s call = some (s', os) → ∀ key, key ≠ call.batch.key → ∀ baseSeq,
      s'.manager.checkSequenceLocked key baseSeq = s.manager.checkSequenceLocked key baseSeq := by
  have hvalid := inductive_valid.run_nil valid_init (Machine.along_of_forall hc _) hr
  refine ⟨fun key => ⟨hvalid.contiguous key, _, ((hvalid.contiguous key).flatMap_sequences fun b hb =>
    hvalid.count b (List.mem_filter.mp hb).left).left⟩, fun call s' e hs => ?_,
      fun call s' os hs key hkey baseSeq => ?_⟩
  · have hagain := step_again hs
    have heq := (hagain 0).left
    exact ⟨heq, fun offset => heq.symm ▸ (hagain offset).right⟩
  · have ⟨_, _, ha⟩ := appends_of_step hs
    exact Manager.checkSequenceLocked_congr (ha.seqs_eq hkey) baseSeq

-- A batch fails once and is sent again, and an older one is sent twice.
theorem appended_in_sequence_retry :
    let key : SeqKey := ⟨1, [116], 0⟩
    let calls : List Call := [⟨⟨key, 0, 3⟩, .ok 0⟩, ⟨⟨key, 3, 2⟩, .error .failed⟩, ⟨⟨key, 0, 3⟩, .ok 9⟩,
      ⟨⟨key, 3, 2⟩, .ok 1⟩, ⟨⟨key, 7, 1⟩, .ok 9⟩]
    ∃ s os, machine.run .init calls = some (s, os) ∧ s.stored key = [⟨key, 0, 3⟩, ⟨key, 3, 2⟩] ∧
      ∃ n, (s.stored key).flatMap Batch.sequences = (List.range n).map Nat.cast := by
  intro key calls
  have hrun : (machine.run .init calls).map (·.fst.stored key) = some [⟨key, 0, 3⟩, ⟨key, 3, 2⟩] := by decide +kernel
  have ⟨⟨s, os⟩, hs, hstored⟩ := Option.map_eq_some_iff.mp hrun
  have hc : ∀ call ∈ calls, call.batch.InRange := by
    simp only [calls, List.forall_mem_cons, List.not_mem_nil, false_implies, implies_true, and_true]
    exact ⟨⟨by decide, by decide, by decide, by decide⟩, ⟨by decide, by decide, by decide, by decide⟩,
      ⟨by decide, by decide, by decide, by decide⟩, ⟨by decide, by decide, by decide, by decide⟩,
      ⟨by decide, by decide, by decide, by decide⟩⟩
  have ⟨hsequence, _⟩ := appended_in_sequence hc hs
  exact ⟨s, os, hs, hstored, (hsequence key).right⟩

end Producer
