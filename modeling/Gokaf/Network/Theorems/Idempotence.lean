import Gokaf.Network.Execution
import Gokaf.Network.Theorems.Produce

open Go

namespace Network.Producing

variable {s s' : State} {nodeID : Int} {os o : List Answer}

@[simp]
theorem State.setLog_self (s : State) (t : Bytes) (i : Int) (log : List Bytes) :
    (s.setLog t i log).logs t i = log := by
  simp [setLog]

@[simp]
theorem State.producers_setLog (s : State) (t : Bytes) (i : Int) (log : List Bytes) :
    (s.setLog t i log).producers = s.producers :=
  rfl

theorem Stored.mono {log log' : List Bytes} {pid seq : Int} (h : Stored log pid seq) (hl : log <+: log') :
    Stored log' pid seq :=
  have ⟨e, he, hs⟩ := h
  ⟨e, hl.subset he, hs⟩

-- What the manager remembers of a producer is true of the log: all sequence numbers up to the last
-- one are stored.
structure Remembers (s : State) (key : Producer.SeqKey) (st : Producer.SeqState) : Prop where
  count_pos : 1 ≤ st.lastRecordCount
  count_le  : st.lastRecordCount ≤ st.lastSequence + 1
  last_lt   : st.lastSequence < 2 ^ 31
  stored    : ∀ seq, 0 ≤ seq → seq ≤ st.lastSequence → Stored (s.logs key.topic key.partition) key.pid seq

structure Inv (s : State) (os : List Answer) : Prop where
  remembers : ∀ key st, s.producers.seqs key = some st → Remembers s key st
  answered  : ∀ a ∈ os, a.IsStored s

-- Every log only grows.
def Extends (s s' : State) : Prop :=
  ∀ t i, s.logs t i <+: s'.logs t i

theorem Remembers.mono {key : Producer.SeqKey} {st : Producer.SeqState} (h : Remembers s key st)
    (he : Extends s s') : Remembers s' key st where
  count_pos := h.count_pos
  count_le := h.count_le
  last_lt := h.last_lt
  stored seq hl hu := (h.stored seq hl hu).mono (he _ _)

theorem Answer.IsStored.mono {a : Answer} (h : a.IsStored s) (he : Extends s s') : a.IsStored s' :=
  fun h₁ h₂ h₃ h₄ seq hl hu => (h h₁ h₂ h₃ h₄ seq hl hu).mono (he _ _)

theorem extends_setLog {t : Bytes} {i : Int} {log : List Bytes} {producers : Producer.Manager}
    (h : s.logs t i <+: log) : Extends s { s.setLog t i log with producers } := by
  intro t' i'
  simp only [State.setLog]
  split
  case isTrue heq =>
    have ⟨rfl, rfl⟩ := heq
    exact h
  case isFalse => exact List.prefix_rfl

-- A list log only grows, and a successful append puts the batch at its end.
theorem listAppend_cases {fails : Bool} {L L' : List Bytes} {p : Bytes} {stamp : Storage.Stamp}
    {r : Except IOError Int} (h : Storage.listAppend fails L p stamp = (L', r)) :
    (L' = L ∧ r = .error .failed) ∨ (L' = L ++ [stamp.run L.length p] ∧ r = .ok L.length) := by
  rw [Storage.listAppend] at h
  split at h
  case isTrue  => exact .inl ⟨(congrArg Prod.fst h).symm, (congrArg Prod.snd h).symm⟩
  case isFalse => exact .inr ⟨(congrArg Prod.fst h).symm, (congrArg Prod.snd h).symm⟩

theorem listAppend_isPrefix {fails : Bool} {L L' : List Bytes} {p : Bytes} {stamp : Storage.Stamp}
    {r : Except IOError Int} (h : Storage.listAppend fails L p stamp = (L', r)) : L <+: L' := by
  cases listAppend_cases h
  case inl h => exact h.left ▸ List.prefix_rfl
  case inr h => exact h.left ▸ List.prefix_append ..

-- The entry that a successful append adds carries the sequence numbers of the batch.
theorem stored_of_listAppend {fails : Bool} {L L' : List Bytes} {batch : Bytes} {offset seq : Int}
    (h : Storage.listAppend fails L batch Batch.stamp = (L', .ok offset))
    (hl : Batch.baseSeq batch ≤ seq) (hu : seq < Batch.baseSeq batch + Batch.recordCount batch) :
    Stored L' (Batch.pid batch) seq := by
  cases listAppend_cases h
  case inl h => simp at h
  case inr h =>
    refine ⟨Batch.withBaseOffset batch L.length, ?_, ?_⟩
    · rw [h.left]
      exact List.mem_append_right _ (List.mem_singleton_self _)
    · simp [hl, hu]

variable {t : Bytes} {i offset : Int} {batch : Bytes} {leader : Option Int} {fails : Bool}

-- The batch at hand is in the log, or is one the manager takes for a copy and keeps its boundaries.
theorem Inv.stored_of_duplicate (hinv : Inv s os)
    (hc : KeepsBoundaries s (.produce leader t i batch fails)) (hpid : 0 ≤ Batch.pid batch)
    (hd : s.producers.checkSequenceLocked ⟨Batch.pid batch, t, i⟩ (Batch.baseSeq batch) =
      ⟨.duplicate, offset⟩) {seq : Int} (hl : Batch.baseSeq batch ≤ seq)
    (hu : seq < Batch.baseSeq batch + Batch.recordCount batch) :
    Stored (s.logs t i) (Batch.pid batch) seq := by
  have ⟨hseq, hcount, hmax, hkeep⟩ := hc hpid
  simp only [Producer.Manager.checkSequenceLocked] at hd
  cases hst : s.producers.seqs ⟨Batch.pid batch, t, i⟩
  case none =>
    simp only [hst] at hd
    split at hd <;> simp at hd
  case some st =>
    simp only [hst] at hd
    have hrem := hinv.remembers _ _ hst
    have h₁ := hrem.count_pos
    have h₂ := hrem.count_le
    have h₃ := hrem.last_lt
    have hle : Batch.baseSeq batch ≤ st.lastSequence := by
      split at hd
      case isTrue heq =>
        rw [heq, int32, wrap_of_nonneg (by decide) (by omega) (by norm_num; omega)]
        omega
      case isFalse =>
        split at hd
        case isTrue => simp at hd
        case isFalse =>
          split at hd
          case isTrue h => exact h
          case isFalse  => simp at hd
    have := hkeep st hst hle
    exact hrem.stored seq (by omega) (by omega)

-- After an append the manager remembers the batch.
theorem Inv.remembers_appended (hinv : Inv s os)
    (hc : KeepsBoundaries s (.produce leader t i batch fails)) (hpid : 0 ≤ Batch.pid batch)
    (hd : (s.producers.checkSequenceLocked ⟨Batch.pid batch, t, i⟩ (Batch.baseSeq batch)).decision =
      .append) {L' : List Bytes}
    (ha : Storage.listAppend fails (s.logs t i) batch Batch.stamp = (L', .ok offset))
    (hs : s'.logs t i = L') :
    Remembers s' ⟨Batch.pid batch, t, i⟩
      ⟨int32 (Batch.baseSeq batch + Batch.recordCount batch - 1), offset, Batch.recordCount batch⟩ := by
  have ⟨hseq, hcount, hmax, hkeep⟩ := hc hpid
  have hlast : int32 (Batch.baseSeq batch + Batch.recordCount batch - 1) =
      Batch.baseSeq batch + Batch.recordCount batch - 1 :=
    wrap_of_nonneg (by decide) (by omega) (by norm_num; omega)
  -- Below the batch, everything was stored before.
  have hbelow : ∀ seq, 0 ≤ seq → seq < Batch.baseSeq batch → Stored (s.logs t i) (Batch.pid batch) seq := by
    intro seq hl hu
    simp only [Producer.Manager.checkSequenceLocked] at hd
    cases hst : s.producers.seqs ⟨Batch.pid batch, t, i⟩
    case none =>
      simp only [hst] at hd
      split at hd
      case isTrue h  => omega
      case isFalse h => simp at hd
    case some st =>
      simp only [hst] at hd
      have hrem := hinv.remembers _ _ hst
      have h₁ := hrem.count_pos
      have h₂ := hrem.count_le
      have h₃ := hrem.last_lt
      have hnext : Batch.baseSeq batch = int32 (st.lastSequence + 1) := by
        split at hd
        case isTrue => simp at hd
        case isFalse =>
          split at hd
          case isTrue h => exact h
          case isFalse =>
            split at hd <;> simp at hd
      have hle : Batch.baseSeq batch ≤ st.lastSequence + 1 := by
        rw [hnext, int32]
        by_cases hb : st.lastSequence + 1 < 2 ^ 31
        · rw [wrap_of_nonneg (by decide) (by omega) (by norm_num; omega)]
        · have := wrap_lt (show 0 < 32 by decide) (st.lastSequence + 1)
          norm_num at this
          omega
      exact hrem.stored seq hl (by omega)
  constructor <;> simp only [hlast, hs]
  case count_pos => exact hcount
  case count_le => omega
  case last_lt => omega
  case stored =>
    intro seq hl hu
    by_cases hb : seq < Batch.baseSeq batch
    · exact (hbelow seq hl hb).mono (listAppend_isPrefix ha)
    · exact stored_of_listAppend ha (by omega) (by omega)

-- One produce request.
theorem Inv.produce (hinv : Inv s os) (hc : KeepsBoundaries s (.produce leader t i batch fails))
    {producers : Producer.Manager} {log : List Bytes} {produced : Produced}
    (hp : Produces (Storage.listAppend fails) nodeID leader t i batch s.producers (.ok (s.logs t i))
      producers (.ok log) produced) :
    Inv { s.setLog t i log with producers } (os ++ [⟨t, batch, produced.response⟩]) := by
  have hgrow : s.logs t i <+: log := by
    cases hp with
    | refused                    => exact List.prefix_rfl
    | duplicate _ _ hlog         => exact Except.ok.inj hlog ▸ List.prefix_rfl
    | failed hlog ha             => exact Except.ok.inj hlog ▸ listAppend_isPrefix ha
    | appended _ _ hlog _ _ ha   => exact Except.ok.inj hlog ▸ listAppend_isPrefix ha
    | plain _ _ hlog _ ha        => exact Except.ok.inj hlog ▸ listAppend_isPrefix ha
  have he : Extends s { s.setLog t i log with producers } := extends_setLog hgrow
  constructor
  case remembers =>
    intro key st hst
    cases hp with
    | appended _ _ hlog hpid hd ha =>
      rw [← Except.ok.inj hlog] at ha
      simp only [Producer.Manager.committedLocked, Function.update_apply] at hst
      split at hst
      case isTrue hkey =>
        rw [hkey, ← Option.some.inj hst]
        exact hinv.remembers_appended hc hpid hd ha (s.setLog_self ..)
      case isFalse => exact (hinv.remembers key st hst).mono he
    | refused   => exact (hinv.remembers key st hst).mono he
    | failed    => exact (hinv.remembers key st hst).mono he
    | duplicate => exact (hinv.remembers key st hst).mono he
    | plain     => exact (hinv.remembers key st hst).mono he
  case answered =>
    intro a ha
    cases List.mem_append.mp ha
    case inl ha => exact (hinv.answered a ha).mono he
    case inr ha =>
      rw [List.mem_singleton.mp ha]
      intro hnone hpid _ _ seq hl hu
      cases hp with
      | refused hne    => exact absurd hnone hne
      | failed _ _ hne => exact absurd hnone hne
      | duplicate _ _ _ _ hd =>
        exact (hinv.stored_of_duplicate hc hpid hd hl hu).mono (he t i)
      | appended _ _ _ _ _ happend =>
        have := stored_of_listAppend happend hl hu
        rwa [← s.setLog_self t i log] at this
      | plain _ _ _ hneg => exact absurd hpid (not_le.mpr hneg)

theorem inductive_inv (nodeID : Int) : (machine nodeID).Inductive KeepsBoundaries Inv where
  step := by
    intro s a s' o os hinv hc hs
    cases a
    case initProducerID =>
      obtain ⟨rfl, rfl⟩ := Prod.mk.inj (Option.some.inj hs)
      have he : Extends s { s with producers := s.producers.initProducerID.fst } :=
        fun _ _ => List.prefix_rfl
      refine ⟨fun key st hst => (hinv.remembers key st hst).mono he, fun a ha => ?_⟩
      rw [List.append_nil] at ha
      exact (hinv.answered a ha).mono he
    case produce leader t i batch fails =>
      simp only [machine] at hs
      split at hs
      case h_1 => simp at hs
      case h_2 hp =>
        obtain ⟨rfl, rfl⟩ := Prod.mk.inj (Option.some.inj hs)
        exact hinv.produce hc (produces hp)

theorem inv_init : Inv .init [] where
  remembers key st h := by simp [State.init, Producer.Manager.new] at h
  answered a h := by simp at h

-- A batch of two records in the place of one that was stored before is acknowledged, but its second
-- record is nowhere.
def regrouped : List Step := [
  .produce (some 1) [116] 0 (Batch.headerOnly 1 0 1) false,
  .produce (some 1) [116] 0 (Batch.headerOnly 1 0 2) false
]

theorem regrouped_not_stored :
    ∃ s os, (machine 1).run .init regrouped = some (s, os) ∧ ∃ a ∈ os, ¬a.IsStored s := by
  have hrun : ((machine 1).run .init regrouped).map (fun r => (r.fst.logs [116] 0, r.snd)) =
      some ([Batch.withBaseOffset (Batch.headerOnly 1 0 1) 0],
        [⟨[116], Batch.headerOnly 1 0 1, ⟨0, .none, 0⟩⟩, ⟨[116], Batch.headerOnly 1 0 2, ⟨0, .none, 0⟩⟩]) := by
    decide +kernel
  have ⟨⟨s, os⟩, hs, h⟩ := Option.map_eq_some_iff.mp hrun
  have hlog : s.logs [116] 0 = _ := congrArg Prod.fst h
  have hos : os = _ := congrArg Prod.snd h
  refine ⟨s, os, hs, ⟨[116], Batch.headerOnly 1 0 2, ⟨0, .none, 0⟩⟩, ?_, fun hstored => ?_⟩
  · rw [hos]
    simp
  · have : Stored (s.logs [116] 0) (Batch.pid (Batch.headerOnly 1 0 2)) 1 := hstored rfl
      (by decide +kernel) (by decide +kernel) (by decide +kernel) 1 (by decide +kernel) (by decide +kernel)
    rw [hlog] at this
    revert this
    unfold Stored
    decide +kernel

-- As long as resent batches keep their boundaries, no idempotent batch is acknowledged without being
-- stored.
theorem acknowledged_stored {as : List Step} (hc : (machine nodeID).Along KeepsBoundaries .init as)
    (hr : (machine nodeID).run .init as = some (s, os)) : ∀ a ∈ os, a.IsStored s :=
  ((inductive_inv nodeID).run_nil inv_init hc hr).answered

-- A copy of a stored batch, and the batch that follows it.
theorem acknowledged_stored_resent :
    let as : List Step := [
      .produce (some 1) [116] 0 (Batch.headerOnly 1 0 2) false,
      .produce (some 1) [116] 0 (Batch.headerOnly 1 0 2) false,
      .produce (some 1) [116] 0 (Batch.headerOnly 1 2 1) false
    ]
    ∃ s os, (machine 1).run .init as = some (s, os) ∧ os.length = 3 ∧ ∀ a ∈ os, a.IsStored s := by
  intro as
  have hc : (machine 1).Along KeepsBoundaries .init as := by decide +kernel
  have hrun : ((machine 1).run .init as).map (·.snd.length) = some 3 := by decide +kernel
  have ⟨⟨s, os⟩, hs, hos⟩ := Option.map_eq_some_iff.mp hrun
  exact ⟨s, os, hs, hos, acknowledged_stored hc hs⟩

end Network.Producing
