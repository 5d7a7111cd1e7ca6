import Gokaf.Storage.Contents

open Go

namespace Storage

theorem maxSegmentBytes_eq : maxSegmentBytes = 1048576 := rfl

section Header

variable {o : Int} {n : Nat}

@[simp]
theorem length_encodeHeader (o : Int) (n : Nat) : (encodeHeader o n).length = entryHeaderSize := by
  simp [encodeHeader, entryHeaderSize]

@[simp]
theorem length_encodeEntry (o : Int) (p : Bytes) :
    (encodeEntry o p).length = entryHeaderSize + p.length := by
  simp [encodeEntry]

theorem entryOffset_encodeHeader (hl : 0 ≤ o) (hu : o < 2 ^ 63) : entryOffset (encodeHeader o n) = o := by
  have h : (encodeHeader o n).take 8 = putInt 64 o := by simp [encodeHeader]
  rw [entryOffset, h, sint_putInt o (by decide)]
  exact wrap_of_nonneg (by decide) hl hu

theorem entryLength_encodeHeader (h : n < 2 ^ 32) : entryLength (encodeHeader o n) = n := by
  have hd : ((encodeHeader o n).drop 8).take 4 = putInt 32 n := by
    simp [encodeHeader, List.take_of_length_le]
  rw [entryLength, hd, putInt, unsigned_natCast_of_lt h]
  exact BigEndian.uint_put_of_lt (by simpa using h)

end Header

section Entries

variable {o : Int} {p : Bytes} {ps qs : List Bytes}

theorem encodeEntries_append (o : Int) (ps qs : List Bytes) :
    encodeEntries o (ps ++ qs) = encodeEntries o ps ++ encodeEntries (o + ps.length) qs := by
  induction ps generalizing o
  case nil => simp [encodeEntries]
  case cons p ps hi =>
    simp only [List.cons_append, encodeEntries, hi, List.append_assoc, List.length_cons]
    congr 3
    push_cast
    ring

@[simp]
theorem length_encodeEntries (o : Int) (ps : List Bytes) : (encodeEntries o ps).length = entriesSize ps := by
  induction ps generalizing o
  case nil          => rfl
  case cons p ps hi => simp [encodeEntries, hi, entriesSize]

@[simp]
theorem entriesSize_nil : entriesSize [] = 0 := rfl

@[simp]
theorem entriesSize_cons (p : Bytes) (ps : List Bytes) :
    entriesSize (p :: ps) = entryHeaderSize + p.length + entriesSize ps := by
  simp [entriesSize]

@[simp]
theorem entriesSize_append (ps qs : List Bytes) :
    entriesSize (ps ++ qs) = entriesSize ps + entriesSize qs := by
  simp [entriesSize]

theorem entriesSize_eq_zero : entriesSize ps = 0 ↔ ps = [] := by
  cases ps <;> simp [entryHeaderSize]

theorem length_le_entriesSize (ps : List Bytes) : entryHeaderSize * ps.length ≤ entriesSize ps := by
  induction ps
  case nil => simp
  case cons p ps hi =>
    simp only [entriesSize_cons, List.length_cons]
    linarith

theorem entryPos_append_of_le {k : Nat} (h : k ≤ ps.length) : entryPos (ps ++ qs) k = entryPos ps k := by
  simp [entryPos, List.take_append_of_le_length h]

@[simp]
theorem entryPos_length (ps : List Bytes) : entryPos ps ps.length = entriesSize ps := by
  simp [entryPos]

@[simp]
theorem entryPos_zero (ps : List Bytes) : entryPos ps 0 = 0 := by
  simp [entryPos]

theorem entryPos_mono (ps : List Bytes) {k k' : Nat} (h : k ≤ k') : entryPos ps k ≤ entryPos ps k' := by
  obtain ⟨d, rfl⟩ := Nat.exists_eq_add_of_le h
  simp [entryPos, List.take_add]

theorem entryPos_le (ps : List Bytes) (k : Nat) : entryPos ps k ≤ entriesSize ps := by
  conv_rhs => rw [← List.take_append_drop k ps, entriesSize_append]
  exact Nat.le_add_right _ _

end Entries

-- The bytes a cut write leaves behind: part of one more entry, but not all of it.
structure Torn (o : Int) (tail : Bytes) : Prop where
  exists_entry : ∃ p : Bytes, p.length < 2 ^ 32 ∧ tail <+: encodeEntry o p ∧
    tail.length < (encodeEntry o p).length

theorem Torn.nil (o : Int) : Torn o [] :=
  ⟨[], by decide, List.nil_prefix, by simp [entryHeaderSize]⟩

namespace recoverLog

variable {o : Int} {ps : List Bytes} {tail : Bytes}

-- The scan stops at a torn entry: its header is cut, or promises more than the file holds.
theorem go_torn {pre : Bytes} {fuel : Nat} {next : Int} (ht : Torn o tail) (hf : 0 < fuel) :
    recoverLog.go (pre ++ tail) fuel pre.length next = .ok (next, pre.length) := by
  obtain ⟨p, hp, hpre, hlt⟩ := ht.exists_entry
  obtain ⟨fuel, rfl⟩ : ∃ f, fuel = f + 1 := ⟨fuel - 1, by omega⟩
  simp only [recoverLog.go, List.length_append, Nat.add_le_add_iff_left]
  split
  case isFalse => rfl
  case isTrue hh =>
    have hc : encodeHeader o p.length <+: tail :=
      List.prefix_of_prefix_length_le (List.prefix_append _ _) hpre (by simpa using hh)
    obtain ⟨rest, rfl⟩ := hc
    have hr := readAt_append pre (encodeHeader o p.length) rest
    rw [length_encodeHeader, List.append_assoc] at hr
    rw [hr]
    simp only [entryLength_encodeHeader hp, length_encodeEntry] at hlt ⊢
    rw [if_pos (by omega)]

theorem go_entries (pre : Bytes) (fuel : Nat) (next : Int) (ht : Torn (o + ps.length) tail)
    (hp : ∀ p ∈ ps, p.length < 2 ^ 32) (hl : 0 ≤ o) (hu : o + ps.length < 2 ^ 63)
    (hf : ps.length < fuel) :
    recoverLog.go (pre ++ encodeEntries o ps ++ tail) fuel pre.length next =
      .ok (if ps = [] then next else o + ps.length, pre.length + entriesSize ps) := by
  induction ps generalizing pre fuel o next
  case nil => simpa [encodeEntries] using go_torn (by simpa using ht) hf
  case cons p ps hi =>
    obtain ⟨fuel, rfl⟩ : ∃ f, fuel = f + 1 := ⟨fuel - 1, by omega⟩
    simp only [List.length_cons] at ht hu hf
    push_cast at ht hu
    have hp' : p.length < 2 ^ 32 := hp p (by simp)
    have hfile : pre ++ encodeEntries o (p :: ps) ++ tail =
        pre ++ encodeEntry o p ++ encodeEntries (o + 1) ps ++ tail := by
      simp [encodeEntries]
    have hr := readAt_append pre (encodeHeader o p.length) (p ++ encodeEntries (o + 1) ps ++ tail)
    have hstep := hi (o := o + 1) (pre ++ encodeEntry o p) fuel (o + 1)
      (by convert ht using 1; ring) (fun q hq => hp q (by simp [hq])) (by omega) (by omega) (by omega)
    rw [length_encodeHeader] at hr
    rw [hfile, recoverLog.go, if_pos (by simp; omega)]
    rw [show pre ++ encodeEntry o p ++ encodeEntries (o + 1) ps ++ tail =
        pre ++ encodeHeader o p.length ++ (p ++ encodeEntries (o + 1) ps ++ tail) by simp [encodeEntry], hr]
    simp only [entryLength_encodeHeader hp', entryOffset_encodeHeader hl (show o < 2 ^ 63 by omega)]
    rw [if_neg (by simp; omega)]
    rw [show int64 (o + 1) = o + 1 from wrap_of_nonneg (by decide) (by omega) (by omega)]
    rw [show pre ++ encodeHeader o p.length ++ (p ++ encodeEntries (o + 1) ps ++ tail) =
        pre ++ encodeEntry o p ++ encodeEntries (o + 1) ps ++ tail by simp [encodeEntry]]
    rw [List.length_append, length_encodeEntry, ← Nat.add_assoc] at hstep
    rw [hstep]
    congr 2
    · cases ps <;> simp
      ring
    · simp
      omega

end recoverLog

-- Recovery finds all intact entries and drops a torn one behind them.
theorem recoverLog_entries {o : Int} {ps : List Bytes} {tail : Bytes} (ht : Torn (o + ps.length) tail)
    (hp : ∀ p ∈ ps, p.length < 2 ^ 32) (hl : 0 ≤ o) (hu : o + ps.length < 2 ^ 63) :
    recoverLog (encodeEntries o ps ++ tail) =
      .ok (if ps = [] then 0 else o + ps.length, entriesSize ps) := by
  have hf : ps.length < (encodeEntries o ps ++ tail).length + 1 := by
    have := length_le_entriesSize ps
    simp [entryHeaderSize] at this ⊢
    omega
  simpa [recoverLog] using recoverLog.go_entries [] _ 0 ht hp hl hu hf

end Storage
