import Gokaf.Storage.Execution
import Gokaf.Storage.Theorems.Append
import Gokaf.Storage.Theorems.Read

open Go

namespace Storage

-- The entries of `ps` that lie within the first `n` bytes.
def intact : Nat → List Bytes → List Bytes
  | _, [] => []
  | n, p :: ps =>
    if entryHeaderSize + p.length ≤ n then p :: intact (n - (entryHeaderSize + p.length)) ps else []

theorem intact_isPrefix (n : Nat) (ps : List Bytes) : intact n ps <+: ps := by
  induction ps generalizing n <;> simp only [intact]
  case nil => exact List.prefix_rfl
  case cons p ps hi =>
    split
    case isTrue  => exact List.cons_prefix_cons.mpr ⟨rfl, hi _⟩
    case isFalse => exact List.nil_prefix

theorem entriesSize_intact_le (n : Nat) (ps : List Bytes) : entriesSize (intact n ps) ≤ n := by
  induction ps generalizing n <;> simp only [intact]
  case nil => simp
  case cons p ps hi =>
    split
    case isTrue h =>
      have := hi (n - (entryHeaderSize + p.length))
      simp only [entriesSize_cons]
      omega
    case isFalse => simp

-- The intact entries are the longest such part of `ps`.
theorem length_le_intact {n : Nat} {qs ps : List Bytes} (hq : qs <+: ps) (hn : entriesSize qs ≤ n) :
    qs.length ≤ (intact n ps).length := by
  induction ps generalizing n qs
  case nil => simp [List.prefix_nil.mp hq]
  case cons p ps hi =>
    cases qs
    case nil => simp
    case cons q qs =>
      obtain ⟨rfl, htl⟩ := List.cons_prefix_cons.mp hq
      rw [entriesSize_cons] at hn
      rw [intact, if_pos (by omega)]
      have hle : entriesSize qs ≤ n - (entryHeaderSize + q.length) := by omega
      simpa using hi htl hle

theorem intact_of_le {n : Nat} {ps : List Bytes} (h : entriesSize ps ≤ n) : intact n ps = ps :=
  (intact_isPrefix n ps).eq_of_length_le (length_le_intact List.prefix_rfl h)

-- A cut log file holds the intact entries and a torn one.
theorem take_encodeEntries (o : Int) (n : Nat) {ps : List Bytes} (hp : ∀ p ∈ ps, p.length < 2 ^ 32) :
    ∃ tail, (encodeEntries o ps).take n = encodeEntries o (intact n ps) ++ tail ∧
      Torn (o + (intact n ps).length) tail := by
  induction ps generalizing o n <;> simp only [intact, encodeEntries]
  case nil => exact ⟨[], by simp, by simpa using Torn.nil o⟩
  case cons p ps hi =>
    rw [List.take_append, length_encodeEntry]
    split
    case isTrue h =>
      obtain ⟨tail, htake, htorn⟩ :=
        hi (o + 1) (n - (entryHeaderSize + p.length)) (fun q hq => hp q (by simp [hq]))
      refine ⟨tail, ?_, ?_⟩
      · rw [List.take_of_length_le (by simpa using h), htake, encodeEntries, List.append_assoc]
      · convert htorn using 1
        simp
        ring
    case isFalse h =>
      refine ⟨(encodeEntry o p).take n, ?_, ⟨p, hp p (by simp), ?_, ?_⟩⟩
      · rw [Nat.sub_eq_zero_of_le (by omega)]
        simp [encodeEntries]
      · simpa using List.take_prefix ..
      · simp
        omega

section OpenSegment

variable {base : Int} {ps lost : List Bytes} {tail : Bytes} {index : List IndexEntry} {ks : List Nat}

-- Opening a segment of which the entries `ps` survived in the log file, while the index file is cut
-- anywhere and may still list entries behind them.
theorem openSegment_holds (hfits : Fits (ps ++ lost)) (hindex : Indexes (ps ++ lost) index ks)
    (ht : Torn (base + ps.length) tail) (hl : 0 ≤ base) (hu : base + ps.length < 2 ^ 63) (m : Nat) :
    ∃ s, openSegment ⟨base, encodeEntries base ps ++ tail, some ((encodeIndex index).take m)⟩ = .ok s ∧
      s.baseOffset = base ∧ s.Holds ps := by
  have hps : Fits ps := hfits.of_append
  obtain ⟨r, hload, hr⟩ := loadIndex_take hindex hfits m
  have htake : (encodeEntries base ps ++ tail).take (entriesSize ps) = encodeEntries base ps := by
    rw [List.take_append_of_le_length (by simp), List.take_of_length_le (by simp)]
  simp only [openSegment, recoverLog_entries ht hps.payload hl hu, htake, Option.getD_some, hload,
    bind, Except.bind, pure, Except.pure]
  cases r
  case none =>
    simp only [rebuildIndex_entries hl hu hps]
    exact ⟨_, rfl, rfl, rfl, rfl, rfl, hps, ⟨_, indexes_sparseFrom ps⟩, rfl, rfl, hl, hu⟩
  case some index' =>
    obtain ⟨hfile, hks⟩ := hr index' rfl
    exact ⟨_, rfl, rfl, rfl, rfl, rfl, hps, hks, hfile, rfl, hl, hu⟩

variable {s : Segment}

-- Reopening a segment after its log file was cut to `n` bytes and its index file to `m`.
theorem Segment.Holds.openSegment_take (h : s.Holds ps) (n m : Nat) :
    ∃ s', openSegment ⟨s.baseOffset, s.logFile.take n, some (s.indexFile.take m)⟩ = .ok s' ∧
      s'.baseOffset = s.baseOffset ∧ s'.Holds (intact n ps) := by
  obtain ⟨ks, hks⟩ := h.indexes
  obtain ⟨lost, hlost⟩ := intact_isPrefix n ps
  obtain ⟨tail, htake, htorn⟩ := take_encodeEntries s.baseOffset n h.fits.payload
  have hlen : (intact n ps).length ≤ ps.length := (intact_isPrefix n ps).length_le
  have hend := h.end_lt
  rw [h.log, htake, h.indexFile]
  exact openSegment_holds (hlost.symm ▸ h.fits) (hlost.symm ▸ hks) htorn h.base_nonneg (by omega) m

theorem Segment.Holds.openSegment_files (h : s.Holds ps) :
    ∃ s', openSegment s.files = .ok s' ∧ s'.baseOffset = s.baseOffset ∧ s'.Holds ps := by
  have hopen := h.openSegment_take s.logFile.length s.indexFile.length
  rwa [List.take_length, List.take_length, intact_of_le (by simp [h.log])] at hopen

theorem Segment.Holds.recoverNextOffset (h : s.Holds ps) :
    recoverNextOffset s = s.baseOffset + ps.length := by
  unfold Storage.recoverNextOffset
  have hrec := recoverLog_entries (Torn.nil _) h.fits.payload h.base_nonneg h.end_lt
  rw [List.append_nil, ← h.log] at hrec
  rw [h.logSize, hrec]
  split
  case isTrue hz => simp [entriesSize_eq_zero.mp hz]
  case isFalse hz =>
    have hne : ps ≠ [] := fun hnil => hz (entriesSize_eq_zero.mpr hnil)
    simp [hne]

end OpenSegment

section Bases

variable {f : SegmentFiles} {s : Segment} {files : Dir} {ss : List Segment}

theorem openSegment_baseOffset (h : openSegment f = .ok s) : s.baseOffset = f.baseOffset := by
  simp only [openSegment, bind, Except.bind, pure, Except.pure] at h
  split at h
  case h_1 => contradiction
  case h_2 =>
    split at h
    case h_1 => contradiction
    case h_2 =>
      -- The index is loaded or rebuilt.
      split at h
      case h_1 =>
        cases h
        rfl
      case h_2 =>
        split at h
        case h_1 => contradiction
        case h_2 =>
          cases h
          rfl

theorem mapM_baseOffset (h : files.mapM openSegment = .ok ss) :
    ss.map (·.baseOffset) = files.map (·.baseOffset) := by
  induction files generalizing ss
  case nil =>
    cases h
    rfl
  case cons f files hi =>
    rw [List.mapM_cons] at h
    cases hf : openSegment f
    case error =>
      rw [hf] at h
      contradiction
    case ok s =>
      cases hfiles : files.mapM openSegment
      case error =>
        rw [hf, hfiles] at h
        contradiction
      case ok ss' =>
        rw [hf, hfiles] at h
        cases h
        rw [List.map_cons, List.map_cons, hi hfiles, openSegment_baseOffset hf]

end Bases

section Listing

variable {files : Dir}

theorem openBase_of_mem (h : files.Pairwise (·.baseOffset < ·.baseOffset)) {f : SegmentFiles} (hf : f ∈ files) :
    openBase files f.baseOffset = openSegment f := by
  have hfind : files.find? (·.baseOffset = f.baseOffset) = some f := by
    induction files
    case nil => cases hf
    case cons g files hi =>
      obtain ⟨hlt, hfiles⟩ := List.pairwise_cons.mp h
      cases List.mem_cons.mp hf
      case inl heq => simp [heq]
      case inr hf  => rw [List.find?_cons_of_neg (by simpa using (hlt f hf).ne), hi hfiles hf]
  rw [openBase, hfind]

theorem mapM_openBase (h : files.Pairwise (·.baseOffset < ·.baseOffset)) :
    (files.map (·.baseOffset)).mapM (openBase files) = files.mapM openSegment := by
  have hsub : ∀ fs ⊆ files, (fs.map (·.baseOffset)).mapM (openBase files) = fs.mapM openSegment := by
    intro fs
    induction fs
    case nil => intro _; rfl
    case cons f fs hi =>
      intro hsub
      obtain ⟨hf, hfs⟩ := List.cons_subset.mp hsub
      rw [List.map_cons, List.mapM_cons, List.mapM_cons, openBase_of_mem h hf, hi hfs]
  exact hsub files (List.Subset.refl files)

-- The files lie in the order of their base offsets, and there are no two of one name.
theorem openListed_of_sorted (h : files.Pairwise (·.baseOffset < ·.baseOffset)) :
    openListed files ((files.map (·.baseOffset)).insertionSort (· ≤ ·)) = do
      let segments ← files.mapM openSegment
      match segments.getLast? with
      | none        => return .empty
      | some active =>
        return { sealed := segments.dropLast, active, orphans := [], nextOffset := recoverNextOffset active } := by
  have hlt : (files.map (·.baseOffset)).Pairwise (· < ·) := List.pairwise_map.mpr h
  have hsort : (files.map (·.baseOffset)).insertionSort (· ≤ ·) = files.map (·.baseOffset) :=
    (hlt.imp le_of_lt).insertionSort_eq
  have hdedup : (files.map (·.baseOffset)).dedup = files.map (·.baseOffset) := List.Nodup.dedup (hlt.imp ne_of_lt)
  have horphans : files.filter (·.baseOffset ∉ files.map (·.baseOffset)) = [] :=
    List.filter_eq_nil_iff.mpr fun f hf => by simpa using ⟨f, hf, rfl⟩
  rw [openListed, hsort, hdedup, horphans, mapM_openBase h]
  rfl

end Listing

section Sealed

variable {ss : List Segment} {pss : List (List Bytes)}

theorem Sealed.mapM_openSegment (h : Sealed ss pss) :
    ∃ ss', (ss.map Segment.files).mapM openSegment = .ok ss' ∧ Sealed ss' pss := by
  induction h
  case nil => exact ⟨[], rfl, .nil⟩
  case snoc hs hb hne hi =>
    obtain ⟨ss', hss', hsealed⟩ := hi
    obtain ⟨s', hs', hbase, hholds⟩ := hs.openSegment_files
    refine ⟨ss' ++ [s'], ?_, hsealed.snoc hholds (hbase.trans hb) hne⟩
    simp [hss', hs', bind, Except.bind, pure, Except.pure]

theorem Sealed.pairwise (h : Sealed ss pss) : ss.Pairwise (·.baseOffset < ·.baseOffset) := by
  induction h
  case nil => exact .nil
  case snoc h _ hb _ hi =>
    refine List.pairwise_append.mpr ⟨hi, List.pairwise_singleton .., fun t ht s hs => ?_⟩
    rw [List.mem_singleton.mp hs, hb]
    exact h.base_lt t ht

end Sealed

namespace Log

variable {l : Log} {pss : List (List Bytes)} {ps : List Bytes}

theorem Holds.pairwise_segments (h : l.Holds pss ps) :
    l.segments.Pairwise (·.baseOffset < ·.baseOffset) := by
  refine List.pairwise_append.mpr ⟨h.sealed.pairwise, List.pairwise_singleton .., fun t ht s hs => ?_⟩
  rw [List.mem_singleton.mp hs, h.base]
  exact h.sealed.base_lt t ht

-- The files of a log in order, opened one by one.
theorem openFiles_of_sorted {files : Dir} {f : SegmentFiles} {ss : List Segment} {s : Segment}
    (hsorted : (files ++ [f]).Pairwise (·.baseOffset < ·.baseOffset)) (hss : files.mapM openSegment = .ok ss)
    (hs : openSegment f = .ok s) : openFiles (files ++ [f]) = .ok ⟨ss, s, [], recoverNextOffset s⟩ := by
  have hmapM : (files ++ [f]).mapM openSegment = .ok (ss ++ [s]) := by
    simp [hss, hs, bind, Except.bind, pure, Except.pure]
  rw [openFiles, openListed_of_sorted hsorted, hmapM]
  simp [bind, Except.bind, pure, Except.pure]

theorem openFiles_snoc {files : Dir} {f : SegmentFiles} {ss : List Segment} {s : Segment}
    (hss : files.mapM openSegment = .ok ss) (hs : openSegment f = .ok s) (hsealed : Sealed ss pss) (hholds : s.Holds ps)
    (hbase : s.baseOffset = pss.flatten.length) : ∃ l, openFiles (files ++ [f]) = .ok l ∧ l.Holds pss ps := by
  have hsorted : (files ++ [f]).Pairwise (·.baseOffset < ·.baseOffset) := by
    have hle : ((ss ++ [s]).map (·.baseOffset)).Pairwise (· < ·) := by
      refine List.pairwise_map.mpr (List.pairwise_append.mpr ⟨hsealed.pairwise, List.pairwise_singleton .., ?_⟩)
      intro t ht s' hs'
      rw [List.mem_singleton.mp hs', hbase]
      exact hsealed.base_lt t ht
    rw [List.map_append, mapM_baseOffset hss, List.map_singleton, openSegment_baseOffset hs] at hle
    exact List.pairwise_map.mp (by rwa [List.map_append, List.map_singleton])
  refine ⟨_, openFiles_of_sorted hsorted hss hs, hsealed, hholds, hbase, ?_, rfl⟩
  rw [hholds.recoverNextOffset, hbase]

-- Recovery keeps exactly the intact entries of the last segment.
theorem Holds.openFiles_crash (h : l.Holds pss ps) (n m : Nat) :
    ∃ l', openFiles (l.crash n m) = .ok l' ∧ l'.Holds pss (intact n ps) := by
  obtain ⟨ss, hss, hsealed⟩ := h.sealed.mapM_openSegment
  obtain ⟨s, hs, hbase, hholds⟩ := h.active.openSegment_take n m
  rw [crash, h.orphans]
  exact openFiles_snoc hss hs hsealed hholds (hbase.trans h.base)

theorem crash_length (l : Log) : l.crash l.active.logFile.length l.active.indexFile.length = l.close := by
  simp [crash, close, dir, segments, Segment.files]

-- A clean restart keeps everything.
theorem Holds.openFiles_close (h : l.Holds pss ps) :
    ∃ l', openFiles l.close = .ok l' ∧ l'.Holds pss ps := by
  have hopen := h.openFiles_crash l.active.logFile.length l.active.indexFile.length
  rwa [crash_length, intact_of_le (by simp [h.active.log])] at hopen

theorem empty_holds : empty.Holds [] [] :=
  ⟨.nil, Segment.createSegment_holds le_rfl (by decide), rfl, rfl, rfl⟩

end Log
end Storage
