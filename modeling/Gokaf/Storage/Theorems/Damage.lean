import Gokaf.Storage.Damage
import Gokaf.Storage.Theorems.Refinement

open Go

namespace Storage

-- Segments from the offset `b` on. Each of them has some records, and then so many are missing up to the next one.
inductive Chain : Int → List Segment → List (List Bytes × Nat) → Prop
  | nil {b : Int} : Chain b [] []
  | cons {b : Int} {s : Segment} {ss : List Segment} {qs : List Bytes} {lost : Nat} {ds : List (List Bytes × Nat)} :
    s.Holds qs → s.baseOffset = b → (ss ≠ [] → 0 < qs.length + lost) →
    Chain (b + qs.length + lost) ss ds → Chain b (s :: ss) ((qs, lost) :: ds)

variable {ss : List Segment} {s : Segment} {ps qs : List Bytes} {b o : Int}

section Records

theorem mem_recordsFrom {r : Record} (h : r ∈ recordsFrom b qs) : b ≤ r.offset ∧ r.offset < b + qs.length := by
  induction qs generalizing b
  case nil => simp [recordsFrom] at h
  case cons q qs hi =>
    rw [List.length_cons]
    cases List.mem_cons.mp h
    case inl h =>
      rw [h]
      push_cast
      omega
    case inr h =>
      have := hi h
      push_cast
      omega

theorem pairwise_recordsFrom (b : Int) (qs : List Bytes) : (recordsFrom b qs).Pairwise (·.offset < ·.offset) := by
  induction qs generalizing b
  case nil => exact .nil
  case cons q qs hi =>
    refine List.pairwise_cons.mpr ⟨fun r hr => ?_, hi (b + 1)⟩
    have := (mem_recordsFrom hr).left
    dsimp only
    omega

theorem filter_recordsFrom (h : b ≤ o) :
    (recordsFrom b qs).filter (o ≤ ·.offset) = recordsFrom o (qs.drop (o - b).toNat) := by
  induction qs generalizing b
  case nil => simp [recordsFrom]
  case cons q qs hi =>
    cases h.eq_or_lt
    case inl heq =>
      subst heq
      rw [Int.sub_self, Int.toNat_zero, List.drop_zero]
      exact List.filter_eq_self.mpr fun r hr => decide_eq_true (mem_recordsFrom hr).left
    case inr hlt =>
      have hdrop : (o - b).toNat = (o - (b + 1)).toNat + 1 := by omega
      rw [recordsFrom, List.filter_cons_of_neg (by simpa using hlt), hi (by omega), hdrop, List.drop_succ_cons]

-- No positive number is no limit.
theorem window_of_nonpos {m : Int} (hm : m ≤ 0) (read : Nat) (qs : List Bytes) : window m read qs = qs := by
  induction qs generalizing read
  case nil          => rfl
  case cons q qs hi => rw [window, if_neg (by omega), hi]

theorem Segment.Holds.records (h : s.Holds qs) : s.records = recordsFrom s.baseOffset qs := by
  have hlen := length_le_entriesSize qs
  have hfuel : qs.length < s.logFile.length + 1 := by
    simp only [entryHeaderSize] at hlen
    rw [h.log, length_encodeEntries]
    omega
  have hgo : readRecords.go ([] ++ encodeEntries s.baseOffset qs) s.baseOffset 0 (s.logFile.length + 1)
      ([] : Bytes).length 0 [] = _ := readRecords.go_entries h.base_nonneg h.end_lt h.payload_lt le_rfl hfuel
  rw [List.nil_append, List.nil_append, window_of_nonpos le_rfl, ← h.log] at hgo
  rw [Segment.records, SegmentFiles.records, Segment.files, Storage.readRecords, if_neg (by decide)]
  simp only [Int.toNat_zero, List.length_nil] at hgo ⊢
  rw [hgo]

end Records

namespace Chain

variable {ds : List (List Bytes × Nat)}

theorem base_le (h : Chain b ss ds) : ∀ t ∈ ss, b ≤ t.baseOffset := by
  induction h
  case nil => simp
  case cons hs hb _ _ hi =>
    refine List.forall_mem_cons.mpr ⟨hb.ge, fun t ht => ?_⟩
    have := hi t ht
    omega

theorem pairwise_base (h : Chain b ss ds) : ss.Pairwise (·.baseOffset < ·.baseOffset) := by
  induction h
  case nil => exact .nil
  case cons hs hb hpos h hi =>
    refine List.pairwise_cons.mpr ⟨fun t ht => ?_, hi⟩
    have := h.base_le t ht
    have := hpos (List.ne_nil_of_mem ht)
    omega

-- The files of the segments, opened one by one.
theorem openFiles {files : Dir} {f : SegmentFiles} (h : Chain b (ss ++ [s]) ds) (hss : files.mapM openSegment = .ok ss)
    (hs : openSegment f = .ok s) : openFiles (files ++ [f]) = .ok ⟨ss, s, [], recoverNextOffset s⟩ := by
  have hbases : ((ss ++ [s]).map (·.baseOffset)).Pairwise (· < ·) := List.pairwise_map.mpr h.pairwise_base
  rw [List.map_append, mapM_baseOffset hss, List.map_singleton, openSegment_baseOffset hs] at hbases
  refine Log.openFiles_of_sorted (List.pairwise_map.mp ?_) hss hs
  rwa [List.map_append, List.map_singleton]

theorem records_mem (h : Chain b ss ds) : ∀ r ∈ ss.flatMap Segment.records, b ≤ r.offset := by
  induction h
  case nil => simp
  case cons hs hb _ _ hi =>
    intro r hr
    rw [List.flatMap_cons, hs.records] at hr
    cases List.mem_append.mp hr
    case inl hr =>
      rw [← hb]
      exact (mem_recordsFrom hr).left
    case inr hr =>
      have := hi r hr
      omega

theorem pairwise_records (h : Chain b ss ds) : (ss.flatMap Segment.records).Pairwise (·.offset < ·.offset) := by
  induction h
  case nil => exact .nil
  case cons hs hb _ h hi =>
    rw [List.flatMap_cons, hs.records]
    refine List.pairwise_append.mpr ⟨pairwise_recordsFrom _ _, hi, fun r hr r' hr' => ?_⟩
    have h₁ := (mem_recordsFrom hr).right
    have h₂ := h.records_mem r' hr'
    omega

theorem eq_nil_of_kept (h : Chain b ss ds) (hkept : ∀ d ∈ ds, d.fst = []) : ss.flatMap Segment.records = [] := by
  induction h
  case nil => rfl
  case cons hs _ _ _ hi =>
    obtain ⟨hq, hrest⟩ := List.forall_mem_cons.mp hkept
    have hq : _ = [] := hq
    subst hq
    rw [List.flatMap_cons, hs.records, hi hrest]
    rfl

-- The segment that a read at `o` uses.
def Finds (ss : List Segment) (o : Int) (s : Segment) : Prop :=
  ∃ pre post, ss = pre ++ s :: post ∧ (∀ t ∈ pre, t.baseOffset ≤ o) ∧ s.baseOffset ≤ o ∧
    ∀ t ∈ post, o < t.baseOffset

theorem Finds.cons {t : Segment} (h : Finds ss o s) (ht : t.baseOffset ≤ o) : Finds (t :: ss) o s := by
  obtain ⟨pre, post, heq, hpre, hs, hpost⟩ := h
  exact ⟨t :: pre, post, by rw [heq]; rfl, List.forall_mem_cons.mpr ⟨ht, hpre⟩, hs, hpost⟩

-- Where something is missing, nothing follows.
def Unbroken (ds : List (List Bytes × Nat)) : Prop :=
  ds.Pairwise fun d d' => d'.fst ≠ [] → d.snd = 0

-- A read at `o` sees the first records from there on. It sees none only if there are none, unless records are missing.
theorem find (h : Chain b ss ds) (hne : ss ≠ []) (ho : b ≤ o) :
    ∃ s qs rest, Finds ss o s ∧ s.Holds qs ∧
      (ss.flatMap Segment.records).filter (o ≤ ·.offset) =
        recordsFrom o (qs.drop (o - s.baseOffset).toNat) ++ rest ∧
      (Unbroken ds → qs.drop (o - s.baseOffset).toNat = [] → rest = []) := by
  induction h
  case nil => contradiction
  case cons b s ss qs lost ds hs hb hpos h hi =>
    cases hss : ss
    case nil =>
      subst hss
      refine ⟨s, qs, [], ⟨[], [], rfl, by simp, by omega, by simp⟩, hs, ?_, fun _ _ => rfl⟩
      rw [List.flatMap_cons, List.flatMap_nil, List.append_nil, List.append_nil, hs.records,
        filter_recordsFrom (by omega)]
    case cons t ts =>
      rw [← hss]
      have hne : ss ≠ [] := by rw [hss]; exact List.cons_ne_nil t ts
      by_cases hnext : b + qs.length + lost ≤ o
      case pos =>
        obtain ⟨s', qs', rest, hfinds, hs', hfilter, hrest⟩ := hi hne hnext
        refine ⟨s', qs', rest, hfinds.cons (by omega), hs', ?_, fun hu => hrest (List.pairwise_cons.mp hu).right⟩
        have hnone : (recordsFrom s.baseOffset qs).filter (o ≤ ·.offset) = [] := by
          refine List.filter_eq_nil_iff.mpr fun r hr => ?_
          have := (mem_recordsFrom hr).right
          simp only [decide_eq_true_eq]
          omega
        rw [List.flatMap_cons, List.filter_append, hs.records, hnone, List.nil_append, hfilter]
      case neg =>
        have hlater : (ss.flatMap Segment.records).filter (o ≤ ·.offset) = ss.flatMap Segment.records := by
          refine List.filter_eq_self.mpr fun r hr => ?_
          have := h.records_mem r hr
          simp only [decide_eq_true_eq]
          omega
        refine ⟨s, qs, ss.flatMap Segment.records, ⟨[], ss, rfl, by simp, by omega, fun t ht => ?_⟩, hs, ?_,
          fun hu hnone => ?_⟩
        · have := h.base_le t ht
          omega
        · rw [List.flatMap_cons, List.filter_append, hs.records, hlater, filter_recordsFrom (by omega)]
        · -- Behind the records of the segment something is missing.
          have hlen := List.drop_eq_nil_iff.mp hnone
          refine h.eq_nil_of_kept fun d hd => ?_
          by_contra hkept
          have hzero : lost = 0 := (List.pairwise_cons.mp hu).left d hd hkept
          omega

theorem exists_record {d : List Bytes × Nat} (h : Chain b ss ds) (hd : d ∈ ds) (hkept : d.fst ≠ []) :
    ∃ r, r ∈ ss.flatMap Segment.records := by
  induction h
  case nil => contradiction
  case cons hs _ _ _ hi =>
    cases List.mem_cons.mp hd
    case inl heq =>
      rw [heq] at hkept
      obtain ⟨q, qs, rfl⟩ := List.exists_cons_of_ne_nil hkept
      rw [List.flatMap_cons, hs.records]
      exact ⟨_, List.mem_append_left _ (List.mem_cons_self ..)⟩
    case inr hd =>
      obtain ⟨r, hr⟩ := hi hd
      exact ⟨r, List.mem_append_right _ hr⟩

-- In front of a record that follows missing ones, a read sees nothing.
theorem broken (h : Chain b ss ds) (hu : ¬ Unbroken ds) :
    ∃ o s qs, b ≤ o ∧ Finds ss o s ∧ s.Holds qs ∧ qs.drop (o - s.baseOffset).toNat = [] ∧
      ∃ r ∈ ss.flatMap Segment.records, o ≤ r.offset := by
  induction h
  case nil => exact absurd .nil hu
  case cons b s ss qs lost ds hs hb hpos h hi =>
    by_cases hrest : Unbroken ds
    case pos =>
      have hhead : ¬ ∀ d ∈ ds, d.fst ≠ [] → lost = 0 := fun hall => hu (List.pairwise_cons.mpr ⟨hall, hrest⟩)
      push Not at hhead
      obtain ⟨d, hd, hkept, hlost⟩ := hhead
      obtain ⟨r, hr⟩ := h.exists_record hd hkept
      have hro := h.records_mem r hr
      refine ⟨b + qs.length, s, qs, by omega, ⟨[], ss, rfl, by simp, by omega, fun t ht => ?_⟩, hs, ?_, r, ?_, by omega⟩
      · have := h.base_le t ht
        omega
      · exact List.drop_eq_nil_iff.mpr (by omega)
      · rw [List.flatMap_cons]
        exact List.mem_append_right _ hr
    case neg =>
      obtain ⟨o, s', qs', ho, hfinds, hs', hnone, r, hr, hro⟩ := hi hrest
      refine ⟨o, s', qs', by omega, hfinds.cons (by omega), hs', hnone, r, ?_, hro⟩
      rw [List.flatMap_cons]
      exact List.mem_append_right _ hr

theorem healthy (h : Chain b ss ds) : ∀ s ∈ ss, s.writeFailed = false := by
  induction h
  case nil => simp
  case cons hs _ _ _ hi => exact List.forall_mem_cons.mpr ⟨hs.healthy, hi⟩

variable {l : Log}

theorem Finds.read (hl : Chain b l.segments ds) (h : Finds l.segments o s) (ho : 0 ≤ o) (hs : s.Holds qs) (m : Int) :
    l.read o m = .ok (recordsFrom o (window m 0 (qs.drop (o - s.baseOffset).toNat))) := by
  obtain ⟨pre, post, heq, hpre, hle, hpost⟩ := h
  have hactive := hl.healthy l.active (by simp [Log.segments])
  rw [Log.read_of_segment hactive (Log.segmentForOffset_eq pre post ho heq hpre hle hpost)]
  exact hs.readRecords hle m

-- What a read returns, and what is left behind it.
theorem read (h : Chain 0 l.segments ds) (hu : Unbroken ds) (ho : 0 ≤ o) (m : Int) :
    ∃ qs rest, l.read o m = .ok (recordsFrom o qs) ∧
      l.records.filter (o ≤ ·.offset) = recordsFrom o qs ++ rest ∧ (qs = [] → rest = []) := by
  obtain ⟨s, qs, rest, hfinds, hs, hfilter, hrest⟩ := h.find (by simp [Log.segments]) ho
  obtain ⟨out, hout⟩ := window_isPrefix m 0 (qs.drop (o - s.baseOffset).toNat)
  set w := window m 0 (qs.drop (o - s.baseOffset).toNat) with hw
  refine ⟨w, recordsFrom (o + w.length) out ++ rest, hfinds.read h ho hs m, ?_, fun hnil => ?_⟩
  · rw [Log.records, hfilter, ← hout, recordsFrom_append, List.append_assoc]
  · have hdrop := window_eq_nil.mp (hw ▸ hnil)
    rw [hdrop, hnil, List.nil_append] at hout
    rw [hout, hrest hu hdrop]
    rfl

-- A log of which only the end is missing.
theorem shows {L : List Bytes} (h : Chain 0 l.segments ds) (hu : Unbroken ds) (hrecords : l.records = recordsFrom 0 L)
    (hlen : L.length < 2 ^ 63) (hend : (L.length : Int) ≤ l.endOffset) : l.Shows L := by
  refine ⟨hlen, hend, fun o m ho hle => ?_⟩
  obtain ⟨qs, rest, hread, hfilter, hrest⟩ := h.read hu ho m
  have hpayloads : L.drop o.toNat = qs ++ rest.map (·.payload) := by
    rw [hrecords, filter_recordsFrom ho, Int.sub_zero] at hfilter
    have hmap := congrArg (List.map (·.payload)) hfilter
    rwa [List.map_append, map_payload_recordsFrom, map_payload_recordsFrom] at hmap
  have hsum := congrArg List.length hpayloads
  rw [List.length_drop, List.length_append] at hsum
  refine ⟨qs.length, by rw [hread, hpayloads, List.take_left], by omega, fun hlt => ?_⟩
  by_contra hzero
  have hnil : qs = [] := List.length_eq_zero_iff.mp (by omega)
  rw [hrest hnil, hnil, List.map_nil, List.length_nil] at hsum
  omega

theorem readAll (h : Chain 0 l.segments ds) (hu : Unbroken ds) (maxBytes : Int → Int) {fuel : Nat} (ho : 0 ≤ o)
    (hf : (l.records.filter (o ≤ ·.offset)).length < fuel) :
    l.readAll maxBytes fuel o = .ok (l.records.filter (o ≤ ·.offset)) := by
  induction fuel generalizing o
  case zero => contradiction
  case succ fuel hi =>
    obtain ⟨qs, rest, hread, hfilter, hrest⟩ := h.read hu ho (maxBytes o)
    simp only [Log.readAll, hread]
    by_cases hnil : qs = []
    case pos =>
      rw [hfilter, hrest hnil, hnil]
      rfl
    case neg =>
      obtain ⟨r, hr, hlast⟩ := exists_getLast?_recordsFrom hnil o
      have hsorted : (recordsFrom o qs ++ rest).Pairwise (·.offset < ·.offset) :=
        hfilter ▸ h.pairwise_records.filter _
      have hpos := List.length_pos_iff.mpr hnil
      -- The next round starts where this one ended.
      have hnext : l.records.filter (o + qs.length ≤ ·.offset) = rest := by
        have htwice : l.records.filter (o + qs.length ≤ ·.offset) =
            (l.records.filter (o ≤ ·.offset)).filter (o + qs.length ≤ ·.offset) := by
          rw [List.filter_filter]
          refine List.filter_congr fun r _ => ?_
          rw [Bool.eq_iff_iff, Bool.and_eq_true]
          simp only [decide_eq_true_eq]
          omega
        have hfirst : (recordsFrom o qs).filter (o + qs.length ≤ ·.offset) = [] := by
          refine List.filter_eq_nil_iff.mpr fun r hr => ?_
          have := (mem_recordsFrom hr).right
          simp only [decide_eq_true_eq]
          omega
        have hsecond : rest.filter (o + qs.length ≤ ·.offset) = rest := by
          refine List.filter_eq_self.mpr fun r' hr' => ?_
          have := (List.pairwise_append.mp hsorted).right.right r (List.mem_of_getLast? hr) r' hr'
          simp only [decide_eq_true_eq]
          omega
        rw [htwice, hfilter, List.filter_append, hfirst, hsecond, List.nil_append]
      rw [hfilter, List.length_append, length_recordsFrom] at hf
      simp only [hr, hlast]
      rw [hi (by omega) (by rw [hnext]; omega), hnext, hfilter]

theorem showsAll_iff (h : Chain 0 l.segments ds) (horphans : l.orphans = []) : l.ShowsAll ↔ Unbroken ds := by
  have hstored : l.stored = l.records := by simp [Log.stored, horphans]
  refine ⟨fun hall => ?_, fun hu => ⟨fun o m ho hex => ?_, fun maxBytes fuel hf => ?_⟩⟩
  · by_contra hu
    obtain ⟨o, s, qs, ho, hfinds, hs, hnone, hex⟩ := h.broken hu
    obtain ⟨rs, hrs, hne⟩ := hall.read o 0 ho (hstored ▸ hex)
    rw [hfinds.read h ho hs, hnone] at hrs
    exact hne (Except.ok.inj hrs).symm
  · obtain ⟨qs, rest, hread, hfilter, hrest⟩ := h.read hu ho m
    refine ⟨_, hread, fun hnil => ?_⟩
    have hqs : qs = [] := by
      rw [← List.length_eq_zero_iff, ← length_recordsFrom o qs, hnil]
      rfl
    obtain ⟨r, hr, hro⟩ := hstored ▸ hex
    rw [hrest hqs, hnil, List.append_nil, List.filter_eq_nil_iff] at hfilter
    exact hfilter r hr (decide_eq_true hro)
  · have hself : l.records.filter (0 ≤ ·.offset) = l.records :=
      List.filter_eq_self.mpr fun r hr => decide_eq_true (h.records_mem r hr)
    rw [hstored] at hf ⊢
    rw [h.readAll hu maxBytes le_rfl (by rwa [hself]), hself]

end Chain

section Cut

namespace Segment

-- What is left of the records of a segment when its log file is cut, and how many of them are lost.
def damage (s : Segment) (n : Nat) : List Bytes × Nat :=
  let ps := s.records.map fun r => r.payload
  (intact n ps, ps.length - (intact n ps).length)

theorem Holds.damage (h : s.Holds ps) (n : Nat) :
    s.damage n = (intact n ps, ps.length - (intact n ps).length) := by
  rw [Segment.damage, h.records, map_payload_recordsFrom]

theorem Holds.startsWithin_iff (h : s.Holds ps) (n : Nat) : s.StartsWithin n ↔ (s.damage n).fst ≠ [] := by
  rw [h.damage, StartsWithin, h.log]
  cases ps
  case nil => simp [encodeEntries, intact]
  case cons p ps =>
    have hp := h.payload_lt p (List.mem_cons_self ..)
    have hne : encodeEntries s.baseOffset (p :: ps) ≠ [] := by simp [← List.length_pos_iff, entryHeaderSize]
    have hlength : entryLength (encodeEntries s.baseOffset (p :: ps)) = p.length := by
      rw [← entryLength_encodeHeader hp, encodeEntries, encodeEntry, List.append_assoc, entryLength, entryLength,
        List.drop_append_of_le_length (by simp [entryHeaderSize]),
          List.take_append_of_le_length (by simp [entryHeaderSize])]
    rw [hlength, intact]
    by_cases hn : entryHeaderSize + p.length ≤ n
    case pos => simp [hn, hne]
    case neg => simp [hn]

theorem Holds.length_le_iff (h : s.Holds ps) (n : Nat) : s.logFile.length ≤ n ↔ (s.damage n).snd = 0 := by
  rw [h.damage, h.log, length_encodeEntries]
  refine ⟨fun hle => by simp [intact_of_le hle], fun hzero => ?_⟩
  have heq := (intact_isPrefix n ps).eq_of_length_le (Nat.sub_eq_zero_iff_le.mp hzero)
  rw [← heq]
  exact entriesSize_intact_le n ps

end Segment

variable {pss : List (List Bytes)} {l : Log}

theorem Sealed.holds (h : Sealed ss pss) : ∀ t ∈ ss, ∃ qs, t.Holds qs := by
  induction h
  case nil => simp
  case snoc hs _ _ hi =>
    refine List.forall_mem_append.mpr ⟨hi, fun t ht => ?_⟩
    rw [List.mem_singleton.mp ht]
    exact ⟨_, hs⟩

-- Nothing is missing from the sealed segments.
theorem Sealed.append_chain (h : Sealed ss pss) {ts : List Segment} {ds : List (List Bytes × Nat)}
    (hb : b = (pss.flatten.length : Int)) (hc : Chain b ts ds) : Chain 0 (ss ++ ts) (pss.map (·, 0) ++ ds) := by
  induction h generalizing b ts ds
  case nil => simpa [hb] using hc
  case snoc ss pss s ps _ hs hbase hne hi =>
    rw [List.flatten_append, List.flatten_singleton, List.length_append, Nat.cast_add, ← hbase] at hb
    have hpos := List.length_pos_iff.mpr hne
    have hcons : Chain s.baseOffset (s :: ts) ((ps, 0) :: ds) := .cons hs rfl (by omega) (by simpa [← hb] using hc)
    simpa using hi hbase hcons

theorem Sealed.records (h : Sealed ss pss) : ss.flatMap Segment.records = recordsFrom 0 pss.flatten := by
  induction h
  case nil => rfl
  case snoc hs hb _ hi =>
    rw [List.flatMap_append, List.flatMap_singleton, hi, hs.records, hb, List.flatten_append, List.flatten_singleton,
      recordsFrom_append, Int.zero_add]

theorem Log.Holds.holds (h : l.Holds pss ps) : ∀ t ∈ l.segments, ∃ qs, t.Holds qs := by
  refine List.forall_mem_append.mpr ⟨h.sealed.holds, fun t ht => ?_⟩
  rw [List.mem_singleton.mp ht]
  exact ⟨ps, h.active⟩

theorem Log.Holds.cutFromEnd_iff (h : l.Holds pss ps) (logBytes : Int → Nat) :
    l.CutFromEnd logBytes ↔ Chain.Unbroken (l.segments.map fun s => s.damage (logBytes s.baseOffset)) := by
  rw [Log.CutFromEnd, Chain.Unbroken, List.pairwise_map]
  refine List.Pairwise.iff_of_mem fun {t s} ht hs => ?_
  obtain ⟨_, ht⟩ := h.holds t ht
  obtain ⟨_, hs⟩ := h.holds s hs
  rw [hs.startsWithin_iff, ht.length_le_iff]

variable {logBytes indexBytes : Int → Nat}

-- Only the last segment may have been empty before.
theorem Segment.Holds.chain (h : s.Holds ps) (logBytes indexBytes : Int → Nat) :
    ∃ s', openSegment (s.cut logBytes indexBytes) = .ok s' ∧
      ∀ ss ds, (ss ≠ [] → ps ≠ []) → Chain (s.baseOffset + ps.length) ss ds →
        Chain s.baseOffset (s' :: ss) (s.damage (logBytes s.baseOffset) :: ds) := by
  obtain ⟨s', hopen, hbase, hs'⟩ := h.openSegment_take (logBytes s.baseOffset) (indexBytes s.baseOffset)
  have hle := (intact_isPrefix (logBytes s.baseOffset) ps).length_le
  refine ⟨s', hopen, fun ss ds hne hc => ?_⟩
  rw [h.damage]
  refine .cons hs' hbase (fun hss => ?_) ?_
  · have := List.length_pos_iff.mpr (hne hss)
    omega
  · convert hc using 1
    omega

theorem Sealed.chain (h : Sealed ss pss) (logBytes indexBytes : Int → Nat) :
    ∃ ss', (ss.map (Segment.cut logBytes indexBytes)).mapM openSegment = .ok ss' ∧
      ∀ b ts ds, b = (pss.flatten.length : Int) → Chain b ts ds →
        Chain 0 (ss' ++ ts) (ss.map (fun s => s.damage (logBytes s.baseOffset)) ++ ds) := by
  induction h
  case nil => exact ⟨[], rfl, fun b ts ds hb hc => by simpa [hb] using hc⟩
  case snoc ss pss s ps _ hs hb hne hi =>
    obtain ⟨ss', hss', hchain⟩ := hi
    obtain ⟨s', hs', hcons⟩ := hs.chain logBytes indexBytes
    refine ⟨ss' ++ [s'], ?_, fun b ts ds hnext hc => ?_⟩
    · simp [hss', hs', bind, Except.bind, pure, Except.pure]
    · rw [List.flatten_append, List.flatten_singleton, List.length_append, Nat.cast_add, ← hb] at hnext
      have := hchain _ _ _ hb (hcons ts ds (fun _ => hne) (hnext ▸ hc))
      simpa using this

-- Recovery repairs each segment on its own and never fails.
theorem Log.Holds.openFiles_truncated (h : l.Holds pss ps) (logBytes indexBytes : Int → Nat) :
    ∃ l', openFiles (l.truncated logBytes indexBytes) = .ok l' ∧ l'.orphans = [] ∧
      Chain 0 l'.segments (l.segments.map fun s => s.damage (logBytes s.baseOffset)) := by
  obtain ⟨ss, hss, hchain⟩ := h.sealed.chain logBytes indexBytes
  obtain ⟨s, hs, hcons⟩ := h.active.chain logBytes indexBytes
  have hsorted : (l.truncated logBytes indexBytes).Pairwise (·.baseOffset < ·.baseOffset) :=
    List.pairwise_map.mpr h.pairwise_segments
  rw [truncated, segments, List.map_append, List.map_singleton] at hsorted ⊢
  refine ⟨_, openFiles_of_sorted hsorted hss hs, rfl, ?_⟩
  have := hchain _ _ _ h.base (hcons [] [] (by simp) .nil)
  simpa [segments] using this

end Cut

-- After a crash the records that are left all show exactly if the end of the log was cut off and nothing before.
theorem showsAll_iff_cutFromEnd {loc : Location} (hloc : Ordinary loc.dir) (ops : List Op) (hv : ∀ op ∈ ops, op.Valid)
    (hlen : (appended [] ops).length < 2 ^ 63) :
    ∃ l₀ l as, loc.openLog [] = .ok l₀ ∧ exec loc l₀ ops = .ok (l, as) ∧
      ∀ logBytes indexBytes, ∃ l', loc.openLog (l.truncated logBytes indexBytes) = .ok l' ∧
        (l'.ShowsAll ↔ l.CutFromEnd logBytes) := by
  obtain ⟨l, as, hexec, ⟨pss, ps, h, _⟩, _⟩ := exec_stores hloc Log.empty_stores hv hlen
  refine ⟨.empty, l, as, hloc.openLog_eq [], hexec, fun logBytes indexBytes => ?_⟩
  obtain ⟨l', hopen, horphans, hchain⟩ := h.openFiles_truncated logBytes indexBytes
  refine ⟨l', by rw [hloc.openLog_eq, hopen], ?_⟩
  exact (hchain.showsAll_iff horphans).trans (h.cutFromEnd_iff logBytes).symm

def fullSegment (p : Bytes) : Segment where
  baseOffset   := 0
  logFile      := encodeHeader 0 p.length ++ p
  writeFailed  := false
  indexFile    := []
  logSize      := entryHeaderSize + p.length
  lastIndexPos := 0
  index        := []

-- A first record that fills a segment, and a second one behind it.
def twoSegments (p : Bytes) : Log where
  sealed     := [fullSegment p]
  active     := { fullSegment [7] with baseOffset := 1, logFile := encodeHeader 1 1 ++ [7] }
  orphans    := []
  nextOffset := 2

theorem exec_twoSegments (loc : Location) {p : Bytes} (hp : p.length = maxSegmentBytes) :
    exec loc .empty [.append p .none, .append [7] .none] = .ok (twoSegments p, [.offset 0, .offset 1]) := by
  have hfirst : Log.empty.appendWithOffset p .none = (⟨[], fullSegment p, [], 1⟩, .ok 0) := by
    have hroll : Log.empty.roll (entryHeaderSize + p.length) none = (.empty, .ok ()) := rfl
    simp only [Log.appendWithOffset, hroll]
    simp [Log.empty, createSegment, Segment.maybeWriteIndex, Segment.writeEntry, fullSegment, indexIntervalBytes,
      Stamp.none, int64, wrap]
  have hroll : Log.roll ⟨[], fullSegment p, [], 1⟩ (entryHeaderSize + ([7] : Bytes).length) none =
      (⟨[fullSegment p], createSegment [] 1, [], 1⟩, .ok ()) := by
    have hfull : 0 < (fullSegment p).logSize ∧
        maxSegmentBytes < (fullSegment p).logSize + (entryHeaderSize + ([7] : Bytes).length) := by
      simp only [fullSegment, hp, entryHeaderSize, List.length_singleton]
      omega
    rw [Log.roll, if_pos hfull, if_neg (by simp [fullSegment]), if_neg (by simp), if_neg (by simp)]
    rfl
  have hsecond : Log.appendWithOffset ⟨[], fullSegment p, [], 1⟩ [7] .none = (twoSegments p, .ok 1) := by
    simp only [Log.appendWithOffset, hroll]
    rfl
  simp only [exec, Op.exec, hfirst, hsecond]

theorem openFiles_twoSegments (p : Bytes) :
    openFiles ((twoSegments p).truncated (fun b => if b = 0 then 0 else 13) fun _ => 0) =
      .ok ⟨[createSegment [] 0], (twoSegments []).active, [], 2⟩ := by
  have hdir : (twoSegments p).truncated (fun b => if b = 0 then 0 else 13) (fun _ => 0) =
      [⟨0, [], some []⟩, ⟨1, encodeHeader 1 1 ++ [7], some []⟩] := by
    simp [Log.truncated, Log.segments, twoSegments, Segment.cut, fullSegment, List.take_of_length_le, entryHeaderSize]
  rw [hdir]
  decide +kernel

-- A log of two segments, cut anywhere.
theorem showsAll_iff_cutFromEnd_two :
    ∃ l₀ l as, sampleLocation.openLog [] = .ok l₀ ∧
      exec sampleLocation l₀ [.append (List.replicate maxSegmentBytes 0) .none, .append [7] .none] = .ok (l, as) ∧
      l.segments.map (·.baseOffset) = [0, 1] ∧
      ∀ logBytes indexBytes, ∃ l', sampleLocation.openLog (l.truncated logBytes indexBytes) = .ok l' ∧
        (l'.ShowsAll ↔ l.CutFromEnd logBytes) := by
  have hloc : Ordinary sampleLocation.dir := by decide +kernel
  have hlength : (List.replicate maxSegmentBytes (0 : UInt8)).length = maxSegmentBytes := List.length_replicate
  have hvalid : ∀ op ∈ [Op.append (List.replicate maxSegmentBytes 0) .none, .append [7] .none], op.Valid := by
    refine List.forall_mem_cons.mpr ⟨?_, List.forall_mem_singleton.mpr ?_⟩
    · rw [Op.Valid, hlength, maxSegmentBytes_eq]
      decide
    · exact Nat.lt_of_lt_of_le (by decide : 1 < 2) (by decide)
  obtain ⟨l₀, l, as, hopen, hexec, h⟩ := showsAll_iff_cutFromEnd hloc _ hvalid (by decide)
  obtain rfl : l₀ = .empty := Except.ok.inj (hopen.symm.trans (hloc.openLog_eq []))
  cases hexec.symm.trans (exec_twoSegments sampleLocation hlength)
  exact ⟨_, _, _, hopen, hexec, rfl, h⟩

-- The first segment is lost, and the record behind it stays hidden from a reader that starts at zero.
theorem second_segment_hidden :
    ∃ l₀ l l' as, sampleLocation.openLog [] = .ok l₀ ∧
      exec sampleLocation l₀ [.append (List.replicate maxSegmentBytes 0) .none, .append [7] .none] = .ok (l, as) ∧
      sampleLocation.openLog (l.truncated (fun b => if b = 0 then 0 else 13) fun _ => 0) = .ok l' ∧
      l'.stored = [⟨1, [7]⟩] ∧ l'.read 0 0 = .ok [] ∧ l'.readAll (fun _ => 0) 2 0 = .ok [] ∧ ¬ l'.ShowsAll := by
  have hread : Log.read ⟨[createSegment [] 0], (twoSegments []).active, [], 2⟩ 0 0 = .ok [] := by decide +kernel
  have hloc : Ordinary sampleLocation.dir := by decide +kernel
  refine ⟨_, _, _, _, hloc.openLog_eq [], exec_twoSegments sampleLocation (List.length_replicate ..),
    (hloc.openLog_eq _).trans (openFiles_twoSegments _), by decide +kernel, hread, by decide +kernel, fun h => ?_⟩
  obtain ⟨rs, hrs, hne⟩ := h.read 0 0 le_rfl ⟨⟨1, [7]⟩, by decide +kernel, by decide⟩
  exact hne (Except.ok.inj (hrs.symm.trans hread))

end Storage
