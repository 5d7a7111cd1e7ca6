import Gokaf.Storage.Theorems.Entries

open Go

namespace Storage

section Fits

variable {ps qs : List Bytes} {k : Nat}

theorem Fits.nil : Fits [] :=
  ⟨by simp, .inl (by simp)⟩

theorem Fits.of_append (h : Fits (ps ++ qs)) : Fits ps where
  payload p hp := h.payload p (by simp [hp])
  size := by
    have := h.size
    simp only [List.length_append, entriesSize_append] at this
    omega

theorem Fits.length_le (h : Fits ps) : ps.length ≤ maxSegmentBytes := by
  have := length_le_entriesSize ps
  have hs := h.size
  rw [maxSegmentBytes_eq] at *
  simp only [entryHeaderSize] at *
  omega

-- No position that an index lists is past the size limit, however large single payloads are: an
-- oversized entry is alone in its segment.
theorem Fits.entryPos_le (h : Fits ps) (hk : k < ps.length) : entryPos ps k ≤ maxSegmentBytes := by
  rcases h.size with hs | hs
  case inl =>
    obtain rfl : k = 0 := by omega
    simp
  case inr => exact (Storage.entryPos_le ps k).trans hs

theorem int32_of_le {n : Nat} (h : n ≤ maxSegmentBytes) : int32 n = n := by
  have : (n : Int) ≤ 1048576 := by exact_mod_cast h
  exact wrap_of_nonneg (by decide) (Int.natCast_nonneg n) (by norm_num; linarith)

theorem interval_iff {pos last : Nat} (h : last ≤ pos) :
    (indexIntervalBytes : Int) ≤ (pos : Int) - last ↔ indexIntervalBytes ≤ pos - last := by
  zify [h]

theorem entryPos_lt_of_lt (hk : k < ps.length) : entryPos ps k < entriesSize ps := by
  have h := entryPos_mono ps (show k + 1 ≤ ps.length by omega)
  rw [entryPos_length] at h
  refine Nat.lt_of_lt_of_le ?_ h
  simp only [entryPos, List.take_add_one, List.getElem?_eq_getElem hk, entriesSize_append]
  simp [entryHeaderSize]

end Fits

section Codec

variable {e : IndexEntry} {index : List IndexEntry}

-- Both fields survive the conversion to `int32`.
structure IndexEntry.Fits (e : IndexEntry) : Prop where
  relOffset_nonneg : 0 ≤ e.relOffset
  relOffset_lt     : e.relOffset < 2 ^ 31
  position_nonneg  : 0 ≤ e.position
  position_lt      : e.position < 2 ^ 31

@[simp]
theorem length_encodeIndexEntry (e : IndexEntry) : (encodeIndexEntry e).length = indexEntrySize := by
  simp [encodeIndexEntry, indexEntrySize]

@[simp]
theorem length_encodeIndex (index : List IndexEntry) :
    (encodeIndex index).length = indexEntrySize * index.length := by
  induction index
  case nil          => rfl
  case cons e es hi =>
    simp only [encodeIndex, List.flatMap_cons, List.length_append, List.length_cons] at hi ⊢
    rw [hi, length_encodeIndexEntry]
    ring

theorem encodeIndex_append (es fs : List IndexEntry) :
    encodeIndex (es ++ fs) = encodeIndex es ++ encodeIndex fs := by
  simp [encodeIndex]

@[simp]
theorem encodeIndex_singleton (e : IndexEntry) : encodeIndex [e] = encodeIndexEntry e := by
  simp [encodeIndex]

theorem decodeIndexEntry_encodeIndexEntry (h : e.Fits) : decodeIndexEntry (encodeIndexEntry e) = e := by
  have h₁ : (encodeIndexEntry e).take 4 = putInt 32 e.relOffset := by simp [encodeIndexEntry]
  have h₂ : ((encodeIndexEntry e).drop 4).take 4 = putInt 32 e.position := by
    simp [encodeIndexEntry, List.take_of_length_le]
  simp only [decodeIndexEntry, h₁, h₂, sint_putInt _ (show 8 ∣ 32 by decide)]
  rw [wrap_of_nonneg (by decide) h.relOffset_nonneg h.relOffset_lt,
    wrap_of_nonneg (by decide) h.position_nonneg h.position_lt]

-- The bytes that are left of an index file hold a prefix of its entries if their number is right.
theorem take_encodeIndex {m : Nat} (h : ((encodeIndex index).take m).length % indexEntrySize = 0) :
    ∃ j, (encodeIndex index).take m = encodeIndex (index.take j) := by
  set n := ((encodeIndex index).take m).length with hn
  have hm : (encodeIndex index).take m = (encodeIndex index).take n := by
    rw [hn, List.length_take, List.take_eq_take_iff]
    omega
  have hle : n ≤ indexEntrySize * index.length := by
    rw [hn, List.length_take, length_encodeIndex]
    exact Nat.min_le_right _ _
  have hd : n = indexEntrySize * (n / indexEntrySize) := by
    simp only [indexEntrySize] at *
    omega
  have hj : n / indexEntrySize ≤ index.length := by
    simp only [indexEntrySize] at *
    omega
  refine ⟨n / indexEntrySize, ?_⟩
  have hsplit : encodeIndex index = encodeIndex (index.take (n / indexEntrySize)) ++
      encodeIndex (index.drop (n / indexEntrySize)) := by
    rw [← encodeIndex_append, List.take_append_drop]
  rw [hm]
  conv_lhs => rw [hsplit]
  refine List.take_left' ?_
  rw [length_encodeIndex, List.length_take, Nat.min_eq_left hj]
  exact hd.symm

end Codec

section Indexes

variable {ps qs : List Bytes} {index : List IndexEntry} {ks : List Nat}

theorem Indexes.nil (ps : List Bytes) : Indexes ps [] [] :=
  ⟨List.Pairwise.nil, by simp, rfl⟩

theorem Indexes.fits (h : Indexes ps index ks) (hf : Fits ps) : ∀ e ∈ index, e.Fits := by
  intro e he
  rw [h.eq, indexAt, List.mem_map] at he
  obtain ⟨k, hk, rfl⟩ := he
  have h₁ := hf.entryPos_le (h.lt k hk)
  have h₂ := (h.lt k hk).trans_le hf.length_le
  rw [maxSegmentBytes_eq] at h₁ h₂
  exact ⟨by simp, by simp; omega, by simp, by simp; omega⟩

theorem indexAt_append {ks : List Nat} (h : ∀ k ∈ ks, k ≤ ps.length) :
    indexAt (ps ++ qs) ks = indexAt ps ks := by
  refine List.map_congr_left fun k hk => ?_
  rw [entryPos_append_of_le (h k hk)]

theorem Indexes.append (h : Indexes ps index ks) (qs : List Bytes) : Indexes (ps ++ qs) index ks where
  sorted := h.sorted
  lt k hk := by
    have := h.lt k hk
    simp
    omega
  eq := by rw [indexAt_append (fun k hk => (h.lt k hk).le), h.eq]

-- Of an index over more entries, those that lie before the end of `ps` are an index over `ps`.
theorem Indexes.of_append (h : Indexes (ps ++ qs) index ks)
    (hp : ∀ e ∈ index, e.position < entriesSize ps) : Indexes ps index ks := by
  have hlt : ∀ k ∈ ks, k < ps.length := by
    intro k hk
    by_contra hc
    have h₁ : (⟨k, entryPos (ps ++ qs) k⟩ : IndexEntry) ∈ index := by
      rw [h.eq]
      exact List.mem_map_of_mem hk
    have h₂ := hp _ h₁
    have h₃ := entryPos_mono (ps ++ qs) (not_lt.mp hc)
    rw [entryPos_append_of_le le_rfl, entryPos_length] at h₃
    simp at h₂
    omega
  exact ⟨h.sorted, hlt, by rw [h.eq, indexAt_append (fun k hk => (hlt k hk).le)]⟩

theorem Indexes.take (h : Indexes ps index ks) (j : Nat) : Indexes ps (index.take j) (ks.take j) where
  sorted := h.sorted.sublist (List.take_sublist j ks)
  lt k hk := h.lt k (List.mem_of_mem_take hk)
  eq := by rw [h.eq, indexAt, indexAt, List.map_take]

end Indexes

namespace loadIndex

variable {es : List IndexEntry}

theorem go_encodeIndex (pre : Bytes) (fuel logSize : Nat) (index : List IndexEntry)
    (hes : ∀ e ∈ es, e.Fits) (hf : es.length < fuel) :
    loadIndex.go (pre ++ encodeIndex es) logSize fuel pre.length index =
      .ok (if ∀ e ∈ es, e.position < logSize then some (index ++ es) else none) := by
  induction es generalizing pre fuel index <;>
    obtain ⟨fuel, rfl⟩ : ∃ f, fuel = f + 1 := ⟨fuel - 1, by omega⟩
  case nil => simp [loadIndex.go, encodeIndex]
  case cons e es hi =>
    have hr := readAt_append pre (encodeIndexEntry e) (encodeIndex es)
    rw [length_encodeIndexEntry] at hr
    have hfile : pre ++ encodeIndex (e :: es) = pre ++ encodeIndexEntry e ++ encodeIndex es := by
      simp [encodeIndex]
    rw [hfile, loadIndex.go, if_pos (by simp [indexEntrySize]), hr]
    simp only [decodeIndexEntry_encodeIndexEntry (hes e (by simp))]
    by_cases hp : (logSize : Int) ≤ e.position
    case pos =>
      rw [if_pos hp, if_neg]
      intro hc
      have := hc e (by simp)
      omega
    case neg =>
      have := hi (pre ++ encodeIndexEntry e) fuel (index ++ [e])
        (fun x hx => hes x (by simp [hx])) (by simpa using hf)
      rw [List.length_append, length_encodeIndexEntry] at this
      rw [if_neg hp, this]
      have he : e.position < logSize := by omega
      simp [he]

end loadIndex

-- On the remains of an index over `ps ++ qs`, of which only the log entries `ps` survived, the index
-- is either rebuilt or loaded as an index over `ps`.
theorem loadIndex_take {ps qs : List Bytes} {index : List IndexEntry} {ks : List Nat}
    (h : Indexes (ps ++ qs) index ks) (hf : Fits (ps ++ qs)) (m : Nat) :
    ∃ r, loadIndex ((encodeIndex index).take m) (entriesSize ps) = .ok r ∧
      ∀ index', r = some index' →
        (encodeIndex index).take m = encodeIndex index' ∧ ∃ ks', Indexes ps index' ks' := by
  simp only [loadIndex]
  split
  case isTrue hz =>
    split
    case isTrue => exact ⟨none, rfl, by simp⟩
    case isFalse =>
      refine ⟨some [], rfl, ?_⟩
      rintro _ ⟨rfl⟩
      exact ⟨List.length_eq_zero_iff.mp hz, [], .nil ps⟩
  case isFalse hz =>
    split
    case isTrue => exact ⟨none, rfl, by simp⟩
    case isFalse hm =>
      obtain ⟨j, hj⟩ := take_encodeIndex (not_not.mp hm)
      have hfit := fun e he => (h.take j).fits hf e he
      have hlen : (index.take j).length < (encodeIndex (index.take j)).length + 1 := by
        rw [length_encodeIndex]
        simp only [indexEntrySize]
        omega
      have hgo := loadIndex.go_encodeIndex [] _ (entriesSize ps) [] hfit hlen
      rw [hj]
      refine ⟨_, hgo, ?_⟩
      intro index' hi
      split at hi
      case isTrue hp =>
        simp only [List.nil_append, Option.some.injEq] at hi
        subst hi
        exact ⟨rfl, _, (h.take j).of_append hp⟩
      case isFalse => simp at hi

-- The entries that an index lists when it is written along with the log: the next entry is listed
-- once `indexIntervalBytes` lie between it and the last one listed.
def sparseFrom (k pos lastIndexPos : Nat) : List Bytes → List Nat
  | [] => []
  | p :: ps =>
    if indexIntervalBytes ≤ pos - lastIndexPos then
      k :: sparseFrom (k + 1) (pos + entryHeaderSize + p.length) pos ps
    else
      sparseFrom (k + 1) (pos + entryHeaderSize + p.length) lastIndexPos ps

theorem mem_sparseFrom {k pos last i : Nat} {ps : List Bytes} (h : i ∈ sparseFrom k pos last ps) :
    k ≤ i ∧ i < k + ps.length := by
  induction ps generalizing k pos last <;> simp only [sparseFrom] at h
  case nil => simp at h
  case cons p ps hi =>
    simp only [List.length_cons]
    split at h
    case isFalse =>
      have := hi h
      omega
    case isTrue =>
      rcases List.mem_cons.mp h with rfl | h
      · omega
      · have := hi h
        omega

theorem sparseFrom_sorted (k pos last : Nat) (ps : List Bytes) :
    (sparseFrom k pos last ps).Pairwise (· < ·) := by
  induction ps generalizing k pos last <;> simp only [sparseFrom]
  case nil => exact .nil
  case cons p ps hi =>
    split
    case isFalse => exact hi ..
    case isTrue =>
      refine List.pairwise_cons.mpr ⟨fun i h => ?_, hi ..⟩
      have := mem_sparseFrom h
      omega

theorem indexes_sparseFrom (ps : List Bytes) :
    Indexes ps (indexAt ps (sparseFrom 0 0 0 ps)) (sparseFrom 0 0 0 ps) where
  sorted := sparseFrom_sorted ..
  lt k hk := by simpa using (mem_sparseFrom hk).right
  eq := rfl

namespace rebuildIndex

variable {base : Int} {ps : List Bytes}

theorem go_entries (qs : List Bytes) (last fuel : Nat) (index : List IndexEntry) (file : Bytes)
    (hb : 0 ≤ base) (hu : base + (qs ++ ps).length < 2 ^ 63) (hfit : Fits (qs ++ ps))
    (hl : last ≤ entriesSize qs) (hf : ps.length < fuel) :
    rebuildIndex.go (encodeEntries base (qs ++ ps)) base (entriesSize (qs ++ ps)) fuel
        (entriesSize qs) last index file =
      let ix := indexAt (qs ++ ps) (sparseFrom qs.length (entriesSize qs) last ps)
      .ok (index ++ ix, file ++ encodeIndex ix) := by
  induction ps generalizing qs last fuel index file <;>
    obtain ⟨fuel, rfl⟩ : ∃ f, fuel = f + 1 := ⟨fuel - 1, by omega⟩
  case nil => simp [rebuildIndex.go, sparseFrom, indexAt, encodeIndex, entryHeaderSize]
  case cons p ps hi =>
    have hp : p.length < 2 ^ 32 := hfit.payload p (by simp)
    have hlen : qs.length < (qs ++ p :: ps).length := by simp
    have hpos : entriesSize qs ≤ maxSegmentBytes := by
      simpa [entryPos_append_of_le le_rfl] using hfit.entryPos_le hlen
    have hqs : qs.length ≤ maxSegmentBytes := hlen.le.trans hfit.length_le
    have hfile : encodeEntries base (qs ++ p :: ps) = encodeEntries base qs ++
        encodeHeader (base + qs.length) p.length ++ (p ++ encodeEntries (base + qs.length + 1) ps) := by
      simp [encodeEntries_append, encodeEntries, encodeEntry]
    have hr := readAt_append (encodeEntries base qs) (encodeHeader (base + qs.length) p.length)
      (p ++ encodeEntries (base + qs.length + 1) ps)
    rw [length_encodeHeader, length_encodeEntries] at hr
    have hstep := fun last index file => hi (qs ++ [p]) last fuel index file
      (by simpa using hu) (by simpa using hfit)
    simp only [List.append_assoc, List.singleton_append, List.length_append, List.length_singleton,
      entriesSize_append, entriesSize_cons, entriesSize_nil, Nat.add_zero] at hstep
    simp only [List.length_append, List.length_cons] at hu
    push_cast at hu
    rw [rebuildIndex.go, if_pos (by simp; omega), hfile, hr, ← hfile]
    simp only [entryLength_encodeHeader hp]
    rw [entryOffset_encodeHeader (by omega) (by omega), if_neg (by simp; omega)]
    have hat : entryPos (qs ++ p :: ps) qs.length = entriesSize qs := by
      rw [entryPos_append_of_le le_rfl, entryPos_length]
    rw [add_sub_cancel_left, int32_of_le hqs, int32_of_le hpos, if_congr (interval_iff hl) rfl rfl]
    simp only [sparseFrom]
    split
    case isTrue =>
      have := hstep (entriesSize qs) (index ++ [⟨qs.length, entriesSize qs⟩])
        (file ++ encodeIndexEntry ⟨qs.length, entriesSize qs⟩) (Nat.le_add_right ..) (by simpa using hf)
      simp only [entriesSize_append, entriesSize_cons, Nat.add_assoc] at this ⊢
      rw [this]
      simp [indexAt, hat, encodeIndex]
    case isFalse =>
      have := hstep last index file (Nat.le_add_right_of_le hl) (by simpa using hf)
      simp only [entriesSize_append, entriesSize_cons, Nat.add_assoc] at this ⊢
      exact this

end rebuildIndex

theorem rebuildIndex_entries {base : Int} {ps : List Bytes} (hb : 0 ≤ base)
    (hu : base + ps.length < 2 ^ 63) (hf : Fits ps) :
    rebuildIndex (encodeEntries base ps) base (entriesSize ps) =
      .ok (indexAt ps (sparseFrom 0 0 0 ps), encodeIndex (indexAt ps (sparseFrom 0 0 0 ps))) := by
  have hlen : ps.length < (encodeEntries base ps).length + 1 := by
    have := length_le_entriesSize ps
    simp only [entryHeaderSize] at this
    rw [length_encodeEntries]
    omega
  simpa [rebuildIndex] using rebuildIndex.go_entries [] 0 _ [] [] hb (by simpa using hu) (by simpa using hf)
    (by simp) hlen

namespace Segment

variable {s : Segment} {ps : List Bytes} {o : Int}

-- The lookup starts at an entry that is not past `o`. An offset past the end may wrap in the
-- conversion to `int32`, but then every entry of the segment is before `o`.
theorem Holds.startPosition (h : s.Holds ps) (ho : s.baseOffset ≤ o) :
    ∃ k ≤ ps.length, s.startPosition o = entryPos ps k ∧ s.baseOffset + k ≤ o := by
  obtain ⟨ks, hi⟩ := h.indexes
  have hget : ∀ j : Nat, s.index[j]? = ks[j]?.map fun k => ⟨k, entryPos ps k⟩ := by
    intro j
    rw [hi.eq, indexAt, List.getElem?_map]
  have hlen : s.index.length = ks.length := by rw [hi.eq, indexAt, List.length_map]
  simp only [Segment.startPosition]
  set rel := int32 (o - s.baseOffset) with hrel
  set f : Nat → Bool := fun j => s.index[j]?.elim true (rel < ·.relOffset) with hf
  have mono : ∀ a b, a ≤ b → f a = true → f b = true := by
    intro a b hab ha
    simp only [hf, hget] at ha ⊢
    cases hb : ks[b]?
    case none => simp
    case some kb =>
      have hblt := (List.getElem?_eq_some_iff.mp hb).choose
      have hbeq := (List.getElem?_eq_some_iff.mp hb).choose_spec
      rw [List.getElem?_eq_getElem (show a < ks.length by omega)] at ha
      simp only [Option.map_some, Option.elim_some, decide_eq_true_eq] at ha ⊢
      rcases Nat.eq_or_lt_of_le hab with rfl | hlt
      · simpa [hbeq] using ha
      · have := List.pairwise_iff_getElem.mp hi.sorted a b (by omega) hblt hlt
        omega
  have hr := search_isFirst (n := s.index.length) mono
  cases hs : search s.index.length f
  case zero => exact ⟨0, Nat.zero_le _, by simp, by simpa using ho⟩
  case succ j =>
    rw [hs] at hr
    have hj : j < ks.length := by
      have := hr.le
      omega
    have hfj := hr.below j (by omega)
    simp only [hf, hget, List.getElem?_eq_getElem hj, Option.map_some, Option.elim_some,
      decide_eq_false_iff_not, not_lt] at hfj ⊢
    have hk := hi.lt ks[j] (List.getElem_mem hj)
    refine ⟨ks[j], hk.le, rfl, ?_⟩
    by_cases hin : o - s.baseOffset < ps.length
    case pos =>
      have hps := h.fits.length_le
      rw [maxSegmentBytes_eq] at hps
      have : rel = o - s.baseOffset := wrap_of_nonneg (by decide) (by omega) (by norm_num; omega)
      omega
    case neg => omega

end Segment
end Storage
