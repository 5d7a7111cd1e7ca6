import Gokaf.Storage.Theorems.Index

open Go

namespace Storage

section Window

variable {m : Int} {r n : Nat} {ps : List Bytes}

@[simp]
theorem length_recordsFrom (o : Int) (ps : List Bytes) : (recordsFrom o ps).length = ps.length := by
  induction ps generalizing o
  case nil          => rfl
  case cons p ps hi => simp [recordsFrom, hi]

theorem recordsFrom_append (o : Int) (ps qs : List Bytes) :
    recordsFrom o (ps ++ qs) = recordsFrom o ps ++ recordsFrom (o + ps.length) qs := by
  induction ps generalizing o
  case nil => simp [recordsFrom]
  case cons p ps hi =>
    simp only [List.cons_append, recordsFrom, hi, List.length_cons]
    congr 3
    push_cast
    ring

theorem map_payload_recordsFrom (o : Int) (ps : List Bytes) :
    (recordsFrom o ps).map (·.payload) = ps := by
  induction ps generalizing o
  case nil          => rfl
  case cons p ps hi => simp [recordsFrom, hi]

theorem take_recordsFrom (o : Int) (ps : List Bytes) (n : Nat) :
    (recordsFrom o ps).take n = recordsFrom o (ps.take n) := by
  induction ps generalizing o n
  case nil => simp [recordsFrom]
  case cons p ps hi =>
    cases n
    case zero   => simp [recordsFrom]
    case succ n => simp [recordsFrom, hi]

@[simp]
theorem payloadSize_cons (p : Bytes) (ps : List Bytes) :
    payloadSize (p :: ps) = p.length + payloadSize ps := by
  simp [payloadSize]

theorem window_isPrefix (m : Int) (r : Nat) (ps : List Bytes) : window m r ps <+: ps := by
  induction ps generalizing r <;> simp only [window]
  case nil => exact List.prefix_rfl
  case cons p ps hi =>
    split
    case isTrue  => exact List.prefix_append [p] ps
    case isFalse => exact List.cons_prefix_cons.mpr ⟨rfl, hi _⟩

theorem window_eq_nil : window m r ps = [] ↔ ps = [] := by
  cases ps <;> simp only [window]
  case cons => split <;> simp

-- A window ends with the list or reaches `m`.
theorem window_stops (m : Int) (r : Nat) (ps : List Bytes) :
    window m r ps = ps ∨ (0 < m ∧ m ≤ r + payloadSize (window m r ps)) := by
  induction ps generalizing r <;> simp only [window]
  case nil => exact .inl trivial
  case cons p ps hi =>
    split
    case isTrue h =>
      refine .inr ⟨h.left, ?_⟩
      simpa [payloadSize] using h.right
    case isFalse =>
      rcases hi (r + p.length) with h | ⟨hm, h⟩
      case inl => exact .inl (by rw [h])
      case inr =>
        refine .inr ⟨hm, ?_⟩
        rw [payloadSize_cons]
        push_cast at h ⊢
        linarith

-- No shorter part of a window reaches `m`.
theorem payloadSize_take_window_lt (hm : 0 < m) (hn : n < (window m r ps).length) (hr : n = 0 → r = 0) :
    r + payloadSize ((window m r ps).take n) < m := by
  induction ps generalizing r n <;> simp only [window] at hn ⊢
  case nil => simp at hn
  case cons p ps hi =>
    cases n
    case zero => simp [payloadSize, hr rfl, hm]
    case succ n =>
      split at hn
      case isTrue => simp at hn
      case isFalse h =>
        rw [if_neg h, List.take_succ_cons, payloadSize_cons]
        have hlt : (r : Int) + p.length < m := by
          by_contra hc
          exact h ⟨hm, not_lt.mp hc⟩
        cases n
        case zero =>
          simp [payloadSize]
          exact hlt
        case succ n =>
          have := hi (r := r + p.length) (n := n + 1) (by simpa using hn) (by simp)
          push_cast at this ⊢
          linarith

end Window

namespace readRecords

variable {pre : Bytes} {b o m : Int} {qs : List Bytes} {fuel r : Nat} {rs : List Record}

theorem go_eof (hf : 0 < fuel) : readRecords.go pre o m fuel pre.length r rs = .ok rs := by
  obtain ⟨fuel, rfl⟩ : ∃ f, fuel = f + 1 := ⟨fuel - 1, by omega⟩
  rw [readRecords.go, readAt_eof (by decide) (by simp [entryHeaderSize])]

-- One round of the loop, at the start of the entry that holds `q`.
theorem go_entry {q : Bytes} {post : Bytes} (hb : 0 ≤ b) (hu : b < 2 ^ 63) (hq : q.length < 2 ^ 32) :
    readRecords.go (pre ++ encodeEntry b q ++ post) o m (fuel + 1) pre.length r rs =
      if b < o then
        readRecords.go (pre ++ encodeEntry b q ++ post) o m fuel (pre ++ encodeEntry b q).length r rs
      else if 0 < m ∧ m ≤ (r + q.length : Nat) then
        .ok (rs ++ [⟨b, q⟩])
      else
        readRecords.go (pre ++ encodeEntry b q ++ post) o m fuel (pre ++ encodeEntry b q).length
          (r + q.length) (rs ++ [⟨b, q⟩]) := by
  have hheader := readAt_append pre (encodeHeader b q.length) (q ++ post)
  have hpayload := readAt_append (pre ++ encodeHeader b q.length) q post
  have hlen : (pre ++ encodeEntry b q).length = pre.length + entryHeaderSize + q.length := by
    simp [Nat.add_assoc]
  simp only [List.length_append, length_encodeHeader, Nat.cast_add] at hheader hpayload
  simp only [encodeEntry, List.append_assoc] at hheader hpayload ⊢
  rw [readRecords.go, hheader]
  simp only [entryLength_encodeHeader hq, entryOffset_encodeHeader hb hu, Nat.cast_add, hpayload]
  simp [Nat.add_assoc]

theorem go_entries (hb : 0 ≤ b) (hu : b + qs.length < 2 ^ 63) (hq : ∀ q ∈ qs, q.length < 2 ^ 32)
    (ho : o ≤ b) (hf : qs.length < fuel) :
    readRecords.go (pre ++ encodeEntries b qs) o m fuel pre.length r rs =
      .ok (rs ++ recordsFrom b (window m r qs)) := by
  induction qs generalizing pre b r fuel rs <;> simp only [encodeEntries, window]
  case nil => simpa [recordsFrom] using go_eof hf
  case cons q qs hi =>
    obtain ⟨fuel, rfl⟩ : ∃ f, fuel = f + 1 := ⟨fuel - 1, by omega⟩
    simp only [List.length_cons] at hu hf
    push_cast at hu
    rw [← List.append_assoc, go_entry hb (by omega) (hq q (by simp)), if_neg (by omega)]
    push_cast
    split
    case isTrue => simp [recordsFrom]
    case isFalse =>
      rw [hi (by omega) (by omega) (fun x hx => hq x (by simp [hx])) (by omega) (by omega)]
      simp [recordsFrom]

theorem go_skip (hb : 0 ≤ b) (hu : b + qs.length < 2 ^ 63) (hq : ∀ q ∈ qs, q.length < 2 ^ 32)
    (ho : b ≤ o) (hf : qs.length < fuel) :
    readRecords.go (pre ++ encodeEntries b qs) o m fuel pre.length r rs =
      .ok (rs ++ recordsFrom o (window m r (qs.drop (o - b).toNat))) := by
  induction qs generalizing pre b fuel
  case nil => simpa [encodeEntries, recordsFrom, window] using go_eof hf
  case cons q qs hi =>
    rcases ho.eq_or_lt with rfl | hlt
    case inl => simpa using go_entries hb hu hq le_rfl hf
    case inr =>
      obtain ⟨fuel, rfl⟩ : ∃ f, fuel = f + 1 := ⟨fuel - 1, by omega⟩
      simp only [List.length_cons] at hu hf
      push_cast at hu
      have hdrop : (o - b).toNat = (o - (b + 1)).toNat + 1 := by omega
      simp only [encodeEntries]
      rw [← List.append_assoc, go_entry hb (by omega) (hq q (by simp)), if_pos hlt,
        hi (by omega) (by omega) (fun x hx => hq x (by simp [hx])) (by omega) (by omega), hdrop,
        List.drop_succ_cons]

end readRecords

namespace Segment

variable {s : Segment} {ps : List Bytes} {o : Int}

theorem Holds.payload_lt (h : s.Holds ps) : ∀ p ∈ ps, p.length < 2 ^ 32 :=
  h.fits.payload

-- Reading a segment from an offset not before its base.
theorem Holds.readRecords (h : s.Holds ps) (ho : s.baseOffset ≤ o) (m : Int) :
    readRecords s.logFile (s.startPosition o) o m =
      .ok (recordsFrom o (window m 0 (ps.drop (o - s.baseOffset).toNat))) := by
  obtain ⟨k, hk, hpos, hko⟩ := h.startPosition ho
  have hend := h.end_lt
  have hbase := h.base_nonneg
  have hfile : s.logFile =
      encodeEntries s.baseOffset (ps.take k) ++ encodeEntries (s.baseOffset + k) (ps.drop k) := by
    conv_lhs => rw [h.log, ← List.take_append_drop k ps, encodeEntries_append]
    rw [List.length_take, Nat.min_eq_left hk]
  have hfuel : (ps.drop k).length < s.logFile.length + 1 := by
    have := length_le_entriesSize ps
    simp only [entryHeaderSize] at this
    rw [h.log, length_encodeEntries, List.length_drop]
    omega
  have hlen : (encodeEntries s.baseOffset (ps.take k)).length = entryPos ps k := by
    rw [length_encodeEntries, entryPos]
  have hgo :
      readRecords.go (encodeEntries s.baseOffset (ps.take k) ++ encodeEntries (s.baseOffset + k) (ps.drop k))
        o m (s.logFile.length + 1) (encodeEntries s.baseOffset (ps.take k)).length 0 [] = _ :=
    readRecords.go_skip (by omega) (by rw [List.length_drop]; omega)
      (fun q hq => h.payload_lt q (List.mem_of_mem_drop hq)) hko hfuel
  have hdrop : (ps.drop k).drop (o - (s.baseOffset + k)).toNat = ps.drop (o - s.baseOffset).toNat := by
    rw [List.drop_drop]
    congr 1
    omega
  rw [← hfile, hlen, hdrop] at hgo
  rw [Storage.readRecords, hpos, if_neg (by omega), Int.toNat_natCast, hgo, List.nil_append]

end Segment

namespace Log

-- The segment that a read at `o` uses, and where its payloads `qs` stand in the contents `L`.
structure Locates (l : Log) (L : List Bytes) (o : Int) (s : Segment) (before qs after : List Bytes) :
    Prop where
  segment  : l.segmentForOffset o = some s
  holds    : s.Holds qs
  contents : L = before ++ qs ++ after
  base     : s.baseOffset = before.length
  le       : s.baseOffset ≤ o
  reach    : after = [] ∨ o < before.length + qs.length
  end_mem  : (before.length + qs.length : Int) ∈ l.boundaries
  apart    : ∀ b ∈ l.boundaries, b ≤ before.length ∨ before.length + qs.length ≤ b

variable {l : Log} {o : Int}

theorem segmentForOffset_eq (pre post : List Segment) {s : Segment} (ho : 0 ≤ o)
    (hl : l.segments = pre ++ s :: post) (hpre : ∀ t ∈ pre, t.baseOffset ≤ o) (hs : s.baseOffset ≤ o)
    (hpost : ∀ t ∈ post, o < t.baseOffset) : l.segmentForOffset o = some s := by
  rw [segmentForOffset, if_neg (by omega)]
  set f : Nat → Bool := fun i => l.segments[i]?.elim true (o < ·.baseOffset) with hf
  have hlow : ∀ i ≤ pre.length, f i = false := by
    intro i hi
    have hmem : ∃ t, l.segments[i]? = some t ∧ t.baseOffset ≤ o := by
      rw [hl]
      rcases hi.lt_or_eq with hlt | rfl
      · refine ⟨pre[i], ?_, hpre _ (List.getElem_mem hlt)⟩
        rw [List.getElem?_append_left hlt, List.getElem?_eq_getElem hlt]
      · exact ⟨s, by simp, hs⟩
    obtain ⟨t, ht, hto⟩ := hmem
    simp [hf, ht, hto]
  have hhigh : ∀ i, pre.length < i → f i = true := by
    intro i hi
    simp only [hf, hl]
    rw [List.getElem?_append_right hi.le]
    obtain ⟨j, hj⟩ : ∃ j, i - pre.length = j + 1 := ⟨i - pre.length - 1, by omega⟩
    rw [hj, List.getElem?_cons_succ]
    cases ht : post[j]?
    case none   => rfl
    case some t => simpa using hpost t (List.mem_of_getElem? ht)
  have hr : IsFirst l.segments.length f (search l.segments.length f) := by
    refine search_isFirst fun a b hab ha => hhigh b ?_
    by_contra hc
    have := hlow a (by omega)
    simp [this] at ha
  have hlen : pre.length < l.segments.length := by simp [hl]
  have hres : search l.segments.length f = pre.length + 1 := by
    apply Nat.le_antisymm
    · by_contra hc
      have h₁ := hr.below (pre.length + 1) (by omega)
      have h₂ := hhigh (pre.length + 1) (by omega)
      simp [h₁] at h₂
    · by_contra hc
      have h₁ := hr.above pre.length (by omega) hlen
      have h₂ := hlow pre.length le_rfl
      simp [h₁] at h₂
  rw [hres]
  simp [hl]

theorem read_of_segment {s : Segment} (hhealthy : l.active.writeFailed = false) (hs : l.segmentForOffset o = some s)
    (m : Int) : l.read o m = readRecords s.logFile (s.startPosition o) o m := by
  simp [Log.read, hhealthy, hs]

end Log

theorem Sealed.base_lt {ss : List Segment} {pss : List (List Bytes)} (h : Sealed ss pss) :
    ∀ t ∈ ss, t.baseOffset < pss.flatten.length := by
  induction h
  case nil => simp
  case snoc hb hne hi =>
    intro t ht
    rcases List.mem_append.mp ht with ht | ht
    · have := hi t ht
      rw [List.flatten_append, List.length_append]
      push_cast
      omega
    · rw [List.mem_singleton.mp ht, hb, List.flatten_append, List.length_append]
      simpa using List.length_pos_iff.mpr hne

-- Inside the sealed segments an offset belongs to exactly one of them.
theorem Sealed.split {ss : List Segment} {pss : List (List Bytes)} {o : Int} (h : Sealed ss pss)
    (hl : 0 ≤ o) (hu : o < pss.flatten.length) :
    ∃ pre s post before qs after,
      ss = pre ++ s :: post ∧ pss.flatten = before ++ qs ++ after ∧ s.Holds qs ∧
      s.baseOffset = (before.length : Int) ∧ s.baseOffset ≤ o ∧ o < before.length + qs.length ∧
      (∀ t ∈ pre, t.baseOffset ≤ (before.length : Int)) ∧
      (∀ t ∈ post, (before.length + qs.length : Int) ≤ t.baseOffset) ∧
      (before.length + qs.length : Int) ∈ post.map (·.baseOffset) ++ [(pss.flatten.length : Int)] := by
  induction h
  case nil => simp at hu; omega
  case snoc ss pss s ps h hs hb hne hi =>
    by_cases hc : o < pss.flatten.length
    case neg =>
      refine ⟨ss, s, [], pss.flatten, ps, [], rfl, by simp, hs, hb, by omega, ?_, ?_, by simp, by simp⟩
      · simpa using hu
      · intro t ht
        exact (h.base_lt t ht).le
    case pos =>
      have ⟨pre, t, post, before, qs, after, h₁, h₂, h₃, h₄, h₅, h₆, h₇, h₈, h₉⟩ := hi hc
      refine ⟨pre, t, post ++ [s], before, qs, after ++ ps, by simp [h₁], by simp [h₂], h₃, h₄, h₅, h₆, h₇,
        ?_, ?_⟩
      · intro x hx
        rcases List.mem_append.mp hx with hx | hx
        · exact h₈ x hx
        · simp only [List.mem_singleton] at hx
          rw [hx, hb, h₂]
          simp
      · rcases List.mem_append.mp h₉ with h | h
        · simp only [List.map_append, List.mem_append]
          exact .inl (.inl h)
        · simp only [List.mem_singleton] at h
          simp [h, hb]

namespace Log

variable {l : Log} {pss : List (List Bytes)} {ps : List Bytes} {o : Int}

theorem Holds.locates (h : l.Holds pss ps) (ho : 0 ≤ o) :
    ∃ s before qs after, l.Locates (pss.flatten ++ ps) o s before qs after := by
  have hnext := h.nextOffset
  have hbase := h.base
  by_cases hc : o < pss.flatten.length
  case neg =>
    refine ⟨l.active, pss.flatten, ps, [], ?_, h.active, by simp, h.base, by omega, .inl rfl, ?_, ?_⟩
    · refine segmentForOffset_eq l.sealed [] ho rfl (fun t ht => ?_) (by omega) (by simp)
      have := h.sealed.base_lt t ht
      omega
    · simp [boundaries, hnext]
    · intro b hb
      simp only [boundaries, segments, List.map_append, List.mem_append, List.mem_map,
        List.mem_singleton] at hb
      rcases hb with (⟨t, ht, rfl⟩ | ⟨t, rfl, rfl⟩) | rfl
      · exact .inl (h.sealed.base_lt t ht).le
      · exact .inl (by omega)
      · exact .inr (by omega)
  case pos =>
    have ⟨pre, s, post, before, qs, after, h₁, h₂, h₃, h₄, h₅, h₆, h₇, h₈, h₉⟩ := h.sealed.split ho hc
    have hle : (before.length + qs.length : Int) ≤ pss.flatten.length := by
      rw [h₂]
      simp
    refine ⟨s, before, qs, after ++ ps, ?_, h₃, by simp [h₂], h₄, h₅, .inr h₆, ?_, ?_⟩
    · refine segmentForOffset_eq pre (post ++ [l.active]) ho (by simp [segments, h₁])
        (fun t ht => ?_) h₅ (fun t ht => ?_)
      · have := h₇ t ht
        omega
      · rcases List.mem_append.mp ht with ht | ht
        · have := h₈ t ht
          omega
        · simp only [List.mem_singleton] at ht
          rw [ht]
          omega
    · simp only [boundaries, segments, h₁, List.map_append, List.map_cons, List.mem_append,
        List.mem_cons] at h₉ ⊢
      rcases h₉ with h | h | h
      · exact .inl (.inl (.inr (.inr h)))
      · exact .inl (.inr (.inl (by omega)))
      · simp at h
    · intro b hb
      simp only [boundaries, segments, h₁, List.map_append, List.map_cons, List.mem_append,
        List.mem_cons, List.mem_map, List.not_mem_nil, or_false] at hb
      rcases hb with ((⟨t, ht, rfl⟩ | rfl | ⟨t, ht, rfl⟩) | h) | rfl
      · exact .inl (h₇ t ht)
      · exact .inl (by omega)
      · exact .inr (h₈ t ht)
      · simp at h
        exact .inr (by omega)
      · exact .inr (by omega)

theorem Locates.readsAs {L before qs after : List Bytes} {s : Segment} {m : Int}
    (h : l.Locates L o s before qs after) :
    l.ReadsAs L o m (recordsFrom o (window m 0 (qs.drop (o - s.baseOffset).toNat))) := by
  have hbase := h.base
  have hle := h.le
  set k := (o - s.baseOffset).toNat with hk
  set w := window m 0 (qs.drop k) with hw
  have hwp : w <+: qs.drop k := window_isPrefix ..
  have hwl : w.length ≤ qs.length - k := by simpa using hwp.length_le
  have hdrop : L.drop o.toNat = qs.drop k ++ (if k ≤ qs.length then after else []) := by
    rw [h.contents, show o.toNat = before.length + k by omega, List.append_assoc, List.drop_append,
      List.drop_of_length_le (by omega), List.nil_append, show before.length + k - before.length = k by omega]
    split
    case isTrue hkq  => rw [List.drop_append_of_le_length hkq]
    case isFalse hkq =>
      rcases h.reach with rfl | hr
      · simp
      · omega
  have hLlen : L.length = before.length + qs.length + after.length := by
    rw [h.contents]
    simp
    omega
  have hempty : w = [] ↔ (L.length : Int) ≤ o := by
    rw [hw, window_eq_nil, List.drop_eq_nil_iff]
    constructor
    · intro hq
      rcases h.reach with rfl | hr
      · simp at hLlen
        omega
      · omega
    · intro
      omega
  refine ⟨?_, ?_, ?_, ?_, ?_⟩
  · rw [length_recordsFrom, hdrop, List.take_append_of_le_length hwp.length_le]
    rw [← List.prefix_iff_eq_take.mp hwp]
  · rw [← hempty, ← List.length_eq_zero_iff, length_recordsFrom, List.length_eq_zero_iff]
  · intro b hb
    rw [length_recordsFrom]
    by_cases hw0 : w = []
    case pos =>
      simp only [hw0, List.length_nil]
      omega
    case neg =>
      have := List.length_pos_iff.mpr hw0
      rcases h.apart b hb with hb | hb <;> omega
  · intro hne
    rw [length_recordsFrom, map_payload_recordsFrom]
    rcases window_stops m 0 (qs.drop k) with hall | hreach
    case inr => exact .inr (by simpa using hreach)
    case inl =>
      have hlen : w.length = qs.length - k := by rw [hw, hall, List.length_drop]
      have hpos : 0 < w.length := by
        refine List.length_pos_iff.mpr fun h0 => hne ?_
        rw [h0]
        rfl
      have := h.end_mem
      rw [show (before.length + qs.length : Int) = o + w.length by omega] at this
      exact .inl this
  · intro n hn hm
    rw [take_recordsFrom, map_payload_recordsFrom]
    rw [length_recordsFrom] at hn
    simpa using payloadSize_take_window_lt hm hn (by simp)

-- Of two possible answers to a read neither is longer.
theorem ReadsAs.length_le {l' : Log} {L : List Bytes} {m : Int} {rs rs' : List Record} (h : l.ReadsAs L o m rs)
    (h' : l'.ReadsAs L o m rs') (hb : ∀ b ∈ l.boundaries, b ∈ l'.boundaries) : rs'.length ≤ rs.length := by
  by_contra hlt
  have hne : rs ≠ [] := by
    rintro rfl
    rw [h'.empty_iff.mpr (h.empty_iff.mp rfl)] at hlt
    contradiction
  have hpos := List.length_pos_iff.mpr hne
  obtain hend | ⟨hm, hreach⟩ := h.stops hne
  case inl =>
    have := h'.within _ (hb _ hend)
    omega
  case inr =>
    have htake : rs'.take rs.length = rs := by
      rw [h'.consecutive, take_recordsFrom, List.take_take, Nat.min_eq_left (by omega), ← h.consecutive]
    have hfirst := h'.first rs.length (by omega) hm
    rw [htake] at hfirst
    omega

-- What a read returns is determined by the contents and the ends of the segments.
theorem ReadsAs.unique {l' : Log} {L : List Bytes} {m : Int} {rs rs' : List Record} (h : l.ReadsAs L o m rs)
    (h' : l'.ReadsAs L o m rs') (hb : ∀ b, b ∈ l.boundaries ↔ b ∈ l'.boundaries) : rs = rs' := by
  have hle := h.length_le h' fun b => (hb b).mp
  have hge := h'.length_le h fun b => (hb b).mpr
  rw [h.consecutive, h'.consecutive, Nat.le_antisymm hge hle]

-- Reading a log that is not closed never fails and never changes it.
theorem Holds.read (h : l.Holds pss ps) (ho : 0 ≤ o) (m : Int) :
    ∃ rs, l.read o m = .ok rs ∧ l.ReadsAs (pss.flatten ++ ps) o m rs := by
  have ⟨s, before, qs, after, hloc⟩ := h.locates ho
  refine ⟨_, ?_, hloc.readsAs⟩
  rw [read_of_segment h.active.healthy hloc.segment]
  exact hloc.holds.readRecords hloc.le m

end Log
end Storage
