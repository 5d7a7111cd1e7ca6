import Gokaf.Storage.Layout
import Gokaf.Storage.Theorems.Refinement

open Go

namespace Storage

theorem layout_snoc (L : List Bytes) (p : Bytes) : layout (L ++ [p]) = place (layout L).fst (layout L).snd p := by
  rw [layout, List.foldl_append]
  rfl

theorem flatten_layout (L : List Bytes) : (layout L).fst.flatten ++ (layout L).snd = L := by
  induction L using List.reverseRecOn
  case nil => rfl
  case append_singleton L p hi =>
    rw [layout_snoc, place]
    conv_rhs => rw [← hi]
    split
    case isTrue  => simp
    case isFalse => simp

section Fits

variable {ps qs : List Bytes}

theorem payloadSize_le_entriesSize (ps : List Bytes) : payloadSize ps ≤ entriesSize ps := by
  induction ps
  case nil => rfl
  case cons p ps hi =>
    rw [payloadSize_cons, entriesSize_cons]
    omega

theorem payloadSize_le_of_sublist (h : qs.Sublist ps) : payloadSize qs ≤ payloadSize ps := by
  induction h
  case slnil => rfl
  case cons p h hi =>
    rw [payloadSize_cons]
    omega
  case cons_cons p h hi =>
    rw [payloadSize_cons, payloadSize_cons]
    omega

-- A segment has one large entry, or many that are small together.
theorem Fits.payloadSize_lt (h : Fits ps) (hp : ∀ p ∈ ps, p.length < 2 ^ 31) : payloadSize ps < 2 ^ 31 := by
  cases h.size
  case inl hone =>
    match ps, hone with
    | [], _  => decide
    | [p], _ => simpa [payloadSize] using hp p (List.mem_singleton_self p)
  case inr hsmall =>
    have := payloadSize_le_entriesSize ps
    rw [maxSegmentBytes_eq] at hsmall
    omega

end Fits

section Sealed

variable {ss ss' : List Segment} {pss : List (List Bytes)} {ps : List Bytes}

theorem Sealed.eq_snoc (h : Sealed ss (pss ++ [ps])) :
    ∃ (ts : List Segment) (s : Segment), ss = ts ++ [s] ∧ Sealed ts pss ∧ s.Holds ps ∧
      s.baseOffset = (pss.flatten.length : Int) := by
  generalize hq : pss ++ [ps] = qss at h
  cases h
  case nil => simp at hq
  case snoc hts hs hb _ =>
    obtain ⟨rfl, heq⟩ := List.append_inj' hq rfl
    obtain rfl := List.singleton_inj.mp heq
    exact ⟨_, _, rfl, hts, hs, hb⟩

theorem Sealed.logFiles_eq (h : Sealed ss pss) (h' : Sealed ss' pss) :
    ss.map (fun s => (s.baseOffset, s.logFile)) = ss'.map fun s => (s.baseOffset, s.logFile) := by
  induction h generalizing ss'
  case nil => rw [List.length_eq_zero_iff.mp h'.length_eq]
  case snoc hs hb _ hi =>
    obtain ⟨ts, s', rfl, hts, hs', hb'⟩ := h'.eq_snoc
    rw [List.map_append, List.map_append, hi hts, List.map_singleton, List.map_singleton, hs.log, hs'.log, hb, hb']

end Sealed

namespace Log

variable {l l' : Log} {L : List Bytes} {p : Bytes}

-- What the log holds determines how it is spread over the segments.
theorem Built.holds (h : l.Built L) (hlen : L.length < 2 ^ 63) : l.Holds (layout L).fst (layout L).snd := by
  induction h
  case empty => exact empty_holds
  case append l l' L p stamp o h hp happend hi =>
    rw [List.length_append, List.length_singleton] at hlen
    have hl := hi (by omega)
    have hnext : l.nextOffset = L.length := by
      rw [hl.nextOffset]
      conv_rhs => rw [← flatten_layout L, List.length_append]
      push_cast
      rfl
    obtain ⟨l₁, pss, ps, happend₁, hl₁, _, hplace⟩ := hl.appendWithOffset stamp hp (by omega)
    obtain ⟨rfl, _⟩ := Prod.mk.inj (happend₁.symm.trans happend)
    rw [layout_snoc, Log.endOffset, hplace]
    exact hl₁
  case reopen h hloc hopen hi =>
    obtain ⟨l₁, hopen₁, hl₁⟩ := (hi hlen).openFiles_close
    rw [hloc.openLog_eq] at hopen
    rwa [Except.ok.inj (hopen.symm.trans hopen₁)]

theorem Built.stores (h : l.Built L) (hlen : L.length < 2 ^ 63) : l.Stores L :=
  ⟨_, _, h.holds hlen, flatten_layout L⟩

-- Whatever the limit, a read returns no more than what is in one segment.
theorem Stores.payloadSize_read_lt {rs : List Record} {o m : Int} (h : l.Stores L) (hL : ∀ p ∈ L, p.length < 2 ^ 31)
    (ho : 0 ≤ o) (hread : l.read o m = .ok rs) : payloadSize (rs.map fun r => r.payload) < 2 ^ 31 := by
  obtain ⟨pss, ps, h, rfl⟩ := h
  obtain ⟨s, before, qs, after, hloc⟩ := h.locates ho
  have heq : l.read o m = .ok (recordsFrom o (window m 0 (qs.drop (o - s.baseOffset).toNat))) := by
    rw [read_of_segment h.active.healthy hloc.segment]
    exact hloc.holds.readRecords hloc.le m
  rw [← Except.ok.inj (heq.symm.trans hread), map_payload_recordsFrom]
  have hsub := (window_isPrefix m 0 (qs.drop (o - s.baseOffset).toNat)).sublist.trans (List.drop_sublist _ _)
  refine (payloadSize_le_of_sublist hsub).trans_lt (hloc.holds.fits.payloadSize_lt fun q hq => hL q ?_)
  rw [hloc.contents]
  exact List.mem_append_left _ (List.mem_append_right _ hq)

theorem Built.snoc (h : l.Built L) (hp : p.length < 2 ^ 32) (hlen : L.length + 1 < 2 ^ 63) :
    ∃ l' o, l.append p = (l', .ok o) ∧ l'.Built (L ++ [p]) := by
  obtain ⟨l', happend, _⟩ := (h.stores (by omega)).append hp hlen
  exact ⟨l', _, happend, h.append hp happend⟩

theorem Built.logFiles_eq (h : l.Built L) (h' : l'.Built L) (hlen : L.length < 2 ^ 63) : l.logFiles = l'.logFiles := by
  have hl := h.holds hlen
  have hl' := h'.holds hlen
  simp only [Log.logFiles, segments, List.map_append, List.map_cons, List.map_nil]
  rw [hl.sealed.logFiles_eq hl'.sealed, hl.active.log, hl'.active.log, hl.base, hl'.base]

end Log
end Storage
