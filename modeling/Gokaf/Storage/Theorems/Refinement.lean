import Gokaf.Storage.Theorems.Open

open Go

namespace Storage

section Sealed

variable {ss : List Segment} {pss : List (List Bytes)}

theorem Sealed.head_baseOffset (h : Sealed ss pss) : ∀ s ∈ ss.head?, s.baseOffset = 0 := by
  induction h
  case nil => simp
  case snoc h _ hb _ hi =>
    cases h
    case nil => simpa using hb
    case snoc => simpa using hi

theorem Sealed.length_eq (h : Sealed ss pss) : ss.length = pss.length := by
  induction h
  case nil             => rfl
  case snoc _ _ _ _ hi => simp [hi]

theorem Sealed.payload_lt (h : Sealed ss pss) : ∀ p ∈ pss.flatten, p.length < 2 ^ 32 := by
  induction h
  case nil => simp
  case snoc hs _ _ hi =>
    simp only [List.flatten_append, List.flatten_singleton]
    exact List.forall_mem_append.mpr ⟨hi, hs.payload_lt⟩

end Sealed

theorem exists_getLast?_recordsFrom {ps : List Bytes} (h : ps ≠ []) (o : Int) :
    ∃ r, (recordsFrom o ps).getLast? = some r ∧ r.offset + 1 = o + ps.length := by
  induction ps generalizing o
  case nil => contradiction
  case cons p ps hi =>
    cases ps
    case nil => exact ⟨⟨o, p⟩, rfl, by simp⟩
    case cons q qs =>
      obtain ⟨r, hr, ho⟩ := hi (by simp) (o + 1)
      refine ⟨r, ?_, ?_⟩
      · simpa [recordsFrom, List.getLast?_cons_cons] using hr
      · simp only [List.length_cons] at ho ⊢
        push_cast at ho ⊢
        linarith

namespace Log

variable {l : Log} {L : List Bytes} {o : Int}

-- The log holds `L`, in whatever segments.
def Stores (l : Log) (L : List Bytes) : Prop :=
  ∃ pss ps, l.Holds pss ps ∧ pss.flatten ++ ps = L

theorem empty_stores : empty.Stores [] :=
  ⟨[], [], empty_holds, rfl⟩

theorem Stores.endOffset (h : l.Stores L) : l.endOffset = L.length := by
  obtain ⟨pss, ps, h, rfl⟩ := h
  rw [Log.endOffset, h.nextOffset, List.length_append]
  push_cast
  rfl

theorem Stores.length_lt (h : l.Stores L) : L.length < 2 ^ 63 := by
  have hend := h.endOffset
  have ⟨_, _, h, _⟩ := h
  have := h.nextOffset_lt
  rw [← Log.endOffset] at this
  omega

theorem Stores.payload_lt (h : l.Stores L) : ∀ p ∈ L, p.length < 2 ^ 32 := by
  obtain ⟨pss, ps, h, rfl⟩ := h
  exact List.forall_mem_append.mpr ⟨h.sealed.payload_lt, h.active.payload_lt⟩

theorem Stores.startOffset (h : l.Stores L) : l.startOffset = 0 := by
  obtain ⟨pss, ps, h, rfl⟩ := h
  have hsealed := h.sealed
  simp only [Log.startOffset, segments, List.head_append]
  split
  case isTrue hnil =>
    have hlen := hsealed.length_eq
    rw [List.isEmpty_iff.mp hnil, List.length_nil] at hlen
    simpa [List.length_eq_zero_iff.mp hlen.symm] using h.base
  case isFalse => exact hsealed.head_baseOffset _ (List.head?_eq_some_head _)

-- The append of the list, simulated by the append of the log.
theorem Stores.appendWithOffset {p : Bytes} (h : l.Stores L) (stamp : Stamp) (hp : p.length < 2 ^ 32)
    (hlen : L.length + 1 < 2 ^ 63) :
    ∃ l', l.appendWithOffset p stamp = (l', (listAppend false L p stamp).snd) ∧
      l'.Stores (listAppend false L p stamp).fst := by
  have hend : l.nextOffset = L.length := h.endOffset
  have ⟨pss, ps, h, hL⟩ := h
  have hnext : l.nextOffset + 1 < 2 ^ 63 := by
    rw [hend]
    exact_mod_cast hlen
  have ⟨l', pss', ps', happend, h', hflat, _⟩ := h.appendWithOffset stamp hp hnext
  refine ⟨l', by rw [happend, hend]; rfl, pss', ps', h', ?_⟩
  rw [hflat, hend, hL]
  rfl

theorem Stores.append {p : Bytes} (h : l.Stores L) (hp : p.length < 2 ^ 32) (hlen : L.length + 1 < 2 ^ 63) :
    ∃ l', l.append p = (l', .ok L.length) ∧ l'.Stores (L ++ [p]) :=
  h.appendWithOffset .none hp hlen

theorem Stores.openFiles_close (h : l.Stores L) : ∃ l', openFiles l.close = .ok l' ∧ l'.Stores L := by
  have ⟨pss, ps, h, hL⟩ := h
  have ⟨l', hopen, h'⟩ := h.openFiles_close
  exact ⟨l', hopen, pss, ps, h', hL⟩

theorem Stores.read (h : l.Stores L) (ho : 0 ≤ o) (m : Int) :
    ∃ rs, l.read o m = .ok rs ∧ l.ReadsAs L o m rs := by
  obtain ⟨pss, ps, h, rfl⟩ := h
  exact h.read ho m

theorem Stores.read_of_le (h : l.Stores L) (ho : L.length ≤ o) (m : Int) : l.read o m = .ok [] := by
  have hnonneg : 0 ≤ o := by omega
  obtain ⟨rs, hread, hrs⟩ := h.read hnonneg m
  rw [hread, hrs.empty_iff.mpr ho]

-- A read below the end gets at least one record.
theorem Stores.read_of_lt (h : l.Stores L) (ho : 0 ≤ o) (hlt : o < L.length) (m : Int) :
    ∃ k, 0 < k ∧ o.toNat + k ≤ L.length ∧ l.read o m = .ok (recordsFrom o ((L.drop o.toNat).take k)) := by
  obtain ⟨rs, hread, hrs⟩ := h.read ho m
  have hne : rs ≠ [] := fun heq => by
    have := hrs.empty_iff.mp heq
    omega
  have hlen : ((L.drop o.toNat).take rs.length).length = rs.length := by
    conv_rhs => rw [hrs.consecutive, length_recordsFrom]
  rw [List.length_take, List.length_drop] at hlen
  refine ⟨rs.length, List.length_pos_iff.mpr hne, by omega, ?_⟩
  rw [hread, ← hrs.consecutive]

-- A reader that starts at the first offset sees the payloads `L` and nothing behind them.
structure Shows (l : Log) (L : List Bytes) : Prop where
  length_lt : L.length < 2 ^ 63
  le_end    : (L.length : Int) ≤ l.endOffset
  read      : ∀ o m : Int, 0 ≤ o → o ≤ L.length → ∃ k, l.read o m = .ok (recordsFrom o ((L.drop o.toNat).take k)) ∧
    o.toNat + k ≤ L.length ∧ (o < L.length → 0 < k)

theorem Stores.shows (h : l.Stores L) : l.Shows L where
  length_lt := h.length_lt
  le_end := h.endOffset.ge
  read o m ho hle := by
    obtain hlt | rfl := hle.lt_or_eq
    case inl =>
      obtain ⟨k, hk, hlen, hread⟩ := h.read_of_lt ho hlt m
      exact ⟨k, hread, hlen, fun _ => hk⟩
    case inr => exact ⟨0, by rw [h.read_of_le le_rfl, List.take_zero]; rfl, by simp,
      fun hlt => absurd hlt (lt_irrefl _)⟩

theorem Stores.read_neg (h : l.Stores L) (ho : o < 0) (m : Int) : l.read o m = .ok [] := by
  obtain ⟨pss, ps, h, rfl⟩ := h
  simp [Log.read, h.active.healthy, segmentForOffset, ho]

theorem Stores.readAll (h : l.Stores L) (maxBytes : Int → Int) {fuel : Nat} (ho : 0 ≤ o)
    (hf : L.length < o.toNat + fuel) (hf' : 0 < fuel) :
    l.readAll maxBytes fuel o = .ok (recordsFrom o (L.drop o.toNat)) := by
  induction fuel generalizing o
  case zero => contradiction
  case succ fuel hi =>
    obtain ⟨rs, hread, hrs⟩ := h.read ho (maxBytes o)
    simp only [Log.readAll, hread]
    by_cases hnil : rs = []
    case pos =>
      have := hrs.empty_iff.mp hnil
      rw [hnil, List.drop_of_length_le (by omega)]
      rfl
    case neg =>
      set k := rs.length with hk
      have hpos : 0 < k := List.length_pos_iff.mpr hnil
      have hlen : ((L.drop o.toNat).take k).length = k := by
        conv_rhs => rw [hk, hrs.consecutive, length_recordsFrom]
      have hne : (L.drop o.toNat).take k ≠ [] := by
        rw [← List.length_pos_iff, hlen]
        exact hpos
      obtain ⟨r, hr, hlast⟩ := exists_getLast?_recordsFrom hne o
      rw [← hrs.consecutive] at hr
      rw [hlen] at hlast
      have hto : (o + k).toNat = o.toNat + k := by omega
      have hle : k ≤ L.length - o.toNat := by
        rw [List.length_take, List.length_drop] at hlen
        omega
      simp only [hr, hlast]
      rw [hi (by omega) (by omega) (by omega), hto]
      conv_lhs => rw [hrs.consecutive, ← hk]
      conv_rhs => rw [← List.take_append_drop k (L.drop o.toNat), recordsFrom_append, hlen, List.drop_drop]

theorem Stores.refines (h : l.Stores L) : l.Refines L where
  endOffset := h.endOffset
  startOffset := h.startOffset
  read o m ho _ := h.read ho m
  readAll maxBytes fuel hf := by
    simpa using h.readAll maxBytes (o := 0) le_rfl (by simpa using hf) (by omega)

theorem Refines.entries (h : l.Refines L) : l.entries = .ok L := by
  rw [Log.entries, h.readAll _ _ (by rw [h.endOffset]; simp)]
  exact congrArg Except.ok (map_payload_recordsFrom 0 L)

end Log

namespace Op

variable {loc : Location} {l : Log} {L : List Bytes}

theorem length_apply (L : List Bytes) (op : Op) :
    (op.apply L).length = L.length + if op.isAppend then 1 else 0 := by
  cases op <;> simp [apply, isAppend, listAppend]

-- One operation of the log, simulated by the same operation of the list.
theorem exec_stores (hloc : Ordinary loc.dir) (h : l.Stores L) {op : Op} (hv : op.Valid)
    (hlen : (op.apply L).length < 2 ^ 63) :
    ∃ l' a, op.exec loc l = .ok (l', a) ∧ l'.Stores (op.apply L) ∧
      a.offset? = if op.isAppend then some (L.length : Int) else none := by
  cases op
  case append p stamp =>
    have ⟨l', happend, h'⟩ := h.appendWithOffset stamp hv (by simpa [apply, listAppend] using hlen)
    exact ⟨l', .offset L.length, by simp [exec, happend, listAppend], h', by simp [isAppend, Answer.offset?]⟩
  case read o m =>
    by_cases ho : o < 0
    case pos => exact ⟨l, .records [], by simp [exec, h.read_neg ho], h, rfl⟩
    case neg =>
      obtain ⟨rs, hrs, _⟩ := h.read (not_lt.mp ho) m
      exact ⟨l, .records rs, by simp [exec, hrs], h, rfl⟩
  case reopen =>
    obtain ⟨pss, ps, h, rfl⟩ := h
    obtain ⟨l', hopen, h'⟩ := h.openFiles_close
    exact ⟨l', .opened, by simp [exec, hloc.openLog_eq, hopen], ⟨pss, ps, h', rfl⟩, rfl⟩

end Op

variable {loc : Location} {l : Log} {L : List Bytes} {ops : List Op}

theorem length_appended (L : List Bytes) (ops : List Op) :
    (appended L ops).length = L.length + ops.countP Op.isAppend := by
  induction ops generalizing L
  case nil => rfl
  case cons op ops hi =>
    rw [appended, List.foldl_cons, ← appended, hi, Op.length_apply, List.countP_cons]
    omega

theorem exec_stores (hloc : Ordinary loc.dir) (h : l.Stores L) (hv : ∀ op ∈ ops, op.Valid)
    (hlen : (appended L ops).length < 2 ^ 63) :
    ∃ l' as, exec loc l ops = .ok (l', as) ∧ l'.Stores (appended L ops) ∧
      as.filterMap Answer.offset? =
        (List.range' L.length (ops.countP Op.isAppend)).map (fun k : Nat => (k : Int)) := by
  induction ops generalizing l L
  case nil => exact ⟨l, [], rfl, h, rfl⟩
  case cons op ops hi =>
    have hlen' : (op.apply L).length < 2 ^ 63 := by
      rw [appended, List.foldl_cons, ← appended, length_appended] at hlen
      omega
    obtain ⟨l₁, a, hop, h₁, ha⟩ := Op.exec_stores hloc h (hv op (by simp)) hlen'
    obtain ⟨l₂, as, hops, h₂, has⟩ := hi h₁ (fun o ho => hv o (by simp [ho])) hlen
    refine ⟨l₂, a :: as, by simp [exec, hop, hops], h₂, ?_⟩
    rw [List.filterMap_cons, ha, has, Op.length_apply, List.countP_cons]
    cases op.isAppend
    case false => simp
    case true  => simp [List.range'_succ]

-- Whatever is done with a log that starts in an empty directory, nothing fails, appends are numbered
-- from zero and the log is the list of all payloads appended so far.
theorem exec_refines (hloc : Ordinary loc.dir) (ops : List Op) (hv : ∀ op ∈ ops, op.Valid)
    (hlen : (appended [] ops).length < 2 ^ 63) :
    ∃ l₀ l as, loc.openLog [] = .ok l₀ ∧ exec loc l₀ ops = .ok (l, as) ∧
      as.filterMap Answer.offset? =
        (List.range (appended [] ops).length).map (fun k : Nat => (k : Int)) ∧
      l.Refines (appended [] ops) := by
  obtain ⟨l, as, hexec, h, has⟩ := exec_stores hloc Log.empty_stores hv hlen
  refine ⟨.empty, l, as, hloc.openLog_eq [], hexec, ?_, h.refines⟩
  rw [has, length_appended, List.range_eq_range', List.length_nil, Nat.zero_add]

-- The directory `d/t-0` in a file system without any other.
def sampleLocation : Location where
  disk := .empty
  dir  := ⟨false, [[100], [116, 45, 48]]⟩

theorem exec_refines_append_reopen :
    ∃ l₀ l as, sampleLocation.openLog [] = .ok l₀ ∧
      exec sampleLocation l₀ [.append [1, 2] .none, .reopen, .append [3] .none] = .ok (l, as) ∧
      as.filterMap Answer.offset? = (List.range 2).map (fun k : Nat => (k : Int)) ∧
      l.Refines [[1, 2], [3]] :=
  exec_refines (by decide +kernel) [.append [1, 2] .none, .reopen, .append [3] .none] (by simp [Op.Valid]) (by decide)

-- The directory `d/x[1]-0`. Its path is a pattern for `d/x1-0`.
def bracketedLocation : Location where
  disk := .empty
  dir  := ⟨false, [[100], [120, 91, 49, 93, 45, 48]]⟩

-- `Glob` does not find the segment again.
theorem bracketed_not_refines :
    ∃ l₀ l as, bracketedLocation.openLog [] = .ok l₀ ∧
      exec bracketedLocation l₀ [.append [7] .none, .reopen] = .ok (l, as) ∧ l.endOffset = 0 ∧ ¬l.Refines [[7]] := by
  have hopen : bracketedLocation.openLog [] = .ok .empty := by decide +kernel
  have hexec : (exec bracketedLocation .empty [.append [7] .none, .reopen]).toOption.map
      (·.fst.endOffset) = some 0 := by
    decide +kernel
  obtain ⟨⟨l, as⟩, hsome, hend⟩ := Option.map_eq_some_iff.mp hexec
  refine ⟨.empty, l, as, hopen, eq_ok_of_toOption hsome, hend, fun h => ?_⟩
  exact absurd (hend.symm.trans h.endOffset) (by decide)

section Crash

theorem survivors_eq (before ps : List Bytes) (n : Nat) :
    survivors (before ++ ps) before.length n = before ++ intact n ps := by
  have hle : (intact n ps).length ≤ ps.length := (intact_isPrefix n ps).length_le
  have htake : ∀ k, ((before ++ ps).take k).drop before.length = ps.take (k - before.length) := by
    intro k
    rw [List.take_append, List.drop_append]
    by_cases hk : k ≤ before.length
    · simp [Nat.sub_eq_zero_of_le hk]
    · simp [Nat.min_eq_right (not_le.mp hk).le]
  have hintact : ps.take (intact n ps).length = intact n ps :=
    (List.prefix_iff_eq_take.mp (intact_isPrefix n ps)).symm
  have hfind : Nat.findGreatest (fun k => entriesSize (((before ++ ps).take k).drop before.length) ≤ n)
      (before ++ ps).length = before.length + (intact n ps).length := by
    rw [Nat.findGreatest_eq_iff]
    refine ⟨by simpa using hle, fun _ => ?_, fun k hk hkl hc => ?_⟩
    · rw [htake, Nat.add_sub_cancel_left, hintact]
      exact entriesSize_intact_le n ps
    · rw [htake] at hc
      have hlong := length_le_intact (List.take_prefix (k - before.length) ps) hc
      rw [List.length_append] at hkl
      rw [List.length_take] at hlong
      omega
  rw [survivors, hfind, List.take_length_add_append, hintact]

variable {es : List Event}

theorem Log.Stores.openFiles_crash (h : l.Stores L) (n m : Nat) :
    ∃ l', openFiles (l.crash n m) = .ok l' ∧ l'.Stores (survivors L l.active.baseOffset.toNat n) := by
  obtain ⟨pss, ps, h, rfl⟩ := h
  obtain ⟨l', hopen, h'⟩ := h.openFiles_crash n m
  refine ⟨l', hopen, pss, intact n ps, h', ?_⟩
  rw [h.base, Int.toNat_natCast, survivors_eq]

theorem length_survivors_le (L : List Bytes) (base n : Nat) : (survivors L base n).length ≤ L.length :=
  (List.take_prefix ..).length_le

theorem replay_stores (hloc : Ordinary loc.dir) (h : l.Stores L) (hv : ∀ e ∈ es, e.Valid)
    (hlen : L.length + es.countP Event.isAppend < 2 ^ 63) :
    ∃ l' L', replay loc l L es = .ok (l', L') ∧ l'.Stores L' ∧
      L'.length ≤ L.length + es.countP Event.isAppend := by
  induction es generalizing l L
  case nil => exact ⟨l, L, rfl, h, by simp⟩
  case cons e es hi =>
    have hv' : ∀ e ∈ es, e.Valid := fun e he => hv e (by simp [he])
    rw [List.countP_cons] at hlen ⊢
    cases e
    case op o =>
      have ho : (o.apply L).length + es.countP Event.isAppend =
          L.length + (es.countP Event.isAppend + if (Event.op o).isAppend then 1 else 0) := by
        rw [Op.length_apply, Event.isAppend, Nat.add_right_comm, Nat.add_assoc]
      rw [← ho] at hlen ⊢
      obtain ⟨l₁, a, hop, h₁, _⟩ := Op.exec_stores hloc h (hv (.op o) (by simp)) (by omega)
      obtain ⟨l₂, L₂, hes, h₂, hle⟩ := hi h₁ hv' hlen
      exact ⟨l₂, L₂, by simp [replay, hop, hes], h₂, hle⟩
    case crash n m =>
      have hs := length_survivors_le L l.active.baseOffset.toNat n
      obtain ⟨l₁, hopen, h₁⟩ := h.openFiles_crash n m
      obtain ⟨l₂, L₂, hes, h₂, hle⟩ := hi h₁ hv' (by omega)
      exact ⟨l₂, L₂, by simp [replay, hloc.openLog_eq, hopen, hes], h₂, by omega⟩

theorem length_survivors_of_lt (L : List Bytes) {base n : Nat} (hb : base ≤ L.length)
    (hn : ∀ p ∈ L[base]?, n < entryHeaderSize + p.length) : (survivors L base n).length = base := by
  have hL := List.take_append_drop base L
  have hlen : (L.take base).length = base := by simpa using hb
  have hs := survivors_eq (L.take base) (L.drop base) n
  rw [hL, hlen] at hs
  rw [hs, List.length_append, hlen]
  cases hd : L.drop base
  case nil => rfl
  case cons p ps =>
    have hp : L[base]? = some p := by
      rw [← List.head?_drop, hd]
      rfl
    have := hn p hp
    simp only [intact]
    rw [if_neg (by omega)]
    rfl

theorem Log.Stores.baseOffset_toNat_le (h : l.Stores L) : l.active.baseOffset.toNat ≤ L.length := by
  obtain ⟨pss, ps, h, rfl⟩ := h
  rw [h.base]
  simp

-- After any history of appends, restarts and crashes, one more crash loses exactly the records whose
-- bytes are not wholly on disk, and the numbering goes on behind the others.
theorem openLog_crash_refines (hloc : Ordinary loc.dir) (es : List Event) (hv : ∀ e ∈ es, e.Valid)
    (hlen : es.countP Event.isAppend < 2 ^ 63) :
    ∃ l₀ l L, loc.openLog [] = .ok l₀ ∧ replay loc l₀ [] es = .ok (l, L) ∧
      ∀ n m, ∃ l', loc.openLog (l.crash n m) = .ok l' ∧
        let L' := survivors L l.active.baseOffset.toNat n
        l'.Refines L' ∧
        ((∀ p ∈ L[l.active.baseOffset.toNat]?, n < entryHeaderSize + p.length) →
          l'.endOffset = l.active.baseOffset) ∧
        ∀ ops : List Op, (∀ op ∈ ops, op.Valid) → (appended L' ops).length < 2 ^ 63 →
          ∃ l'' as, exec loc l' ops = .ok (l'', as) ∧
            as.filterMap Answer.offset? =
              (List.range' L'.length (ops.countP Op.isAppend)).map (fun k : Nat => (k : Int)) ∧
            l''.Refines (appended L' ops) := by
  obtain ⟨l, L, hreplay, h, _⟩ := replay_stores hloc Log.empty_stores hv (by simpa using hlen)
  refine ⟨.empty, l, L, hloc.openLog_eq [], hreplay, fun n m => ?_⟩
  obtain ⟨l', hcrash, h'⟩ := h.openFiles_crash n m
  refine ⟨l', by rw [hloc.openLog_eq, hcrash], h'.refines, fun hnone => ?_, fun ops hops hl => ?_⟩
  · rw [h'.endOffset, length_survivors_of_lt L h.baseOffset_toNat_le hnone]
    obtain ⟨pss, ps, h, _⟩ := h
    rw [h.base, Int.toNat_natCast]
  · obtain ⟨l'', as, hexec, h'', has⟩ := exec_stores hloc h' hops hl
    exact ⟨l'', as, hexec, has, h''.refines⟩

theorem openLog_crash_refines_torn_header :
    ∃ l₀ l L, sampleLocation.openLog [] = .ok l₀ ∧
      replay sampleLocation l₀ [] [.op (.append [1, 2] .none), .crash 3 0, .op (.append [3] .none)] = .ok (l, L) ∧
      ∀ n m, ∃ l', sampleLocation.openLog (l.crash n m) = .ok l' ∧
        l'.Refines (survivors L l.active.baseOffset.toNat n) := by
  have hloc : Ordinary sampleLocation.dir := by decide +kernel
  obtain ⟨l₀, l, L, hopen, hreplay, h⟩ := openLog_crash_refines hloc
    [.op (.append [1, 2] .none), .crash 3 0, .op (.append [3] .none)] (by simp [Event.Valid, Op.Valid]) (by decide)
  refine ⟨l₀, l, L, hopen, hreplay, fun n m => ?_⟩
  obtain ⟨l', hcrash, hl', -⟩ := h n m
  exact ⟨l', hcrash, hl'⟩

-- Nothing is cut off, and still the record is not found.
theorem bracketed_not_recovered :
    ∃ l₀ l L l', bracketedLocation.openLog [] = .ok l₀ ∧
      replay bracketedLocation l₀ [] [.op (.append [7] .none)] = .ok (l, L) ∧
      survivors L l.active.baseOffset.toNat l.active.logFile.length = [[7]] ∧
      bracketedLocation.openLog (l.crash l.active.logFile.length l.active.indexFile.length) = .ok l' ∧
      l'.endOffset = 0 ∧ ¬l'.Refines [[7]] := by
  have hopen : bracketedLocation.openLog [] = .ok .empty := by decide +kernel
  have hreplay : (replay bracketedLocation .empty [] [.op (.append [7] .none)]).toOption.map (fun r =>
      (survivors r.snd r.fst.active.baseOffset.toNat r.fst.active.logFile.length,
        (bracketedLocation.openLog (r.fst.crash r.fst.active.logFile.length r.fst.active.indexFile.length)).toOption.map
          (·.endOffset))) = some ([[7]], some 0) := by
    decide +kernel
  obtain ⟨⟨l, L⟩, hsome, heq⟩ := Option.map_eq_some_iff.mp hreplay
  obtain ⟨hsurvivors, hcrash⟩ := Prod.mk.inj heq
  obtain ⟨l', hl', hend⟩ := Option.map_eq_some_iff.mp hcrash
  refine ⟨.empty, l, L, l', hopen, eq_ok_of_toOption hsome, hsurvivors, eq_ok_of_toOption hl', hend, ?_⟩
  exact fun h => absurd (hend.symm.trans h.endOffset) (by decide)

end Crash
end Storage
