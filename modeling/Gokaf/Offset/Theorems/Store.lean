import Gokaf.Offset.Store
import Gokaf.Protocol.Theorems.Types
import Gokaf.Storage.Theorems.Attempts

open Go Protocol

namespace Offset

variable {c : Commit} {commits cs : List Commit} {key : Key} {log : Storage.Log} {s : Store} {op : Op} {ops : List Op}
  {loc : Storage.Location}

@[simp]
theorem length_writeString (s : Bytes) : (writeString s).length = 2 + s.length := by
  simp [writeString, writeInt16]

theorem length_payload (c : Commit) : c.payload.length = 24 + c.key.group.length + c.key.topic.length := by
  simp only [Commit.payload, encodeEntry, List.length_append, length_writeString, writeInt32, writeInt64, length_putInt]
  omega

theorem Commit.Valid.payload_lt (h : c.Valid) : c.payload.length < 2 ^ 32 := by
  have := h.group
  have := h.topic
  rw [length_payload]
  omega

-- The bytes of an entry are read back, whatever follows them. The time is not looked at.
theorem reads_readEntry (h : c.Valid) : Reads readEntry c.payload (c.key, c.offset) := by
  have := h.group
  have := h.topic
  have hpartition := reads_readInt32 c.key.partition
  rw [wrap_of_mem (by decide) h.partition.left h.partition.right] at hpartition
  have hoffset := reads_readInt64 c.offset
  rw [wrap_of_mem (by decide) h.offset.left h.offset.right] at hoffset
  rw [Commit.payload, encodeEntry]
  simp only [List.append_assoc]
  exact (reads_readString (by omega)).bind ((reads_readString (by omega)).bind (hpartition.bind (hoffset.bind
    ((reads_readInt64 c.now).bind_pure fun _ => (c.key, c.offset)))))

theorem decodeEntry_payload (h : c.Valid) : decodeEntry c.payload = .ok (c.key, c.offset) := by
  have hreads := reads_readEntry h []
  rw [List.append_nil] at hreads
  rw [decodeEntry, hreads]
  rfl

-- The offsets after some commits.
def committed (offsets : Offsets) (commits : List Commit) : Offsets :=
  commits.foldl (fun offsets c => offsets.insert c.key c.offset) offsets

theorem committed_append (offsets : Offsets) (commits cs : List Commit) :
    committed offsets (commits ++ cs) = committed (committed offsets commits) cs :=
  List.foldl_append

theorem lookup_committed (commits : List Commit) (key : Key) :
    (committed ∅ commits).lookup key = (commits.reverse.find? (·.key = key)).map (·.offset) := by
  induction commits using List.reverseRecOn
  case nil => rfl
  case append_singleton commits c hi =>
    rw [committed_append, List.reverse_append, List.reverse_singleton, List.singleton_append, List.find?_cons]
    by_cases hkey : c.key = key
    case pos => simp [committed, hkey]
    case neg =>
      rw [committed, List.foldl_cons, List.foldl_nil, Finmap.lookup_insert_of_ne _ (Ne.symm hkey), hi]
      simp [hkey]

theorem lookup_committed_getD (commits : List Commit) (key : Key) :
    ((committed ∅ commits).lookup key).getD (-1) = lastOffset commits key := by
  rw [lookup_committed, lastOffset]
  cases commits.reverse.find? (·.key = key) <;> rfl

-- A round of `replay` takes in the commits whose records it has read.
theorem foldlM_replayRecord (cs : List Commit) (hvalid : ∀ c ∈ cs, c.Valid) {o : Int} (ho : 0 ≤ o)
    (hlt : o + cs.length < 2 ^ 63) (offsets : Offsets) (next : Int) :
    (Storage.recordsFrom o (cs.map Commit.payload)).foldlM replayRecord (offsets, next) =
      .ok (committed offsets cs, if cs = [] then next else o + cs.length) := by
  induction cs generalizing o offsets next
  case nil => rfl
  case cons c cs hi =>
    obtain ⟨hc, hcs⟩ := List.forall_mem_cons.mp hvalid
    rw [List.length_cons] at hlt
    have hnext : int64 (o + 1) = o + 1 := wrap_of_nonneg (by decide) (by omega) (by omega)
    rw [List.map_cons, Storage.recordsFrom, List.foldlM_cons, replayRecord, decodeEntry_payload hc]
    change (Storage.recordsFrom (o + 1) (cs.map Commit.payload)).foldlM replayRecord _ = _
    rw [hi hcs (by omega) (by omega), hnext]
    cases cs
    case nil => simp [committed]
    case cons => simp [committed]; omega

-- A round that reads the records of the commits `cs`.
theorem replay_go_succ {next : Int} {fuel : Nat} {offsets : Offsets} (hnext : 0 ≤ next)
    (hlt : next + cs.length < 2 ^ 63)
    (hvalid : ∀ c ∈ cs, c.Valid) (hne : cs ≠ [])
    (hread : log.read next (-1) = .ok (Storage.recordsFrom next (cs.map Commit.payload))) :
    replay.go log (fuel + 1) next offsets = replay.go log fuel (next + cs.length) (committed offsets cs) := by
  have hfold := foldlM_replayRecord cs hvalid hnext hlt offsets next
  rw [if_neg hne] at hfold
  rw [replay.go, hread]
  obtain ⟨c, cs, rfl⟩ := List.exists_cons_of_ne_nil hne
  change ((Storage.recordsFrom next ((c :: cs).map Commit.payload)).foldlM replayRecord (offsets, next) >>= fun r =>
    replay.go log fuel r.snd r.fst) = _
  rw [hfold]
  rfl

theorem replay_go_eq (h : log.Shows (commits.map Commit.payload)) (hvalid : ∀ c ∈ commits, c.Valid) {next : Nat}
    (hle : next ≤ commits.length) {fuel : Nat} (hfuel : commits.length < next + fuel) :
    replay.go log fuel next (committed ∅ (commits.take next)) = .ok (committed ∅ commits) := by
  have hlen := h.length_lt
  rw [List.length_map] at hlen
  induction fuel generalizing next
  case zero => omega
  case succ fuel hi =>
    obtain ⟨k, hread, hk, hpos⟩ := h.read next (-1) (Int.natCast_nonneg next) (by rw [List.length_map]; omega)
    rw [List.length_map, Int.toNat_natCast] at hk
    rw [Int.toNat_natCast, ← List.map_drop, ← List.map_take] at hread
    rw [List.length_map] at hpos
    have hcount : ((commits.drop next).take k).length = k := by
      rw [List.length_take, List.length_drop]
      omega
    cases Nat.eq_zero_or_pos k
    case inl hzero =>
      have hend : commits.length ≤ next := by
        by_contra hlt
        have := hpos (by omega)
        omega
      rw [replay.go, hread, hzero, List.take_zero, List.take_of_length_le hend]
      rfl
    case inr hpos =>
      have hne : (commits.drop next).take k ≠ [] := List.length_pos_iff.mp (by omega)
      rw [replay_go_succ (Int.natCast_nonneg next) (by rw [hcount]; omega)
        (fun c hc => hvalid c (List.mem_of_mem_drop (List.mem_of_mem_take hc))) hne hread,
        hcount, ← committed_append, ← List.take_add, ← Int.natCast_add]
      exact hi (by omega) (by omega)

theorem replay_eq (h : log.Shows (commits.map Commit.payload)) (hvalid : ∀ c ∈ commits, c.Valid) :
    replay log = .ok (committed ∅ commits) := by
  have hend := h.le_end
  rw [List.length_map] at hend
  exact replay_go_eq h hvalid (Nat.zero_le _) (by omega)

-- The records of the commits, as the log has them.
def recordsOf (commits : List Commit) : List Storage.Record :=
  Storage.recordsFrom 0 (commits.map Commit.payload)

theorem payloads_recordsOf (commits : List Commit) : (recordsOf commits).map (·.payload) = commits.map Commit.payload :=
  Storage.map_payload_recordsFrom 0 _

theorem recordsOf_snoc (commits : List Commit) (c : Commit) :
    recordsOf (commits ++ [c]) = recordsOf commits ++ [⟨commits.length, c.payload⟩] := by
  rw [recordsOf, List.map_append, Storage.recordsFrom_append, List.length_map, Int.zero_add]
  rfl

-- The store has the given commits, in its log and in memory.
structure Store.Has (s : Store) (commits : List Commit) : Prop where
  keeps   : s.log.Keeps (recordsOf commits)
  valid   : ∀ c ∈ commits, c.Valid
  offsets : s.offsets = committed ∅ commits

theorem newStore_eq (h : log.Shows (commits.map Commit.payload)) (hvalid : ∀ c ∈ commits, c.Valid) :
    newStore log = .ok ⟨log, committed ∅ commits⟩ := by
  rw [newStore, replay_eq h hvalid]
  rfl

theorem empty_has : Store.empty.Has [] :=
  ⟨Storage.Attempt.empty_keeps, by simp, rfl⟩

namespace Store.Has

theorem nextOffset (h : s.Has commits) : s.log.nextOffset = commits.length := by
  have hend : s.log.nextOffset = _ := h.keeps.endOffset
  rwa [recordsOf, Storage.length_recordsFrom, List.length_map] at hend

theorem fetch (h : s.Has commits) (key : Key) : s.fetch key = lastOffset commits key := by
  rw [Store.fetch, h.offsets, lookup_committed_getD]

-- A commit that fails changes nothing.
theorem commit (h : s.Has commits) {fault : Option Storage.Fault} (hc : c.Valid)
    (hf : s.log.Bears (Storage.entryHeaderSize + c.payload.length) fault) (hlen : commits.length + 1 < 2 ^ 63) :
    (∃ s', s.commit c.now c.key c.offset fault = (s', .ok ()) ∧ s'.Has (commits ++ [c])) ∨
      fault ≠ none ∧ ∃ s', s.commit c.now c.key c.offset fault = (s', .error .failed) ∧ s'.Has commits := by
  have hend : s.log.nextOffset + 1 < 2 ^ 63 := by
    rw [h.nextOffset]
    omega
  have hpayload : encodeEntry c.key c.offset c.now = c.payload := rfl
  obtain ⟨log, happend, hlog⟩ | ⟨hfault, log, happend, hlog, -⟩ :=
    h.keeps.appendWithOffset .none hc.payload_lt hend hf
  case inl =>
    refine .inl ⟨⟨log, s.offsets.insert c.key c.offset⟩, ?_, ?_, ?_, ?_⟩
    · rw [Store.commit, hpayload, Storage.Log.append, happend]
    · rw [recordsOf_snoc, ← h.nextOffset]
      exact hlog
    · exact List.forall_mem_append.mpr ⟨h.valid, by simpa using hc⟩
    · rw [committed_append, ← h.offsets]
      rfl
  case inr =>
    refine .inr ⟨hfault, ⟨log, s.offsets⟩, ?_, hlog, h.valid, h.offsets⟩
    rw [Store.commit, hpayload, Storage.Log.append, happend]

theorem restart (hloc : Storage.Ordinary loc.dir) (h : s.Has commits) :
    ∃ s', openStore loc s.log.close = .ok s' ∧ s'.Has commits := by
  obtain ⟨log, hopen, hstores, hkeeps, -⟩ := h.keeps.openFiles_close
  rw [payloads_recordsOf] at hstores
  refine ⟨⟨log, committed ∅ commits⟩, ?_, hkeeps, h.valid, rfl⟩
  rw [openStore, hloc.openLog_eq, hopen]
  exact newStore_eq hstores.shows h.valid

end Store.Has

-- If `n` bytes of the last segment are left, those of the `i`-th commit are among them or in an earlier segment.
def OnDisk (s : Store) (commits : List Commit) (n i : Nat) : Prop :=
  Storage.entriesSize (((commits.map Commit.payload).take (i + 1)).drop s.log.active.baseOffset.toNat) ≤ n

-- A crash leaves the first commits, and of these all that are on disk.
theorem Store.Has.crash (hloc : Storage.Ordinary loc.dir) (h : s.Has commits) (n : Nat) {m : Nat}
    (hm : s.log.active.indexFile.length % Storage.indexEntrySize = 0 ∨ s.log.active.indexFile.length ≤ m) :
    ∃ k s', openStore loc (s.log.crash n m) = .ok s' ∧ s'.offsets = committed ∅ (commits.take k) ∧
      ∀ i < commits.length, OnDisk s commits n i → i < k := by
  have hindex : s.log.active.indexFile = Storage.encodeIndex s.log.active.index ∨ s.log.active.indexFile.length ≤ m :=
    hm.imp_left fun hmod => (h.keeps.mendable).resolve_right (absurd hmod)
  obtain ⟨log, hopen, hlog⟩ := h.keeps.openFiles_crash n hindex
  rw [payloads_recordsOf, Storage.survivors, ← List.map_take] at hlog
  have hnew := newStore_eq hlog fun c hc => h.valid c (List.mem_of_mem_take hc)
  refine ⟨_, _, by rw [openStore, hloc.openLog_eq, hopen]; exact hnew, rfl, fun i hi hdisk => ?_⟩
  exact Nat.le_findGreatest (by rw [List.length_map]; omega) hdisk

-- The committed offsets are those of the last commits, also after a restart. After a crash they are those of
-- the last ones among the commits that are left. An index file that a failed commit has torn must not be cut then.
structure Store.Survives (loc : Storage.Location) (s : Store) (commits : List Commit) : Prop where
  fetch   : ∀ key, s.fetch key = lastOffset commits key
  restart : ∃ s', openStore loc s.log.close = .ok s' ∧ ∀ key, s'.fetch key = s.fetch key
  crash   : ∀ n m, s.log.active.indexFile.length % Storage.indexEntrySize = 0 ∨ s.log.active.indexFile.length ≤ m →
    ∃ k s', openStore loc (s.log.crash n m) = .ok s' ∧ (∀ key, s'.fetch key = lastOffset (commits.take k) key) ∧
      ∀ i < commits.length, OnDisk s commits n i → i < k

theorem Store.Has.survives (hloc : Storage.Ordinary loc.dir) (h : s.Has commits) : s.Survives loc commits where
  fetch   := h.fetch
  restart := by
    obtain ⟨s', hopen, hs'⟩ := h.restart hloc
    exact ⟨s', hopen, fun key => by rw [hs'.fetch, h.fetch]⟩
  crash n m hm := by
    obtain ⟨k, s', hopen, hoffsets, hdisk⟩ := h.crash hloc n hm
    exact ⟨k, s', hopen, fun key => by rw [Store.fetch, hoffsets, lookup_committed_getD], hdisk⟩

section Step

variable {s' : Store} {fault : Option Storage.Fault}

theorem step_commit_ok (h : s.commit c.now c.key c.offset fault = (s', .ok ())) :
    (machine loc).step s (.commit c fault) = some (s', [c]) := by
  simp only [machine, h]

theorem step_commit_error {e : IOError} (h : s.commit c.now c.key c.offset fault = (s', .error e)) :
    (machine loc).step s (.commit c fault) = some (s', []) := by
  simp only [machine, h]

theorem step_restart (h : openStore loc s.log.close = .ok s') : (machine loc).step s .restart = some (s', []) := by
  simp only [machine, h]

end Step

theorem step_has (hloc : Storage.Ordinary loc.dir) (h : s.Has commits) (hc : op.Harmless s)
    (hlen : commits.length + 1 < 2 ^ 63) :
    ∃ s' o, (machine loc).step s op = some (s', o) ∧ s'.Has (commits ++ o) ∧ o.length ≤ 1 ∧
      (op.fault? = none → o = op.commit?.toList) := by
  cases op
  case commit c fault =>
    obtain ⟨s', hcommit, hs'⟩ | ⟨hfault, s', hcommit, hs'⟩ := h.commit hc.left hc.right hlen
    case inl => exact ⟨s', [c], step_commit_ok hcommit, hs', le_rfl, fun _ => rfl⟩
    case inr =>
      exact ⟨s', [], step_commit_error hcommit, by rwa [List.append_nil], by simp, fun hnone => absurd hnone hfault⟩
  case restart =>
    obtain ⟨s', hopen, hs'⟩ := h.restart hloc
    exact ⟨s', [], step_restart hopen, by rwa [List.append_nil], by simp, fun _ => rfl⟩

theorem run_has (hloc : Storage.Ordinary loc.dir) (h : s.Has commits)
    (hc : (machine loc).Along (fun s op => op.Harmless s) s ops)
    (hlen : commits.length + ops.length < 2 ^ 63) :
    ∃ s' o, (machine loc).run s ops = some (s', o) ∧ s'.Has (commits ++ o) ∧
      ((∀ op ∈ ops, op.fault? = none) → o = ops.filterMap Op.commit?) := by
  induction ops generalizing s commits
  case nil => exact ⟨s, [], rfl, by rwa [List.append_nil], fun _ => rfl⟩
  case cons op ops hi =>
    rw [List.length_cons] at hlen
    obtain ⟨s₁, o₁, hstep, h₁, hone, hall₁⟩ := step_has hloc h hc.left (by omega)
    obtain ⟨s', o', hrun, h', hall'⟩ := hi h₁ (hc.right s₁ o₁ hstep) (by rw [List.length_append]; omega)
    refine ⟨s', o₁ ++ o', Machine.run_cons_of_some hstep hrun, by rwa [← List.append_assoc], fun hnone => ?_⟩
    obtain ⟨hop, hops⟩ := List.forall_mem_cons.mp hnone
    rw [hall₁ hop, hall' hops]
    cases op <;> rfl

-- Whatever is committed to a store that starts on an empty directory, however often the broker restarts, the commits
-- that succeed survive, as long as those that fail are harmless. Without a fault all of them succeed.
theorem commits_survive (hloc : Storage.Ordinary loc.dir) (ops : List Op)
    (hc : (machine loc).Along (fun s op => op.Harmless s) .empty ops) (hlen : ops.length < 2 ^ 63) :
    ∃ s commits, openStore loc [] = .ok .empty ∧ (machine loc).run .empty ops = some (s, commits) ∧
      s.Survives loc commits ∧ ((∀ op ∈ ops, op.fault? = none) → commits = ops.filterMap Op.commit?) := by
  obtain ⟨s, commits, hrun, h, hall⟩ := run_has hloc empty_has hc (by simpa using hlen)
  have hopen : openStore loc [] = .ok .empty := by
    rw [openStore, hloc.openLog_eq]
    rfl
  exact ⟨s, commits, hopen, hrun, h.survives hloc, hall⟩

def sampleCommit (topic : Bytes) (offset : Int) : Commit :=
  ⟨⟨[103], topic, 0⟩, offset, 1700000000000⟩

-- Behind an entry of this size the next one is listed in the index.
def wideCommit : Commit :=
  ⟨⟨List.replicate 4096 0, [116], 0⟩, 1, 1700000000000⟩

-- The second commit fails when it has written a part of its index entry.
def sampleOps : List Op :=
  [.commit wideCommit none, .commit (sampleCommit [116] 3) (some (.writeIndex 3)), .commit (sampleCommit [116] 4) none,
    .restart, .commit (sampleCommit [117] 5) none]

theorem commits_survive_torn_index :
    ∃ s commits, (machine Storage.sampleLocation).run .empty sampleOps = some (s, commits) ∧
      commits.map (·.offset) = [1, 4, 5] ∧ s.fetch ⟨[103], [116], 0⟩ = 4 ∧ s.fetch ⟨[103], [117], 0⟩ = 5 ∧
      s.fetch ⟨[103], [116], 1⟩ = -1 ∧ s.Survives Storage.sampleLocation commits := by
  have hloc : Storage.Ordinary Storage.sampleLocation.dir := by decide +kernel
  have hc : (machine Storage.sampleLocation).Along (fun s op => op.Harmless s) .empty sampleOps := by decide +kernel
  have hcommits : ((machine Storage.sampleLocation).run .empty sampleOps).map (fun r =>
      (r.snd.map (·.offset), lastOffset r.snd ⟨[103], [116], 0⟩, lastOffset r.snd ⟨[103], [117], 0⟩,
        lastOffset r.snd ⟨[103], [116], 1⟩)) = some ([1, 4, 5], 4, 5, -1) := by
    decide +kernel
  obtain ⟨s, commits, -, hrun, h, -⟩ := commits_survive hloc sampleOps hc (by decide)
  rw [hrun, Option.map_some, Option.some.injEq, Prod.mk.injEq, Prod.mk.injEq, Prod.mk.injEq] at hcommits
  obtain ⟨hoffsets, h₁, h₂, h₃⟩ := hcommits
  exact ⟨s, commits, hrun, hoffsets, (h.fetch _).trans h₁, (h.fetch _).trans h₂, (h.fetch _).trans h₃, h⟩

section Stray

-- A store whose log is a single segment.
structure Store.Single (s : Store) (commits : List Commit) : Prop where
  holds   : s.log.Holds [] (commits.map Commit.payload)
  offsets : s.offsets = committed ∅ commits

theorem empty_single : Store.empty.Single [] :=
  ⟨Storage.Log.empty_holds, rfl⟩

namespace Store.Single

theorem full_iff (h : s.Single commits) (n : Nat) : s.log.Full n ↔
    0 < Storage.entriesSize (commits.map Commit.payload) ∧
      Storage.maxSegmentBytes < Storage.entriesSize (commits.map Commit.payload) + n := by
  rw [Storage.Log.Full, h.holds.active.logSize]

theorem nextOffset (h : s.Single commits) : s.log.nextOffset = commits.length := by
  simpa using h.holds.nextOffset

theorem commit (h : s.Single commits) (hc : c.Valid)
    (hroom : ¬s.log.Full (Storage.entryHeaderSize + c.payload.length)) (hlen : commits.length + 1 < 2 ^ 63) :
    ∃ s', s.commit c.now c.key c.offset = (s', .ok ()) ∧ s'.Single (commits ++ [c]) := by
  have hend : s.log.nextOffset + 1 < 2 ^ 63 := by
    rw [h.nextOffset]
    omega
  obtain ⟨log, pss, ps, happend, hlog, -, hplace⟩ := h.holds.appendWithOffset .none hc.payload_lt hend
  rw [Storage.place, Storage.Stamp.length_run, if_neg ((h.full_iff _).not.mp hroom)] at hplace
  obtain ⟨rfl, rfl⟩ := Prod.mk.inj hplace
  refine ⟨⟨log, s.offsets.insert c.key c.offset⟩, ?_, ?_, ?_⟩
  · rw [Store.commit, show encodeEntry c.key c.offset c.now = c.payload from rfl, Storage.Log.append, happend]
  · rw [List.map_append]
    exact hlog
  · rw [committed_append, ← h.offsets]
    rfl

-- The log file of the next segment is made, and its index file is not.
theorem commit_openIndex (h : s.Single commits) (hfull : s.log.Full (Storage.entryHeaderSize + c.payload.length)) :
    s.commit c.now c.key c.offset (some .openIndex) =
      ({ s with log := { s.log with orphans := [⟨commits.length, [], none⟩] } }, .error .failed) := by
  have hroll := h.holds.survives.roll_of_full hfull (some .openIndex)
  rw [if_neg (by simp), if_pos rfl] at hroll
  rw [Store.commit, show encodeEntry c.key c.offset c.now = c.payload from rfl, Storage.Log.append,
    Storage.Log.appendWithOffset, hroll, ← h.nextOffset]

-- The stray file does not keep a small commit out of the segment before it.
theorem commit_orphans (h : s.Single commits) (hc : c.Valid)
    (hroom : ¬s.log.Full (Storage.entryHeaderSize + c.payload.length)) (hlen : commits.length + 1 < 2 ^ 63)
    (orphans : Storage.Dir) :
    ∃ s' : Store, Store.commit { s with log := { s.log with orphans } } c.now c.key c.offset =
        ({ s' with log := { s'.log with orphans } }, .ok ()) ∧ s'.Single (commits ++ [c]) := by
  obtain ⟨s', hcommit, hs'⟩ := h.commit hc hroom hlen
  refine ⟨s', ?_, hs'⟩
  rw [Store.commit, show encodeEntry c.key c.offset c.now = c.payload from rfl, Storage.Log.append] at hcommit ⊢
  rw [Storage.Log.appendWithOffset_orphans hroom]
  generalize s.log.appendWithOffset c.payload .none = r at hcommit
  obtain ⟨log, r⟩ := r
  cases r
  case error e => cases hcommit
  case ok o    =>
    cases hcommit
    rfl

end Store.Single

-- The log when the stray segment is the last one. What it has is at offsets that the segment before it has, too.
theorem replay_stray {sealed stray : Storage.Segment} {qs : List Bytes} {next : Int}
    (hsealed : sealed.Holds (commits.map Commit.payload)) (hbase : sealed.baseOffset = 0)
    (hvalid : ∀ c ∈ commits, c.Valid) (hstray : stray.Holds qs) (hpos : 0 < stray.baseOffset)
    (hle : stray.baseOffset + qs.length ≤ commits.length) (hnext : 0 < next) :
    replay ⟨[sealed], stray, [], next⟩ = .ok (committed ∅ commits) := by
  set log : Storage.Log := ⟨[sealed], stray, [], next⟩ with hlog
  have hfirst : log.read 0 (-1) = .ok (recordsOf commits) := by
    have hsegment : log.segmentForOffset 0 = some sealed :=
      Storage.Log.segmentForOffset_eq [] [stray] le_rfl rfl (by simp) hbase.le (by simpa using hpos)
    have hread := hsealed.readRecords hbase.le (-1)
    rw [hbase, Storage.window_of_nonpos (by decide)] at hread
    rw [Storage.Log.read_of_segment hstray.healthy hsegment]
    exact hread
  have hlast : log.read commits.length (-1) = .ok [] := by
    have hsegment : log.segmentForOffset commits.length = some stray :=
      Storage.Log.segmentForOffset_eq [sealed] [] (Int.natCast_nonneg _) rfl (by simp [hbase]) (by omega) (by simp)
    rw [Storage.Log.read_of_segment hstray.healthy hsegment, hstray.readRecords (by omega),
      List.drop_of_length_le (by omega)]
    rfl
  have hlen : (commits.length : Int) < 2 ^ 63 := by
    simpa [hbase] using hsealed.end_lt
  have hne : commits ≠ [] := by
    rintro rfl
    rw [List.length_nil] at hle
    omega
  have hend : log.endOffset = next := rfl
  obtain ⟨fuel, hfuel⟩ : ∃ fuel, log.endOffset.toNat + 1 = fuel + 1 + 1 := ⟨next.toNat - 1, by omega⟩
  rw [replay, hfuel, replay_go_succ le_rfl (by omega) hvalid hne hfirst, Int.zero_add, replay.go, hlast]

-- Fifteen of them fill a segment, if the name has the greatest length that its field allows.
def longCommit (name : Bytes) : Commit :=
  ⟨⟨name, name, 0⟩, 1, 1700000000000⟩

-- The stray segment with a commit in it.
def straySegment (c : Commit) : Storage.Segment :=
  { Storage.createSegment [] 15 with
    logFile := Storage.encodeEntry 15 c.payload
    logSize := Storage.entryHeaderSize + c.payload.length }

theorem commit_stray (ss : List Storage.Segment) (offsets : Offsets) (c : Commit) :
    Store.commit ⟨⟨ss, Storage.createSegment [] 15, [], 15⟩, offsets⟩ c.now c.key c.offset =
      (⟨⟨ss, straySegment c, [], 16⟩, offsets.insert c.key c.offset⟩, .ok ()) := by
  have hroll (n : Nat) : Storage.Log.roll ⟨ss, Storage.createSegment [] 15, [], 15⟩ n none =
      (⟨ss, Storage.createSegment [] 15, [], 15⟩, .ok ()) := rfl
  have hindex : (Storage.createSegment [] 15).maybeWriteIndex 15 (Storage.createSegment [] 15).logSize none =
      (Storage.createSegment [] 15, .ok ()) := rfl
  have hwrite (bytes : Bytes) : (Storage.createSegment [] 15).writeEntry bytes none =
      ({ Storage.createSegment [] 15 with logFile := bytes }, .ok ()) := rfl
  have hsize (n : Nat) : (Storage.createSegment [] 15).logSize + n = n := Nat.zero_add n
  have happend : Storage.Log.append ⟨ss, Storage.createSegment [] 15, [], 15⟩ c.payload =
      (⟨ss, straySegment c, [], 16⟩, .ok 15) := by
    simp only [Storage.Log.append, Storage.Log.appendWithOffset, hroll, Storage.Stamp.none, hindex, hwrite, hsize]
    rfl
  rw [Store.commit, show encodeEntry c.key c.offset c.now = c.payload from rfl, happend]

theorem straySegment_holds (hc : c.Valid) : (straySegment c).Holds [c.payload] where
  log          := by simp [straySegment, Storage.createSegment, Storage.encodeEntries]
  healthy      := rfl
  logSize      := by simp [straySegment, Storage.entriesSize]
  fits         := ⟨by simpa using hc.payload_lt, .inl le_rfl⟩
  indexes      := ⟨[], .nil _⟩
  indexFile    := rfl
  lastIndexPos := rfl
  base_nonneg  := by simp [straySegment, Storage.createSegment]
  end_lt       := by simp [straySegment, Storage.createSegment]

-- The files of the two segments, opened one after the other.
theorem openStore_stray {sealed stray : Storage.Segment} {qs : List Bytes} (hloc : Storage.Ordinary loc.dir)
    (hsealed : sealed.Holds (commits.map Commit.payload)) (hbase : sealed.baseOffset = 0)
    (hvalid : ∀ c ∈ commits, c.Valid) {files : Storage.SegmentFiles} (hopen : Storage.openSegment files = .ok stray)
    (hstray : stray.Holds qs) (hpos : 0 < stray.baseOffset) (hle : stray.baseOffset + qs.length ≤ commits.length) :
    ∃ sealed', sealed'.Holds (commits.map Commit.payload) ∧ sealed'.baseOffset = 0 ∧
      openStore loc [sealed.files, files] =
        .ok ⟨⟨[sealed'], stray, [], stray.baseOffset + qs.length⟩, committed ∅ commits⟩ := by
  obtain ⟨sealed', hsealed', hbase', hholds⟩ := hsealed.openSegment_files
  have hsorted : ([sealed.files] ++ [files]).Pairwise (·.baseOffset < ·.baseOffset) := by
    have hfiles := Storage.openSegment_baseOffset hopen
    simp [Storage.Segment.files, hbase, ← hfiles, hpos]
  have hlog := Storage.Log.openFiles_of_sorted hsorted
    (by simp [hsealed', bind, Except.bind, pure, Except.pure] : [sealed.files].mapM Storage.openSegment =
      .ok [sealed']) hopen
  refine ⟨sealed', hholds, hbase'.trans hbase, ?_⟩
  rw [openStore, hloc.openLog_eq, show [sealed.files, files] = [sealed.files] ++ [files] from rfl, hlog,
    hstray.recoverNextOffset]
  simp only [newStore]
  rw [replay_stray hholds (hbase'.trans hbase) hvalid hstray hpos hle (by omega)]
  rfl

variable {name : Bytes}

theorem longCommit_valid (hname : name.length = 32767) : (longCommit name).Valid :=
  ⟨hname.le, hname.le, (by decide : IsInt32 0), (by decide : (-2 ^ 63 : Int) ≤ 1 ∧ (1 : Int) < 2 ^ 63)⟩

theorem length_longCommit (hname : name.length = 32767) : (longCommit name).payload.length = 65558 := by
  rw [length_payload]
  simp only [longCommit, hname]

theorem entriesSize_long (hname : name.length = 32767) (n : Nat) :
    Storage.entriesSize ((List.replicate n (longCommit name)).map Commit.payload) = n * 65570 := by
  rw [Storage.entriesSize, List.map_replicate, List.map_replicate, length_longCommit hname, List.sum_replicate,
    Nat.nsmul_eq_mul, Storage.entryHeaderSize]

-- The first fifteen commits.
theorem run_long (loc : Storage.Location) (hname : name.length = 32767) {n : Nat} (hn : n ≤ 15) :
    ∃ s, (machine loc).run .empty (List.replicate n (.commit (longCommit name) none)) =
        some (s, List.replicate n (longCommit name)) ∧ s.Single (List.replicate n (longCommit name)) := by
  induction n
  case zero => exact ⟨.empty, rfl, empty_single⟩
  case succ n hi =>
    obtain ⟨s, hrun, hs⟩ := hi (by omega)
    have hroom : ¬s.log.Full (Storage.entryHeaderSize + (longCommit name).payload.length) := by
      rw [hs.full_iff, entriesSize_long hname, length_longCommit hname, Storage.maxSegmentBytes_eq]
      simp only [Storage.entryHeaderSize]
      omega
    obtain ⟨s', hcommit, hs'⟩ := hs.commit (longCommit_valid hname) hroom (by rw [List.length_replicate]; omega)
    rw [List.replicate_succ', List.replicate_succ']
    refine ⟨s', Machine.run_append_of_some hrun ?_, hs'⟩
    exact Machine.run_cons_of_some (step_commit_ok hcommit) Machine.run_nil

-- The commits of the segment before the stray one.
def longCommits (name : Bytes) : List Commit :=
  List.replicate 15 (longCommit name) ++ [sampleCommit [116] 42]

theorem longCommits_valid (hname : name.length = 32767) : ∀ c ∈ longCommits name, c.Valid := by
  refine List.forall_mem_append.mpr ⟨fun c hc => ?_, by decide⟩
  rw [List.eq_of_mem_replicate hc]
  exact longCommit_valid hname

-- The commit that makes the stray file, and what is done then.
def strayOps (name : Bytes) : List Op :=
  [.commit (longCommit name) (some .openIndex), .commit (sampleCommit [116] 42) none, .restart,
    .commit (sampleCommit [116] 43) none]

theorem run_stray (hloc : Storage.Ordinary loc.dir) (hname : name.length = 32767) :
    ∃ sealed : Storage.Segment, sealed.Holds ((longCommits name).map Commit.payload) ∧ sealed.baseOffset = 0 ∧
      (machine loc).run .empty (List.replicate 15 (.commit (longCommit name) none) ++ strayOps name) =
        some (⟨⟨[sealed], straySegment (sampleCommit [116] 43), [], 16⟩,
          (committed ∅ (longCommits name)).insert ⟨[103], [116], 0⟩ 43⟩, longCommits name ++
            [sampleCommit [116] 43]) := by
  obtain ⟨s, hrun, hs⟩ := run_long loc hname le_rfl
  have hvalid := longCommit_valid hname
  have hsmall : (sampleCommit [116] 42).Valid := by decide
  have hfull : s.log.Full (Storage.entryHeaderSize + (longCommit name).payload.length) := by
    rw [hs.full_iff, entriesSize_long hname, length_longCommit hname, Storage.maxSegmentBytes_eq]
    decide
  have hroom : ¬s.log.Full (Storage.entryHeaderSize + (sampleCommit [116] 42).payload.length) := by
    rw [hs.full_iff, entriesSize_long hname, Storage.maxSegmentBytes_eq]
    decide
  have hfails := hs.commit_openIndex hfull
  rw [List.length_replicate] at hfails
  obtain ⟨s', hcommit, hs'⟩ := hs.commit_orphans hsmall hroom (by rw [List.length_replicate]; omega) [⟨15, [], none⟩]
  change s'.Single (longCommits name) at hs'
  have hlen : (longCommits name).length = 16 := by simp [longCommits]
  have hnil : s'.log.sealed = [] := List.length_eq_zero_iff.mp hs'.holds.sealed.length_eq
  have hclose : { s'.log with orphans := [⟨15, [], none⟩] }.close = [s'.log.active.files, ⟨15, [], none⟩] := by
    simp [Storage.Log.close, Storage.Log.dir, Storage.Log.segments, hnil]
  have hnew : (Storage.createSegment [] 15).Holds [] := Storage.Segment.createSegment_holds (by decide) (by decide)
  obtain ⟨sealed, hsealed, hbase, hopen⟩ := openStore_stray hloc hs'.holds.active hs'.holds.base
    (longCommits_valid hname) (Storage.Log.openSegment_orphan 15) hnew (by decide) (by rw [hlen]; decide)
  have hnext : (Storage.createSegment [] 15).baseOffset + (([] : List Bytes).length : Int) = 15 := rfl
  rw [← hclose, hnext] at hopen
  have hfirst : (machine loc).step s (.commit (longCommit name) (some .openIndex)) = some (_, []) :=
    step_commit_error hfails
  have hsecond : (machine loc).step _ (.commit (sampleCommit [116] 42) none) = some (_, [sampleCommit [116] 42]) :=
    step_commit_ok hcommit
  have hthird : (machine loc).step { s' with log := { s'.log with orphans := [⟨15, [], none⟩] } } .restart =
      some (_, []) :=
    step_restart hopen
  have hfourth : (machine loc).step _ (.commit (sampleCommit [116] 43) none) = some (_, [sampleCommit [116] 43]) :=
    step_commit_ok (commit_stray [sealed] (committed ∅ (longCommits name)) (sampleCommit [116] 43))
  have hrest := Machine.run_cons_of_some hfirst (Machine.run_cons_of_some hsecond
    (Machine.run_cons_of_some hthird (Machine.run_cons_of_some hfourth Machine.run_nil)))
  have hall := Machine.run_append_of_some hrun hrest
  rw [List.append_nil, List.nil_append, List.nil_append, ← List.append_assoc] at hall
  exact ⟨sealed, hsealed, hbase, hall⟩

theorem stray_commit_lost :
    ∃ s commits s', (machine Storage.sampleLocation).run .empty
        (List.replicate 15 (.commit (longCommit (List.replicate 32767 0)) none) ++ strayOps (List.replicate 32767 0)) =
          some (s, commits) ∧
      lastOffset commits ⟨[103], [116], 0⟩ = 43 ∧ openStore Storage.sampleLocation s.log.close = .ok s' ∧
      s'.fetch ⟨[103], [116], 0⟩ = 42 ∧ ¬s.Survives Storage.sampleLocation commits := by
  have hname : (List.replicate 32767 0 : Bytes).length = 32767 := List.length_replicate
  generalize (List.replicate 32767 0 : Bytes) = name at hname ⊢
  have hloc : Storage.Ordinary Storage.sampleLocation.dir := by decide +kernel
  obtain ⟨sealed, hsealed, hbase, hrun⟩ := run_stray hloc hname
  have hstray := straySegment_holds (by decide : (sampleCommit [116] 43).Valid)
  obtain ⟨stray, hopen, hbase', hstray'⟩ := hstray.openSegment_files
  have hpos : stray.baseOffset = 15 := hbase'
  have hlen : (longCommits name).length = 16 := by simp [longCommits]
  obtain ⟨sealed', -, -, hrestart⟩ := openStore_stray hloc hsealed hbase (longCommits_valid hname) hopen hstray'
    (by rw [hpos]; decide) (by rw [hpos, hlen]; decide)
  have hlast : lastOffset (longCommits name ++ [sampleCommit [116] 43]) ⟨[103], [116], 0⟩ = 43 := by
    simp [lastOffset, sampleCommit]
  have hfetch : Store.fetch ⟨⟨[sealed'], stray, [], stray.baseOffset + 1⟩, committed ∅ (longCommits name)⟩
      ⟨[103], [116], 0⟩ = 42 := by
    rw [Store.fetch, lookup_committed_getD]
    simp [lastOffset, longCommits, sampleCommit]
  refine ⟨_, _, _, hrun, hlast, hrestart, hfetch, fun h => ?_⟩
  obtain ⟨s', hopen', hsame⟩ := h.restart
  obtain rfl := Except.ok.inj (hrestart.symm.trans hopen')
  have heq := (hsame ⟨[103], [116], 0⟩).trans ((h.fetch _).trans hlast)
  exact absurd (hfetch.symm.trans heq) (by decide)

end Stray

end Offset
