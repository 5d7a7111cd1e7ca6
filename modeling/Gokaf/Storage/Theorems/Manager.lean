import Gokaf.Go.Decimal
import Gokaf.Storage.Manager
import Gokaf.Storage.Theorems.Refinement

open Go

namespace Storage

variable {dataDir topic topic' : Bytes} {partition partition' : Int} {m m' : Manager}

theorem plain_logKey (htopic : Path.separator ∉ topic) (hpartition : 0 ≤ partition) :
    Path.Plain (logKey topic partition) := by
  have hdash : 45 ∈ logKey topic partition := List.mem_append_right _ List.mem_cons_self
  have hdecimal : Path.separator ∉ decimal partition := by
    intro hmem
    have := (isDigit_of_mem_decimal hpartition hmem).left
    contradiction
  have hseparator : Path.separator ∉ logKey topic partition := by
    rw [logKey, List.mem_append, List.mem_cons, not_or, not_or]
    exact ⟨htopic, by decide, hdecimal⟩
  refine ⟨hseparator, List.ne_nil_of_mem hdash, ?_, ?_⟩
  all_goals
    intro heq
    rw [heq] at hdash
    revert hdash
    decide

-- Topics without a slash in their names have directories of their own.
theorem logDir_inj (htopic : Path.separator ∉ topic) (htopic' : Path.separator ∉ topic') (hpartition : 0 ≤ partition)
    (hpartition' : 0 ≤ partition') (h : logDir dataDir topic partition = logDir dataDir topic' partition') :
    topic = topic' ∧ partition = partition' :=
  append_dash_decimal_inj hpartition hpartition'
    ((plain_logKey htopic hpartition).join_inj (plain_logKey htopic' hpartition') h)

namespace Manager

-- What two managers have of one partition.
structure Same (m m' : Manager) (topic : Bytes) (partition : Int) : Prop where
  dataDir : m'.dataDir = m.dataDir
  disk    : m'.disk (logDir m.dataDir topic partition) = m.disk (logDir m.dataDir topic partition)
  log     : m'.logs (logKey topic partition) = m.logs (logKey topic partition)

theorem Same.refl (m : Manager) (topic : Bytes) (partition : Int) : m.Same m topic partition :=
  ⟨rfl, rfl, rfl⟩

theorem Same.trans {m'' : Manager} (h : m.Same m' topic partition) (h' : m'.Same m'' topic partition) :
    m.Same m'' topic partition :=
  ⟨h'.dataDir.trans h.dataDir, by rw [← h.disk, ← h.dataDir, h'.disk], h'.log.trans h.log⟩

theorem log_of_open {log : Log} (h : m.logs (logKey topic partition) = some log) :
    m.log topic partition = (m, .ok log) := by
  simp only [Manager.log, h]

theorem log_of_closed (h : m.logs (logKey topic partition) = none) :
    (m.log topic partition).snd = (openLog m.disk (logDir m.dataDir topic partition)).snd := by
  simp only [Manager.log, h]
  split
  case h_1 heq => rw [heq]
  case h_2 heq => rw [heq]

-- A reader cannot tell the two apart, neither now nor when they have been closed and opened again.
theorem Same.log_snd (hdir : (logDir m.dataDir topic partition).Literal) (h : m.Same m' topic partition) :
    (m'.log topic partition).snd = (m.log topic partition).snd := by
  cases hlog : m.logs (logKey topic partition)
  case some log => rw [log_of_open hlog, log_of_open (h.log.trans hlog)]
  case none =>
    rw [log_of_closed hlog, log_of_closed (h.log.trans hlog), h.dataDir, openLog_of_literal hdir,
      openLog_of_literal hdir, h.disk]

theorem Same.close (h : m.Same m' topic partition) : m.close.Same m'.close topic partition :=
  ⟨h.dataDir, h.disk, rfl⟩

theorem same_set (hne : logDir m.dataDir topic' partition' ≠ logDir m.dataDir topic partition) (log : Log) :
    m.Same (m.set topic partition log) topic' partition' := by
  have hkey : logKey topic' partition' ≠ logKey topic partition := by
    intro heq
    rw [logDir, logDir, heq] at hne
    exact hne rfl
  exact ⟨rfl, Disk.write_of_ne hne .., Function.update_of_ne hkey ..⟩

theorem same_log (hne : logDir m.dataDir topic' partition' ≠ logDir m.dataDir topic partition) :
    m.Same (m.log topic partition).fst topic' partition' := by
  have hopen := openLog_of_ne hne m.disk
  unfold Manager.log
  split
  case h_1 => exact .refl ..
  case h_2 =>
    generalize openLog m.disk (logDir m.dataDir topic partition) = r at hopen
    obtain ⟨disk, log⟩ := r
    have hdisk : m.Same { m with disk } topic' partition' := ⟨rfl, hopen, rfl⟩
    cases log
    case error e => exact hdisk
    case ok log  =>
      have hset := same_set (m := { m with disk }) hne log
      exact hdisk.trans hset

@[simp]
theorem dataDir_log (m : Manager) (topic : Bytes) (partition : Int) :
    (m.log topic partition).fst.dataDir = m.dataDir := by
  unfold Manager.log
  split
  case h_1 => rfl
  case h_2 => split <;> rfl

theorem logs_set_of_ne {key : Bytes} (h : key ≠ logKey topic partition) (log : Log) :
    (m.set topic partition log).logs key = m.logs key :=
  Function.update_of_ne h ..

theorem logs_log_of_ne {key : Bytes} (h : key ≠ logKey topic partition) :
    (m.log topic partition).fst.logs key = m.logs key := by
  unfold Manager.log
  split
  case h_1 => rfl
  case h_2 =>
    split
    case h_1 => rfl
    case h_2 => exact logs_set_of_ne h _

theorem same_append (hne : logDir m.dataDir topic' partition' ≠ logDir m.dataDir topic partition) (payload : Bytes)
    (stamp : Stamp) (fault : Option Fault) :
    m.Same (m.append topic partition payload stamp fault).fst topic' partition' := by
  have hlog := same_log hne
  unfold Manager.append
  generalize m.log topic partition = r at hlog
  obtain ⟨m', r⟩ := r
  cases r
  case error e => exact hlog
  case ok log  => exact hlog.trans (same_set (hlog.dataDir ▸ hne) _)

-- Once opened, a log stays open.
theorem log_log {log : Log} (h : m.log topic partition = (m', .ok log)) :
    m'.log topic partition = (m', .ok log) := by
  unfold Manager.log at h
  split at h
  case h_1 hopen =>
    obtain ⟨rfl, hlog⟩ := Prod.mk.inj h
    simp only [Manager.log, hopen, hlog]
  case h_2 =>
    split at h
    case h_1 => simp at h
    case h_2 =>
      obtain ⟨rfl, hlog⟩ := Prod.mk.inj h
      rw [← Except.ok.inj hlog]
      simp [Manager.log, set]

-- The log of a partition holds the payloads `L`, and still does after it has been closed.
structure Stores (m : Manager) (topic : Bytes) (partition : Int) (L : List Bytes) : Prop where
  ordinary : Ordinary (logDir m.dataDir topic partition)
  log      : ∃ log, (m.log topic partition).snd = .ok log ∧ log.Stores L
  disk     : ∃ log, openFiles (m.disk (logDir m.dataDir topic partition)) = .ok log ∧ log.Stores L

variable {L : List Bytes}

-- A log that is not open yet.
theorem stores_of_closed (hdir : Ordinary (logDir m.dataDir topic partition))
    (hclosed : m.logs (logKey topic partition) = none)
    (hdisk : ∃ log, openFiles (m.disk (logDir m.dataDir topic partition)) = .ok log ∧ log.Stores L) :
    m.Stores topic partition L := by
  refine ⟨hdir, ?_, hdisk⟩
  rw [log_of_closed hclosed, hdir.snd_openLog]
  exact hdisk

theorem stores_new {disk : Disk} (hdir : Ordinary (logDir dataDir topic partition))
    (hdisk : disk (logDir dataDir topic partition) = []) : (new dataDir disk).Stores topic partition [] :=
  stores_of_closed hdir rfl ⟨.empty, by rw [new, hdisk, openFiles_nil], Log.empty_stores⟩

-- A log of someone else, who has written it to the disk.
theorem stores_of_write {log : Log} {disk : Disk} (hdir : Ordinary (logDir m.dataDir topic partition))
    (hclosed : m.logs (logKey topic partition) = none) (h : log.Stores L)
    (hdisk : disk (logDir m.dataDir topic partition) = log.dir) : { m with disk }.Stores topic partition L := by
  refine stores_of_closed hdir hclosed ?_
  rw [hdisk]
  exact h.openFiles_close

theorem stores_set {log : Log} (hdir : Ordinary (logDir m.dataDir topic partition)) (h : log.Stores L) :
    (m.set topic partition log).Stores topic partition L := by
  refine ⟨hdir, ⟨log, by rw [log_of_open (Function.update_self ..)], h⟩, ?_⟩
  obtain ⟨log', hopen, h'⟩ := h.openFiles_close
  exact ⟨log', by simpa [set, Log.close] using hopen, h'⟩

namespace Stores

theorem same (h : m.Stores topic partition L) (hsame : m.Same m' topic partition) :
    m'.Stores topic partition L := by
  refine ⟨?_, ?_, ?_⟩
  · rw [hsame.dataDir]
    exact h.ordinary
  · rw [hsame.log_snd h.ordinary.literal]
    exact h.log
  · rw [hsame.dataDir, hsame.disk]
    exact h.disk

theorem close (h : m.Stores topic partition L) : m.close.Stores topic partition L :=
  stores_of_closed h.ordinary rfl h.disk

theorem log_eq (h : m.Stores topic partition L) :
    ∃ m' log, m.log topic partition = (m', .ok log) ∧ log.Stores L ∧ m'.Stores topic partition L := by
  obtain ⟨log, hsnd, hlog⟩ := h.log
  refine ⟨(m.log topic partition).fst, log, by rw [← hsnd], hlog, ?_⟩
  unfold Manager.log at hsnd ⊢
  split at hsnd
  case h_1 => exact h
  case h_2 =>
    split at hsnd
    case h_1 => contradiction
    case h_2 =>
      cases hsnd
      exact stores_set h.ordinary hlog

-- Someone else opens the log.
theorem openLog (h : m.Stores topic partition L) (hclosed : m.logs (logKey topic partition) = none) :
    ∃ disk log, Storage.openLog m.disk (logDir m.dataDir topic partition) = (disk, .ok log) ∧ log.Stores L ∧
      { m with disk }.Stores topic partition L := by
  obtain ⟨log, hopen, hlog⟩ := h.disk
  refine ⟨_, log, h.ordinary.openLog_of_ok hopen, hlog, ?_⟩
  exact stores_of_write h.ordinary hclosed hlog (Disk.write_self ..)

end Stores
end Manager

section Unwritten

variable {dir : Dir} {log : Log} {L : List Bytes}

-- Nothing has been written to the log files of a directory.
def Unwritten (dir : Dir) : Prop :=
  ∀ files ∈ dir, files.log = []

instance : DecidablePred Unwritten :=
  fun dir => inferInstanceAs (Decidable (∀ files ∈ dir, files.log = []))

theorem logFile_openSegment {files : SegmentFiles} {s : Segment} (h : openSegment files = .ok s) :
    ∃ n, s.logFile = files.log.take n := by
  simp only [openSegment, bind, Except.bind] at h
  split at h
  case h_1 => contradiction
  case h_2 r _ =>
    split at h
    case h_1 => contradiction
    case h_2 =>
      refine ⟨r.snd, ?_⟩
      split at h
      case h_1 =>
        cases h
        rfl
      case h_2 =>
        split at h
        case h_1 => contradiction
        case h_2 =>
          cases h
          rfl

theorem mem_of_mapM_eq_ok {α β ε : Type} {f : α → Except ε β} {as : List α} {bs : List β} (h : as.mapM f = .ok bs) :
    ∀ b ∈ bs, ∃ a ∈ as, f a = .ok b := by
  induction as generalizing bs
  case nil =>
    cases h
    simp
  case cons a as hi =>
    rw [List.mapM_cons] at h
    cases ha : f a
    case error e =>
      rw [ha] at h
      contradiction
    case ok b =>
      cases has : as.mapM f
      case error e =>
        rw [ha, has] at h
        contradiction
      case ok bs =>
        rw [ha, has] at h
        cases h
        rw [List.forall_mem_cons]
        refine ⟨⟨a, List.mem_cons_self, ha⟩, fun b hb => ?_⟩
        obtain ⟨a', ha', heq⟩ := hi has b hb
        exact ⟨a', List.mem_cons_of_mem _ ha', heq⟩

theorem Unwritten.logFile_openBase (h : Unwritten dir) {base : Int} {s : Segment} (hopen : openBase dir base = .ok s) :
    s.logFile = [] := by
  unfold openBase at hopen
  split at hopen
  case h_1 => contradiction
  case h_2 f hf =>
    obtain ⟨n, hn⟩ := logFile_openSegment hopen
    rw [hn, h f (List.mem_of_find?_eq_some hf), List.take_nil]

theorem Unwritten.logFile_createSegment (h : Unwritten dir) (base : Int) : (createSegment dir base).logFile = [] := by
  rw [createSegment]
  cases hf : dir.find? (·.baseOffset = base)
  case none   => rfl
  case some f => exact h f (List.mem_of_find?_eq_some hf)

theorem Unwritten.logFile (h : Unwritten dir) (hopen : openFiles dir = .ok log) :
    ∀ s ∈ log.segments, s.logFile = [] := by
  simp only [openFiles, openListed, bind, Except.bind] at hopen
  split at hopen
  case h_1 => contradiction
  case h_2 segments hsegments =>
    have hnil : ∀ s ∈ segments, s.logFile = [] := by
      intro s hs
      obtain ⟨base, -, heq⟩ := mem_of_mapM_eq_ok hsegments s hs
      exact h.logFile_openBase heq
    split at hopen
    case h_1 =>
      cases hopen
      have horphans : Unwritten (dir.filter (·.baseOffset ∉ (dir.map (·.baseOffset)).insertionSort (· ≤ ·))) :=
        fun files hfiles => h files (List.mem_of_mem_filter hfiles)
      simpa [Log.segments] using horphans.logFile_createSegment 0
    case h_2 active hactive =>
      cases hopen
      rw [Log.segments, List.dropLast_append_getLast?]
      · exact hnil
      · exact hactive

theorem Unwritten.eq_nil (h : Unwritten dir) (hopen : openFiles dir = .ok log) (hlog : log.Stores L) : L = [] := by
  obtain ⟨pss, ps, hholds, rfl⟩ := hlog
  have hlogFile := h.logFile hopen
  have hempty : ∀ {s : Segment} {qs : List Bytes}, s ∈ log.segments → s.Holds qs → qs = [] := by
    intro s qs hs hqs
    have hlen := congrArg List.length (hqs.log.symm.trans (hlogFile s hs))
    rw [length_encodeEntries] at hlen
    exact entriesSize_eq_zero.mp hlen
  have hps : ps = [] := hempty (by simp [Log.segments]) hholds.active
  have hsealed : ∀ s ∈ log.sealed, s ∈ log.segments := fun s hs => List.mem_append_left _ hs
  have hpss : pss = [] := by
    have hsnoc := hholds.sealed
    generalize log.sealed = ss at hsnoc hsealed
    cases hsnoc
    case nil => rfl
    case snoc hs _ hne => exact absurd (hempty (hsealed _ (by simp)) hs) hne
  rw [hps, hpss]
  rfl

end Unwritten
end Storage
