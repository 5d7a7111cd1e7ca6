import Gokaf.Storage.Directories
import Gokaf.Storage.Theorems.Manager

open Go

namespace Storage

-- A partition with a directory of its own, in which a log can be opened.
structure Plain (dataDir topic : Bytes) (partition : Int) : Prop where
  separator : Path.separator ∉ topic
  nonneg    : 0 ≤ partition
  ordinary  : Ordinary (logDir dataDir topic partition)

theorem Plain.logDir_ne {dataDir topic topic' : Bytes} {partition partition' : Int} (h : Plain dataDir topic partition)
    (h' : Plain dataDir topic' partition') (hne : (topic, partition) ≠ (topic', partition')) :
    logDir dataDir topic partition ≠ logDir dataDir topic' partition' := by
  intro heq
  obtain ⟨rfl, rfl⟩ := logDir_inj h.separator h'.separator h.nonneg h'.nonneg heq
  exact hne rfl

theorem Plain.logKey_ne {dataDir topic topic' : Bytes} {partition partition' : Int} (h : Plain dataDir topic partition)
    (h' : Plain dataDir topic' partition') (hne : (topic, partition) ≠ (topic', partition')) :
    logKey topic partition ≠ logKey topic' partition' :=
  fun heq => h.logDir_ne h' hne (congrArg (Path.join dataDir) heq)

namespace Manager

variable {m m' : Manager} {f : Bytes × Int → List Bytes} {topic : Bytes} {partition : Int} {l : Log} {L : List Bytes}

-- The manager as a map from partitions to lists. Only logs of such partitions are open.
structure Keeps (m : Manager) (f : Bytes × Int → List Bytes) : Prop where
  stores : ∀ topic partition, Plain m.dataDir topic partition → m.Stores topic partition (f (topic, partition))
  opened : ∀ key log, m.logs key = some log →
    ∃ topic partition, Plain m.dataDir topic partition ∧ key = logKey topic partition

theorem keeps_new (dataDir : Bytes) : (new dataDir .empty).Keeps fun _ => [] where
  stores _ _ hplain := stores_new hplain.ordinary rfl
  opened _ _ h := by cases h

namespace Keeps

theorem set (h : m.Keeps f) (hplain : Plain m.dataDir topic partition) (hl : l.Stores L) :
    (m.set topic partition l).Keeps (Function.update f (topic, partition) L) where
  stores topic' partition' hplain' := by
    by_cases heq : (topic', partition') = (topic, partition)
    case pos =>
      cases heq
      rw [Function.update_self]
      exact stores_set hplain.ordinary hl
    case neg =>
      have hne : logDir m.dataDir topic' partition' ≠ logDir m.dataDir topic partition := hplain'.logDir_ne hplain heq
      rw [Function.update_of_ne heq]
      exact (h.stores _ _ hplain').same (same_set hne l)
  opened key l' hkey := by
    by_cases heq : key = logKey topic partition
    case pos => exact ⟨topic, partition, hplain, heq⟩
    case neg => exact h.opened key l' ((logs_set_of_ne heq l).symm.trans hkey)

theorem log (h : m.Keeps f) (hplain : Plain m.dataDir topic partition) :
    ∃ m' log, m.log topic partition = (m', .ok log) ∧ log.Stores (f (topic, partition)) ∧ m'.Keeps f := by
  obtain ⟨m', log, hopen, hlog, hm'⟩ := (h.stores _ _ hplain).log_eq
  have hfst : m' = (m.log topic partition).fst := by rw [hopen]
  have hdir : m'.dataDir = m.dataDir := by rw [hfst, dataDir_log]
  refine ⟨m', log, hopen, hlog, ⟨fun topic' partition' hplain' => ?_, fun key log' hkey => ?_⟩⟩
  · rw [hdir] at hplain'
    by_cases heq : (topic', partition') = (topic, partition)
    case pos =>
      cases heq
      exact hm'
    case neg =>
      have hsame := same_log (hplain'.logDir_ne hplain heq)
      exact (h.stores _ _ hplain').same (hfst ▸ hsame)
  · rw [hdir]
    by_cases heq : key = logKey topic partition
    case pos => exact ⟨topic, partition, hplain, heq⟩
    case neg =>
      rw [hfst, logs_log_of_ne heq] at hkey
      exact h.opened key log' hkey

-- A log of someone else, who has written it to the disk.
theorem write (h : m.Keeps f) (hplain : Plain m.dataDir topic partition)
    (hclosed : m.logs (logKey topic partition) = none) {disk : Disk}
    (hdisk : ∃ l, openFiles (disk (logDir m.dataDir topic partition)) = .ok l ∧ l.Stores L)
    (hne : ∀ dir ≠ logDir m.dataDir topic partition, disk dir = m.disk dir) :
    { m with disk }.Keeps (Function.update f (topic, partition) L) where
  stores topic' partition' hplain' := by
    by_cases heq : (topic', partition') = (topic, partition)
    case pos =>
      cases heq
      rw [Function.update_self]
      exact stores_of_closed hplain.ordinary hclosed hdisk
    case neg =>
      rw [Function.update_of_ne heq]
      exact (h.stores _ _ hplain').same ⟨rfl, hne _ (hplain'.logDir_ne hplain heq), rfl⟩
  opened := h.opened

-- Someone else opens the log.
theorem openLog (h : m.Keeps f) (hplain : Plain m.dataDir topic partition)
    (hclosed : m.logs (logKey topic partition) = none) :
    ∃ disk log, Storage.openLog m.disk (logDir m.dataDir topic partition) = (disk, .ok log) ∧
      log.Stores (f (topic, partition)) ∧ { m with disk }.Keeps f := by
  obtain ⟨log, hopen, hlog⟩ := (h.stores _ _ hplain).disk
  obtain ⟨disk, heq, hdisk⟩ : ∃ disk, Storage.openLog m.disk (logDir m.dataDir topic partition) = (disk, .ok log) ∧
      disk (logDir m.dataDir topic partition) = log.dir :=
    ⟨_, hplain.ordinary.openLog_of_ok hopen, Disk.write_self ..⟩
  have hne : ∀ dir ≠ logDir m.dataDir topic partition, disk dir = m.disk dir := by
    intro dir hne
    have hother := openLog_of_ne hne m.disk
    rwa [heq] at hother
  have hclose := hlog.openFiles_close
  rw [Log.close, ← hdisk] at hclose
  have hkeeps := h.write hplain hclosed hclose hne
  rw [Function.update_eq_self] at hkeeps
  exact ⟨disk, log, heq, hlog, hkeeps⟩

theorem close (h : m.Keeps f) : m.close.Keeps f where
  stores topic partition hplain := (h.stores topic partition hplain).close
  opened _ _ h := by cases h

-- An open log has the entries of its partition.
theorem stores_of_open (h : m.Keeps f) (hplain : Plain m.dataDir topic partition)
    (hopen : m.logs (logKey topic partition) = some l) : l.Stores (f (topic, partition)) := by
  obtain ⟨log', hlog, hstores⟩ := (h.stores topic partition hplain).log
  simp only [Manager.log, hopen] at hlog
  cases hlog
  exact hstores

theorem openFiles_tear (h : m.Keeps f) (hplain : Plain m.dataDir topic partition) {disk : Disk}
    (hdisk : ∃ L l, L <+: f (topic, partition) ∧ openFiles (disk (logDir m.dataDir topic partition)) = .ok l ∧
      l.Stores L)
    (torn : Bytes × Remains) :
    ∃ L l, L <+: f (topic, partition) ∧
      openFiles (m.tear disk torn (logDir m.dataDir topic partition)) = .ok l ∧ l.Stores L := by
  unfold tear
  cases hlogs : m.logs torn.fst
  case none => exact hdisk
  case some l =>
    obtain ⟨topic', partition', hplain', hkey⟩ := h.opened _ _ hlogs
    rw [hkey] at hlogs
    simp only [hkey]
    by_cases heq : (topic, partition) = (topic', partition')
    case neg =>
      rw [← logDir, Disk.write_of_ne (hplain.logDir_ne hplain' heq)]
      exact hdisk
    case pos =>
      cases heq
      obtain ⟨l', hopen, hl'⟩ := (h.stores_of_open hplain hlogs).openFiles_crash torn.snd.log torn.snd.index
      exact ⟨_, l', List.take_prefix .., by rw [logDir, Disk.write_self, hopen], hl'⟩

-- What a directory holds after a crash. The list of the torn logs may name one more than once.
theorem openFiles_crash (h : m.Keeps f) (hplain : Plain m.dataDir topic partition) (torn : List (Bytes × Remains)) :
    ∃ L l, L <+: f (topic, partition) ∧
      openFiles ((m.crash torn).disk (logDir m.dataDir topic partition)) = .ok l ∧ l.Stores L := by
  have hdisk : ∃ L l, L <+: f (topic, partition) ∧
      openFiles (m.disk (logDir m.dataDir topic partition)) = .ok l ∧ l.Stores L := by
    obtain ⟨l, hopen, hl⟩ := (h.stores topic partition hplain).disk
    exact ⟨_, l, List.prefix_rfl, hopen, hl⟩
  change ∃ L l, L <+: f (topic, partition) ∧
    openFiles (torn.foldl m.tear m.disk (logDir m.dataDir topic partition)) = .ok l ∧ l.Stores L
  generalize m.disk = disk at hdisk
  induction torn generalizing disk
  case nil              => exact hdisk
  case cons t torn hi   => exact hi _ (h.openFiles_tear hplain hdisk t)

-- A crash loses at most the last entries of each list.
theorem crash (h : m.Keeps f) (torn : List (Bytes × Remains)) :
    ∃ f', (∀ key, f' key <+: f key) ∧ (m.crash torn).Keeps f' := by
  have hstores : ∀ key : Bytes × Int, ∃ L, L <+: f key ∧
      (Plain m.dataDir key.fst key.snd → (m.crash torn).Stores key.fst key.snd L) := by
    intro key
    by_cases hplain : Plain m.dataDir key.fst key.snd
    case neg => exact ⟨f key, List.prefix_rfl, fun h => absurd h hplain⟩
    case pos =>
      obtain ⟨L, l, hprefix, hopen, hl⟩ := h.openFiles_crash hplain torn
      exact ⟨L, hprefix, fun _ => stores_of_closed hplain.ordinary rfl ⟨l, hopen, hl⟩⟩
  choose f' hprefix hkeeps using hstores
  exact ⟨f', hprefix, fun topic partition => hkeeps (topic, partition), fun _ _ h => by cases h⟩

end Keeps
end Manager
end Storage
