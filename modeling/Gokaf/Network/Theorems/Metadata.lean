import Gokaf.Go.Waiting
import Gokaf.History
import Gokaf.Network.Theorems.Topics

open Go Protocol Cluster

namespace Network.Metadata

variable {config : Config} {b b' : Broker} {log log' : Storage.Log} {topics : Topic.Registry}
  {records : List Record} {record : Record} {P P' : Record → Prop}

-- The log holds the given records, and the registry is their replay but for the records that are still
-- to be applied. Of these each is the last one under its name.
structure Consistent (log : Storage.Log) (topics : Topic.Registry) (records : List Record) (P : Record → Prop) :
    Prop where
  stores   : log.Stores (records.map encodeMetadataRecord)
  valid    : ∀ r ∈ records, r.Valid
  registry : IsRegistry topics
  pending  : ∀ r, P r → (replayed records).lookup r.topic = r.effect
  settled  : ∀ name, (∀ r, P r → r.topic ≠ name) → topics.lookup name = (replayed records).lookup name

namespace Consistent

theorem empty : Consistent .empty ∅ [] fun _ => False where
  stores   := Storage.Log.empty_stores
  valid    := by simp
  registry := isRegistry_empty
  pending  := by simp
  settled  := by simp [replayed]

theorem of_stores (h : log.Stores (records.map encodeMetadataRecord)) (hvalid : ∀ r ∈ records, r.Valid) :
    Consistent log (replayed records) records fun _ => False where
  stores   := h
  valid    := hvalid
  registry := isRegistry_replayed hvalid
  pending  := by simp
  settled  := by simp

theorem congr (h : Consistent log topics records P) (hP : ∀ r, P' r ↔ P r) : Consistent log topics records P' where
  stores   := h.stores
  valid    := h.valid
  registry := h.registry
  pending r hr := h.pending r ((hP r).mp hr)
  settled name hname := h.settled name fun r hr => hname r ((hP r).mpr hr)

theorem append (h : Consistent log topics records P)
    (hlog : log'.Stores ((records ++ [record]).map encodeMetadataRecord))
    (hrecord : record.Valid) (hsame : ∀ r, P r → r.topic = record.topic → r.effect = record.effect)
    (hP : ∀ r, P' r ↔ r = record ∨ P r) : Consistent log' topics (records ++ [record]) P' := by
  have hlookup : ∀ name, (replayed (records ++ [record])).lookup name =
      if name = record.topic then record.effect else (replayed records).lookup name := by
    intro name
    rw [replayed_append, lookup_applyMetadataRecord]
  refine ⟨hlog, List.forall_mem_append.mpr ⟨h.valid, by simpa using hrecord⟩, h.registry, fun r hr => ?_,
    fun name hname => ?_⟩
  · rw [hlookup]
    cases (hP r).mp hr
    case inl heq => rw [heq, if_pos rfl]
    case inr hr =>
      split
      case isTrue heq => exact (hsame r hr heq).symm
      case isFalse    => exact h.pending r hr
  · have hne : name ≠ record.topic := fun heq => hname record ((hP record).mpr (.inl rfl)) heq.symm
    rw [hlookup, if_neg hne]
    exact h.settled name fun r hr => hname r ((hP r).mpr (.inr hr))

theorem apply (h : Consistent log topics records P) (hrecord : record.Valid) (hP : ∀ r, P r ↔ r = record ∨ P' r) :
    Consistent log (applyMetadataRecord topics record) records P' where
  stores   := h.stores
  valid    := h.valid
  registry := h.registry.apply hrecord
  pending r hr := h.pending r ((hP r).mpr (.inr hr))
  settled name hname := by
    rw [lookup_applyMetadataRecord]
    split
    case isTrue heq =>
      rw [heq]
      exact (h.pending record ((hP record).mpr (.inl rfl))).symm
    case isFalse hne =>
      refine h.settled name fun r hr => ?_
      cases (hP r).mp hr
      case inl heq => exact fun hname => hne (hname ▸ heq ▸ rfl)
      case inr hr  => exact hname r hr

-- An append to the log always succeeds.
theorem stores_append {e : Except IOError Int} (h : Consistent log topics records P)
    (hsize : (encodeMetadataRecord record).length < 2 ^ 32) (hlen : records.length + 1 < 2 ^ 63)
    (happend : MetadataLog.append log record = (log', e)) :
    e = .ok records.length ∧ log'.Stores ((records ++ [record]).map encodeMetadataRecord) := by
  have ⟨log'', happend', hlog⟩ := h.stores.append hsize (by simpa using hlen)
  cases happend.symm.trans happend'
  exact ⟨by simp, by simpa using hlog⟩

theorem replay (h : Consistent log topics records fun _ => False) : Broker.replay log = .ok topics := by
  rw [Broker.replay, MetadataLog.replayAll_eq h.stores h.valid]
  exact congrArg Except.ok (Finmap.ext_lookup fun name => (h.settled name (by simp)).symm)

end Consistent

variable {n : Nat} {tasks others : List Task} {task task' : Task} {name : Bytes} {o : Output} {os : List Output}
  {view : View} {a : Step} {as : List Step}

-- A `createTopic` for the name has returned without an error.
def Output.Creates (name : Bytes) : Output → Prop
  | returned (.createTopic name' ..) .none => name' = name
  | returned .. | logged _                 => False

def Output.Deletes (name : Bytes) : Output → Prop
  | logged record => record.topic = name ∧ record.type = .topicDelete
  | returned ..   => False

-- When all operations are done the registry is the replay of the log. Of two calls that have created the
-- same topic, the second one returned after the topic was deleted.
def Faithful (b : Broker) (os : List Output) : Prop :=
  ((∀ task ∈ b.tasks, ∃ code, task.progress = .done code) → Broker.replay b.log = .ok b.topics) ∧
    ∀ name, History.Separated (Output.Creates name) (Output.Deletes name) os

-- A topic is created only while no other call is about to create it, and a record is appended only while
-- no different one for the topic waits to be applied.
def TaskSerial (config : Config) (topics : Topic.Registry) (others : List Task) (task : Task) : Prop :=
  match task.progress, task.operation with
  | .start, .createTopic name numPartitions replicationFactor =>
    (newPartitions config.cluster.ids numPartitions replicationFactor).isOk → topics.get name = none →
      ∀ other ∈ others, other.creating? ≠ some name
  | .append record _, _ =>
    (encodeMetadataRecord record).length < 2 ^ 32 ∧
      ∀ other ∈ others, ∀ r ∈ other.pending?, r.topic = record.topic → r.effect = record.effect
  | _, _ => True

def Serial (config : Config) (b : Broker) : Step → Prop
  | .call operation => operation.Short
  | .step i _       => ∀ task ∈ b.tasks[i]?, TaskSerial config b.topics (b.tasks.eraseIdx i) task

instance (config : Config) (topics : Topic.Registry) (others : List Task) :
    DecidablePred (TaskSerial config topics others) := fun _ => by
  unfold TaskSerial
  split <;> infer_instance

instance (config : Config) (b : Broker) : DecidablePred (Serial config b) := fun _ => by
  unfold Serial
  split <;> infer_instance

def Pending (tasks : List Task) (r : Record) : Prop :=
  ∃ task ∈ tasks, task.pending? = some r

theorem pending_cons (task : Task) (tasks : List Task) (r : Record) :
    Pending (task :: tasks) r ↔ task.pending? = some r ∨ Pending tasks r := by
  simp [Pending]

-- A call that creates a topic has a record of the topic to append and apply, and nothing more.
def Creates (task : Task) : Prop :=
  match task.operation, task.progress with
  | .createTopic name .., .append record next | .createTopic name .., .apply record next =>
    record.topic = name ∧ record.effect.isSome ∧ next = .reply
  | .createTopic .., .scan .. => False
  | _, _ => True

-- What the first step of an operation has come to.
structure Started (config : Config) (topics : Topic.Registry) (operation : Operation) (progress : Progress) :
    Prop where
  creates  : Creates ⟨operation, progress⟩
  pending  : Task.pending? ⟨operation, progress⟩ = none
  creating : ∀ name, Task.creating? ⟨operation, progress⟩ = some name → topics.get name = none ∧
    ∃ numPartitions replicationFactor, operation = .createTopic name numPartitions replicationFactor ∧
      (newPartitions config.cluster.ids numPartitions replicationFactor).isOk
  done     : ∀ code, progress = .done code → ∀ name, ¬(Output.returned operation code).Creates name

theorem Started.of_done {operation : Operation} {code : ErrorCode}
    (h : ∀ name, ¬(Output.returned operation code).Creates name) :
    Started config topics operation (.done code) where
  creates  := by cases operation <;> trivial
  pending  := rfl
  creating := by cases operation <;> simp [Task.creating?]
  done     := by
    intro code' heq
    cases heq
    exact h

theorem started {operation : Operation} {progress : Progress}
    (h : operation.start config view topics = some progress) : Started config topics operation progress := by
  cases operation
  case createTopic name numPartitions replicationFactor =>
    simp only [Operation.start] at h
    split at h
    case h_1 code hcode =>
      cases h
      have hne : code ≠ .none := by
        intro heq
        subst heq
        unfold newPartitions at hcode
        split at hcode <;> [skip; split at hcode] <;> simp at hcode
      refine .of_done fun name' hcreates => ?_
      cases code <;> contradiction
    case h_2 partitions hpartitions =>
      split at h
      case isTrue =>
        cases h
        exact .of_done fun _ hcreates => hcreates
      case isFalse hnone =>
        cases h
        refine ⟨⟨rfl, rfl, rfl⟩, rfl, fun name' heq => ?_, by simp⟩
        cases heq
        exact ⟨by simpa using hnone, numPartitions, replicationFactor, rfl, by rw [hpartitions]; rfl⟩
  case deleteTopic name =>
    simp only [Operation.start] at h
    split at h
    case isTrue =>
      cases h
      exact ⟨trivial, rfl, by simp [Task.creating?], by simp⟩
    case isFalse =>
      cases h
      exact .of_done fun _ hcreates => hcreates
  case onPeerDown deadID =>
    simp only [Operation.start] at h
    split at h
    case isTrue =>
      cases h
      exact .of_done fun _ hcreates => hcreates
    case isFalse =>
      split at h
      case isTrue =>
        cases h
        exact ⟨trivial, rfl, by simp [Task.creating?], by simp⟩
      case isFalse => contradiction

-- A step of one of the operations, of which the others are given.
theorem Consistent.advance {progress : Progress} {topics' : Topic.Registry}
    (h : Consistent log topics records (Pending (task :: others))) (hvalid : task.progress.Valid)
    (hlen : records.length + 1 < 2 ^ 63)
    (hserial : ∀ record next, task.progress = .append record next → (encodeMetadataRecord record).length < 2 ^ 32 ∧
      ∀ r, Pending others r → r.topic = record.topic → r.effect = record.effect)
    (ha : Advances config view log topics task log' topics' progress) :
    ∃ records', Consistent log' topics' records' (Pending (⟨task.operation, progress⟩ :: others)) ∧
      (records' = records ∨ ∃ record next, task.progress = .append record next ∧ records' = records ++ [record]) := by
  have ⟨operation, progress'⟩ := task
  have hquiet : Task.pending? ⟨operation, progress'⟩ = none → Task.pending? ⟨operation, progress⟩ = none →
      Consistent log topics records (Pending (⟨operation, progress⟩ :: others)) := fun hpending hpending' =>
    h.congr fun r => by simp [pending_cons, hpending, hpending']
  cases ha
  case started hprogress hstart =>
    cases hprogress
    exact ⟨records, hquiet rfl (started hstart).pending, .inl rfl⟩
  case scanned hprogress =>
    cases hprogress
    exact ⟨records, hquiet rfl rfl, .inl rfl⟩
  case skipped hprogress _ =>
    cases hprogress
    exact ⟨records, hquiet rfl rfl, .inl rfl⟩
  case reassigned hprogress _ =>
    cases hprogress
    exact ⟨records, hquiet rfl rfl, .inl rfl⟩
  case appended record next _ hprogress happend =>
    cases hprogress
    have ⟨hsize, hsame⟩ := hserial record next rfl
    have hpending : ∀ r, Pending (⟨operation, .apply record next⟩ :: others) r ↔
        r = record ∨ Pending (⟨operation, .append record next⟩ :: others) r := fun r => by
      simp [pending_cons, Task.pending?, eq_comm]
    have hconsistent := h.append (h.stores_append hsize hlen happend).right hvalid.left
      (fun r hr => hsame r (by simpa [pending_cons, Task.pending?] using hr)) hpending
    exact ⟨_, hconsistent, .inr ⟨record, next, rfl, rfl⟩⟩
  case failed record next _ hprogress happend =>
    cases hprogress
    exact absurd (h.stores_append (hserial record next rfl).left hlen happend).left nofun
  case applied record next hprogress =>
    cases hprogress
    refine ⟨records, h.apply hvalid.left fun r => ?_, .inl rfl⟩
    cases next <;> simp [pending_cons, Task.pending?, Continuation.resume, eq_comm]

structure Inv (n : Nat) (log : Storage.Log) (topics : Topic.Registry) (tasks : List Task) (records : List Record)
    (os : List Output) : Prop where
  consistent : Consistent log topics records (Pending tasks)
  length_le  : records.length ≤ n
  valid      : ∀ task ∈ tasks, task.operation.Short ∧ task.progress.Valid
  creates    : ∀ task ∈ tasks, Creates task
  creating   : (tasks.filterMap Task.creating?).Nodup
  since      : ∀ name, History.Since (Output.Creates name) (Output.Deletes name) os →
    (topics.lookup name).isSome ∧ name ∉ tasks.filterMap Task.creating? ∧
      ∀ r, Pending tasks r → r.topic = name → r.effect.isSome
  separated  : ∀ name, History.Separated (Output.Creates name) (Output.Deletes name) os

theorem mem_creating_cons {name : Bytes} {task : Task} {tasks : List Task} :
    name ∈ (task :: tasks).filterMap Task.creating? ↔
      task.creating? = some name ∨ name ∈ tasks.filterMap Task.creating? := by
  simp [List.mem_filterMap]

theorem nodup_creating_cons {task : Task} {tasks : List Task} :
    ((task :: tasks).filterMap Task.creating?).Nodup ↔
      (∀ name, task.creating? = some name → name ∉ tasks.filterMap Task.creating?) ∧
        (tasks.filterMap Task.creating?).Nodup := by
  rw [List.filterMap_cons]
  cases task.creating?
  case none      => simp
  case some name => simp [List.nodup_cons]

namespace Inv

variable {progress : Progress} {out : List Output}

theorem empty : Inv 0 .empty ∅ [] [] [] where
  consistent := Consistent.empty.congr (by simp [Pending])
  length_le  := Nat.le_refl 0
  valid      := by simp
  creates    := by simp
  creating   := by simp
  since _ h  := absurd h History.not_since_nil
  separated _ := History.separated_nil

theorem perm (h : Inv n log topics tasks records os) (hperm : tasks.Perm others) :
    Inv n log topics others records os := by
  have hpending : ∀ r, Pending others r ↔ Pending tasks r := fun r => by simp [Pending, hperm.mem_iff]
  have hcreating := hperm.filterMap Task.creating?
  refine ⟨h.consistent.congr hpending, h.length_le, fun task ht => h.valid task (hperm.mem_iff.mpr ht),
    fun task ht => h.creates task (hperm.mem_iff.mpr ht), hcreating.nodup_iff.mp h.creating, fun name hsince => ?_,
    h.separated⟩
  have ⟨hlookup, hname, heffect⟩ := h.since name hsince
  exact ⟨hlookup, fun hmem => hname (hcreating.mem_iff.mpr hmem), fun r hr => heffect r ((hpending r).mp hr)⟩

theorem call {operation : Operation} (h : Inv n log topics tasks records os) (hshort : operation.Short) :
    Inv (n + 1) log topics (⟨operation, .start⟩ :: tasks) records os := by
  have hpending : ∀ r, Pending (⟨operation, .start⟩ :: tasks) r ↔ Pending tasks r := fun r => by
    simp [pending_cons, Task.pending?]
  have hcreating : Task.creating? ⟨operation, .start⟩ = none := by
    cases operation <;> rfl
  have hcreates : Creates ⟨operation, .start⟩ := by
    cases operation <;> trivial
  refine ⟨h.consistent.congr hpending, Nat.le_succ_of_le h.length_le,
    List.forall_mem_cons.mpr ⟨⟨hshort, trivial⟩, h.valid⟩, List.forall_mem_cons.mpr ⟨hcreates, h.creates⟩,
    nodup_creating_cons.mpr ⟨by simp [hcreating], h.creating⟩, fun name hsince => ?_, h.separated⟩
  have ⟨hlookup, hname, heffect⟩ := h.since name hsince
  exact ⟨hlookup, by simpa [mem_creating_cons, hcreating] using hname, fun r hr => heffect r ((hpending r).mp hr)⟩

-- A step that leaves the log and the registry alone.
theorem quiet (h : Inv n log topics (task :: others) records os) (hvalid : progress.Valid)
    (hpending : task.pending? = none) (hpending' : Task.pending? ⟨task.operation, progress⟩ = none)
    (hcreates : Creates ⟨task.operation, progress⟩)
    (hcreating : ∀ name, Task.creating? ⟨task.operation, progress⟩ = some name →
      topics.lookup name = none ∧ name ∉ others.filterMap Task.creating?)
    (hout : ∀ o ∈ out, ∀ name, ¬o.Creates name) :
    Inv (n + 1) log topics (⟨task.operation, progress⟩ :: others) records (os ++ out) := by
  have hsame : ∀ r, Pending (⟨task.operation, progress⟩ :: others) r ↔ Pending (task :: others) r := fun r => by
    simp [pending_cons, hpending, hpending']
  have ⟨htask, hothers⟩ := List.forall_mem_cons.mp h.valid
  refine ⟨h.consistent.congr hsame, Nat.le_succ_of_le h.length_le,
    List.forall_mem_cons.mpr ⟨⟨htask.left, hvalid⟩, hothers⟩,
    List.forall_mem_cons.mpr ⟨hcreates, (List.forall_mem_cons.mp h.creates).right⟩,
    nodup_creating_cons.mpr ⟨fun name hname => (hcreating name hname).right, (nodup_creating_cons.mp h.creating).right⟩,
    fun name hsince => ?_, fun name => (h.separated name).append_forall fun o ho => hout o ho name⟩
  have ⟨hlookup, hname, heffect⟩ := h.since name (hsince.of_append_forall fun o ho => hout o ho name)
  refine ⟨hlookup, fun hmem => ?_, fun r hr => heffect r ((hsame r).mp hr)⟩
  cases mem_creating_cons.mp hmem
  case inl hself =>
    rw [(hcreating name hself).left] at hlookup
    contradiction
  case inr hother => exact hname (mem_creating_cons.mpr (.inr hother))

theorem append {next : Continuation} {offset : Int} (h : Inv n log topics (task :: others) records os)
    (hn : n + 1 < 2 ^ 63) (hprogress : task.progress = .append record next)
    (hc : TaskSerial config topics others task) (happend : MetadataLog.append log record = (log', .ok offset)) :
    Inv (n + 1) log' topics (⟨task.operation, .apply record next⟩ :: others) (records ++ [record])
      (os ++ [.logged record]) := by
  have hle := h.length_le
  have ⟨htask, hothers⟩ := List.forall_mem_cons.mp h.valid
  have ⟨hcreates, hcreates'⟩ := List.forall_mem_cons.mp h.creates
  have ⟨operation, progress⟩ := task
  cases hprogress
  have ⟨hsize, hsame⟩ : (encodeMetadataRecord record).length < 2 ^ 32 ∧
    ∀ other ∈ others, ∀ r ∈ other.pending?, r.topic = record.topic → r.effect = record.effect := hc
  have hpending : ∀ r, Pending (⟨operation, .append record next⟩ :: others) r ↔ Pending others r := fun r => by
    simp [pending_cons, Task.pending?]
  have hpending' : ∀ r, Pending (⟨operation, .apply record next⟩ :: others) r ↔
      r = record ∨ Pending (⟨operation, .append record next⟩ :: others) r := fun r => by
    simp [pending_cons, Task.pending?, eq_comm]
  have hcreating : Task.creating? ⟨operation, .apply record next⟩ =
      Task.creating? ⟨operation, .append record next⟩ := by
    cases operation <;> rfl
  have hlog := (h.consistent.stores_append hsize (by omega) happend).right
  have hconsistent := h.consistent.append hlog htask.right.left
    (fun r hr => have ⟨other, hmem, hr⟩ := (hpending r).mp hr; hsame other hmem r hr) hpending'
  refine ⟨hconsistent, by simpa using hle, List.forall_mem_cons.mpr ⟨htask, hothers⟩,
    List.forall_mem_cons.mpr ⟨by cases operation <;> exact hcreates, hcreates'⟩, ?_, fun name hsince => ?_,
    fun name => (h.separated name).append nofun⟩
  · rw [List.filterMap_cons, hcreating, ← List.filterMap_cons]
    exact h.creating
  · cases hsince.of_append
    case inl hcreated => exact absurd hcreated nofun
    case inr hprev =>
      have ⟨hsince, hdeletes⟩ := hprev
      have ⟨hlookup, hname, heffect⟩ := h.since name hsince
      refine ⟨hlookup, by rwa [mem_creating_cons, hcreating, ← mem_creating_cons], fun r hr htopic => ?_⟩
      cases (hpending' r).mp hr
      case inr hr => exact heffect r hr htopic
      case inl heq =>
        subst heq
        cases htype : r.type
        case topicUpsert => simp [Record.effect, htype]
        case topicDelete => exact absurd ⟨htopic, htype⟩ hdeletes

-- The answer to a call, if the record was the last thing to do.
theorem apply {next : Continuation} (h : Inv n log topics (task :: others) records os)
    (hprogress : task.progress = .apply record next) :
    Inv (n + 1) log (applyMetadataRecord topics record) (⟨task.operation, next.resume⟩ :: others) records
      (os ++ outputs task ⟨task.operation, next.resume⟩) := by
  have ⟨htask, hothers⟩ := List.forall_mem_cons.mp h.valid
  have ⟨hcreates, hcreates'⟩ := List.forall_mem_cons.mp h.creates
  have ⟨hcreating, hnodup⟩ := nodup_creating_cons.mp h.creating
  have ⟨operation, progress⟩ := task
  cases hprogress
  have hpending : ∀ r, Pending (⟨operation, .apply record next⟩ :: others) r ↔
      r = record ∨ Pending (⟨operation, next.resume⟩ :: others) r := fun r => by
    cases next <;> simp [pending_cons, Task.pending?, Continuation.resume, eq_comm]
  have hresume : Task.creating? ⟨operation, next.resume⟩ = none := by
    cases operation <;> cases next <;> rfl
  have hvalid : next.resume.Valid := by
    cases next
    case reply => trivial
    case scan  => exact htask.right.right
  -- Only a call that creates a topic is answered so.
  have hout : ∀ o ∈ outputs ⟨operation, .apply record next⟩ ⟨operation, next.resume⟩, ∀ name, o.Creates name →
      Task.creating? ⟨operation, .apply record next⟩ = some name ∧ record.topic = name ∧ record.effect.isSome := by
    intro o ho name hcreated
    cases next
    case scan  => simp [outputs, Continuation.resume] at ho
    case reply =>
      cases List.mem_singleton.mp ho
      cases operation
      case createTopic => exact ⟨congrArg some hcreated, hcreates.left.trans hcreated, hcreates.right.left⟩
      case deleteTopic => exact absurd hcreated nofun
      case onPeerDown  => exact absurd hcreated nofun
  have hlookup := lookup_applyMetadataRecord topics record
  refine ⟨h.consistent.apply htask.right.left hpending, Nat.le_succ_of_le h.length_le,
    List.forall_mem_cons.mpr ⟨⟨htask.left, hvalid⟩, hothers⟩, ?_, ?_, fun name hsince => ?_, fun name => ?_⟩
  · refine List.forall_mem_cons.mpr ⟨?_, hcreates'⟩
    cases operation
    case createTopic =>
      cases hcreates.right.right
      trivial
    all_goals cases next <;> trivial
  · exact nodup_creating_cons.mpr ⟨by simp [hresume], hnodup⟩
  · by_cases hnew : ∃ o ∈ outputs ⟨operation, .apply record next⟩ ⟨operation, next.resume⟩, o.Creates name
    case pos =>
      have ⟨o, ho, hcreated⟩ := hnew
      have ⟨hself, htopic, heffect⟩ := hout o ho name hcreated
      refine ⟨by rwa [hlookup, if_pos htopic.symm], ?_, fun r hr hr' => ?_⟩
      · rw [mem_creating_cons, hresume]
        simpa using hcreating name hself
      · have hlast := h.consistent.pending record ((hpending record).mpr (.inl rfl))
        rw [← h.consistent.pending r ((hpending r).mpr (.inr hr)), hr', ← htopic, hlast]
        exact heffect
    case neg =>
      have ⟨hsome, hname, heffect⟩ := h.since name (hsince.of_append_forall fun o ho hcreated => hnew ⟨o, ho, hcreated⟩)
      refine ⟨?_, ?_, fun r hr => heffect r ((hpending r).mpr (.inr hr))⟩
      · rw [hlookup]
        split
        case isTrue heq => exact heffect record ((hpending record).mpr (.inl rfl)) heq.symm
        case isFalse    => exact hsome
      · rw [mem_creating_cons, hresume]
        simpa using fun hmem => hname (mem_creating_cons.mpr (.inr hmem))
  · cases next
    case scan  => simpa [outputs, Continuation.resume] using h.separated name
    case reply =>
      refine (h.separated name).append fun hcreated hsince => (h.since name hsince).right.left ?_
      exact mem_creating_cons.mpr (.inl (hout _ List.mem_cons_self name hcreated).left)

theorem step (h : Inv n log topics (task :: others) records os) (hn : n + 1 < 2 ^ 63)
    (hc : TaskSerial config topics others task) {topics' : Topic.Registry}
    (ha : Advances config view log topics task log' topics' progress) :
    ∃ records', Inv (n + 1) log' topics' (⟨task.operation, progress⟩ :: others) records'
      (os ++ outputs task ⟨task.operation, progress⟩) := by
  have ⟨⟨hshort, hprogress⟩, _⟩ := List.forall_mem_cons.mp h.valid
  have hvalid := (ha.valid hshort hprogress h.consistent.registry).left
  have hcreates := (List.forall_mem_cons.mp h.creates).left
  have ⟨operation, progress'⟩ := task
  cases ha
  case started hprogress hstart =>
    cases hprogress
    have hstarted := started hstart
    refine ⟨records, h.quiet hvalid rfl hstarted.pending hstarted.creates (fun name hname => ?_) fun o ho name => ?_⟩
    · have ⟨hnone, _, _, heq, hok⟩ := hstarted.creating name hname
      cases heq
      refine ⟨hnone, fun hmem => ?_⟩
      have ⟨other, hother, heq⟩ := List.mem_filterMap.mp hmem
      exact hc hok hnone other hother heq
    · cases progress
      case done code =>
        cases List.mem_singleton.mp ho
        exact hstarted.done code rfl name
      all_goals simp [outputs] at ho
  case scanned hprogress =>
    cases hprogress
    cases operation
    case createTopic => exact hcreates.elim
    all_goals exact ⟨records, h.quiet trivial rfl rfl trivial nofun (by simp [outputs, Output.Creates])⟩
  case skipped hprogress _ =>
    cases hprogress
    cases operation
    case createTopic => exact hcreates.elim
    all_goals exact ⟨records, h.quiet hvalid rfl rfl trivial nofun (by simp [outputs])⟩
  case reassigned hprogress _ =>
    cases hprogress
    cases operation
    case createTopic => exact hcreates.elim
    all_goals exact ⟨records, h.quiet hvalid rfl rfl trivial nofun (by simp [outputs])⟩
  case appended hprogress happend =>
    cases hprogress
    exact ⟨_, h.append hn rfl hc happend⟩
  case failed hprogress happend =>
    cases hprogress
    have hle := h.length_le
    exact absurd (h.consistent.stores_append hc.left (by omega) happend).left nofun
  case applied hprogress =>
    cases hprogress
    exact ⟨records, h.apply rfl⟩

theorem exec (h : Inv n b.log b.topics b.tasks records os) (hn : n + 1 < 2 ^ 63) (hc : Serial config b a)
    (hs : b.exec config a = some (b', out)) :
    ∃ records', Inv (n + 1) b'.log b'.topics b'.tasks records' (os ++ out) := by
  cases a
  case call operation =>
    cases Option.some.inj hs
    rw [List.append_nil]
    exact ⟨records, (h.call hc).perm (List.perm_append_singleton ..).symm⟩
  case step i view =>
    obtain ⟨task, log, topics, task', htask, hstep, rfl, rfl⟩ := exec_step hs
    have ⟨hoperation, ha⟩ := advances hstep
    have ⟨records', hinv⟩ := (h.perm (perm_cons_eraseIdx htask)).step hn (hc task htask) ha
    rw [← hoperation] at hinv
    exact ⟨records', hinv.perm (perm_set htask task').symm⟩

end Inv

theorem inductive_inv (config : Config) :
    (machine config).InductiveUpTo (Serial config) (2 ^ 63 - 1)
      fun n b os => ∃ records, Inv n b.log b.topics b.tasks records os where
  step hn h hc hs :=
    have ⟨_, h⟩ := h
    h.exec (by omega) hc hs

-- Whatever the operations that run at the same time, if none of them comes between the check and the
-- answer of another that creates the same topic, nor between the append and the apply of another record
-- of the topic.
theorem faithful_of_serial (hn : as.length < 2 ^ 63) (hc : (machine config).Along (Serial config) .empty as)
    (hr : (machine config).run .empty as = some (b, os)) : Faithful b os := by
  have ⟨records, h⟩ := (inductive_inv config).run_nil ⟨[], Inv.empty⟩ (by omega) hc hr
  refine ⟨fun hdone => ?_, h.separated⟩
  refine (h.consistent.congr fun r => ?_).replay
  constructor
  · exact False.elim
  · rintro ⟨task, htask, hpending⟩
    have ⟨code, hcode⟩ := hdone task htask
    simp [Task.pending?, hcode] at hpending

def sampleConfig : Config where
  nodeID  := 1
  cluster := { ids := [1, 2], sorted := by decide, int32 := by decide }

def sampleView : View where
  controllerID := 1
  alive        := [1]
  topics       := []

-- Two topics are created at the same time, and one of them is deleted and created again.
theorem faithful_of_serial_pair :
    let as : List Step := [.call (.createTopic [116] 2 1), .call (.createTopic [117] 1 2), .step 0 sampleView,
      .step 1 sampleView, .step 0 sampleView, .step 1 sampleView, .step 1 sampleView, .step 0 sampleView,
      .call (.deleteTopic [116]), .step 2 sampleView, .step 2 sampleView, .step 2 sampleView,
      .call (.createTopic [116] 1 1), .step 3 sampleView, .step 3 sampleView, .step 3 sampleView]
    ∃ b os, (machine sampleConfig).run .empty as = some (b, os) ∧ b.tasks.map (·.progress) =
      [.done .none, .done .none, .done .none, .done .none] ∧ Faithful b os := by
  intro as
  have hrun : ((machine sampleConfig).run .empty as).map (fun r => r.fst.tasks.map (·.progress)) =
      some [.done .none, .done .none, .done .none, .done .none] := by decide +kernel
  obtain ⟨⟨b, os⟩, hs, heq⟩ := Option.map_eq_some_iff.mp hrun
  exact ⟨b, os, hs, heq, faithful_of_serial (by decide) (by decide +kernel) hs⟩

-- Two calls create the same topic. Their records are applied in another order than they were appended.
theorem duellingCreates_not_faithful :
    let as : List Step := [.call (.createTopic [116] 1 1), .call (.createTopic [116] 2 1), .step 0 sampleView,
      .step 1 sampleView, .step 0 sampleView, .step 1 sampleView, .step 1 sampleView, .step 0 sampleView]
    ∃ b os, (machine sampleConfig).run .empty as = some (b, os) ∧
      os = [.logged ⟨.topicUpsert, [116], [⟨0, 1, [1], [1]⟩]⟩,
        .logged ⟨.topicUpsert, [116], [⟨0, 1, [1], [1]⟩, ⟨1, 2, [2], [2]⟩]⟩,
        .returned (.createTopic [116] 2 1) .none, .returned (.createTopic [116] 1 1) .none] ∧
      ¬Faithful b os := by
  intro as
  have hrun : ((machine sampleConfig).run .empty as).map (fun r => (r.fst.tasks.map (·.progress), r.snd,
      (Broker.replay r.fst.log).toOption.map (·.get [116]), r.fst.topics.get [116])) =
      some ([.done .none, .done .none], [.logged ⟨.topicUpsert, [116], [⟨0, 1, [1], [1]⟩]⟩,
        .logged ⟨.topicUpsert, [116], [⟨0, 1, [1], [1]⟩, ⟨1, 2, [2], [2]⟩]⟩,
        .returned (.createTopic [116] 2 1) .none, .returned (.createTopic [116] 1 1) .none],
        some (some ⟨[116], [⟨0, 1, [1], [1]⟩, ⟨1, 2, [2], [2]⟩]⟩), some ⟨[116], [⟨0, 1, [1], [1]⟩]⟩) := by
    decide +kernel
  obtain ⟨⟨b, os⟩, hs, heq⟩ := Option.map_eq_some_iff.mp hrun
  simp only [Prod.mk.injEq] at heq
  obtain ⟨htasks, hos, hreplay, hget⟩ := heq
  refine ⟨b, os, hs, hos, fun h => ?_⟩
  have hdone : ∀ task ∈ b.tasks, ∃ code, task.progress = .done code := by
    intro task htask
    have hmem := List.mem_map_of_mem (f := (·.progress)) htask
    rw [htasks] at hmem
    exact ⟨.none, by simpa using hmem⟩
  rw [h.left hdone] at hreplay
  simp [Except.toOption, hget] at hreplay

end Network.Metadata
