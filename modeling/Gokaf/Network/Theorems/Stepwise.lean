import Gokaf.Network.Stepwise
import Gokaf.Network.Theorems.Dispatch
import Gokaf.Network.Theorems.Handlers
import Gokaf.Storage.Theorems.Manager

open Go Protocol Cluster Effect Goroutine

-- A goroutine that is left alone does what its handler does in one go.
namespace Network.Stepwise

section Readers

variable {ε σ : Type} {e : ε}

@[simp]
theorem effect_readInt16 : effect e (readInt16 : Goroutine ε σ Int) = readInt16 :=
  effect_eq_of_stateless stateless_readInt16 stateless_readInt16

@[simp]
theorem effect_readInt32 : effect e (readInt32 : Goroutine ε σ Int) = readInt32 :=
  effect_eq_of_stateless stateless_readInt32 stateless_readInt32

@[simp]
theorem effect_readInt64 : effect e (readInt64 : Goroutine ε σ Int) = readInt64 :=
  effect_eq_of_stateless stateless_readInt64 stateless_readInt64

@[simp]
theorem effect_readArrayLen : effect e (readArrayLen : Goroutine ε σ Int) = readArrayLen :=
  effect_eq_of_stateless stateless_readArrayLen stateless_readArrayLen

@[simp]
theorem effect_readString : effect e (readString : Goroutine ε σ Bytes) = readString :=
  effect_eq_of_stateless stateless_readString stateless_readString

@[simp]
theorem effect_readNullableString : effect e (readNullableString : Goroutine ε σ (Option Bytes)) = readNullableString :=
  effect_eq_of_stateless stateless_readNullableString stateless_readNullableString

@[simp]
theorem effect_readBytes : effect e (readBytes : Goroutine ε σ (Option Bytes)) = readBytes :=
  effect_eq_of_stateless stateless_readBytes stateless_readBytes

@[simp]
theorem effect_makeSlice (n : Int) : effect e (makeSlice n : Goroutine ε σ Unit) = makeSlice n :=
  effect_eq_of_stateless (stateless_makeSlice n) (stateless_makeSlice n)

@[simp]
theorem effect_drainCreateTopicAssignments :
    effect e (drainCreateTopicAssignments : Goroutine ε σ Unit) = drainCreateTopicAssignments :=
  effect_eq_of_stateless stateless_drainCreateTopicAssignments stateless_drainCreateTopicAssignments

@[simp]
theorem effect_drainCreateTopicConfigs :
    effect e (drainCreateTopicConfigs : Goroutine ε σ Unit) = drainCreateTopicConfigs :=
  effect_eq_of_stateless stateless_drainCreateTopicConfigs stateless_drainCreateTopicConfigs

@[simp]
theorem effect_readRequestHeader : effect e (readRequestHeader : Goroutine ε σ RequestHeader) = readRequestHeader :=
  effect_eq_of_stateless Server.stateless_readRequestHeader Server.stateless_readRequestHeader

end Readers

section Loops

variable {ε σ α : Type} {e : ε}

@[simp]
theorem effect_forTopics (partition : Bytes → Goroutine ε σ α) :
    effect e (forTopics partition) = forTopics fun topicName => effect e (partition topicName) := by
  simp [forTopics]

@[simp]
theorem effect_produceTopics (producePartition : Bytes → Int → Bytes → Int → Int → Goroutine ε σ α) :
    effect e (produceTopics producePartition) =
      produceTopics fun topicName partitionIndex batch acks timeoutMS =>
        effect e (producePartition topicName partitionIndex batch acks timeoutMS) := by
  simp [produceTopics]

@[simp]
theorem effect_fetchTopics (fetchPartition : Int → Bytes → Int → Int → Int → Goroutine ε σ α) :
    effect e (fetchTopics fetchPartition) =
      fetchTopics fun replicaID topicName partitionIndex fetchOffset partitionMaxBytes =>
        effect e (fetchPartition replicaID topicName partitionIndex fetchOffset partitionMaxBytes) := by
  simp [fetchTopics]

@[simp]
theorem effect_listOffsetsTopics (listOffset : Bytes → Int → Int → Goroutine ε σ α) :
    effect e (listOffsetsTopics listOffset) =
      listOffsetsTopics fun topicName partitionIndex timestamp =>
        effect e (listOffset topicName partitionIndex timestamp) := by
  simp [listOffsetsTopics]

@[simp]
theorem effect_offsetCommitTopics (commit : Offset.Key → Int → Goroutine ε σ α) :
    effect e (offsetCommitTopics commit) = offsetCommitTopics fun key offset => effect e (commit key offset) := by
  simp [offsetCommitTopics]

@[simp]
theorem effect_offsetFetchTopics (fetch : Offset.Key → Goroutine ε σ α) :
    effect e (offsetFetchTopics fetch) = offsetFetchTopics fun key => effect e (fetch key) := by
  simp [offsetFetchTopics]

@[simp]
theorem effect_createTopics (createTopic : Bytes → Int → Int → Goroutine ε σ α) :
    effect e (createTopics createTopic) =
      createTopics fun name numPartitions replicationFactor =>
        effect e (createTopic name numPartitions replicationFactor) := by
  simp [createTopics, forTopicResults]

@[simp]
theorem effect_deleteTopics (deleteTopic : Bytes → Goroutine ε σ α) :
    effect e (deleteTopics deleteTopic) = deleteTopics fun name => effect e (deleteTopic name) := by
  simp [deleteTopics, forTopicResults]

@[simp]
theorem effect_describeTopics (topicInfos : Goroutine ε σ (List TopicInfo)) :
    effect e (describeTopics topicInfos) = describeTopics (effect e topicInfos) := by
  simp [describeTopics]

@[simp]
theorem effect_decodeApplyTopic :
    effect e (decodeApplyTopic : Goroutine ε σ (Bytes × List Topic.Partition)) = decodeApplyTopic := by
  simp [decodeApplyTopic, readInt32Array]

@[simp]
theorem effect_readJoinRequest (header : RequestHeader) :
    effect e (readJoinRequest header : Goroutine ε σ ConsumerGroup.JoinRequest) = readJoinRequest header := by
  simp [readJoinRequest, readJoinGroupProtocols]

@[simp]
theorem effect_readSyncRequest :
    effect e (readSyncRequest : Goroutine ε σ ConsumerGroup.SyncRequest) = readSyncRequest := by
  simp [readSyncRequest, readSyncGroupAssignments]

@[simp]
theorem effect_readHeartbeatRequest :
    effect e (readHeartbeatRequest : Goroutine ε σ ConsumerGroup.HeartbeatRequest) = readHeartbeatRequest := by
  simp [readHeartbeatRequest]

@[simp]
theorem effect_readLeaveRequest :
    effect e (readLeaveRequest : Goroutine ε σ ConsumerGroup.LeaveRequest) = readLeaveRequest := by
  simp [readLeaveRequest]

@[simp]
theorem effect_writePayloads (payloads : Except IOError (List Bytes)) :
    effect e (writePayloads payloads : Goroutine ε σ Bytes) = writePayloads payloads := by
  cases payloads
  case error => rfl
  case ok    => rfl

@[simp]
theorem effect_answerPing (dropped : Bool) : effect e (answerPing dropped : Goroutine ε σ Bytes) =
    answerPing dropped := by
  cases dropped
  case false => rfl
  case true  => rfl

end Loops

section Elements

variable {α β : Type} {w : Surroundings} {bs : Bytes} {b : Broker} {n : Nat}

theorem exec_enter (f : Env → Broker → Broker × α) (k : Nat × α → Handler β) :
    (effect w (enter f >>= k)).exec bs ⟨b, n⟩ =
      (effect w (k (n, (f (w.env n) b).snd))).exec bs ⟨(f (w.env n) b).fst, n + 1⟩ := by
  rw [effect_bind, exec_bind]
  rfl

theorem exec_proceed (i : Nat) (f : Env → Broker → Broker × α) (k : α → Handler β) :
    (effect w (proceed i f >>= k)).exec bs ⟨b, n⟩ =
      (effect w (k (f (w.env i) b).snd)).exec bs ⟨(f (w.env i) b).fst, n⟩ := by
  rw [effect_bind, exec_bind]
  rfl

theorem effect_once (f : Env → Broker → Broker × α) : effect w (once f) = execute w.env f := by
  funext bs s
  exact exec_enter f fun r => pure r.snd

-- Once it is open, the manager has the log.
theorem exec_onLog {i : Nat} {topicName : Bytes} {partitionIndex : Int} {logs : Storage.Manager}
    {log : Except IOError Storage.Log} (h : b.logs.log topicName partitionIndex = (logs, log)) (f : Storage.Log → α)
    (k : Except IOError α → Handler β) :
    (effect w (onLog i topicName partitionIndex f >>= k)).exec bs ⟨b, n⟩ =
      (effect w (k (log.map f))).exec bs ⟨{ b with logs }, n⟩ := by
  rw [onLog, exec_proceed, h]

section Produce

variable {env : Env} {nodeID partitionIndex acks : Int} {leader : Option Int} {topicName batch : Bytes}
  {logs : Storage.Manager} {log : Storage.Log}

theorem refuse_eq_none : refuse nodeID leader batch = none ↔ leader = some nodeID ∧ validRecordBatch batch := by
  cases leader
  case none        => simp [refuse]
  case some leader =>
    by_cases hleader : leader = nodeID
    case pos => simp [refuse, hleader]
    case neg => simp [refuse, hleader]

theorem answer_of_refuse {errorCode : ErrorCode} (h : refuse nodeID leader batch = some errorCode)
    (producers : Producer.Manager) (log : Except IOError Storage.Log) :
    Network.producePartition Storage.Log.appendWithOffset nodeID leader topicName partitionIndex batch producers log =
      (producers, log, .answer { index := partitionIndex, errorCode }) := by
  cases leader
  case none =>
    cases h
    rfl
  case some leader =>
    simp only [refuse] at h
    simp only [Network.producePartition]
    split at h
    case isTrue hne =>
      cases h
      rw [if_pos hne]
    case isFalse hself =>
      split at h
      case isTrue hinvalid =>
        cases h
        rw [if_neg hself, if_pos hinvalid]
      case isFalse => contradiction

theorem producePartition_of_refuse {errorCode : ErrorCode}
    (h : refuse env.config.nodeID ((b.partition? topicName partitionIndex).map (·.leader)) batch = some errorCode) :
    b.producePartition env topicName partitionIndex batch acks = (b, { index := partitionIndex, errorCode }) := by
  have hnone := mt refuse_eq_none.mpr (h ▸ Option.some_ne_none errorCode)
  rw [Broker.producePartition]
  simp only [if_neg hnone, answer_of_refuse h]
  rfl

theorem producePartition_of_error {e : IOError}
    (h : refuse env.config.nodeID ((b.partition? topicName partitionIndex).map (·.leader)) batch = none)
    (hlog : b.logs.log topicName partitionIndex = (logs, .error e)) :
    b.producePartition env topicName partitionIndex batch acks = ({ b with logs }, { index := partitionIndex }) := by
  obtain ⟨hleader, hvalid⟩ := refuse_eq_none.mp h
  simp [Broker.producePartition, Network.producePartition, hleader, hvalid, hlog, waitForAllAcks]

theorem producePartition_of_ok
    (h : refuse env.config.nodeID ((b.partition? topicName partitionIndex).map (·.leader)) batch = none)
    (hlog : b.logs.log topicName partitionIndex = (logs, .ok log)) :
    b.producePartition env topicName partitionIndex batch acks =
      ((appendBatch env.config.nodeID topicName partitionIndex batch { b with logs }).fst,
        waitForAllAcks env topicName partitionIndex acks
          (appendBatch env.config.nodeID topicName partitionIndex batch { b with logs }).snd) := by
  have hopen : Storage.Manager.log { b with logs }.logs topicName partitionIndex = (logs, .ok log) :=
    Storage.Manager.log_log hlog
  simp only [Broker.producePartition, appendBatch, refuse_eq_none.mp h, and_self, if_true, hlog, hopen]
  rcases Network.producePartition Storage.Log.appendWithOffset env.config.nodeID (some env.config.nodeID) topicName
    partitionIndex batch b.producers (.ok log) with ⟨producers, _ | log', produced⟩
  case error => rfl
  case ok    => rfl

end Produce

theorem effect_producePartition (topicName : Bytes) (partitionIndex : Int) (batch : Bytes) (acks : Int) :
    effect w (producePartition topicName partitionIndex batch acks) =
      execute w.env fun env b => b.producePartition env topicName partitionIndex batch acks := by
  funext bs ⟨b, n⟩
  refine (exec_enter _ _).trans ?_
  dsimp only
  cases hrefuse : refuse (w.env n).config.nodeID ((b.partition? topicName partitionIndex).map (·.leader)) batch
  case some errorCode =>
    change _ = (execute w.env _).exec bs ⟨b, n⟩
    rw [execute, exec_update, producePartition_of_refuse hrefuse]
    rfl
  case none =>
    rcases hlog : b.logs.log topicName partitionIndex with ⟨logs, e | log⟩
    case error =>
      refine (exec_onLog hlog _ _).trans ?_
      change _ = (execute w.env _).exec bs ⟨b, n⟩
      rw [execute, exec_update, producePartition_of_error hrefuse hlog]
      rfl
    case ok =>
      refine (exec_onLog hlog _ _).trans ((exec_proceed _ _ _).trans ?_)
      change _ = (execute w.env _).exec bs ⟨b, n⟩
      rw [execute, exec_update, producePartition_of_ok hrefuse hlog]
      dsimp only
      rcases appendBatch (w.env n).config.nodeID topicName partitionIndex batch { b with logs } with ⟨b', produced⟩
      cases produced
      case answer response         => rfl
      case waitForAllAcks response =>
        dsimp only
        split
        case isTrue hnow => simp only [waitForAllAcks, if_pos hnow]; rfl
        case isFalse => rfl

theorem effect_fetchPartition (replicaID : Int) (topicName : Bytes)
    (partitionIndex fetchOffset partitionMaxBytes : Int) :
    effect w (fetchPartition replicaID topicName partitionIndex fetchOffset partitionMaxBytes) =
      execute w.env fun env b =>
        b.fetchPartition env replicaID topicName partitionIndex fetchOffset partitionMaxBytes := by
  funext bs ⟨b, n⟩
  refine (exec_enter _ _).trans ?_
  change _ = (execute w.env _).exec bs ⟨b, n⟩
  rw [execute, exec_update, Broker.fetchPartition]
  cases hknown : (b.partition? topicName partitionIndex).isSome
  case false => rfl
  case true  =>
    simp only [not_true_eq_false, if_false, if_true]
    rcases hlog : b.logs.log topicName partitionIndex with ⟨logs, e | log⟩
    case error => exact exec_onLog hlog _ _
    case ok =>
      have hopen : Storage.Manager.log { b with logs }.logs topicName partitionIndex = (logs, .ok log) :=
        Storage.Manager.log_log hlog
      refine (exec_onLog hlog _ _).trans ((exec_onLog hopen _ _).trans ?_)
      exact (exec_proceed _ _ _).trans (exec_onLog hopen _ _)

theorem effect_listOffset (topicName : Bytes) (partitionIndex timestamp : Int) :
    effect w (listOffset topicName partitionIndex timestamp) =
      execute w.env fun _ b => b.listOffset topicName partitionIndex timestamp := by
  funext bs ⟨b, n⟩
  refine (exec_enter _ _).trans ?_
  change _ = (execute w.env _).exec bs ⟨b, n⟩
  rw [execute, exec_update, Broker.listOffset]
  cases hknown : (b.partition? topicName partitionIndex).isSome
  case false => rfl
  case true  =>
    simp only [not_true_eq_false, if_false, if_true]
    rcases hlog : b.logs.log topicName partitionIndex with ⟨logs, e | log⟩
    case error => exact exec_onLog hlog _ _
    case ok =>
      have hopen : Storage.Manager.log { b with logs }.logs topicName partitionIndex = (logs, .ok log) :=
        Storage.Manager.log_log hlog
      exact (exec_onLog hlog _ _).trans (exec_onLog hopen _ _)

theorem exec_appendMetadata (i : Nat) (record : Record) :
    (effect w (appendMetadata i record)).exec bs ⟨b, n⟩ =
      (.ok ((b.appendMetadata record).snd, bs), ⟨(b.appendMetadata record).fst, n⟩) := by
  refine (exec_proceed _ _ _).trans ?_
  rw [Broker.appendMetadata]
  rcases MetadataLog.append b.metadata record with ⟨metadata, e | offset⟩
  case error => rfl
  case ok    => rfl

theorem effect_asController {f : Nat → Config → Handler ErrorCode} {g : Env → Broker → Broker × ErrorCode}
    (h : ∀ bs b i n, (effect w (f i (w.env i).config)).exec bs ⟨b, n⟩ =
      (.ok ((g (w.env i) b).snd, bs), ⟨(g (w.env i) b).fst, n⟩)) :
    effect w (asController f) = execute w.env fun env b => b.asController env (g env) := by
  funext bs ⟨b, n⟩
  refine (exec_enter _ _).trans ?_
  change _ = (execute w.env _).exec bs ⟨b, n⟩
  rw [execute, exec_update, Broker.asController]
  dsimp only
  split
  case isTrue  => rfl
  case isFalse => exact h bs b n (n + 1)

theorem exec_createTopic (name : Bytes) (numPartitions replicationFactor : Int) (i : Nat) :
    (effect w (createTopic name numPartitions replicationFactor i (w.env i).config)).exec bs ⟨b, n⟩ =
      (.ok ((b.createTopic (w.env i) name numPartitions replicationFactor).snd, bs),
        ⟨(b.createTopic (w.env i) name numPartitions replicationFactor).fst, n⟩) := by
  rw [createTopic, Broker.createTopic]
  cases newPartitions (w.env i).config.cluster.ids numPartitions replicationFactor
  case error code    => rfl
  case ok partitions =>
    refine (exec_proceed _ _ _).trans ?_
    dsimp only
    split
    case isTrue  => rfl
    case isFalse => exact exec_appendMetadata i _

theorem exec_deleteTopic (name : Bytes) (i : Nat) :
    (effect w (deleteTopic name i)).exec bs ⟨b, n⟩ =
      (.ok ((b.deleteTopic name).snd, bs), ⟨(b.deleteTopic name).fst, n⟩) := by
  rw [deleteTopic, Broker.deleteTopic]
  refine (exec_proceed _ _ _).trans ?_
  dsimp only
  split
  case isTrue  => exact exec_appendMetadata i _
  case isFalse => rfl

theorem effect_createTopic (name : Bytes) (numPartitions replicationFactor : Int) :
    effect w (asController (createTopic name numPartitions replicationFactor)) =
      execute w.env fun env b => b.asController env (·.createTopic env name numPartitions replicationFactor) :=
  effect_asController (g := fun env b => b.createTopic env name numPartitions replicationFactor)
    fun _ _ i _ => exec_createTopic name numPartitions replicationFactor i

theorem effect_deleteTopic (name : Bytes) :
    effect w (asController fun i _ => deleteTopic name i) =
      execute w.env fun env b => b.asController env (·.deleteTopic name) :=
  effect_asController (g := fun _ b => b.deleteTopic name) fun _ _ i _ => exec_deleteTopic name i

end Elements

section Handlers

variable (w : Surroundings)

theorem effect_handleProduce : effect w handleProduce = Network.handleProduce w.env := by
  simp only [handleProduce, effect_bind, effect_pure, effect_produceTopics, effect_producePartition]
  rfl

theorem effect_handleFetch : effect w handleFetch = Network.handleFetch w.env := by
  simp only [handleFetch, effect_bind, effect_pure, effect_fetchTopics, effect_fetchPartition]
  rfl

theorem effect_handleListOffsets : effect w handleListOffsets = Network.handleListOffsets w.env := by
  simp only [handleListOffsets, effect_bind, effect_pure, effect_listOffsetsTopics, effect_listOffset]
  rfl

theorem effect_handleOffsetCommit : effect w handleOffsetCommit = Network.handleOffsetCommit w.env := by
  simp only [handleOffsetCommit, effect_bind, effect_pure, effect_offsetCommitTopics, effect_once]
  rfl

theorem effect_handleOffsetFetch : effect w handleOffsetFetch = Network.handleOffsetFetch w.env := by
  simp only [handleOffsetFetch, effect_bind, effect_pure, effect_offsetFetchTopics, effect_once]
  rfl

theorem effect_handleCreateTopics : effect w handleCreateTopics = Network.handleCreateTopics w.env := by
  simp only [handleCreateTopics, effect_bind, effect_pure, effect_createTopics, effect_createTopic]
  rfl

theorem effect_handleDeleteTopics : effect w handleDeleteTopics = Network.handleDeleteTopics w.env := by
  simp only [handleDeleteTopics, effect_bind, effect_pure, effect_deleteTopics, effect_deleteTopic]
  rfl

theorem effect_handleInitProducerID : effect w handleInitProducerID = Network.handleInitProducerID w.env := by
  simp only [handleInitProducerID, effect_bind, effect_pure, effect_readNullableString, effect_readInt32, effect_once]
  rfl

theorem effect_handleApplyTopic : effect w handleApplyTopic = Network.handleApplyTopic w.env := by
  simp only [handleApplyTopic, effect_bind, effect_pure, effect_decodeApplyTopic, effect_once]
  rfl

theorem effect_handleFetchMetadataLog : effect w handleFetchMetadataLog = Network.handleFetchMetadataLog w.env := by
  simp only [handleFetchMetadataLog, effect_bind, effect_readInt64, effect_once, effect_writePayloads]
  rfl

end Handlers

section Server

variable (w : Surroundings)

theorem effect_onGroups {α : Type} (f : Int → ConsumerGroup.Coordinator → ConsumerGroup.Coordinator × α) :
    effect w (onGroups f) = Server.onGroups (f w.now) :=
  rfl

section Metadata

variable {α β : Type} {w} {x : Goroutine Surroundings Server α} {y : StateM Broker α}

-- A goroutine that reads nothing and has to do with the broker only.
def Plays (w : Surroundings) (x : Goroutine Surroundings Server α) (y : StateM Broker α) : Prop :=
  ∀ bs s, (effect w x).exec bs s = (.ok ((y.run s.broker).fst, bs), { s with broker := (y.run s.broker).snd })

theorem plays_pure (a : α) : Plays w (pure a) (pure a) :=
  fun _ _ => rfl

theorem Plays.bind {f : α → Goroutine Surroundings Server β} {g : α → StateM Broker β} (h : Plays w x y)
    (hf : ∀ a, Plays w (f a) (g a)) : Plays w (x >>= f) (y >>= g) := by
  intro bs s
  rw [effect_bind, exec_bind_of_ok (h bs s), hf]
  rfl

theorem plays_mapM {f : β → Goroutine Surroundings Server α} {g : β → StateM Broker α} (h : ∀ b, Plays w (f b) (g b))
    (bs : List β) : Plays w (bs.mapM f) (bs.mapM g) := by
  induction bs
  case nil => exact plays_pure []
  case cons b bs hi =>
    rw [List.mapM_cons, List.mapM_cons]
    exact (h b).bind fun a => hi.bind fun as => plays_pure (a :: as)

theorem plays_partitionInfo (topicName : Bytes) (p : Topic.Partition) :
    Plays w (partitionInfo topicName p) (Broker.partitionInfo (w.env 0) topicName p) := by
  intro bs s
  rw [partitionInfo, effect_bind, exec_bind, openReplica, effect_access, exec_update, StateT.run, Broker.partitionInfo]
  by_cases hreplica : (w.env 0).config.nodeID ∈ p.replicas
  case neg =>
    simp only [if_neg hreplica]
    rfl
  case pos =>
    simp only [if_pos hreplica]
    rcases hlog : s.broker.logs.log topicName p.id with ⟨logs, e | log⟩
    case error => rfl
    case ok =>
      have hopen : logs.log topicName p.id = (logs, .ok log) := Storage.Manager.log_log hlog
      simp only [Except.isOk, Except.toBool, if_true, effect_bind, exec_bind, offsetOf, effect_access,
        exec_update, hopen]
      rfl

theorem plays_topicInfos (all : List Topic.Topic) :
    Plays w (all.mapM fun t => do
      return { name := t.name, partitions := ← t.partitions.mapM (partitionInfo t.name) })
      (Broker.topicInfos (w.env 0) all) := by
  refine plays_mapM (fun t => ?_) all
  refine (plays_mapM (plays_partitionInfo t.name) t.partitions).bind fun ps => ?_
  exact plays_pure (TopicInfo.mk t.name ps)

theorem effect_topicInfos : effect w topicInfos = Server.topicInfos w := by
  funext bs s
  have hall : (effect w (access fun w s => ((w.all s.broker.topics).val, s))).exec bs s =
      (.ok ((w.all s.broker.topics).val, bs), s) := rfl
  change (effect w topicInfos).exec bs s = (Server.topicInfos w).exec bs s
  rw [topicInfos, effect_bind, exec_bind_of_ok hall, plays_topicInfos]
  rfl

theorem effect_handleMetadata : effect w handleMetadata = Server.handleMetadata w := by
  simp only [handleMetadata, effect_bind, effect_describeTopics, effect_topicInfos, effect_access]
  rfl

end Metadata

theorem effect_handleFindCoordinator : effect w handleFindCoordinator = Server.handleFindCoordinator w := by
  simp only [handleFindCoordinator, effect_bind, effect_readString, effect_access]
  rfl

theorem effect_handleJoinGroup (header : RequestHeader) :
    effect w (handleJoinGroup header) = Server.handleJoinGroup w header := by
  simp only [handleJoinGroup, effect_bind, effect_pure, effect_readJoinRequest, effect_onGroups, effect_await]
  rfl

theorem effect_handleHeartbeat : effect w handleHeartbeat = Server.handleHeartbeat w := by
  simp only [handleHeartbeat, effect_bind, effect_pure, effect_readHeartbeatRequest, effect_onGroups]
  rfl

theorem effect_handleLeaveGroup : effect w handleLeaveGroup = Server.handleLeaveGroup w := by
  simp only [handleLeaveGroup, effect_bind, effect_pure, effect_readLeaveRequest, effect_onGroups]
  rfl

theorem effect_awaitSync (synced : ConsumerGroup.Synced) :
    effect w (awaitSync synced) = Server.receive
      (match synced with
      | .answer result | .distributed result _ => some result
      | .receive channel                       => w.synced channel) := by
  cases synced
  case answer          => rfl
  case distributed     => rfl
  case receive channel => exact effect_await _

theorem effect_handleSyncGroup : effect w handleSyncGroup = Server.handleSyncGroup w := by
  simp only [handleSyncGroup, effect_bind, effect_pure, effect_readSyncRequest, effect_onGroups, effect_awaitSync]
  rfl

theorem effect_handlePing : effect w handlePing = Server.handlePing w := by
  simp only [handlePing, effect_bind, effect_access, effect_answerPing]
  rfl

end Server

section Dispatch

variable {α β : Type} {w : Surroundings} {x : Goroutine Surroundings Serving α} {y : Effect Server α}

-- Left alone, the goroutine comes to the result of the handler and leaves the same server.
def Performs (w : Surroundings) (x : Goroutine Surroundings Serving α) (y : Effect Server α) : Prop :=
  ∀ bs server, ((effect w x).exec bs ⟨server, 0⟩).fst = (y.exec bs server).fst ∧
    ((effect w x).exec bs ⟨server, 0⟩).snd.server = (y.exec bs server).snd

theorem performs_onBroker {x : Handler α} {y : Network.Handler α} (h : effect w x = y) :
    Performs w (onBroker x) (Server.onBroker y) := by
  intro bs server
  have hzoom : effect w (onBroker x) = (effect w x).zoom _ _ :=
    effect_zoom (fun _ _ => rfl) (fun _ => rfl) fun _ _ _ => rfl
  rw [hzoom, h]
  exact ⟨rfl, rfl⟩

theorem performs_onServer {x : Goroutine Surroundings Server α} (h : effect w x = y) : Performs w (onServer x) y := by
  intro bs server
  have hzoom : effect w (onServer x) = (effect w x).zoom _ _ :=
    effect_zoom (fun _ _ => rfl) (fun _ => rfl) fun _ _ _ => rfl
  rw [hzoom, h]
  exact ⟨rfl, rfl⟩

theorem performs_dispatchTable (w : Surroundings) (header : RequestHeader) (api : API) :
    Performs w (dispatchTable header api) (Server.dispatchTable w header api) := by
  cases api
  case produce          => exact performs_onBroker (effect_handleProduce w)
  case fetch            => exact performs_onBroker (effect_handleFetch w)
  case listOffsets      => exact performs_onBroker (effect_handleListOffsets w)
  case metadata         => exact performs_onServer effect_handleMetadata
  case offsetCommit     => exact performs_onBroker (effect_handleOffsetCommit w)
  case offsetFetch      => exact performs_onBroker (effect_handleOffsetFetch w)
  case findCoordinator  => exact performs_onServer (effect_handleFindCoordinator w)
  case joinGroup        => exact performs_onServer (effect_handleJoinGroup w header)
  case heartbeat        => exact performs_onServer (effect_handleHeartbeat w)
  case leaveGroup       => exact performs_onServer (effect_handleLeaveGroup w)
  case syncGroup        => exact performs_onServer (effect_handleSyncGroup w)
  case apiVersions      => exact performs_onServer (effect_pure _)
  case createTopics     => exact performs_onBroker (effect_handleCreateTopics w)
  case deleteTopics     => exact performs_onBroker (effect_handleDeleteTopics w)
  case initProducerID   => exact performs_onBroker (effect_handleInitProducerID w)
  case applyTopic       => exact performs_onBroker (effect_handleApplyTopic w)
  case ping             => exact performs_onServer (effect_handlePing w)
  case fetchMetadataLog => exact performs_onBroker (effect_handleFetchMetadataLog w)

theorem performs_handle (w : Surroundings) (header : RequestHeader) :
    Performs w (handle header) (Server.handle w header) := by
  unfold handle Server.handle
  cases API.ofKey header.apiKey
  case none     => exact fun _ _ => ⟨rfl, rfl⟩
  case some api => exact performs_dispatchTable w header api

theorem performs_respond (w : Surroundings) : Performs w respond (Server.respond w) := by
  intro bs server
  rw [respond, effect_bind, effect_readRequestHeader, Server.respond, exec_bind, exec_bind,
    Server.stateless_readRequestHeader.exec, Server.stateless_readRequestHeader.exec]
  rcases (readRequestHeader : Decoder RequestHeader).run bs with fault | ⟨header, body⟩
  case error => exact ⟨rfl, rfl⟩
  case ok =>
    obtain ⟨hfst, hsnd⟩ := performs_handle w header body server
    dsimp only
    rw [effect_bind, exec_bind, exec_bind]
    rcases hx : (effect w (handle header)).exec body ⟨server, 0⟩ with ⟨r, s⟩
    rcases hy : (Server.handle w header).exec body server with ⟨r', server'⟩
    rw [hx, hy] at hfst hsnd
    cases hfst
    cases hsnd
    cases r
    case error => exact ⟨rfl, rfl⟩
    case ok    => exact ⟨rfl, rfl⟩

end Dispatch

end Network.Stepwise
