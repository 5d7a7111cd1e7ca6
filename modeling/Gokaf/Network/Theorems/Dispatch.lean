import Gokaf.Network.Layout
import Gokaf.Protocol.Theorems.Layout

open Go Protocol Cluster Effect

namespace Network

-- What is done with the elements of a request reads nothing, so the loops follow the layouts.
section Loops

variable {σ α : Type}

theorem follows_forTopics {partition : Bytes → Effect σ α} {fs : List Layout}
    (h : ∀ topicName, Follows (partition topicName) (.fields fs)) : Follows (forTopics partition) (topicsLayout fs) :=
  follows_sizedArray <| follows_readString.bind fun topicName =>
    follows_sizedArray_bind (h topicName) fun partitions => follows_pure (topicName, partitions)

theorem follows_produceTopics {producePartition : Bytes → Int → Bytes → Int → Int → Effect σ α}
    (h : ∀ topicName partitionIndex batch acks timeoutMS,
      Follows (producePartition topicName partitionIndex batch acks timeoutMS) .none) :
    Follows (produceTopics producePartition) API.produce.layout := by
  refine (follows_readInt 16).bind fun acks => (follows_readInt 32).bind fun timeoutMS => ?_
  refine (follows_forTopics fun topicName => ?_).last
  exact (follows_readInt 32).bind fun partitionIndex => follows_readBytes.bind fun batch => h _ _ _ _ _

theorem follows_fetchTopics {fetchPartition : Int → Bytes → Int → Int → Int → Effect σ α}
    (h : ∀ replicaID topicName partitionIndex fetchOffset partitionMaxBytes,
      Follows (fetchPartition replicaID topicName partitionIndex fetchOffset partitionMaxBytes) .none) :
    Follows (fetchTopics fetchPartition) API.fetch.layout := by
  refine (follows_readInt 32).bind fun replicaID => (follows_readInt 32).bind fun _ => ?_
  refine (follows_readInt 32).bind fun _ => (follows_forTopics fun topicName => ?_).last
  refine (follows_readInt 32).bind fun partitionIndex => (follows_readInt 64).bind fun fetchOffset => ?_
  exact (follows_readInt 32).bind fun partitionMaxBytes => h _ _ _ _ _

theorem follows_listOffsetsTopics {listOffset : Bytes → Int → Int → Effect σ α}
    (h : ∀ topicName partitionIndex timestamp, Follows (listOffset topicName partitionIndex timestamp) .none) :
    Follows (listOffsetsTopics listOffset) API.listOffsets.layout := by
  refine (follows_readInt 32).bind fun _ => (follows_forTopics fun topicName => ?_).last
  exact (follows_readInt 32).bind fun partitionIndex => (follows_readInt 64).bind fun timestamp => h _ _ _

theorem follows_offsetCommitTopics {commit : Offset.Key → Int → Effect σ α}
    (h : ∀ key offset, Follows (commit key offset) .none) :
    Follows (offsetCommitTopics commit) API.offsetCommit.layout := by
  refine follows_readString.bind fun groupID => (follows_forTopics fun topicName => ?_).last
  refine (follows_readInt 32).bind fun partitionIndex => (follows_readInt 64).bind fun committedOffset => ?_
  exact follows_readNullableString.bind fun _ => (h _ committedOffset).map _

theorem follows_offsetFetchTopics {fetch : Offset.Key → Effect σ α} (h : ∀ key, Follows (fetch key) .none) :
    Follows (offsetFetchTopics fetch) API.offsetFetch.layout := by
  refine follows_readString.bind fun groupID => (follows_forTopics fun topicName => ?_).last
  exact (follows_readInt 32).bind fun partitionIndex => (h _).map _

theorem follows_drainCreateTopicAssignments :
    Follows (drainCreateTopicAssignments : Effect σ Unit)
      (.array false (.fields [.fixed 4, .array false (.fixed 4)])) := by
  have hids : Follows (readArrayLen >>= (forRange · readInt32) : Effect σ (List Int)) (.array false (.fixed 4)) :=
    follows_array fun n => (follows_readInt 32).rounds n.toNat
  exact follows_array (((follows_readInt 32).bind fun _ => hids.last).rounds_map fun _ => ())

theorem follows_drainCreateTopicConfigs :
    Follows (drainCreateTopicConfigs : Effect σ Unit) (.array false (.fields [.string, .nullableString])) :=
  follows_array ((follows_readString.bind fun _ => follows_readNullableString.last).rounds_map fun _ => ())

theorem follows_forTopicResults {topic : Effect σ (Bytes × α)} {f : Layout} (h : Follows topic f) :
    Follows (forTopicResults topic) (.fields [.array true f, .fixed 4]) :=
  follows_sizedArray_bind h fun results => (follows_readInt 32).last.map fun _ => results

theorem follows_createTopics {createTopic : Bytes → Int → Int → Effect σ α}
    (h : ∀ name numPartitions replicationFactor, Follows (createTopic name numPartitions replicationFactor) .none) :
    Follows (createTopics createTopic) API.createTopics.layout := by
  refine follows_forTopicResults (follows_readString.bind fun name => ?_)
  refine (follows_readInt 32).bind fun numPartitions => (follows_readInt 16).bind fun replicationFactor => ?_
  refine follows_drainCreateTopicAssignments.bind fun _ => follows_drainCreateTopicConfigs.bind fun _ => ?_
  exact (h name numPartitions replicationFactor).map _

theorem follows_deleteTopics {deleteTopic : Bytes → Effect σ α} (h : ∀ name, Follows (deleteTopic name) .none) :
    Follows (deleteTopics deleteTopic) API.deleteTopics.layout :=
  follows_forTopicResults <| follows_readString.bind fun name => (h name).map _

theorem follows_readJoinGroupProtocols :
    Follows (readJoinGroupProtocols : Effect σ (List ConsumerGroup.Protocol))
      (.array true (.fields [.string, .bytes])) :=
  follows_sizedArray <| follows_readString.bind fun _ => follows_readBytes.bind fun _ => follows_pure _

theorem follows_readSyncGroupAssignments :
    Follows (readSyncGroupAssignments : Effect σ ConsumerGroup.Assignments)
      (.array false (.fields [.string, .bytes])) :=
  follows_array <| Follows.rounds_map
    (follows_readString.bind fun _ => follows_readBytes.bind fun _ => follows_pure _) _

theorem follows_readJoinRequest (header : RequestHeader) :
    Follows (readJoinRequest header : Effect σ ConsumerGroup.JoinRequest) API.joinGroup.layout :=
  follows_readString.bind fun _ => (follows_readInt 32).bind fun _ => follows_readString.bind fun _ =>
    follows_readString.bind fun _ => follows_readJoinGroupProtocols.bind fun _ => follows_pure _

theorem follows_readSyncRequest :
    Follows (readSyncRequest : Effect σ ConsumerGroup.SyncRequest) API.syncGroup.layout :=
  follows_readString.bind fun _ => (follows_readInt 32).bind fun _ => follows_readString.bind fun _ =>
    follows_readSyncGroupAssignments.bind fun _ => follows_pure _

theorem follows_readHeartbeatRequest :
    Follows (readHeartbeatRequest : Effect σ ConsumerGroup.HeartbeatRequest) API.heartbeat.layout :=
  follows_readString.bind fun _ => (follows_readInt 32).bind fun _ => follows_readString.bind fun _ => follows_pure _

theorem follows_readLeaveRequest :
    Follows (readLeaveRequest : Effect σ ConsumerGroup.LeaveRequest) API.leaveGroup.layout :=
  follows_readString.bind fun _ => follows_readString.bind fun _ => follows_pure _

theorem follows_describeTopics {topicInfos : Effect σ (List TopicInfo)} (h : Follows topicInfos .none) :
    Follows (describeTopics topicInfos) API.metadata.layout :=
  follows_array fun n bs s => matches_exec_bind (k := Extent.times Layout.string.scan n.toNat) (h bs s)
    fun _ rest s' _ => follows_readString.rounds_map _ n rest s'

theorem follows_readInt32Array : Follows (readInt32Array : Effect σ (List Int)) (.array true (.fixed 4)) :=
  follows_sizedArray (follows_readInt 32)

theorem follows_decodeApplyTopic :
    Follows (decodeApplyTopic : Effect σ (Bytes × List Topic.Partition)) API.applyTopic.layout := by
  refine follows_readString.bind fun name => follows_sizedArray_bind ?_ fun partitions => follows_pure _
  refine (follows_readInt 32).bind fun id => (follows_readInt 32).bind fun leader => ?_
  exact follows_readInt32Array.bind fun replicas => follows_readInt32Array.bind fun isr => follows_pure _

end Loops

section Handlers

variable (env : Nat → Env)

theorem follows_execute {α : Type} (f : Env → Broker → Broker × α) : Follows (execute env f) .none :=
  follows_update _

theorem follows_handleProduce : Follows (handleProduce env) API.produce.layout :=
  (follows_produceTopics fun _ _ _ _ _ => follows_execute env _).map _

theorem follows_handleFetch : Follows (handleFetch env) API.fetch.layout :=
  (follows_fetchTopics fun _ _ _ _ _ => follows_execute env _).map _

theorem follows_handleOffsetCommit : Follows (handleOffsetCommit env) API.offsetCommit.layout :=
  (follows_offsetCommitTopics fun _ _ => follows_execute env _).map _

theorem follows_handleCreateTopics : Follows (handleCreateTopics env) API.createTopics.layout :=
  (follows_createTopics fun _ _ _ => follows_execute env _).map _

theorem follows_handleDeleteTopics : Follows (handleDeleteTopics env) API.deleteTopics.layout :=
  (follows_deleteTopics fun _ => follows_execute env _).map _

theorem follows_handleListOffsets : Follows (handleListOffsets env) API.listOffsets.layout :=
  (follows_listOffsetsTopics fun _ _ _ => follows_execute env _).map _

theorem follows_handleOffsetFetch : Follows (handleOffsetFetch env) API.offsetFetch.layout :=
  (follows_offsetFetchTopics fun _ => follows_execute env _).map _

theorem follows_handleInitProducerID : Follows (handleInitProducerID env) API.initProducerID.layout :=
  follows_readNullableString.bind fun _ => (follows_readInt 32).bind fun _ => (follows_execute env _).map _

theorem follows_handleApplyTopic : Follows (handleApplyTopic env) API.applyTopic.layout :=
  follows_decodeApplyTopic.bind_none fun _ => (follows_execute env _).map _

-- The metadata log may turn out to be unreadable.
theorem guards_handleFetchMetadataLog : Guards (handleFetchMetadataLog env) API.fetchMetadataLog.layout := by
  refine (follows_readInt 64).bind_guards fun fromOffset => guards_none fun bs s => ?_
  rw [execute, exec_bind, exec_update]
  dsimp only
  cases MetadataLog.readRawFrom s.broker.metadata fromOffset
  case error e     => simp [writePayloads, fail, exec_throw]
  case ok payloads => simp [writePayloads, exec_pure]

end Handlers

namespace Server

variable (w : Surroundings)

theorem guards_onBroker {x : Handler Bytes} {f : Layout} (hx : Guards x f) : Guards (onBroker x) f :=
  hx.zoom _ _

theorem follows_onGroups {α : Type} (f : ConsumerGroup.Coordinator → ConsumerGroup.Coordinator × α) :
    Follows (onGroups f) .none :=
  follows_update _

theorem follows_handleMetadata : Follows (handleMetadata w) API.metadata.layout :=
  (follows_describeTopics (follows_update _)).map _

theorem follows_handleFindCoordinator : Follows (handleFindCoordinator w) API.findCoordinator.layout :=
  follows_readString.bind fun _ => follows_pure _

theorem follows_handleHeartbeat : Follows (handleHeartbeat w) API.heartbeat.layout :=
  follows_readHeartbeatRequest.bind_none fun _ => (follows_onGroups _).map _

theorem follows_handleLeaveGroup : Follows (handleLeaveGroup w) API.leaveGroup.layout :=
  follows_readLeaveRequest.bind_none fun _ => (follows_onGroups _).map _

theorem guards_receive {α : Type} (arrived : Option α) (g : α → Bytes) :
    Guards (receive arrived >>= fun a => pure (g a)) .none := by
  refine guards_none fun bs s => ?_
  rw [exec_bind]
  cases arrived
  case none   => simp [receive, exec_throw]
  case some a => simp [receive, exec_pure]

theorem guards_handleJoinGroup (header : RequestHeader) : Guards (handleJoinGroup w header) API.joinGroup.layout :=
  (follows_readJoinRequest header).bind_guards_none fun _ =>
    (follows_onGroups _).bind_guards fun _ => guards_receive _ _

theorem guards_handleSyncGroup : Guards (handleSyncGroup w) API.syncGroup.layout :=
  follows_readSyncRequest.bind_guards_none fun _ => (follows_onGroups _).bind_guards fun _ => guards_receive _ _

theorem guards_handlePing : Guards (handlePing w) API.ping.layout := by
  refine guards_none fun bs s => ?_
  unfold handlePing answerPing
  split
  case isTrue  => simp [fail, exec_throw]
  case isFalse => simp [exec_pure]

theorem guards_dispatchTable (header : RequestHeader) (api : API) : Guards (dispatchTable w header api) api.layout := by
  cases api
  case produce          => exact guards_onBroker (follows_handleProduce w.env).guards
  case fetch            => exact guards_onBroker (follows_handleFetch w.env).guards
  case listOffsets      => exact guards_onBroker (follows_handleListOffsets w.env).guards
  case metadata         => exact (follows_handleMetadata w).guards
  case offsetCommit     => exact guards_onBroker (follows_handleOffsetCommit w.env).guards
  case offsetFetch      => exact guards_onBroker (follows_handleOffsetFetch w.env).guards
  case findCoordinator  => exact (follows_handleFindCoordinator w).guards
  case joinGroup        => exact guards_handleJoinGroup w header
  case heartbeat        => exact (follows_handleHeartbeat w).guards
  case leaveGroup       => exact (follows_handleLeaveGroup w).guards
  case syncGroup        => exact guards_handleSyncGroup w
  case apiVersions      => exact (follows_pure _).guards
  case createTopics     => exact guards_onBroker (follows_handleCreateTopics w.env).guards
  case deleteTopics     => exact guards_onBroker (follows_handleDeleteTopics w.env).guards
  case initProducerID   => exact guards_onBroker (follows_handleInitProducerID w.env).guards
  case applyTopic       => exact guards_onBroker (follows_handleApplyTopic w.env).guards
  case ping             => exact guards_handlePing w
  case fetchMetadataLog => exact guards_onBroker (guards_handleFetchMetadataLog w.env)

theorem guards_handle (header : RequestHeader) : Guards (handle w header) (requestLayout header.apiKey) := by
  unfold handle requestLayout
  cases API.ofKey header.apiKey
  case none     => exact (follows_pure _).guards
  case some api => exact guards_dispatchTable w header api

theorem follows_readRequestHeader {σ : Type} :
    Follows (readRequestHeader : Effect σ RequestHeader) requestHeaderLayout :=
  (follows_readInt 16).bind fun _ => (follows_readInt 16).bind fun _ => (follows_readInt 32).bind fun _ =>
    follows_readNullableString.bind fun _ => follows_pure _

theorem apiKey_of_readRequestHeader {payload rest : Bytes} {header : RequestHeader}
    (h : (readRequestHeader : Decoder RequestHeader).run payload = .ok (header, rest)) :
    header.apiKey = sint 16 (payload.take 2) := by
  obtain ⟨apiKey, rest₁, hkey, h⟩ := run_bind_eq_ok h
  obtain ⟨apiVersion, rest₂, -, h⟩ := run_bind_eq_ok h
  obtain ⟨correlationID, rest₃, -, h⟩ := run_bind_eq_ok h
  obtain ⟨clientID, rest₄, -, h⟩ := run_bind_eq_ok h
  cases h
  exact eq_of_run_readInt hkey

theorem stateless_readRequestHeader {n : Type → Type*} [Monad n] [LawfulMonad n] :
    Stateless (readRequestHeader : DecoderT n RequestHeader) readRequestHeader :=
  (stateless_readInt 16).bind fun _ => (stateless_readInt 16).bind fun _ => (stateless_readInt 32).bind fun _ =>
    stateless_readNullableString.bind fun _ => stateless_pure _

theorem survives_respond_iff (payload : Bytes) (s : Server) :
    Survives ((respond w).exec payload s).fst ↔ ∀ n, requestExtent payload ≠ .negative n := by
  have hm := follows_readRequestHeader payload s
  have hkey := stateless_readRequestHeader.exec payload s
  rw [respond, requestExtent, exec_bind]
  rcases hout : (readRequestHeader : Effect Server RequestHeader).exec payload s with ⟨out, s'⟩
  rw [hout] at hm hkey
  generalize requestHeaderLayout.scan payload = e at hm
  cases hm
  case ends header rest =>
    rw [← apiKey_of_readRequestHeader (congrArg Prod.fst hkey).symm]
    exact (guards_handle w header).map _ rest s'
  case cut e      => simp [Extent.bind]
  case negative n => simp [Extent.bind]

theorem survives_dispatch_iff (s : Server) (payload : Bytes) :
    Survives (dispatch w s payload).fst ↔ ∀ n, requestExtent payload ≠ .negative n := by
  rw [← survives_respond_iff w payload s, dispatch]
  rcases (respond w).exec payload s with ⟨fault | ⟨response, rest⟩, s'⟩
  case error => simp
  case ok    => simp

end Server
end Network
