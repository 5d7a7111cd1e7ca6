import Gokaf.Network.Handlers
import Gokaf.Protocol.Theorems.Effect

open Go Protocol Cluster Effect

namespace Network

-- The loops read a request alike, whatever is done with its elements.
section Loops

variable {σ τ α β : Type} {R : σ → τ → Prop} {n : Type → Type*} [Monad n] [LawfulMonad n]

theorem simulates_int (w : Nat) : Simulates R Eq (readInt w) (readInt w) :=
  (stateless_readInt w).simulates (stateless_readInt w)

theorem simulates_string : Simulates R Eq readString readString :=
  stateless_readString.simulates stateless_readString

theorem simulates_slice (k : Int) : Simulates R Eq (makeSlice k) (makeSlice k) :=
  (stateless_makeSlice k).simulates (stateless_makeSlice k)

theorem stateless_drainCreateTopicAssignments :
    Stateless (drainCreateTopicAssignments : DecoderT n Unit) drainCreateTopicAssignments := by
  have hround : Stateless (do
      let _ ← readInt32
      let brokerIDCount ← readArrayLen
      forRange brokerIDCount readInt32 : DecoderT n (List Int)) _ :=
    (stateless_readInt 32).bind fun _ => (stateless_readInt 32).bind fun k => (stateless_readInt 32).forRange k
  exact (stateless_readInt 32).bind fun k => (hround.forRange k).bind fun _ => stateless_pure ()

theorem stateless_drainCreateTopicConfigs :
    Stateless (drainCreateTopicConfigs : DecoderT n Unit) drainCreateTopicConfigs := by
  have hround : Stateless (do
      let _ ← readString
      readNullableString : DecoderT n (Option Bytes)) _ :=
    stateless_readString.bind fun _ => stateless_readNullableString
  exact (stateless_readInt 32).bind fun k => (hround.forRange k).bind fun _ => stateless_pure ()

theorem simulates_forTopics {partition : Bytes → Effect σ α} {partition' : Bytes → Effect τ β}
    (h : ∀ topicName, Simulates R Any (partition topicName) (partition' topicName)) :
    Simulates R Any (forTopics partition) (forTopics partition') := by
  refine (simulates_int 32).bind_eq fun topicCount => (simulates_slice topicCount).bind_eq fun _ => ?_
  refine Simulates.forRange ?_ topicCount
  refine simulates_string.bind_eq fun topicName => (simulates_int 32).bind_eq fun partitionCount => ?_
  refine (simulates_slice partitionCount).bind_eq fun _ => ?_
  exact ((h topicName).forRange partitionCount).bind fun _ _ _ => simulates_pure trivial

theorem simulates_forTopicResults {topic : Effect σ (Bytes × α)} {topic' : Effect τ (Bytes × β)}
    (h : Simulates R Any topic topic') : Simulates R Any (forTopicResults topic) (forTopicResults topic') := by
  refine (simulates_int 32).bind_eq fun topicCount => (simulates_slice topicCount).bind_eq fun _ => ?_
  refine (h.forRange topicCount).bind fun _ _ _ => ?_
  exact (simulates_int 32).bind_eq fun _ => simulates_pure trivial

theorem simulates_produceTopics {producePartition : Bytes → Int → Bytes → Int → Int → Effect σ α}
    {producePartition' : Bytes → Int → Bytes → Int → Int → Effect τ β}
    (h : ∀ topicName partitionIndex batch acks timeoutMS,
      Simulates R Any (producePartition topicName partitionIndex batch acks timeoutMS)
        (producePartition' topicName partitionIndex batch acks timeoutMS)) :
    Simulates R Any (produceTopics producePartition) (produceTopics producePartition') := by
  refine (simulates_int 16).bind_eq fun acks => (simulates_int 32).bind_eq fun timeoutMS => ?_
  refine simulates_forTopics fun topicName => (simulates_int 32).bind_eq fun partitionIndex => ?_
  exact (stateless_readBytes.simulates stateless_readBytes).bind_eq fun batch => h topicName partitionIndex _ acks _

theorem simulates_offsetCommitTopics {commit : Offset.Key → Int → Effect σ α} {commit' : Offset.Key → Int → Effect τ β}
    (h : ∀ key offset, Simulates R Any (commit key offset) (commit' key offset)) :
    Simulates R Any (offsetCommitTopics commit) (offsetCommitTopics commit') := by
  refine simulates_string.bind_eq fun groupID => simulates_forTopics fun topicName => ?_
  refine (simulates_int 32).bind_eq fun partitionIndex => (simulates_int 64).bind_eq fun offset => ?_
  refine (stateless_readNullableString.simulates stateless_readNullableString).bind_eq fun _ => ?_
  exact (h _ offset).bind fun _ _ _ => simulates_pure trivial

theorem simulates_createTopics {createTopic : Bytes → Int → Int → Effect σ α}
    {createTopic' : Bytes → Int → Int → Effect τ β}
    (h : ∀ name numPartitions replicationFactor, Simulates R Any (createTopic name numPartitions replicationFactor)
      (createTopic' name numPartitions replicationFactor)) :
    Simulates R Any (createTopics createTopic) (createTopics createTopic') := by
  refine simulates_forTopicResults (simulates_string.bind_eq fun name => ?_)
  refine (simulates_int 32).bind_eq fun numPartitions => (simulates_int 16).bind_eq fun replicationFactor => ?_
  refine (stateless_drainCreateTopicAssignments.simulates stateless_drainCreateTopicAssignments).bind_eq fun _ => ?_
  refine (stateless_drainCreateTopicConfigs.simulates stateless_drainCreateTopicConfigs).bind_eq fun _ => ?_
  exact (h name numPartitions replicationFactor).bind fun _ _ _ => simulates_pure trivial

theorem simulates_deleteTopics {deleteTopic : Bytes → Effect σ α} {deleteTopic' : Bytes → Effect τ β}
    (h : ∀ name, Simulates R Any (deleteTopic name) (deleteTopic' name)) :
    Simulates R Any (deleteTopics deleteTopic) (deleteTopics deleteTopic') := by
  refine simulates_forTopicResults (simulates_string.bind_eq fun name => ?_)
  exact (h name).bind fun _ _ _ => simulates_pure trivial

end Loops

end Network
