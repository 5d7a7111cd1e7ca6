import Gokaf.Network.Topics

open Go Protocol Cluster

namespace Network

-- What `OnPeerDown` does with one topic, from the copy it has of it to the registry.
def failOver (peerAlive : Int → Bool) (deadID : Int) (log : Storage.Log) (topics : Topic.Registry) (t : Topic.Topic) :
    Storage.Log × Topic.Registry :=
  match reassignTopic peerAlive deadID t with
  | none            => (log, topics)
  | some partitions =>
    match MetadataLog.append log ⟨.topicUpsert, t.name, partitions⟩ with
    | (log, .ok _)    => (log, applyMetadataRecord topics ⟨.topicUpsert, t.name, partitions⟩)
    | (log, .error _) => (log, topics)

-- `OnPeerDown` from its beginning to its end, with nothing else in between.
def onPeerDown (config : Config) (view : View) (log : Storage.Log) (topics : Topic.Registry) (deadID : Int) :
    Option (Storage.Log × Topic.Registry) :=
  if view.controllerID ≠ config.nodeID then
    some (log, topics)
  else if topics.All view.topics then
    some <| view.topics.foldl (fun s t => failOver (peerAlive config.nodeID view) deadID s.fst s.snd t) (log, topics)
  else
    none

end Network
