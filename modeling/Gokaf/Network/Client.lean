import Gokaf.Protocol.Header

open Go Protocol

-- The bodies of requests as `cmd/testclient` writes them, for one topic and one partition of it.
namespace Network.Client

def createTopic (name : Bytes) (partitions replicationFactor : Int) : Bytes :=
  writeArrayLen 1 ++ writeString name ++ writeInt32 partitions ++ writeInt16 replicationFactor ++ writeArrayLen 0 ++
    writeArrayLen 0 ++ writeInt32 5000

def deleteTopic (name : Bytes) : Bytes :=
  writeArrayLen 1 ++ writeString name ++ writeInt32 5000

def produce (topic : Bytes) (partition : Int) (batch : Bytes) (acks timeoutMS : Int) : Bytes :=
  writeInt16 acks ++ writeInt32 timeoutMS ++ writeArrayLen 1 ++ writeString topic ++ writeArrayLen 1 ++
    writeInt32 partition ++ writeBytes (some batch)

-- `maxBytes` is 1 << 20 there.
def fetch (topic : Bytes) (partition offset maxBytes : Int) : Bytes :=
  writeInt32 (-1) ++ writeInt32 0 ++ writeInt32 1 ++ writeArrayLen 1 ++ writeString topic ++ writeArrayLen 1 ++
    writeInt32 partition ++ writeInt64 offset ++ writeInt32 maxBytes

def offsetCommit (groupID topic : Bytes) (partition offset : Int) : Bytes :=
  writeString groupID ++ writeArrayLen 1 ++ writeString topic ++ writeArrayLen 1 ++ writeInt32 partition ++
    writeInt64 offset ++ writeNullableString none

end Network.Client
