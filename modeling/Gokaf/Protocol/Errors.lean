namespace Protocol

inductive ErrorCode
  | unknown
  | none
  | offsetOutOfRange
  | corruptMessage
  | unknownTopicOrPartition
  | notLeaderForPartition
  | requestTimedOut
  | topicAlreadyExists
  | invalidPartitions
  | invalidReplicationFactor
  | illegalGeneration
  | unknownMemberID
  | rebalanceInProgress
  | outOfOrderSequenceNumber
  | notController
  deriving DecidableEq, Repr

namespace ErrorCode

-- The number on the wire.
def code : ErrorCode → Int
  | unknown                  => -1
  | none                     => 0
  | offsetOutOfRange         => 1
  | corruptMessage           => 2
  | unknownTopicOrPartition  => 3
  | notLeaderForPartition    => 6
  | requestTimedOut          => 7
  | topicAlreadyExists       => 36
  | invalidPartitions        => 37
  | invalidReplicationFactor => 38
  | illegalGeneration        => 22
  | unknownMemberID          => 25
  | rebalanceInProgress      => 27
  | outOfOrderSequenceNumber => 45
  | notController            => 41

end ErrorCode
end Protocol
