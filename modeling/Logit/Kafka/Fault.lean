import Logit.Sink.Output

namespace Logit.Kafka

open Sink (Fault)

/-- What a partition's error code asks of the producer. -/
inductive Response
  | accepted
  | unsettled (fault : Fault) (refresh : Bool)
  | rejected
  | tooLarge
  | namedRecords
  | outOfOrder
  | staleEpoch
  | missingTopic
deriving DecidableEq

namespace Code

def none : Int := 0
def unknownTopicOrPartition : Int := 3
def leaderNotAvailable : Int := 5
def notLeaderOrFollower : Int := 6
def requestTimedOut : Int := 7
def messageTooLarge : Int := 10
def networkException : Int := 13
def notEnoughReplicas : Int := 19
def notEnoughReplicasAfterAppend : Int := 20
def invalidRequiredAcks : Int := 21
def topicAuthorizationFailed : Int := 29
def clusterAuthorizationFailed : Int := 31
def invalidTimestamp : Int := 32
def unsupportedVersion : Int := 35
def outOfOrderSequenceNumber : Int := 45
def duplicateSequenceNumber : Int := 46
def invalidProducerEpoch : Int := 47
def transactionalIdAuthorizationFailed : Int := 53
def kafkaStorageError : Int := 56
def unknownProducerId : Int := 59
def unsupportedCompressionType : Int := 76
def invalidRecord : Int := 87
def throttlingQuotaExceeded : Int := 89
def unknownTopicId : Int := 100
def inconsistentTopicId : Int := 103

end Code

open Code in
/-- The response to a partition's error code; a code without a row is a rejection. -/
def classify (code : Int) : Response :=
  if code ∈ [Code.none, duplicateSequenceNumber] then .accepted
  else if code ∈ [unknownTopicOrPartition, unknownTopicId] then .missingTopic
  else if code ∈ [leaderNotAvailable, notLeaderOrFollower, kafkaStorageError, inconsistentTopicId] then
    .unsettled .clean true
  else if code ∈ [notEnoughReplicas, unknownProducerId, throttlingQuotaExceeded] then
    .unsettled .clean false
  else if code ∈ [requestTimedOut, networkException, notEnoughReplicasAfterAppend] then
    .unsettled .ambiguous false
  else if code ∈ [invalidRequiredAcks, topicAuthorizationFailed, clusterAuthorizationFailed,
      unsupportedVersion, unsupportedCompressionType] then
    .unsettled .refused false
  else if code = messageTooLarge then .tooLarge
  else if code ∈ [invalidTimestamp, invalidRecord] then .namedRecords
  else if code = outOfOrderSequenceNumber then .outOfOrder
  else if code = invalidProducerEpoch then .staleEpoch
  else .rejected

open Code in
/-- The class of an error code in a `Metadata` or `InitProducerId` answer. -/
def classifyControl (code : Int) : Fault :=
  if code ∈ [topicAuthorizationFailed, clusterAuthorizationFailed, transactionalIdAuthorizationFailed,
      unsupportedVersion] then .refused
  else .clean

end Logit.Kafka
