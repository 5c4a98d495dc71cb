import Mathlib

namespace Logit.Sink

/-- What a failure says about the batch and the destination. -/
inductive Fault
  | clean
  | ambiguous
  | rejected
  | refused
  deriving DecidableEq

inductive DeliveryPosture
  | atLeastOnce
  | atMostOnce
  deriving DecidableEq

def isRetryable : Fault → DeliveryPosture → Bool
  | .clean, _ | .refused, _ => true
  | .ambiguous, .atLeastOnce => true
  | .ambiguous, .atMostOnce => false
  | .rejected, _ => false

/-- What a sink's queue does when it is full. -/
inductive OverflowPolicy
  | block
  | dropOldest
  | dropNewest
  deriving DecidableEq

end Logit.Sink
