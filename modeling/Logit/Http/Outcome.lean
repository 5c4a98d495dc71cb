import Logit.Sink.Output

namespace Logit.Http

open Sink (Fault)

/-- The fault of a response that is no success, from its status alone. -/
def classifyStatus (status : Nat) : Fault :=
  if status ∈ [401, 403, 404, 405, 407, 501] then .refused
  else if status = 408 ∨ status = 429 ∨ 500 ≤ status ∧ status ≤ 599 then .ambiguous
  else .rejected

/-- A transport failure: only one of connecting shows that the destination never saw the request. -/
def classifyReqwestError (isConnect : Bool) : Fault := if isConnect then .clean else .ambiguous

/-- The fault of a failed request, for a sink whose retry resends the whole batch: once an earlier
request of the send was accepted, no failure may be retried under every posture. -/
def afterDelivery (fault : Fault) (sentAny : Bool) : Fault :=
  if sentAny ∧ (fault = .clean ∨ fault = .refused) then .ambiguous else fault

theorem afterDelivery_retryable {fault : Fault} {sentAny : Bool}
    (retried : Sink.isRetryable (afterDelivery fault sentAny) .atMostOnce = true) :
    sentAny = false ∧ (fault = .clean ∨ fault = .refused) := by
  cases fault <;> cases sentAny <;> simp [afterDelivery, Sink.isRetryable] at retried ⊢

def isSuccess (status : Nat) : Bool := decide (200 ≤ status ∧ status ≤ 299)

/-- What a request, or a whole send, comes to. -/
abbrev Answer := Except Fault Unit

/-- The verdicts of the requests that one send issued, folded into its result. -/
structure Outcomes where
  accepted : Bool
  firstRejected : Option Fault

namespace Outcomes

def new (acceptedBefore : Bool) : Outcomes := ⟨acceptedBefore, none⟩

/-- Folds one request's result in; an error is the send's result. -/
def note (o : Outcomes) : Answer → Except Fault Outcomes
  | .ok () => .ok { o with accepted := true }
  | .error .rejected =>
    .ok { o with firstRejected := if o.firstRejected.isNone then some .rejected else o.firstRejected }
  | .error fault => .error fault

def finish (o : Outcomes) : Answer :=
  match o.firstRejected with
  | some fault => if o.accepted then .ok () else .error fault
  | none => .ok ()

end Outcomes

end Logit.Http
