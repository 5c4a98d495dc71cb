import Logit.Http.Outcome

namespace Logit.Splunk

open Sink (Fault isRetryable)
open Http

/-- Splunk Cloud's limit of a body, before compression. -/
def splunkCloudBodyCap : Nat := 5 * 1024 * 1024

/-- One object ready to send: its place in the batch, its bytes and the records it carries. -/
structure Object where
  index : Nat
  bytes : List UInt8
  records : Nat
deriving DecidableEq

def bodyLen (objects : List Object) : Nat := (objects.map fun object => object.bytes.length).sum

/-- The loop of `split_point`, from object `i` on, after `bytes` bytes. -/
def splitLoop (total count : Nat) : List Object → Nat → Nat → Nat
  | [], _, _ => count - 1
  | object :: rest, i, bytes =>
    if total ≤ (bytes + object.bytes.length) * 2 then min (max (i + 1) 1) (count - 1)
    else splitLoop total count rest (i + 1) (bytes + object.bytes.length)

/-- Where to cut a body of two or more objects in two. -/
def splitPoint (objects : List Object) : Nat := splitLoop (bodyLen objects) objects.length objects 0 0

structure HecReply where
  code : Nat
  ackId : Option Nat
  invalidEventNumber : Option Nat

/-- How a request ends: in the transport, or with a status and, if its body is one, a HEC reply. -/
inductive Answer
  | transport (isConnect : Bool)
  | response (status : Nat) (reply : Option HecReply)

def objectCodes : List Nat := [6, 7, 12, 13, 15]

def tokenCodes : List Nat := [1, 2, 3, 4, 21, 22]

/-- The codes that refuse how the requests of the sink are built. -/
def requestCodes : List Nat := [10, 11, 16, 28]

/-- The object to drop, and the first one to send again, after a per-object code with its number;
under code 7 the number is of the object after the bad one. -/
def afterInvalidEvent (objects code n : Nat) : Option Nat :=
  let bad := if code = 7 then (if n = 0 then none else some (n - 1)) else some n
  bad.filter fun n => decide (n < objects)

/-- Whether an answer says that Splunk did not take the body. -/
def isBusy (status : Nat) (reply : Option HecReply) : Bool :=
  if status = 429 then true
  else if status = 503 then
    match reply with
    | some reply => decide (reply.code = 9)
    | none => true
  else false

/-- An answer that does not fail the request. -/
inductive EventReply
  | accepted (ackId : Option Nat)
  | invalidEvent (n code : Nat)

/-- The fault of a response that is neither busy nor one of the server's own failures. -/
def refusal (status : Nat) (reply : Option HecReply) : Fault :=
  let hec := reply.map HecReply.code
  if status = 401 ∨ status = 403 ∨ hec.any (fun code => decide (code ∈ tokenCodes)) then .refused
  else if hec.any (fun code => decide (code ∈ requestCodes)) then .refused
  else classifyStatus status

/-- What the answer to a `/event` request means. -/
def eventReply (ack : Bool) : Answer → Except Fault EventReply
  | .transport isConnect => .error (classifyReqwestError isConnect)
  | .response status reply =>
    if isSuccess status then .ok (.accepted (if ack then reply.bind HecReply.ackId else none))
    else if isBusy status reply then .error .clean
    else if status = 408 ∨ 500 ≤ status ∧ status ≤ 599 then .error .ambiguous
    else
      match reply with
      | some ⟨code, _, some n⟩ =>
        if status = 400 ∧ code ∈ objectCodes then .ok (.invalidEvent n code)
        else .error (refusal status reply)
      | _ => .error (refusal status reply)

/-- A `/event` request and its answer. -/
structure Post where
  body : List Object
  answer : Except Fault EventReply

/-- The objects of a request that Splunk may have indexed: all of a body that was accepted or whose
answer leaves it open, and those ahead of the object that a per-object code found bad. -/
def Post.indexed (post : Post) : List Object :=
  match post.answer with
  | .ok (.accepted _) => post.body
  | .ok (.invalidEvent n code) =>
    match afterInvalidEvent post.body.length code n with
    | some bad => post.body.take bad
    | none => post.body
  | .error .ambiguous => post.body
  | .error _ => []

/-- An attempt under way: its requests, the ids to be acknowledged, and whether Splunk holds part of
the batch. -/
structure Sending where
  posts : List Post
  ackIds : List Nat
  sentAny : Bool

inductive BodyOutcome
  | done
  | overCloudCap
deriving DecidableEq

/-- What a sink needs for the requests of an attempt; `answers` are those of the attempt in turn. -/
structure Poster where
  maxBodyBytes : Nat
  ack : Bool
  answers : Nat → Answer

namespace Poster

variable (poster : Poster) (objects : List Object)

def postEvent (s : Sending) : Except Fault EventReply × Sending :=
  let answer := eventReply poster.ack (poster.answers s.posts.length)
  (answer, { s with posts := s.posts ++ [⟨objects, answer⟩] })

def keepAckId (ackId : Option Nat) (s : Sending) : Sending :=
  match poster.ack, ackId with
  | true, some id => { s with ackIds := s.ackIds ++ [id] }
  | _, _ => s

/-- Splunk Cloud's oversize answer. -/
def overCloudCap (objects : List Object) (maySplit : Bool) : Except Fault BodyOutcome :=
  if objects.length = 1 then .ok .done
  else if maySplit then .ok .overCloudCap
  else .error .rejected

/-- The resend of the objects after a dropped one. -/
def resend (rest : List Object) (s : Sending) : Except Fault BodyOutcome × Sending :=
  match poster.postEvent rest s with
  | (.error fault, s) => (.error (afterDelivery fault s.sentAny), s)
  | (.ok (.accepted ackId), s) => (.ok .done, poster.keepAckId ackId { s with sentAny := true })
  | (.ok (.invalidEvent _ _), s) => (.error .rejected, s)

/-- One body and its resend after a per-object code. -/
def sendOnce (maySplit : Bool) (s : Sending) : Except Fault BodyOutcome × Sending :=
  match poster.postEvent objects s with
  | (.error fault, s) => (.error (afterDelivery fault s.sentAny), s)
  | (.ok (.accepted ackId), s) => (.ok .done, poster.keepAckId ackId { s with sentAny := true })
  | (.ok (.invalidEvent n code), s) =>
    if code = 6 ∧ n = 0 ∧ splunkCloudBodyCap < bodyLen objects then (overCloudCap objects maySplit, s)
    else
      match afterInvalidEvent objects.length code n with
      | none => (.error .rejected, s)
      | some bad =>
        let s := { s with sentAny := s.sentAny || decide (0 < bad) }
        let rest := objects.drop (bad + 1)
        if rest.isEmpty then (.ok .done, s) else poster.resend rest s

/-- The two halves of a body that is over Splunk Cloud's cap. -/
def sendHalves (s : Sending) : Except Fault Unit × Sending :=
  let mid := splitPoint objects
  match poster.sendOnce (objects.take mid) false s with
  | (.error fault, s) => (.error fault, s)
  | (.ok _, s) =>
    match poster.sendOnce (objects.drop mid) false s with
    | (.error fault, s) => (.error fault, s)
    | (.ok _, s) => (.ok (), s)

/-- One body, split in two when Splunk Cloud answers it as over its cap. -/
def sendBody (s : Sending) : Except Fault Unit × Sending :=
  match poster.sendOnce objects true s with
  | (.error fault, s) => (.error fault, s)
  | (.ok .done, s) => (.ok (), s)
  | (.ok .overCloudCap, s) => poster.sendHalves objects s

def sendBodies : List (List Object) → Sending → Except Fault Unit × Sending
  | [], s => (.ok (), s)
  | body :: bodies, s =>
    match poster.sendBody body s with
    | (.error fault, s) => (.error fault, s)
    | (.ok (), s) => sendBodies bodies s

end Poster

/-- The loop of `pack`: the run under way and its bytes, over the objects left. -/
def packLoop (max : Nat) : List Object → List Object → Nat → List (List Object)
  | [], run, _ => if run.isEmpty then [] else [run]
  | object :: rest, run, bytes =>
    if ¬run.isEmpty ∧ max < bytes + object.bytes.length then
      run :: packLoop max rest [object] object.bytes.length
    else packLoop max rest (run ++ [object]) (bytes + object.bytes.length)

/-- Cuts objects into consecutive runs of at most `max` bytes. -/
def pack (objects : List Object) (max : Nat) : List (List Object) := packLoop max objects [] 0

/-- What one `/ack` poll said. -/
inductive AckPoll
  | answered (answers : List (Nat × Bool))
  | unsupported
  | retry

/-- The ids still pending after a poll; none if the token does not acknowledge. -/
def AckPoll.left (pending : List Nat) : AckPoll → Option (List Nat)
  | .answered answers => some (pending.filter fun id => !answers.contains (id, true))
  | .unsupported => none
  | .retry => some pending

/-- Polls `/ack` until every id is acknowledged; each poll comes with whether the deadline has passed
after it. -/
def awaitAcks : List Nat → List (AckPoll × Bool) → Except Fault Unit
  | _, [] => .error .ambiguous
  | pending, (poll, late) :: polls =>
    match poll.left pending with
    | none => .ok ()
    | some left =>
      if left.isEmpty then .ok ()
      else if late then .error .ambiguous
      else awaitAcks left polls

/-- One attempt at a batch: its result and its requests. -/
def sendObjects (poster : Poster) (polls : List (AckPoll × Bool)) (objects : List Object) :
    Except Fault Unit × List Post :=
  let sendable := objects.filter fun object => decide (object.bytes.length ≤ poster.maxBodyBytes)
  match poster.sendBodies (pack sendable poster.maxBodyBytes) ⟨[], [], false⟩ with
  | (.error fault, s) => (.error fault, s.posts)
  | (.ok (), s) => (if s.ackIds.isEmpty then .ok () else awaitAcks s.ackIds polls, s.posts)

/-- What an attempt meets: the answers to its requests and to its polls. -/
structure Weather where
  answers : Nat → Answer
  polls : List (AckPoll × Bool)

/-- The attempts at a batch, as long as the result is one to retry, and all their requests. -/
def attempts (posture : Sink.DeliveryPosture) (maxBodyBytes : Nat) (ack : Bool) (objects : List Object) :
    List Weather → List Post
  | [] => []
  | weather :: later =>
    let (result, posts) := sendObjects ⟨maxBodyBytes, ack, weather.answers⟩ weather.polls objects
    match result with
    | .ok () => posts
    | .error fault =>
      if isRetryable fault posture then posts ++ attempts posture maxBodyBytes ack objects later
      else posts

/-- The objects of a batch, from the bytes and record counts that the encoder gives. -/
def batchObjects (encoded : List (List UInt8 × Nat)) : List Object :=
  encoded.zipIdx.map fun ((bytes, records), index) => ⟨index, bytes, records⟩

end Logit.Splunk
