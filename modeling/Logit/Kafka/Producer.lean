import Logit.Kafka.Fault
import Logit.Kafka.Record
import Logit.Lib.Grouping

namespace Logit.Kafka

open Sink (Fault)
open Grouping (groupBy)

variable {R : Type}

inductive Acks
  | all | leader | none
deriving DecidableEq

/-- What of a producer's configuration its logic reads. -/
structure ProducerConfig where
  acks : Acks
  idempotent : Bool
  zstd : Bool
  maxRequestBytes : Nat
  /-- An idempotent producer needs every replica's acknowledgement. -/
  idempotent_acks : idempotent = true → acks = .all

/-- The cached answer to the last `Metadata` request: the brokers it named, and each partition's
leader by index, `-1` for none. -/
structure Metadata where
  brokers : List Int
  leaders : List Int

def Metadata.leader (m : Metadata) (partition : Int) : Option Int :=
  if partition < 0 then none
  else (m.leaders[partition.toNat]?).filter fun leader => 0 ≤ leader && leader ∈ m.brokers

def Metadata.ledPartitions (m : Metadata) : List Int :=
  ((List.range m.leaders.length).map Int.ofNat).filter fun p => (m.leader p).isSome

/-- How far a missing topic has been confirmed. -/
inductive MissingTopic
  | no | seen | refreshed
deriving DecidableEq

structure Identity where
  producerId : Int
  epoch : Int
deriving DecidableEq

/-- Where a partition batch stands; an unsettled one has the fault and reason of its last attempt. -/
inductive PartState
  | unsettled (fault : Fault) (why : String)
  | accepted
  | rejected
  | dropped
deriving DecidableEq

/-- One partition batch, with the generation and base sequence it was numbered under. -/
structure Part (R : Type) where
  partition : Int
  records : List R
  sequence : Option (Nat × Int32)
  state : PartState
  resend : Bool

/-- The batches of a prepared topic. -/
abbrev Parts (R : Type) := List (Part R)

def Part.new (partition : Int) (records : List R) (resend : Bool) : Part R :=
  ⟨partition, records, none, .unsettled .clean "not yet sent", resend⟩

def Part.isUnsettled (part : Part R) : Bool :=
  match part.state with
  | .unsettled _ _ => true
  | _ => false

/-- Whether the batch's last attempt was ambiguous. -/
def Part.isAmbiguous (part : Part R) : Bool :=
  match part.state with
  | .unsettled .ambiguous _ => true
  | _ => false

def Part.unsettle (part : Part R) (fault : Fault) (why : String) : Part R :=
  { part with state := .unsettled fault why }

/-- One batch's records for the topic, cut into partition batches, with what was settled so far. -/
structure Pending (R : Type) where
  parts : Parts R
  oversize : Nat
  accepted : Bool
  firstRejection : Option String

inductive Settlement
  | accepted (baseOffset : Int)
  | rejected (code : Int)
  | dropped (code : Int)

/-- A settlement an attempt reports. `of` are the records it is about, which the source does not keep. -/
structure Settled (R : Type) where
  partition : Int
  records : Nat
  settlement : Settlement
  why : String
  of : List R

/-- One partition's answer, or why it has none. -/
inductive Outcome
  | unanswered (fault : Fault) (why : String)
  | answered (code baseOffset : Int) (recordErrors : List Int) (why : String) (version : Int)

/-- A batch with its outcome, if it has one. -/
abbrev Answered (R : Type) := Part R × Option Outcome

/-- The producer of one topic, without its connections. -/
structure Producer where
  metadata : Option Metadata
  refreshDue : Bool
  missingTopic : MissingTopic
  topicPending : Bool
  identity : Option Identity
  reinitDue : Bool
  bumpDue : Bool
  generation : Nat
  nextSequence : Int → Int32

def Producer.new : Producer := ⟨none, false, .no, false, none, false, false, 0, fun _ => 0⟩

/-- What happens to numbered batches: one gets its number, one goes on the wire with what came of it,
or one is given up without being appended. -/
inductive Note (R : Type)
  | numbered (partition : Int) (identity : Identity) (base : Int32) (records : List R)
  | wire (partition : Int) (stamp : Option (Identity × Int32)) (records : List R) (outcome : Outcome)
  | gap (identity : Identity)

/-- The notes of an attempt, in order. -/
abbrev Trace (R : Type) := List (Note R)

section Prepare

variable (cfg : ProducerConfig) (view : View R)

def fits (r : R) : Bool := batchOverhead + (view r).sizeUpperBound ≤ cfg.maxRequestBytes

/-- Cuts a partition's records under the size cap: what is collected so far and its size estimate. -/
def cutRecords : List R → Nat → List R → List (List R)
  | current, _, [] => if current.isEmpty then [] else [current]
  | current, size, r :: rest =>
    let estimate := (view r).sizeUpperBound
    if !current.isEmpty && cfg.maxRequestBytes < size + estimate then
      current :: cutRecords [r] (batchOverhead + estimate) rest
    else cutRecords (current ++ [r]) (size + estimate) rest

def partitionOf (count : Nat) (sticky : Int) (r : R) : Int :=
  match (view r).key with
  | some key => partitionForKey key count
  | none => sticky

/-- The partition batches of the records, once the metadata is there; `none` when an unkeyed record has
no led partition to go to. -/
def partitionRecords (m : Metadata) (draw : Nat) (records : List R) : Option (Pending R) :=
  let sticky := if records.any fun r => (view r).key.isNone && fits cfg view r
    then stickyPartition m.ledPartitions draw else some 0
  sticky.map fun sticky =>
    let kept := records.filter (fits cfg view)
    let groups := groupBy (partitionOf view m.leaders.length sticky) kept
    { parts := groups.flatMap fun group =>
        (cutRecords cfg view [] batchOverhead group.2).map fun rs => Part.new group.1 rs false
      oversize := records.length - kept.length
      accepted := false
      firstRejection := none }

end Prepare

/-- An answer to a `Metadata` request. -/
inductive MetadataAnswer
  | failed (fault : Fault)
  | noTopic
  | topicError (code : Int)
  | topic (brokers : List Int) (partitions : List (Int × Int × Int))

/-- The class of a missing-topic answer, with a refresh due either way. -/
def Producer.topicMissing (s : Producer) : Producer × Fault :=
  if s.missingTopic = .refreshed then ({ s with refreshDue := true }, .refused)
  else ({ s with refreshDue := true, missingTopic := .seen }, .clean)

/-- The leader vector of a topic's partitions, given as index, error code and leader. -/
def leadersOf (partitions : List (Int × Int × Int)) : List Int :=
  let named := partitions.filter fun p => 0 ≤ p.1
  let count := (named.map fun p => p.1.toNat + 1).foldl max 0
  named.foldl (fun leaders p => leaders.set p.1.toNat (if p.2.1 = Code.none then p.2.2 else -1))
    (List.replicate count (-1))

/-- Takes an answer in; the fault of the error it ends in, if it does. -/
def Producer.applyMetadata (s : Producer) (answer : MetadataAnswer) : Producer × Option Fault :=
  match answer with
  | .failed fault => (s, some fault)
  | .noTopic => ({ confirmed s with refreshDue := true }, some .clean)
  | .topicError code =>
    let due := { confirmed s with refreshDue := true }
    if code = Code.unknownTopicOrPartition ∨ code = Code.unknownTopicId then
      let missing := { due with topicPending := true }.topicMissing
      (missing.1, some missing.2)
    else if code = Code.leaderNotAvailable then ({ due with topicPending := true }, some .clean)
    else (due, some (classifyControl code))
  | .topic brokers partitions =>
    let leaders := leadersOf partitions
    if leaders.isEmpty then
      ({ confirmed s with refreshDue := true, topicPending := true }, some .clean)
    else ({ confirmed s with metadata := some ⟨brokers, leaders⟩, refreshDue := false }, none)
where
  confirmed (s : Producer) : Producer :=
    { s with missingTopic := if s.missingTopic = .seen then .refreshed else s.missingTopic
             topicPending := false }

/-- Polls while the topic is still being created: the answers before the deadline, and the one that
ends the polling at the latest. -/
def Producer.pollMetadata (s : Producer) : List MetadataAnswer → MetadataAnswer → Producer × Option Fault
  | [], last => s.applyMetadata last
  | answer :: polls, last =>
    let fetched := s.applyMetadata answer
    let leaderless := fetched.2.isNone && fetched.1.metadata.any fun m => m.ledPartitions.isEmpty
    if leaderless || (fetched.2.isSome && fetched.1.topicPending) then
      { fetched.1 with missingTopic := .seen }.pollMetadata polls last
    else fetched

/-- What the cluster answers the metadata requests of one attempt. -/
structure MetadataInput where
  stale : Bool
  first : MetadataAnswer
  polls : List MetadataAnswer
  last : MetadataAnswer

def Producer.ensureMetadata (s : Producer) (input : MetadataInput) : Producer × Option Fault :=
  if s.metadata.isSome && !input.stale && !s.refreshDue then (s, none)
  else
    let fetched := s.applyMetadata input.first
    if fetched.2.isNone || fetched.1.missingTopic ≠ .seen then fetched
    else fetched.1.pollMetadata input.polls input.last

def Producer.prepare (cfg : ProducerConfig) (view : View R) (s : Producer)
    (input : MetadataInput) (draw : Nat) (records : List R) : Producer × Except Fault (Pending R) :=
  match s.ensureMetadata input with
  | (s, some fault) => (s, .error fault)
  | (s, none) =>
    match s.metadata with
    -- Unreachable: `ensureMetadata` leaves metadata.
    | none => (s, .error .clean)
    | some m =>
      match partitionRecords cfg view m draw records with
      | none => ({ s with refreshDue := true }, .error .clean)
      | some pending => (s, .ok pending)

namespace Producer

variable (cfg : ProducerConfig) (s : Producer)

/-- Records a sequence gap: the next attempt bumps the epoch. -/
def gap : Producer := { s with bumpDue := s.bumpDue || cfg.idempotent }

def numbered (part : Part R) : Bool := part.sequence.any fun seq => seq.1 = s.generation

/-- What a batch given up leaves in the trace, if it was numbered under the current identity. -/
def gapNotes (part : Part R) : Trace R := if s.numbered part then (s.identity.map Note.gap).toList else []

def abandon (pending : Pending R) : Producer × Trace R :=
  let left := pending.parts.filter fun p => p.isUnsettled && s.numbered p
  (if cfg.idempotent && !left.isEmpty then { s with bumpDue := true } else s, left.flatMap s.gapNotes)

/-- Settles each batch whose last attempt was ambiguous as dropped: the producer, the batches, how many
records they held, and what it leaves in the trace. -/
def dropAmbiguous (pending : Pending R) : Producer × Pending R × Nat × Trace R :=
  let lost := pending.parts.filter Part.isAmbiguous
  let parts := pending.parts.map fun part =>
    if Part.isAmbiguous part then { part with state := .dropped } else part
  (if lost.any s.numbered then s.gap cfg else s, { pending with parts := parts },
    (lost.map fun part => part.records.length).sum, lost.flatMap s.gapNotes)

def restartSequences : Producer :=
  { s with generation := s.generation + 1, nextSequence := fun _ => 0, bumpDue := false, reinitDue := false }

/-- Gets a new identity, given how the polling of `InitProducerId` ends. -/
def initProducerId : Except Fault Identity → Producer × Option Fault
  | .ok identity => ({ s with identity := some identity }.restartSequences, none)
  | .error fault => (s, some fault)

def epochMax : Int := 32767

def ensureIdentity (init : Except Fault Identity) : Producer × Option Fault :=
  match s.identity with
  | none => s.initProducerId init
  | some identity =>
    if s.reinitDue then s.initProducerId init
    else if s.bumpDue then
      if identity.epoch = epochMax then s.initProducerId init
      else ({ s with identity := some { identity with epoch := identity.epoch + 1 } }.restartSequences, none)
    else (s, none)

/-- The identity of an attempt, which only an idempotent producer has. -/
def identify (init : Except Fault Identity) : Producer × Option Fault :=
  if cfg.idempotent then s.ensureIdentity init else (s, none)

end Producer

/-- `seq + count` on the broker's sequence ring, which wraps from the greatest `i32` to 0. -/
def nextSequence (seq count : Int32) : Int32 :=
  if Int32.maxValue - seq < count then count - (Int32.maxValue - seq) - 1 else seq + count

/-- The producer once a batch of a partition took its numbers. -/
def Producer.advance (s : Producer) (partition : Int) (count : Nat) : Producer :=
  let next := Kafka.nextSequence (s.nextSequence partition) (Int32.ofNat count)
  { s with nextSequence := Function.update s.nextSequence partition next }

variable (cfg : ProducerConfig) (s : Producer)

/-- Numbers an unsettled batch that has no sequence from the current generation. -/
def Producer.stamp (part : Part R) : Producer × Part R × Trace R :=
  match s.identity with
  | none => (s, part, [])
  | some identity =>
    if !cfg.idempotent || s.numbered part then (s, part, [])
    else
      let base := s.nextSequence part.partition
      (s.advance part.partition part.records.length, { part with sequence := some (s.generation, base) },
        [.numbered part.partition identity base part.records])

/-- The stamp a batch goes out under, once it has its number. -/
def Producer.stampOf (part : Part R) : Option (Identity × Int32) :=
  if cfg.idempotent then
    s.identity.bind fun identity => part.sequence.map fun seq => (identity, seq.2)
  else none

def Producer.stampAll (cfg : ProducerConfig) (s : Producer) :
    Parts R → Producer × Parts R × Trace R
  | [] => (s, [], [])
  | part :: parts =>
    if part.isUnsettled then
      let here := s.stamp cfg part
      let later := here.1.stampAll cfg parts
      (later.1, here.2.1 :: later.2.1, here.2.2 ++ later.2.2)
    else
      let later := s.stampAll cfg parts
      (later.1, part :: later.2.1, later.2.2)

/-- A batch on its way to a broker: its place in the pending batch, its partition and encoded size. -/
structure Entry where
  index : Nat
  partition : Int
  size : Nat

/-- What is to be done with one batch of an attempt. -/
inductive Plan
  | settled
  | leaderless
  | unencodable
  | ready (leader : Int) (size : Nat)

variable (m : Metadata) (encode : Nat → Option Nat)

/-- Whether a batch goes out: it is unsettled, its partition has a leader, and it encodes. -/
def plan (index : Nat) (part : Part R) : Plan :=
  if !part.isUnsettled then .settled
  else
    match m.leader part.partition with
    | none => .leaderless
    | some leader =>
      match encode index with
      | none => .unencodable
      | some size => .ready leader size

def readyEntry (part : Part R × Nat) : Option (Int × Entry) :=
  match plan m encode part.2 part.1 with
  | .ready leader size => some (leader, ⟨part.2, part.1.partition, size⟩)
  | _ => none

def readyEntries (parts : Parts R) : List (Int × Entry) :=
  parts.zipIdx.filterMap (readyEntry m encode)

/-- Whether a batch has to start a new request: the last one has its partition, or no room. -/
def startsNew (cap : Nat) (entry : Entry) (current : List Entry) : Bool :=
  current.any (·.partition = entry.partition) || cap < (current.map Entry.size).sum + entry.size

def packInto (cap : Nat) : List Entry → List Entry → List (List Entry)
  | current, [] => if current.isEmpty then [] else [current]
  | current, entry :: rest =>
    if !current.isEmpty && startsNew cap entry current then current :: packInto cap [entry] rest
    else packInto cap (current ++ [entry]) rest

def pack (parts : List Entry) (cap : Nat) : List (List Entry) := packInto cap [] parts

/-- One partition's row of a produce response. -/
structure Answer where
  code : Int
  baseOffset : Int
  recordErrors : List Int
  why : String

/-- How one produce request ends. -/
inductive Reply
  | failed (sent : Bool) (why : String)
  | answers (of : Int → Option Answer)

/-- A broker during one attempt: the produce version of the connection to it, or why there is none, and
for each request whether the session is about to end and how the request ends. -/
structure Link where
  connect : Except (Fault × String) Int
  pastDeadline : Nat → Bool
  reply : Nat → Reply

/-- A batch's outcome, and whether it was handed to the connection. -/
structure Delivered where
  index : Nat
  partition : Int
  wire : Bool
  outcome : Outcome

def Outcome.appended : Outcome → Bool
  | .answered code _ _ _ _ => code = 0 || code = 46
  | .unanswered _ _ => false

def Delivered.unsent (entry : Entry) (fault : Fault) (why : String) : Delivered :=
  ⟨entry.index, entry.partition, false, .unanswered fault why⟩

def produce (cfg : ProducerConfig) (version : Int) (reply : Reply) (entry : Entry) : Delivered :=
  match reply with
  | .failed sent why =>
    ⟨entry.index, entry.partition, true, .unanswered (if sent then .ambiguous else .clean) why⟩
  | .answers of =>
    if cfg.acks = .none then ⟨entry.index, entry.partition, true, .answered 0 (-1) [] "" version⟩
    else
      match of entry.partition with
      | some a =>
        ⟨entry.index, entry.partition, true, .answered a.code a.baseOffset a.recordErrors a.why version⟩
      | none => ⟨entry.index, entry.partition, true,
          .unanswered .ambiguous ("the produce response has no answer for partition " ++ toString entry.partition)⟩

def Reply.isFailed : Reply → Bool
  | .failed _ _ => true
  | .answers _ => false

/-- Whether a batch of a request goes out: the connection takes requests, and no earlier batch of its
partition failed. -/
def goesOut (failed : List Int) (finished : Option String) (entry : Entry) : Bool :=
  finished.isNone && !failed.contains entry.partition

/-- Why a batch of a request is left behind. -/
def behind (finished : Option String) (entry : Entry) : String :=
  finished.getD ("not sent behind an earlier batch of partition " ++ toString entry.partition ++ " that failed")

/-- What one request delivers: the batches it leaves behind, and those it sends. -/
def requestOutcomes (version : Int) (reply : Reply) (goes : Entry → Bool)
    (why : Entry → String) (request : List Entry) : List Delivered :=
  (request.filter fun entry => !goes entry).map (fun entry => .unsent entry .clean (why entry)) ++
    (request.filter goes).map (produce cfg version reply)

/-- Sends the requests one after another: the number of the next one, the partitions with a batch that
failed, and why the connection takes no more requests. -/
def sendRequests (cfg : ProducerConfig) (version : Int) (link : Link) :
    Nat → List Int → Option String → List (List Entry) → List Delivered
  | _, _, _, [] => []
  | n, failed, finished, request :: requests =>
    let finished := if finished.isNone && link.pastDeadline n then
      some "not sent: the connection's SASL session is about to end" else finished
    let goes := goesOut failed finished
    let out := requestOutcomes cfg version (link.reply n) goes
      (behind finished) request
    let failed := failed ++ (out.filter fun d => !d.outcome.appended).map Delivered.partition
    let finished := if request.any goes && (link.reply n).isFailed then
      some "not sent: an earlier request on the connection failed" else finished
    out ++ sendRequests cfg version link (n + 1) failed finished requests

def produceZstdMin : Int := 7

def produceRecordErrorsMin : Int := 8

def runJob (broker : Int) (link : Link) (parts : List Entry) : List Delivered :=
  match link.connect with
  | .error (fault, why) => parts.map fun entry => .unsent entry fault why
  | .ok version =>
    if cfg.zstd && version < produceZstdMin then
      parts.map fun entry => .unsent entry .refused ("Kafka broker " ++ toString broker ++
        " offers Produce up to v" ++ toString version ++ "; zstd needs v" ++ toString produceZstdMin)
    else sendRequests cfg version link 0 [] none (pack parts cfg.maxRequestBytes)

/-- What the cluster does during one attempt. -/
structure SendInput where
  init : Except Fault Identity
  metadata : MetadataInput
  encode : Nat → Option Nat
  encodeError : Nat → String
  link : Int → Link

variable (input : SendInput) (parts : Parts R)

/-- Every broker's share. The brokers work in parallel, each on partitions of its own. -/
def deliver : List Delivered :=
  (groupBy Prod.fst (readyEntries m input.encode parts)).flatMap fun job =>
    runJob cfg job.1 (input.link job.1) (job.2.map Prod.snd)

/-- The outcome of the batch at an index, if the attempt had one for it. -/
def outcomeOf (delivered : List Delivered) (index : Nat) (part : Part R) : Option Outcome :=
  match plan m input.encode index part with
  | .settled => none
  | .leaderless => some (.unanswered .clean ("partition " ++ toString part.partition ++ " has no leader"))
  -- A batch that cannot be encoded is this batch's own content.
  | .unencodable => some (.answered (-1) (-1) []
      ("encoding partition " ++ toString part.partition ++ ": " ++ input.encodeError index) 0)
  | .ready _ _ => (delivered.find? (·.index = index)).map Delivered.outcome

/-- Each batch with its outcome. -/
abbrev outcomes : List (Answered R) :=
  parts.zipIdx.map fun u => (u.1, outcomeOf m input (deliver cfg m input parts) u.2 u.1)

/-- The fold of the outcomes into the pending batch. -/
structure Applied (R : Type) where
  producer : Producer
  parts : Parts R
  accepted : Bool
  firstRejection : Option String
  settled : List (Settled R)
  notes : Trace R

variable (part : Part R)

def Producer.reject (code : Int) (why : String) : Applied R where
  producer := s.gap cfg
  parts := [{ part with state := .rejected }]
  accepted := false
  firstRejection := some why
  settled := [⟨part.partition, part.records.length, .rejected code, why, part.records⟩]
  notes := s.gapNotes part

/-- A batch whose state changes, and nothing else of the pending batch does. -/
def Producer.keep : Applied R := ⟨s, [part], false, none, [], []⟩

/-- The indices of a batch's records that the broker named. -/
def namedRecords (recordErrors : List Int) : List Nat :=
  (recordErrors.filterMap fun i => if 0 ≤ i then some i.toNat else none).filter
    (· < part.records.length) |>.dedup

def Producer.apply (outcome : Outcome) : Applied R :=
  match outcome with
  | .unanswered fault why => s.keep (part.unsettle fault why)
  | .answered code baseOffset recordErrors why version =>
    match classify code with
    | .accepted =>
      { producer := { s with missingTopic := .no }
        parts := [{ part with state := .accepted }]
        accepted := true
        firstRejection := none
        settled := [⟨part.partition, part.records.length, .accepted baseOffset, why, part.records⟩]
        notes := [] }
    | .unsettled fault refresh =>
      { s with refreshDue := s.refreshDue || refresh }.keep (part.unsettle fault why)
    | .missingTopic => s.topicMissing.1.keep (part.unsettle s.topicMissing.2 why)
    | .outOfOrder => { s with bumpDue := true }.keep (part.unsettle .ambiguous why)
    | .staleEpoch => { s with reinitDue := true }.keep (part.unsettle .clean why)
    | .tooLarge =>
      if part.records.length > 1 && !part.resend then
        let middle := part.records.length / 2
        { producer := s.gap cfg
          parts := [part.records.take middle, part.records.drop middle].map fun records =>
            (Part.new part.partition records true).unsettle .clean (why ++ "; halved for a resend")
          accepted := false
          firstRejection := none
          settled := []
          notes := s.gapNotes part }
      else s.reject cfg part code why
    | .namedRecords =>
      if produceRecordErrorsMin ≤ version && !part.resend && !recordErrors.isEmpty then
        let named := namedRecords part recordErrors
        if named.isEmpty then s.reject cfg part code why
        else
          let rest := (part.records.zipIdx.filter fun r => !named.contains r.2).map Prod.fst
          let gone := (part.records.zipIdx.filter fun r => named.contains r.2).map Prod.fst
          { producer := s.gap cfg
            parts := if rest.isEmpty then [{ part with records := [], state := .rejected }]
              else [(Part.new part.partition rest true).unsettle .clean
                (why ++ "; resending the records not named")]
            accepted := false
            firstRejection := if rest.isEmpty then some why else none
            settled := [⟨part.partition, named.length, .dropped code, why, gone⟩]
            notes := s.gapNotes part }
      else s.reject cfg part code why
    | .rejected => s.reject cfg part code why

/-- Folds every outcome in, in the order of the batches. -/
def Producer.applyAll (cfg : ProducerConfig) (s : Producer) : List (Answered R) → Applied R
  | [] => ⟨s, [], false, none, [], []⟩
  | (part, outcome) :: rest =>
    let here := outcome.elim (s.keep part) (s.apply cfg part)
    let later := here.producer.applyAll cfg rest
    { producer := later.producer
      parts := here.parts ++ later.parts
      accepted := here.accepted || later.accepted
      firstRejection := here.firstRejection.or later.firstRejection
      settled := here.settled ++ later.settled
      notes := here.notes ++ later.notes }

/-- What an attempt leaves: the producer, the pending batch, the fault that stopped it before anything
was sent, its settlements, and its trace. -/
structure Sent (R : Type) where
  producer : Producer
  pending : Pending R
  error : Option Fault
  settled : List (Settled R)
  notes : Trace R

def wireNotes
    (delivered : List Delivered) : Trace R :=
  delivered.flatMap fun d =>
    if d.wire then
      (parts[d.index]?.map fun part =>
        Note.wire part.partition (s.stampOf cfg part) part.records d.outcome).toList
    else []

variable (pending : Pending R)

/-- The attempt once there are an identity and metadata. -/
def Producer.sendParts
    : Sent R :=
  let stamped := s.stampAll cfg pending.parts
  let parts := stamped.2.1
  let delivered := deliver cfg m input parts
  let leaderless := parts.any fun part => part.isUnsettled && (m.leader part.partition).isNone
  let sending := { stamped.1 with refreshDue := stamped.1.refreshDue || leaderless }
  let applied := sending.applyAll cfg
    (parts.zipIdx.map fun part => (part.1, outcomeOf m input delivered part.2 part.1))
  { producer := applied.producer
    pending := { pending with
      parts := applied.parts
      accepted := pending.accepted || applied.accepted
      firstRejection := pending.firstRejection.or applied.firstRejection }
    error := none
    settled := applied.settled
    notes := stamped.2.2 ++ wireNotes cfg sending parts delivered ++ applied.notes }

def Producer.send : Sent R :=
  if !pending.parts.any Part.isUnsettled then ⟨s, pending, none, [], []⟩
  else
    match s.identify cfg input.init with
    | (s, some fault) => ⟨s, pending, some fault, [], []⟩
    | (s, none) =>
      match s.ensureMetadata input.metadata with
      | (s, some fault) => ⟨s, pending, some fault, [], []⟩
      | (s, none) =>
        match s.metadata with
        -- Unreachable: `ensureMetadata` leaves metadata.
        | none => ⟨s, pending, some .clean, [], []⟩
        | some m => s.sendParts cfg m input pending

/-- How an attempt can go: nothing to send, no identity, no metadata, or every batch sent once. -/
inductive Attempt (cfg : ProducerConfig) (s : Producer) (input : SendInput) (pending : Pending R) : Sent R → Prop
  | idle (settled : ∀ part ∈ pending.parts, part.isUnsettled = false) :
      Attempt cfg s input pending ⟨s, pending, none, [], []⟩
  | unidentified {s' : Producer} {fault : Fault} (failed : s.identify cfg input.init = (s', some fault)) :
      Attempt cfg s input pending ⟨s', pending, some fault, [], []⟩
  | unplaced {s' s'' : Producer} {error : Option Fault} {fault : Fault}
      (identified : s.identify cfg input.init = (s', none))
      (fetched : s'.ensureMetadata input.metadata = (s'', error)) :
      Attempt cfg s input pending ⟨s'', pending, some fault, [], []⟩
  | sent {s' s'' : Producer} {m : Metadata} (identified : s.identify cfg input.init = (s', none))
      (fetched : s'.ensureMetadata input.metadata = (s'', none)) (metadata : s''.metadata = some m) :
      Attempt cfg s input pending (s''.sendParts cfg m input pending)

theorem send_attempt :
    Attempt cfg s input pending (s.send cfg input pending) := by
  unfold Producer.send
  split
  · rename_i nothing
    refine .idle fun part mem => ?_
    by_contra unsettled
    simp only [Bool.not_eq_true', List.any_eq_false] at nothing
    exact nothing part mem (by simpa using unsettled)
  · split
    · rename_i s' fault failed
      exact .unidentified failed
    · rename_i s' identified
      split
      · rename_i s'' fault fetched
        exact .unplaced identified fetched
      · rename_i s'' fetched
        split
        · exact .unplaced identified fetched
        · rename_i m metadata
          exact .sent identified fetched metadata

end Logit.Kafka
