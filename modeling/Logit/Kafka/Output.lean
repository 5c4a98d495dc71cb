import Logit.Kafka.Producer

namespace Logit.Kafka

open Sink (Fault DeliveryPosture isRetryable)

variable {R : Type}

/-- A topic's records of one batch, until an attempt has prepared them, and its partition batches after. -/
inductive TopicState (R : Type)
  | unprepared (records : List R)
  | prepared (pending : Pending R)

structure TopicPending (R : Type) where
  topic : String
  state : TopicState R

/-- The topics of a batch, in the order of their first records. -/
abbrev Topics (R : Type) := List (TopicPending R)

/-- Adds a record to its topic's, the topics in the order of their first records. -/
def pushTopic (topic : String) (record : R) : Topics R → Topics R
  | [] => [⟨topic, .unprepared [record]⟩]
  | t :: rest =>
    if t.topic = topic then
      match t.state with
      | .unprepared records => { t with state := .unprepared (records ++ [record]) } :: rest
      | .prepared _ => t :: pushTopic topic record rest
    else t :: pushTopic topic record rest

def multiPending (records : List (String × R)) : Topics R :=
  records.foldl (fun topics r => pushTopic r.1 r.2 topics) []

/-- What the cluster does for one topic during one attempt. -/
structure TopicInput where
  metadata : MetadataInput
  draw : Nat
  send : SendInput

/-- One topic's share of an attempt. -/
structure TopicOutcome (R : Type) where
  producer : Producer
  state : TopicState R
  error : Option Fault
  settled : List (Settled R)
  oversize : Nat
  notes : Trace R

def sendTopic (cfg : ProducerConfig) (s : Producer) (input : TopicInput) (pending : Pending R)
    (oversize : Nat) : TopicOutcome R :=
  let sent := s.send cfg input.send pending
  ⟨sent.producer, .prepared sent.pending, sent.error, sent.settled, oversize, sent.notes⟩

def attemptTopic (cfg : ProducerConfig) (view : View R) (s : Producer) (input : TopicInput) :
    TopicState R → TopicOutcome R
  | .unprepared records =>
    match s.prepare cfg view input.metadata input.draw records with
    | (s, .ok pending) => sendTopic cfg s input pending pending.oversize
    | (s, .error fault) => ⟨s, .unprepared records, some fault, [], 0, []⟩
  | .prepared pending => sendTopic cfg s input pending 0

def rank : Fault → Nat
  | .refused => 3
  | .ambiguous => 2
  | _ => 1

/-- The class of a partition batch that is not settled. -/
def Part.fault? (part : Part R) : Option Fault :=
  match part.state with
  | .unsettled fault _ => some fault
  | _ => none

/-- What a topic counts as unsettled: the error that stopped its attempt, whatever its partition batches
hold, or else each unsettled partition batch. -/
def unsettledClasses : TopicState R × Option Fault → List Fault
  | (_, some fault) => [fault]
  | (.prepared pending, none) => pending.parts.filterMap Part.fault?
  | (.unprepared _, none) => []

/-- The strongest class, of equals the last. -/
def strongest (classes : List Fault) : Option Fault := classes.foldl (fun best fault =>
    match best with
    | none => some fault
    | some b => if rank b ≤ rank fault then some fault else some b) none

def TopicState.pending? : TopicState R → Option (Pending R)
  | .prepared pending => some pending
  | .unprepared _ => none

/-- The verdict on an attempt across topics. -/
def verdict (topics : List (TopicState R × Option Fault)) : Except Fault Unit :=
  match strongest (topics.flatMap unsettledClasses) with
  | some fault => .error fault
  | none =>
    if topics.any fun t => (t.1.pending?.map Pending.accepted).getD false then .ok ()
    else if topics.any fun t => ((t.1.pending?.bind Pending.firstRejection).isSome) then .error .rejected
    else .ok ()

/-- The sink: each topic's producer, the batch it holds, and what of the batch accounting decides when a
batch is final. -/
structure KafkaOutput (R : Type) where
  producers : String → Producer
  pending : Option (Topics R)
  armed : Bool
  posture : DeliveryPosture

namespace KafkaOutput

variable (cfg : ProducerConfig) (view : View R)

def abandon (producers : String → Producer) (topics : Topics R) : String → Producer :=
  topics.foldl (fun producers t =>
    match t.state with
    | .prepared pending =>
      Function.update producers t.topic ((producers t.topic).abandon cfg pending).1
    | .unprepared _ => producers) producers

variable (o : KafkaOutput R)

def release : KafkaOutput R :=
  match o.pending with
  | none => o
  | some topics => { o with producers := abandon cfg o.producers topics, pending := none }

def observeBatch : KafkaOutput R := { o.release cfg with armed := true }

/-- Every topic's share of one attempt. The topics run concurrently, each on a producer and records of
its own. -/
def attemptAll (producers : String → Producer) (inputs : String → TopicInput)
    (topics : Topics R) : List (String × TopicOutcome R) :=
  topics.map fun t => (t.topic, attemptTopic cfg view (producers t.topic) (inputs t.topic) t.state)

/-- Settles each ambiguous partition batch of every prepared topic as dropped. -/
def dropAmbiguous (producers : String → Producer) :
    Topics R → (String → Producer) × Topics R
  | [] => (producers, [])
  | t :: rest =>
    match t.state with
    | .unprepared _ =>
      let later := dropAmbiguous producers rest
      (later.1, t :: later.2)
    | .prepared pending =>
      let dropped := (producers t.topic).dropAmbiguous cfg pending
      let later := dropAmbiguous (Function.update producers t.topic dropped.1) rest
      (later.1, { t with state := .prepared dropped.2.1 } :: later.2)

/-- One attempt at the batches held: its verdict and its trace. -/
def attemptPending (topics : Topics R) (inputs : String → TopicInput) :
    KafkaOutput R × Except Fault Unit × List (String × Note R) :=
  let outcomes := attemptAll cfg view o.producers inputs topics
  let producers := outcomes.foldl (fun producers t => Function.update producers t.1 t.2.producer) o.producers
  let topics := outcomes.map fun t => (⟨t.1, t.2.state⟩ : TopicPending R)
  let result := verdict (outcomes.map fun t => (t.2.state, t.2.error))
  let notes := outcomes.flatMap fun t => t.2.notes.map fun note => (t.1, note)
  -- `Refused` outranks `Ambiguous` and is retried, so what is ambiguous is dropped before the retry.
  if o.posture = .atMostOnce ∧ result = .error .refused then
    let dropped := dropAmbiguous cfg producers topics
    ({ o with producers := dropped.1, pending := some dropped.2 }, result, notes)
  else ({ o with producers := producers, pending := some topics }, result, notes)

/-- One attempt at a batch, given as the records it encodes to. -/
def attempt (batch : List (String × R)) (inputs : String → TopicInput) :
    KafkaOutput R × Except Fault Unit × List (String × Note R) :=
  let o := if o.armed then o else o.release cfg
  match o.pending with
  | some topics => attemptPending cfg view o topics inputs
  | none =>
    if batch.isEmpty then (o, .ok (), [])
    else attemptPending cfg view o (multiPending batch) inputs

def isFinal (posture : DeliveryPosture) : Except Fault Unit → Bool
  | .ok _ => true
  | .error fault => !isRetryable fault posture

def send (batch : List (String × R)) (inputs : String → TopicInput) :
    KafkaOutput R × Except Fault Unit × List (String × Note R) :=
  let (o, result, notes) := o.attempt cfg view batch inputs
  if isFinal o.posture result then ({ o.release cfg with armed := false }, result, notes)
  else (o, result, notes)

/-- A batch's attempts, as the write loop makes them: another only after a failure it retries. The output,
the last result, and the whole trace. -/
def deliver (o : KafkaOutput R) (batch : List (String × R)) :
    List (String → TopicInput) → KafkaOutput R × Option (Except Fault Unit) × List (String × Note R)
  | [] => (o, none, [])
  | inputs :: rest =>
    let (o, result, notes) := o.send cfg view batch inputs
    if isFinal o.posture result then (o, some result, notes)
    else
      let later := o.deliver batch rest
      (later.1, later.2.1.or (some result), notes ++ later.2.2)

end KafkaOutput

end Logit.Kafka
