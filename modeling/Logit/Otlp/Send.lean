import Logit.Http.Deliveries

namespace Logit.Otlp

open Sink (Fault)
open Http (Answers BatchAccounting Attempt Outcomes Ran)

inductive Signal where
  | logs
  | metrics
  | traces
  deriving DecidableEq, Repr

def signalBit : Signal → Nat
  | .logs => 0
  | .metrics => 1
  | .traces => 2

structure SignalPayload where
  signal : Signal
  records : Nat
  bytes : List UInt8

/-- What the encoder writes of a batch for each signal: the number of records and the body. -/
structure Encoder (β : Type) where
  records : Signal → β → Nat
  body : Signal → β → List UInt8

variable {β : Type} (encoder : Encoder β)

/-- One payload for each signal that the batch has a record of, in the order they are sent. -/
def Encoder.encodeSignals (batch : β) : List SignalPayload :=
  [Signal.logs, .traces, .metrics].filterMap fun signal =>
    if encoder.records signal batch = 0 then none
    else some ⟨signal, encoder.records signal batch, encoder.body signal batch⟩

/-- The encode half of an attempt: whether its counters were live, the payloads, and those of them
that the destination has not settled. -/
structure Prepared where
  live : Bool
  payloads : List SignalPayload
  requests : List SignalPayload
  acceptedBefore : Bool

def prepare (accounting : BatchAccounting) (batch : β) : Prepared × BatchAccounting :=
  let encoded := accounting.encode 0
  let payloads := encoder.encodeSignals batch
  (⟨encoded.1, payloads, payloads.filter fun p => !encoded.2.settled (signalBit p.signal),
    encoded.2.anyAccepted⟩, encoded.2)

/-- The requests of an attempt, or its result when there is none to send. -/
def Prepared.run (prepared : Prepared) (answers : Answers) : Ran :=
  if prepared.requests = [] then ⟨[], [], (Outcomes.new prepared.acceptedBefore).finish⟩
  else Http.run answers (prepared.requests.map fun p => signalBit p.signal) (.new prepared.acceptedBefore)

def numbered (payloads : List SignalPayload) : List (Nat × SignalPayload) :=
  payloads.map fun p => (signalBit p.signal, p)

def send (accounting : BatchAccounting) (batch : β)
    (answers : Answers) : Attempt SignalPayload × BatchAccounting :=
  let prepared := prepare encoder accounting batch
  let ran := prepared.1.run answers
  (⟨numbered prepared.1.payloads, [(0, prepared.1.live)], ran.posted, ran.result⟩,
    (prepared.2.replay ran.journal).finish ran.result)

/-- The attempts at a batch up to a final result. -/
def attempts (encoder : Encoder β) (batch : β) :
    List Answers → BatchAccounting → List (Attempt SignalPayload)
  | [], _ => []
  | answers :: later, accounting =>
    let next := send encoder accounting batch answers
    if accounting.isFinal next.1.result then [next.1]
    else next.1 :: attempts encoder batch later next.2

theorem run_empty (answers : Answers) (outcomes : Outcomes) :
    Http.run answers [] outcomes = ⟨[], [], outcomes.finish⟩ := rfl

theorem Prepared.run_eq (prepared : Prepared) (answers : Answers) :
    prepared.run answers = Http.run answers (prepared.requests.map fun p => signalBit p.signal)
      (.new prepared.acceptedBefore) := by
  unfold Prepared.run
  split
  next empty => rw [empty, List.map_nil, run_empty]
  next => rfl

variable (encoder : Encoder β)

theorem send_eq (accounting : BatchAccounting) (batch : β) (answers : Answers) :
    send encoder accounting batch answers =
      accounting.attempt [0] (numbered (encoder.encodeSignals batch)) answers := by
  have left : ((encoder.encodeSignals batch).filter fun p =>
        !(accounting.encode 0).2.settled (signalBit p.signal)).map (fun p => signalBit p.signal) =
      ((numbered (encoder.encodeSignals batch)).map Prod.fst).filter
        fun n => !(accounting.encode 0).2.settled n := by
    rw [numbered, List.map_map, List.filter_map]
    rfl
  simp only [send, prepare, Prepared.run_eq, left]
  rfl

theorem attempts_eq (batch : β) (answers : List Answers) (accounting : BatchAccounting) :
    attempts encoder batch answers accounting =
      accounting.deliver [0] (numbered (encoder.encodeSignals batch)) answers := by
  induction answers generalizing accounting with
  | nil => rfl
  | cons answer later ih => simp [attempts, BatchAccounting.deliver, send_eq, ih]

theorem numbered_distinct (batch : β) : ((numbered (encoder.encodeSignals batch)).map Prod.fst).Nodup := by
  have sublist : ((numbered (encoder.encodeSignals batch)).map Prod.fst).Sublist
      ([Signal.logs, .traces, .metrics].map signalBit) := by
    rw [Encoder.encodeSignals]
    generalize [Signal.logs, .traces, .metrics] = signals
    induction signals with
    | nil => exact .slnil
    | cons signal signals ih =>
      rw [List.filterMap_cons]
      split
      next => exact .cons _ ih
      next payload there =>
        obtain ⟨-, ⟨⟩⟩ := Option.ite_none_left_eq_some.mp there
        exact .cons_cons _ ih
  exact sublist.nodup (by decide)

end Logit.Otlp
