import Logit.Kafka.Input
import Logit.Kafka.Tracker
import Logit.Lib.Sweep

namespace Logit.Kafka.Consumer

open Truncations

/-- Where a partition reads from next. -/
inductive Position
  | at_ (offset : Int)
  | start (timestamp : Int)
  | outOfRange (offset : Int)

/-- One assigned partition's fetch state. -/
structure Part where
  epoch : Nat
  firstEpoch : Nat
  /-- Per reset, the epoch it replaced and the lowest offset any reset at or after it moved to. -/
  resets : List (Nat × Int)
  position : Position
  buffer : Option Fetched
  tracker : Tracker

def Position.next : Position → Int
  | .at_ offset => offset
  | .start _ => 0
  | .outOfRange offset => offset

namespace Part

def new (epoch : Nat) (position : Position) (tracker : Tracker) : Part :=
  ⟨epoch, epoch, [], position, none, tracker⟩

/-- Resets the tracker to the end of a log that no longer holds the offsets fetched before it, and
starts a new epoch. -/
def reset (p : Part) (position : Int) (nextEpoch : Nat) : Part :=
  { p with
    tracker := p.tracker.reset position
    resets := push p.epoch position p.resets
    epoch := nextEpoch }

/-- Marks a range done that was fetched in an epoch: one from before a reset is cut at the lowest
offset a reset since then moved to, and one from another assignment is ignored. -/
def accept (p : Part) (epoch : Nat) (range : Int × Int) : Part :=
  if epoch = p.epoch then { p with tracker := p.tracker.mark range }
  else if p.firstEpoch ≤ epoch ∧ epoch < p.epoch then
    match lowest p.resets epoch with
    | some low => { p with tracker := p.tracker.mark (range.1, min range.2 low) }
    | none => p
  else p

end Part

/-- How an attempt to send a batch ends; one that is out of time is made again until the drain
deadline has passed. -/
inductive Sent
  | accepted
  | refused
  | timedOut (drained : Bool)

/-- The delivery of one fetched run. -/
structure Run (X : Externals) where
  fetched : Fetched
  cuts : List (Cut X)
  /-- The cuts marked accepted. -/
  marked : Nat
  /-- The batches of the next cut that were accepted. -/
  sent : Nat
  /-- Whether the delivery returned. -/
  returned : Bool
  /-- The batches that a consumer accepted, each with its cut. -/
  accepted : List (Nat × Nat)

namespace Run

variable {X : Externals}

def epoch (run : Run X) : Nat := run.fetched.epoch

def begin (input : KafkaInput X) (decoder : Record → Decoded X) (fetched : Fetched) : Run X :=
  ⟨fetched, input.decode decoder fetched, 0, 0, false, []⟩

/-- The next thing a delivery does: sends a batch, or marks the cut whose batches are all accepted. -/
def advance (run : Run X) (answer : Sent) : Run X × Option (Int × Int) :=
  if run.returned then (run, none)
  else
    match run.cuts[run.marked]? with
    | none => ({ run with returned := true }, none)
    | some cut =>
      if run.sent < cut.batches.length then
        match answer with
        | .accepted =>
          ({ run with sent := run.sent + 1, accepted := run.accepted ++ [(run.marked, run.sent)] }, none)
        | .refused => ({ run with returned := true }, none)
        | .timedOut true => ({ run with returned := true }, none)
        | .timedOut false => (run, none)
      else ({ run with marked := run.marked + 1, sent := 0 }, some cut.range)

end Run

/-- Offsets that an assignment's fetching went past: handed out in a run, or skipped. -/
inductive Taken (X : Externals)
  | skipped (epoch : Nat) (span : Int × Int)
  | handed (run : Run X)

namespace Taken

variable {X : Externals}

def toRun : Taken X → Option (Run X)
  | .skipped _ _ => none
  | .handed run => some run

end Taken

/-- What reading one fetch answer gave: the records from the position on, and the next position. -/
structure Read (from_ : Int) where
  records : List Record
  position : Int
  inside : ∀ record ∈ records, from_ ≤ record.offset ∧ record.offset < position
  increasing : records.Pairwise (·.offset < ·.offset)
  forward : from_ ≤ position

/-- One partition of a consumer, over every assignment of it. -/
structure State (X : Externals) where
  part : Option Part
  /-- The counter that every partition of the process takes its epochs from. -/
  nextEpoch : Nat
  /-- Whether the fetch loops of this assignment run. -/
  fetching : Bool
  /-- What this assignment's fetching went past, in order. -/
  taken : List (Taken X)
  /-- The runs of earlier assignments. -/
  late : List (Run X)
  /-- Where this assignment started. -/
  start : Int
  /-- Every reset of this assignment: the epoch it replaced, and the offset. -/
  history : List (Nat × Int)

namespace State

variable {X : Externals}

def initial : State X := ⟨none, 1, false, [], [], 0, []⟩

variable (s : State X)

/-- The runs of an assignment that ends go on being delivered. -/
def retire : List (Run X) := s.late ++ s.taken.filterMap Taken.toRun

/-- A new assignment starts where the group committed, or where a timestamp will be resolved to. -/
def install (committed : Option Int) (timestamp : Int) : State X where
  part := match committed with
    | some offset => some (Part.new s.nextEpoch (.at_ offset) (Tracker.new offset (some offset)))
    | none => some (Part.new s.nextEpoch (.start timestamp) (Tracker.new 0 none))
  nextEpoch := s.nextEpoch + 1
  fetching := true
  taken := []
  late := s.retire
  start := committed.getD 0
  history := []

def clear : State X :=
  { s with part := none, fetching := false, taken := [], late := s.retire, start := 0, history := [] }

variable (part : Part)

def resolveStart (offset : Int) : State X :=
  { s with
    part := some { part with position := .at_ offset, tracker := Tracker.new offset none }
    start := offset }

/-- Offsets that need no delivery are marked, and the next fetch starts past them. -/
def skip (from_ to_ : Int) : State X :=
  { s with
    part := some { part with tracker := part.tracker.mark (from_, to_), position := .at_ to_ }
    taken := s.taken ++ [.skipped part.epoch (from_, to_)] }

/-- Reads a fetch answer: its records are buffered, and one without records is skipped. -/
def answer {from_ : Int} (read : Read from_) : State X :=
  if read.records = [] then s.skip part from_ read.position
  else
    let fetched := ⟨part.epoch, read.records, (from_, read.position), read.inside, read.increasing, read.forward⟩
    { s with part := some { part with position := .at_ read.position, buffer := some fetched } }

/-- The log was cut short: the partition is reset, and reads on from there if it was past it. -/
def reset (s : State X) (part : Part) (position : Int) : State X :=
  { s with
    part := some { part.reset position s.nextEpoch with position := .at_ (min part.position.next position) }
    nextEpoch := s.nextEpoch + 1
    history := s.history ++ [(part.epoch, position)] }

/-- Where to go from an offset out of range: past what retention deleted, down to the end of a log
cut short, or on from where it was. -/
def resolveRange (from_ start stop : Int) : State X :=
  if from_ < start then s.skip part from_ start
  else if stop < from_ then s.reset part stop
  else { s with part := some { part with position := .at_ from_ } }

/-- Marks a range of the partition accepted, if it is assigned. -/
def markAccepted (epoch : Nat) (range : Option (Int × Int)) : State X :=
  match range with
  | some range => { s with part := s.part.map (·.accept epoch range) }
  | none => s

end State

variable {X : Externals}

/-- One step of the consumer, of the broker's answers, or of a delivery. -/
inductive Step (input : KafkaInput X) : State X → State X → Prop
  | install (s : State X) (committed : Option Int) (timestamp : Int) : Step input s (s.install committed timestamp)
  | clear (s : State X) : Step input s s.clear
  | otherEpoch (s : State X) : Step input s { s with nextEpoch := s.nextEpoch + 1 }
  | resolveStart {s : State X} {part : Part} {timestamp : Int} (offset : Int) : s.part = some part →
      s.fetching = true → part.position = .start timestamp → Step input s (s.resolveStart part offset)
  | answer {s : State X} {part : Part} {from_ : Int} (read : Read from_) : s.part = some part →
      s.fetching = true → part.position = .at_ from_ → part.buffer = none → Step input s (s.answer part read)
  | outOfRange {s : State X} {part : Part} {from_ : Int} : s.part = some part → s.fetching = true →
      part.position = .at_ from_ → part.buffer = none →
      Step input s { s with part := some { part with position := .outOfRange from_ } }
  | resolveRange {s : State X} {part : Part} {from_ : Int} (start stop : Int) : s.part = some part →
      s.fetching = true → part.position = .outOfRange from_ →
      Step input s (s.resolveRange part from_ start stop)
  | reset {s : State X} {part : Part} (position : Int) : s.part = some part →
      (∀ timestamp, part.position ≠ .start timestamp) → Step input s (s.reset part position)
  | take {s : State X} {part : Part} {fetched : Fetched} (decoder : Record → Decoded X) : s.part = some part →
      part.buffer = some fetched →
      Step input s { s with
        part := some { part with buffer := none }
        taken := s.taken ++ [.handed (Run.begin input decoder fetched)] }
  | stopFetching {s : State X} {part : Part} : s.part = some part →
      Step input s { s with part := some { part with buffer := none }, fetching := false }
  | deliver {s : State X} {i : Nat} {run : Run X} (sent : Sent) : s.taken[i]? = some (.handed run) →
      Step input s ({ s with taken := s.taken.set i (.handed (run.advance sent).1) }.markAccepted run.epoch
        (run.advance sent).2)
  | deliverLate {s : State X} {i : Nat} {run : Run X} (sent : Sent) : s.late[i]? = some run →
      Step input s ({ s with late := s.late.set i (run.advance sent).1 }.markAccepted run.epoch
        (run.advance sent).2)
  | committed {s : State X} {part : Part} (offset : Int) : s.part = some part →
      Step input s { s with part := some { part with tracker := part.tracker.commit offset } }

/-- The states of a partition over any number of assignments. -/
inductive Reach (input : KafkaInput X) : State X → Prop
  | start : Reach input State.initial
  | next {s t : State X} : Reach input s → Step input s t → Reach input t

end Logit.Kafka.Consumer
