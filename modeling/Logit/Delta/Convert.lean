import Logit.Delta.Baseline
import Logit.Lib.Slab

namespace Logit.Delta

variable {X : Externals}

/-- What a series' first point emits. -/
inductive InitialValue
  | auto | keep | drop
deriving DecidableEq

/-- The component's configuration, the hash of a series key, and the wall clock at its start. -/
structure Settings (X : Externals) where
  initial : InitialValue
  nonMonotonic : NonMonotonic
  maxStaleness : Int64
  maxSeries : Nat
  started : Int64
  hash : Key X → UInt64
  floats : Floats

structure Series (X : Externals) where
  key : Key X
  hash : UInt64
  start : Int64
  ts : Int64
  base : Baseline
  seq : Nat
  touched : Int64

/-- What the component gives up: a series, or the last timestamp of one it evicted. -/
inductive Loss (X : Externals)
  | evicted (key : Key X)
  | forgot (hash : UInt64)

/-- By key hash, the last timestamp of an evicted series and the sequence of its entry in the order. -/
abbrev Evicted := AList (fun _ : UInt64 => Int64 × Nat)

/-- The transform's state. The trail is what its tally counts: the source keeps the counts alone. -/
structure CumulativeToDelta (X : Externals) where
  now : Option Int64
  series : Slab (Series X) UInt64
  queue : List (Nat × Nat)
  nextSeq : Nat
  evicted : Evicted
  evictedOrder : List (Nat × UInt64)
  trail : List (Loss X)

namespace CumulativeToDelta

def new : CumulativeToDelta X := ⟨none, Slab.empty, [], 0, ∅, [], []⟩

end CumulativeToDelta

/-- The test of `auto`: a nonzero start, at or after this component started, and unequal to the
point's own timestamp. -/
def Settings.passesAuto (cfg : Settings X) (start ts : Int64) : Bool := start ≠ 0 ∧ cfg.started ≤ start ∧ start ≠ ts

/-- Drops the oldest remembered series while there are more than `max`: the order and the table that
are left, and the hashes dropped. -/
def trimEvicted (max : Nat) : List (Nat × UInt64) → Evicted → List (Nat × UInt64) × Evicted × List UInt64
  | [], evicted => ([], evicted, [])
  | (seq, hash) :: order, evicted =>
    if max < evicted.keys.length then
      if (evicted.lookup hash).any (·.2 = seq) then
        let later := trimEvicted max order (evicted.erase hash)
        (later.1, later.2.1, hash :: later.2.2)
      else trimEvicted max order evicted
    else ((seq, hash) :: order, evicted, [])

/-- The order without the entries a re-inserted series left behind, once those dominate. -/
def compactOrder (order : List (Nat × UInt64)) (evicted : Evicted) : List (Nat × UInt64) :=
  if 2 * evicted.keys.length + 64 < order.length then
    order.filter fun e => (evicted.lookup e.2).any (·.2 = e.1)
  else order

namespace CumulativeToDelta

variable (cfg : Settings X) (s : CumulativeToDelta X)

def remember (hash : UInt64) (ts : Int64) : CumulativeToDelta X :=
  let seq := s.nextSeq + 1
  let trimmed := trimEvicted cfg.maxSeries (s.evictedOrder ++ [(seq, hash)]) (s.evicted.insert hash (ts, seq))
  { s with
    nextSeq := seq
    evicted := trimmed.2.1
    evictedOrder := compactOrder trimmed.1 trimmed.2.1
    trail := s.trail ++ trimmed.2.2.map .forgot }

/-- Removes a series, and keeps its last timestamp when its last point passes `auto`. -/
def evict (slot : Nat) : CumulativeToDelta X :=
  match s.series.get slot with
  -- Unreachable: only a live slot is evicted.
  | none => s
  | some series =>
    let removed := { s with series := s.series.remove Series.hash slot
                            trail := s.trail ++ [.evicted series.key] }
    if cfg.initial ≠ .auto ∨ ¬ cfg.passesAuto series.start series.ts then removed
    else removed.remember cfg series.hash series.ts

/-- Whether a queue entry is its series' live one. -/
def current (entry : Nat × Nat) : Bool := (s.series.get entry.2).any (·.seq = entry.1)

def saturatingSub (a b : Int64) : Int64 := Int64.ofInt (max (-2 ^ 63) (min (2 ^ 63 - 1) (a.toInt - b.toInt)))

/-- Evicts from the front of the queue the series that were last touched too long ago. -/
def evictIdle (now : Int64) : List (Nat × Nat) → CumulativeToDelta X → CumulativeToDelta X
  | [], s => { s with queue := [] }
  | entry :: queue, s =>
    match s.series.get entry.2 with
    | some series =>
      if series.seq = entry.1 then
        if saturatingSub now series.touched ≤ cfg.maxStaleness then { s with queue := entry :: queue }
        else evictIdle now queue (s.evict cfg entry.2)
      else evictIdle now queue s
    | none => evictIdle now queue s

/-- The batch's wall clock; its first read in a batch evicts the idle series. -/
def readNow (clock : Int64) : CumulativeToDelta X :=
  match s.now with
  | some _ => s
  | none => evictIdle cfg clock s.queue { s with now := some clock }

/-- Evicts the series that was touched longest ago. -/
def evictLeast : List (Nat × Nat) → CumulativeToDelta X → CumulativeToDelta X
  | [], s => { s with queue := [] }
  | entry :: queue, s =>
    if s.current entry then { s.evict cfg entry.2 with queue := queue } else evictLeast queue s

/-- Moves a slot to the back of the update order. -/
def touch (slot : Nat) (now : Int64) : CumulativeToDelta X :=
  let seq := s.nextSeq + 1
  let touched := { s with
    nextSeq := seq
    series := s.series.update slot fun series => { series with seq := seq, touched := now }
    queue := s.queue ++ [(seq, slot)] }
  if 2 * s.series.live + 64 < touched.queue.length then
    { touched with queue := touched.queue.filter touched.current }
  else touched

def insert (series : Series X) (now : Int64) : CumulativeToDelta X :=
  let room := if cfg.maxSeries ≤ s.series.live then evictLeast cfg s.queue s else s
  let placed := { room with series := room.series.insert Series.hash series }
  placed.touch room.series.vacancy now

/-- Stores what a point leaves of its series, and moves it to the back of the update order. -/
def settle (slot : Nat) (base : Baseline) (start ts now : Int64) : CumulativeToDelta X :=
  let stored := { s with
    series := s.series.update slot fun series => { series with base := base, start := start, ts := ts } }
  stored.touch slot now

end CumulativeToDelta

/-- One record on its way through the transform: its batch's resource and scope, its event's timestamp
and attributes, and what the wall clock reads if this is the first convertible record of the batch. -/
structure Point (X : Externals) where
  clock : Int64
  resource : Resource X
  scope : Option (Scope X)
  ts : Int64
  attributes : AttrMap X
  record : MetricRecord X

/-- The kind that a point is converted as, if it is one that is converted. -/
abbrev Point.kind (cfg : Settings X) (p : Point X) : Option Kind := Kind.of p.record cfg.nonMonotonic

def Point.key (p : Point X) (kind : Kind) : Key X :=
  ⟨p.resource, p.scope, p.record.name, p.record.unit, kind, p.attributes⟩

/-- What became of a record; one tally each. -/
inductive Verdict
  | passed
  | droppedNonFinite
  | skippedDuplicate
  | skippedOutOfOrder
  | skippedInitial
  | first
  | resetDecrease
  | resetRestarted
  | droppedLayout
  | converted
deriving DecidableEq

/-- The state after a record, what became of it, and the record that stays in its event. -/
structure Converted (X : Externals) where
  state : CumulativeToDelta X
  verdict : Verdict
  emitted : Option (MetricRecord X)

def skipped (s : CumulativeToDelta X) (ts last : Int64) : Converted X :=
  ⟨s, if ts = last then .skippedDuplicate else .skippedOutOfOrder, none⟩

/-- A restart: a start after the last point that is not the point's own timestamp. -/
def restarted (start last ts : Int64) : Bool := start ≠ 0 ∧ last < start ∧ start ≠ ts

/-- An up-down counter's decrease is a negative delta, not evidence of a restart. -/
def Settings.signed (cfg : Settings X) (kind : Kind) : Bool :=
  kind = .nonMonotonicSum && cfg.nonMonotonic = .difference

/-- Whether a point of this kind fell below a baseline, once that is aligned with it. -/
def Settings.fell (cfg : Settings X) (kind : Kind) (base : Baseline) (point : MetricKind X) : Bool :=
  let aligned := align cfg.floats base point
  !cfg.signed kind && decreased cfg.floats aligned.1 point aligned.2

def finiteSum : MetricKind X → Bool
  | .sum s => isFinite s.value
  | _ => true

namespace CumulativeToDelta

variable (cfg : Settings X) (s : CumulativeToDelta X)

def find (key : Key X) : Option Nat := s.series.find (cfg.hash key) (·.key.eq key)

def begin (key : Key X) (now : Int64) (p : Point X) (emit : Bool) : Converted X :=
  let inserted := s.insert cfg
    ⟨key, cfg.hash key, p.record.startTimestamp, p.ts, .of p.record.kind, 0, now⟩ now
  if emit then ⟨inserted, .first, some { p.record with kind := emitFull p.record.kind }⟩
  else ⟨inserted, .skippedInitial, none⟩

def convertUntracked (key : Key X) (now : Int64) (p : Point X) : Converted X :=
  let start := p.record.startTimestamp
  match cfg.initial with
  | .keep => s.begin cfg key now p true
  | .drop => s.begin cfg key now p false
  | .auto =>
    match s.evicted.lookup (cfg.hash key) with
    | none => s.begin cfg key now p (cfg.passesAuto start p.ts)
    | some (last, _) =>
      if p.ts ≤ last then skipped s p.ts last
      else
        { s with evicted := s.evicted.erase (cfg.hash key) }.begin cfg key now p
          (restarted start last p.ts)

def convertTracked (kind : Kind) (slot : Nat) (series : Series X) (now : Int64) (p : Point X) : Converted X :=
  let start := p.record.startTimestamp
  let point := p.record.kind
  if p.ts ≤ series.ts then skipped s p.ts series.ts
  else
    let aligned := align cfg.floats series.base point
    let fell := cfg.fell kind series.base point
    if fell || restarted start series.ts p.ts then
      ⟨s.settle slot (aligned.1.rebase point) start p.ts now, if fell then .resetDecrease else .resetRestarted,
        some { p.record with kind := emitFull point }⟩
    else if aligned.2 then
      ⟨s.settle slot (aligned.1.rebase point) start p.ts now, .droppedLayout, none⟩
    else
      let differenced := difference cfg.floats aligned.1 point (cfg.signed kind)
      ⟨s.settle slot differenced.1 start p.ts now, .converted,
        some { p.record with kind := differenced.2, startTimestamp := series.ts }⟩

def convert (p : Point X) : Converted X :=
  match Kind.of p.record cfg.nonMonotonic with
  | none => ⟨s, .passed, some p.record⟩
  | some kind =>
    if ¬ finiteSum p.record.kind then ⟨s, .droppedNonFinite, none⟩
    else
      let read := s.readNow cfg p.clock
      let now := s.now.getD p.clock
      match read.find cfg (p.key kind) with
      | none => read.convertUntracked cfg (p.key kind) now p
      | some slot =>
        match read.series.get slot with
        -- Unreachable: a found slot is live.
        | none => ⟨read, .passed, some p.record⟩
        | some series => read.convertTracked cfg kind slot series now p

def endBatch : CumulativeToDelta X := { s with now := none }

end CumulativeToDelta

/-- The calls the driver makes: one for each record of a batch, and one at its end. -/
inductive Input (X : Externals)
  | record (p : Point X)
  | endBatch

/-- One record converted: its series, what it held and what became of it. -/
structure Entry (X : Externals) where
  key : Option (Key X)
  start : Int64
  ts : Int64
  kind : MetricKind X
  verdict : Verdict
  emitted : Option (MetricRecord X)

/-- What became of the records so far, the last one first. -/
abbrev Log (X : Externals) := List (Entry X)

/-- A run: the state, and what became of each record, newest first. -/
structure Run (X : Externals) where
  state : CumulativeToDelta X
  log : Log X

variable (cfg : Settings X)

def Point.entry (p : Point X) (done : Converted X) : Entry X where
  key := (Kind.of p.record cfg.nonMonotonic).map p.key
  start := p.record.startTimestamp
  ts := p.ts
  kind := p.record.kind
  verdict := done.verdict
  emitted := done.emitted

def Run.step (r : Run X) : Input X → Run X
  | .record p =>
    let done := r.state.convert cfg p
    ⟨done.state, p.entry cfg done :: r.log⟩
  | .endBatch => ⟨r.state.endBatch, r.log⟩

def run (inputs : List (Input X)) : Run X := inputs.foldl (Run.step cfg) ⟨.new, []⟩

end Logit.Delta
