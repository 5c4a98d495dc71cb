import Logit.Aggregate.Window

namespace Logit.Aggregate

variable {X : Externals}

/-- Whether the value that a record would fold in is finite. -/
def finiteKind : MetricKind X → Bool
  | .sum s => Delta.isFinite s.value
  | .gauge v | .gaugeDelta v => Delta.isFinite v
  | _ => true

/-- The series of a record: its name and unit, and its event's attributes, without the string fields
on an event that is flagged to carry them. -/
def seriesKey (event : Event X) (scanFields : Bool) (record : MetricRecord X) : SeriesKey X where
  name := record.name
  unit := record.unit
  attributes := if scanFields then event.attributes.filterKeys fun k => !(decide (k = fieldsFlag X) || isField k)
    else event.attributes

namespace Aggregator

variable (cfg : Config X) (s : Aggregator X)

/-- A series after a record was accumulated into it. -/
def absorbedInto (state : SeriesState X) (accumulator : Accumulator X) : SeriesState X :=
  { state with
    accumulator := accumulator
    contexts := state.contexts.observe s.context
    updatedThisWindow := true }

/-- Merges a record into the series at a key of a group, which is opened if it is new. -/
def absorb (timestamp : Int64) (opener : Opener) (record : MetricRecord X) (gi : Nat)
    (key : SeriesKey X) (vacant folded : Bool) : Fate X × Aggregator X :=
  let state := (Trays.get s.groups gi key).getD (s.newSeries cfg timestamp opener record.description)
  let nextOpenSeq := if vacant then s.nextOpenSeq + 1 else s.nextOpenSeq
  let unmerged := { s with
    groups := if vacant then Trays.put gi key state s.groups else s.groups
    nextOpenSeq := nextOpenSeq }
  match merge cfg timestamp vacant state.accumulator record.kind with
  | .accumulated accumulator widened =>
    let idle := if !vacant && !state.updatedThisWindow then s.budget.idle - 1 else s.budget.idle
    let group := (s.groups[gi]?.map fun g => g.label.name).getD (⟨AttrMap.empty, 0, none⟩, none)
    (.absorbed ⟨group, key⟩ state.openSeq folded widened,
      { s with
        groups := Trays.put gi key (s.absorbedInto state accumulator) s.groups
        budget := { s.budget with idle := idle }
        nextOpenSeq := nextOpenSeq })
  | .kindConflict => (.passed .kindConflict, unmerged)
  | .boundsMismatch => (.passed .histogramBoundsMismatch, unmerged)

/-- One record of an event: what became of it, the group's index once it is known, and the state. -/
structure Recorded (X : Externals) where
  fate : Fate X
  group : Option Nat
  state : Aggregator X

def record (resource : Arc (Resource X)) (event : Event X) (scanFields : Bool)
    (gi : Option Nat) (r : MetricRecord X) : Recorded X :=
  if r.flags &&& Delta.flagNoRecordedValue ≠ 0 then ⟨.passed .noRecordedValue, gi, s⟩
  else match openerFor r.kind cfg.distributions cfg.sets cfg.temporality with
    | none => ⟨.passed .noMergeRule, gi, s⟩
    | some opener =>
      if !finiteKind r.kind then ⟨.passed .nonFinite, gi, s⟩
      else
        let entered := s.enter cfg resource gi (seriesKey event scanFields r)
        match entered.series with
        | none => ⟨.dropped, entered.group, entered.state⟩
        | some (at_, key, vacant, folded) =>
          let absorbed := entered.state.absorb cfg event.timestamp opener r at_ key vacant folded
          ⟨absorbed.1, entered.group, absorbed.2⟩

/-- What an event's records came to: the fate of each, the records left on the event, and the state. -/
structure Processed (X : Externals) where
  fates : List (MetricRecord X × Fate X)
  left : List (MetricRecord X)
  state : Aggregator X

/-- Whether anything is left on the event, so that it goes on. -/
def Processed.keep (p : Processed X) (event : Event X) : Bool :=
  event.metrics.isEmpty || !(p.left.isEmpty && event.log.isNone && event.span.isNone)

def records (resource : Arc (Resource X)) (event : Event X) (scanFields : Bool) :
    List (MetricRecord X) → Option Nat → Aggregator X → Processed X
  | [], _, s => ⟨[], [], s⟩
  | r :: rest, gi, s =>
    let recorded := s.record cfg resource event scanFields gi r
    let later := records resource event scanFields rest recorded.group recorded.state
    let left := match recorded.fate with
      | .passed _ => r :: later.left
      | _ => later.left
    ⟨(r, recorded.fate) :: later.fates, left, later.state⟩

/-- Whether an event is closed: by its own flag, else by its batch's. -/
def closedFor (event : Event X) : Option Closed :=
  match event.attributes.getSym (closedFlag X) with
  | some value => Closed.of value
  | none => s.batchFlags.closed

/-- Whether an event's string fields leave the series key: by its own flag, else by its batch's. -/
def scansFields (event : Event X) : Bool :=
  match event.attributes.getSym (fieldsFlag X) with
  | some (.bool flag) => flag
  | some _ => false
  | none => s.batchFlags.fields

/-- Absorbs what can be merged off an event and leaves the rest on it. -/
def process (resource : Arc (Resource X)) (event : Event X) : Processed X :=
  match s.closedFor event with
  | some why => ⟨event.metrics.map fun r => (r, .passed (.closed why)), event.metrics, s⟩
  | none => records cfg resource event (s.scansFields event) event.metrics none s

/-- One event of a flush, with its span links. The series' place in the order of opening is noted
beside it: the source keeps that to itself. -/
structure Emission (X : Externals) where
  key : SeriesKey X
  openSeq : Nat
  event : Event X
  links : List (SpanLink X)

variable (now : Int64)

def metricEvent (key : SeriesKey X) (state : SeriesState X) (start : Int64)
    (kind : MetricKind X) : Event X where
  timestamp := now
  attributes := key.attributes
  log := none
  metrics := [⟨key.name, key.unit, state.description, start, [], 0, kind⟩]
  span := none

/-- Whether a kind carries the start of its series. -/
def hasStart : MetricKind X → Bool
  | .sum _ | .histogram _ => true
  | _ => false

/-- A gauge's tiebreak is within a window. -/
def forget : Accumulator X → Accumulator X
  | .gauge value _ => .gauge value Int64.minValue
  | accumulator => accumulator

/-- What one series emits at a flush, and what is left of it. -/
def flushSeries (key : SeriesKey X) (state : SeriesState X) : Option (Emission X) × Option (SeriesState X) :=
  if state.updatedThisWindow then
    let retained := if 0 < cfg.seriesRetention then state.accumulator.retainedKind cfg.temporality else none
    match retained with
    | some kind =>
      let firstSeen := if hasStart kind then min state.firstSeen now else state.firstSeen
      let start := if hasStart kind then firstSeen else 0
      (some ⟨key, state.openSeq, metricEvent now key state start kind, state.contexts.intoLinks⟩,
        some { state with
          accumulator := forget state.accumulator
          contexts := .empty
          idleWindows := 0
          firstSeen := firstSeen
          updatedThisWindow := false })
    | none =>
      (some ⟨key, state.openSeq, metricEvent now key state 0 (state.accumulator.intoKind cfg.temporality),
        state.contexts.intoLinks⟩, none)
  else
    -- An idle series emits nothing, and is kept for a number of windows.
    (none, if state.idleWindows + 1 < cfg.seriesRetention then
      some { state with contexts := .empty, idleWindows := state.idleWindows + 1 } else none)

/-- The series of one group that survive a flush. -/
def survivorsOf (gi : Nat) (g : ResourceGroup X) : List (Entry Nat X) :=
  g.items.entries.filterMap fun e => (flushSeries cfg now e.1 e.2).2.map fun state => (gi, e.1, state)

/-- The survivors under the retention cap: the first in the order of eviction go. -/
def capSurvivors (survivors : List (Entry Nat X)) : List (Entry Nat X) :=
  if cfg.maxRetainedSeries < survivors.length then
    (survivors.insertionSort fun a b => rankOf a.2.2 a.2.1 ≤ rankOf b.2.2 b.2.1).drop
      (survivors.length - cfg.maxRetainedSeries)
  else survivors

/-- Emits one event for each series updated this window, and keeps what is retained. -/
def flush : List (Origin X × List (Emission X)) × Aggregator X :=
  let emitted := s.groups.map fun g =>
    (g.label, g.items.entries.filterMap fun e => (flushSeries cfg now e.1 e.2).1)
  let kept := capSurvivors cfg (s.groups.zipIdx.flatMap fun g => survivorsOf cfg now g.2 g.1)
  let emptied := s.groups.map fun g => ({ g with items := ∅ } : ResourceGroup X)
  (emitted.filter fun e => !e.2.isEmpty,
    { s with
      groups := (Trays.putAll kept emptied).filter fun g => !g.items.entries.isEmpty
      lastGroup := none
      budget := s.budget.reset (kept.map fun e => e.2.1)
      evictionOrder := []
      evictionOrderBuilt := false
      windowStart := some now })

end Aggregator

/-- The calls that the driver makes. -/
inductive Input (X : Externals)
  | batch (resource : Arc (Resource X)) (scope : Option (Arc (Scope X))) (ctx : TraceContext)
  | event (resource : Arc (Resource X)) (event : Event X)
  | flush (now : Int64)

/-- What a run did: a record absorbed into a series, a point emitted for one, a flush. -/
inductive Item (X : Externals)
  | absorbed (place : Place X) (openSeq : Nat) (record : MetricRecord X) (widened : Bool)
  | emitted (place : Place X) (openSeq : Nat) (now : Int64) (record : MetricRecord X)
  | flushed (now : Int64)

/-- What a run did, the last of it first. -/
abbrev Log (X : Externals) := List (Item X)

end Logit.Aggregate
