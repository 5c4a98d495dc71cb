import Logit.Aggregate.Budget
import Logit.Lib.Trays

namespace Logit.Aggregate

variable {X : Externals}

structure TraceContext where
  traceId : FixedBytes 16
  spanId : FixedBytes 8
deriving DecidableEq

def maxContributingContexts : Nat := 8

/-- The contexts that contributed to a series since the last flush, up to a cap. -/
structure ContributingContexts where
  seen : List TraceContext
  dropped : Nat

namespace ContributingContexts

def empty : ContributingContexts := ⟨[], 0⟩

def observe (c : ContributingContexts) (ctx : TraceContext) : ContributingContexts :=
  if ctx ∈ c.seen then c
  else if maxContributingContexts ≤ c.seen.length then { c with dropped := c.dropped + 1 }
  else { c with seen := c.seen ++ [ctx] }

def intoLinks (c : ContributingContexts) : List (SpanLink X) :=
  c.seen.map fun ctx => ⟨ctx.traceId, ctx.spanId, AttrMap.empty, 0, none, 0⟩

end ContributingContexts

structure SeriesState (X : Externals) where
  accumulator : Accumulator X
  contexts : ContributingContexts
  idleWindows : Nat
  openSeq : Nat
  firstSeen : Int64
  updatedThisWindow : Bool
  description : Option X.Symbol

/-- What a group of series is told apart by. -/
structure Origin (X : Externals) where
  resource : Arc (Resource X)
  scope : Option (Arc (Scope X))
  hash : UInt64

/-- The resource and scope of a group, as values. -/
abbrev GroupName (X : Externals) := Resource X × Option (Scope X)

def Origin.name (o : Origin X) : GroupName X := (o.resource.value, o.scope.map Arc.value)

/-- A series of a group: the group, the key and the state. -/
abbrev Entry (ι : Type) (X : Externals) := ι × SeriesKey X × SeriesState X

abbrev ResourceGroup (X : Externals) := Tray (Origin X) (SeriesKey X) (SeriesState X)

/-- The last group found or opened, under the pointers that it was asked with. -/
structure GroupMemo (X : Externals) where
  resource : Arc (Resource X)
  scope : Option (Arc (Scope X))
  index : Nat

def GroupMemo.isFor (m : GroupMemo X) (resource : Arc (Resource X)) (scope : Option (Arc (Scope X))) : Bool :=
  m.resource.ptrEq resource &&
    match m.scope, scope with
    | none, none => true
    | some a, some b => a.ptrEq b
    | _, _ => false

/-- Why the records of an event pass through whole. -/
inductive Closed
  | bucketed | timestamped | flagged
deriving DecidableEq

def Closed.of : RawValue X → Option Closed
  | .str v =>
    if v = "bucketed" then some .bucketed
    else if v = "timestamped" then some .timestamped
    else some .flagged
  | .bool true => some .flagged
  | _ => none

structure BatchFlags where
  closed : Option Closed
  fields : Bool

/-- A series that a full cap may evict. The group that its index was taken for is noted beside it: the
source keeps the index alone. -/
structure Candidate (X : Externals) where
  rank : EvictionRank
  group : Nat
  key : SeriesKey X
  taken : Origin X

/-- An eviction that made room: the series that were not updated this window, and the one taken. The
source counts these. -/
structure Eviction (X : Externals) where
  idle : List (EvictionRank × Origin X × SeriesKey X)
  victim : Option (Candidate X)

structure Aggregator (X : Externals) where
  groups : List (ResourceGroup X)
  lastGroup : Option (GroupMemo X)
  context : TraceContext
  budget : SeriesBudget X
  /-- The next to evict first. -/
  evictionOrder : List (Candidate X)
  evictionOrderBuilt : Bool
  scope : Option (Arc (Scope X))
  windowStart : Option Int64
  nextOpenSeq : Nat
  batchFlags : BatchFlags
  trail : List (Eviction X)

def noTrace : TraceContext := ⟨.zero 16, .zero 8⟩

def Aggregator.new (cfg : Config X) : Aggregator X where
  groups := []
  lastGroup := none
  context := noTrace
  budget := ⟨0, 0, cfg.maxSeries, cfg.maxSeriesPerMetric, ∅⟩
  evictionOrder := []
  evictionOrderBuilt := false
  scope := none
  windowStart := none
  nextOpenSeq := 0
  batchFlags := ⟨none, false⟩
  trail := []

/-- Why a record stays on its event. -/
inductive Reason
  | closed (why : Closed)
  | noRecordedValue
  | noMergeRule
  | kindConflict
  | histogramBoundsMismatch
  | nonFinite
deriving DecidableEq

/-- A series' place: the resource and the scope of its group, and its key there. -/
structure Place (X : Externals) where
  group : GroupName X
  key : SeriesKey X

/-- What becomes of a record: absorbed into the series at a place, left on its event, or dropped
because its series would pass `max_series`. One tally each. -/
inductive Fate (X : Externals)
  | absorbed (place : Place X) (openSeq : Nat) (folded widened : Bool)
  | passed (reason : Reason)
  | dropped

def rankOf (state : SeriesState X) (key : SeriesKey X) : EvictionRank :=
  .make (isOverflow key) state.idleWindows state.openSeq

namespace Aggregator

variable (cfg : Config X) (s : Aggregator X) (resource : Arc (Resource X))

def beginBatch : Aggregator X :=
  let attributes := resource.value.attributes
  let fields := match attributes.getSym (fieldsFlag X) with
    | some (.bool true) => true
    | _ => false
  { s with batchFlags := ⟨(attributes.getSym (closedFlag X)).bind Closed.of, fields⟩ }

def observeBatchContext (ctx : TraceContext) : Aggregator X := { s with context := ctx }

def observeScope (scope : Option (Arc (Scope X))) : Aggregator X := { s with scope := scope }

/-- The full comparison: the first group with this hash, resource and scope. -/
def searchGroup : Option Nat :=
  let scope := s.scope.map Arc.value
  s.groups.findIdx? fun g => g.label.hash == cfg.hash resource.value scope &&
    Delta.resourceKeyEq g.label.resource.value resource.value &&
    Delta.scopeKeyEq (g.label.scope.map Arc.value) scope

/-- The index of the group of a resource and the current scope, memoized. -/
def findGroup : Option Nat × Aggregator X :=
  match s.lastGroup.filter fun m => m.isFor resource s.scope with
  | some memo => (some memo.index, s)
  | none =>
    match s.searchGroup cfg resource with
    | none => (none, s)
    | some index => (some index, { s with lastGroup := some ⟨resource, s.scope, index⟩ })

def openGroup : Aggregator X :=
  { s with
    groups := s.groups ++ [⟨⟨resource, s.scope, cfg.hash resource.value (s.scope.map Arc.value)⟩, ∅⟩]
    lastGroup := some ⟨resource, s.scope, s.groups.length⟩ }

def candidates (gi : Nat) (g : ResourceGroup X) : List (Candidate X) := g.items.entries.filterMap fun e =>
    if e.2.updatedThisWindow then none else some ⟨rankOf e.2 e.1, gi, e.1, g.label⟩

/-- The series not updated this window, the first to evict first. -/
def buildOrder : List (Candidate X) :=
  (s.groups.zipIdx.flatMap fun g => candidates g.2 g.1).insertionSort fun a b => a.rank ≤ b.rank

/-- The first candidate that was not absorbed into or evicted since the order was built. -/
def popOrder (groups : List (ResourceGroup X)) : List (Candidate X) → Option (Candidate X) × List (Candidate X)
  | [] => (none, [])
  | c :: rest =>
    match Trays.get groups c.group c.key with
    | none => popOrder groups rest
    | some state => if state.updatedThisWindow then popOrder groups rest else (some c, rest)

def idleSeries : List (EvictionRank × Origin X × SeriesKey X) :=
  ((Trays.entries s.groups).filter fun e => !e.2.2.updatedThisWindow).map fun e =>
    (rankOf e.2.2 e.2.1, e.1, e.2.1)

/-- Makes room by evicting one held series that was not updated this window. -/
def evictOne : Aggregator X :=
  let order := if s.evictionOrderBuilt then s.evictionOrder else s.buildOrder
  let popped := popOrder s.groups order
  let s' := { s with
    evictionOrder := popped.2
    evictionOrderBuilt := true
    trail := ⟨s.idleSeries, popped.1⟩ :: s.trail }
  match popped.1 with
  | none => s'
  | some c => { s' with
    groups := Trays.remove c.group c.key s.groups
    budget := s.budget.release c.key.name c.rank.isOverflow }

/-- Acts on an answer other than `overflow`: the key to open, unless the record is refused. -/
def settleSlot (admission : Admission) (key : SeriesKey X) : Option (SeriesKey X) × Aggregator X :=
  match admission with
  | .opened => (some key, s)
  | .evictIdle => (some key, s.evictOne)
  | .refused | .overflow => (none, s)

/-- Acts on the answer for a record that would open a series: the key to open or absorb into, and
whether the record was folded into its overflow series. -/
def settleAdmission (gi : Option Nat) (admission : Admission) (key : SeriesKey X) :
    Option (SeriesKey X × Bool) × Aggregator X :=
  match admission with
  | .overflow =>
    if gi.any fun gi => (Trays.get s.groups gi (overflowOf key)).isSome then (some (overflowOf key, true), s)
    else
      -- An overflow key is never folded again.
      let admitted := s.budget.admitKey (overflowOf key)
      let settled := settleSlot { s with budget := admitted.2 } admitted.1 (overflowOf key)
      (settled.1.map fun key => (key, true), settled.2)
  | admission =>
    let settled := s.settleSlot admission key
    (settled.1.map fun key => (key, false), settled.2)

def admitRecord (gi : Option Nat) (key : SeriesKey X) : Option (SeriesKey X × Bool) × Aggregator X :=
  let admitted := s.budget.admitKey key
  settleAdmission { s with budget := admitted.2 } gi admitted.1 key

/-- Where a record goes: its group's index if that is known, and the key of its series there, with
whether the series is new and whether the record was folded, unless it is refused. -/
structure Entered (X : Externals) where
  group : Option Nat
  series : Option (Nat × SeriesKey X × Bool × Bool)
  state : Aggregator X

/-- The series of a record in a group that exists. -/
def enterGroup (gi : Nat) (key : SeriesKey X) : Entered X :=
  if (Trays.get s.groups gi key).isSome then ⟨some gi, some (gi, key, false, false), s⟩
  else
    let admitted := s.admitRecord (some gi) key
    match admitted.1 with
    | none => ⟨some gi, none, admitted.2⟩
    | some settled =>
      let vacant := (Trays.get admitted.2.groups gi settled.1).isNone
      ⟨some gi, some (gi, settled.1, vacant, settled.2), admitted.2⟩

/-- A record whose group does not exist is admitted before the group is opened. -/
def enterNew (key : SeriesKey X) : Entered X :=
  let admitted := s.admitRecord none key
  match admitted.1 with
  | none => ⟨none, none, admitted.2⟩
  | some settled =>
    let gi := admitted.2.groups.length
    ⟨some gi, some (gi, settled.1, true, settled.2), admitted.2.openGroup cfg resource⟩

def enter (gi : Option Nat) (key : SeriesKey X) : Entered X :=
  match gi with
  | some gi => s.enterGroup gi key
  | none =>
    let found := s.findGroup cfg resource
    match found.1 with
    | some gi => found.2.enterGroup gi key
    | none => found.2.enterNew cfg resource key

def newSeries (timestamp : Int64) (opener : Opener) (description : Option X.Symbol) : SeriesState X where
  accumulator := opener.open cfg.sketches
  contexts := .empty
  idleWindows := 0
  openSeq := s.nextOpenSeq
  firstSeen := match s.windowStart with
    | none => timestamp
    | some start => max timestamp start
  updatedThisWindow := false
  description := description

end Aggregator

end Logit.Aggregate
