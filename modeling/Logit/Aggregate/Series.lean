import Logit.Core.Attrs
import Logit.Delta.Baseline

namespace Logit

namespace Aggregate

open ByteCodec List Bool Delta

variable {X : Externals}

/-- What the stage takes from outside: the arithmetic on doubles, and the two sketches. -/
structure Sketches (X : Externals) where
  add : F64 → F64 → F64
  min : F64 → F64 → F64
  max : F64 → F64 → F64
  ofInt : Int → F64
  weight : F64 → UInt64
  sketch : X.DdSketch
  sketchMerge : X.DdSketch → X.DdSketch → X.DdSketch
  sketchAdd : X.DdSketch → F64 → UInt64 → X.DdSketch
  hll : X.HyperLogLog
  hllInsert : X.HyperLogLog → Bytes → X.HyperLogLog
  hllMerge : X.HyperLogLog → X.HyperLogLog → X.HyperLogLog

/-- How an absorbed `Samples` series is held. -/
inductive Distributions
  | sketch | samples
deriving DecidableEq

/-- What a flushed `Sum` or `Histogram` means. -/
inductive AggregateTemporality
  | delta | cumulative
deriving DecidableEq

/-- How an absorbed `SetMembers` series is held. -/
inductive Sets
  | estimate | members
deriving DecidableEq

/-- The component's configuration, with the hash of a group. -/
structure Config (X : Externals) where
  seriesRetention : Nat
  maxRetainedSeries : Nat
  maxSeries : Nat
  maxSeriesPerMetric : Option Nat
  temporality : AggregateTemporality
  distributions : Distributions
  maxSamplesPerSeries : Nat
  sets : Sets
  maxSetMembersPerSeries : Nat
  hash : Resource X → Option (Scope X) → UInt64
  sketches : Sketches X

/-- A metric series' identity: name, unit, and attribute set. -/
structure SeriesKey (X : Externals) where
  name : X.Symbol
  unit : Option X.Symbol
  attributes : AttrMap X

/-- The comparison of two keys, with doubles compared by their bits. -/
def SeriesKey.eq (k other : SeriesKey X) : Bool := decide (k.name = other.name) && decide (k.unit = other.unit) &&
    attrMapKeyEq k.attributes other.attributes

theorem SeriesKey.eq_iff {k other : SeriesKey X} : k.eq other = true ↔ k = other := by
  obtain ⟨_, _, _⟩ := k
  obtain ⟨_, _, _⟩ := other
  simp only [SeriesKey.eq, and_eq_true, decide_eq_true_eq, attrMapKeyEq_iff, SeriesKey.mk.injEq]
  tauto

instance : DecidableEq (SeriesKey X) := fun _ _ => decidable_of_iff _ SeriesKey.eq_iff

def marker (X : Externals) : X.Symbol := X.intern "logit.overflow"
def hostName (X : Externals) : X.Symbol := X.intern "host.name"
def closedFlag (X : Externals) : X.Symbol := X.intern "_logit.metrics.closed"
def fieldsFlag (X : Externals) : X.Symbol := X.intern "_logit.metrics.fields"

/-- The overflow series of a key: its name and unit, and the attributes it keeps. -/
def overflowOf (key : SeriesKey X) : SeriesKey X :=
  let kept := key.attributes.filterKeys fun k => decide (k = hostName X) || isPrivate k
  { key with attributes := kept.insertSym (marker X) (Value.bool true) }

/-- Whether a key is an overflow series' key, known by its shape alone. -/
def isOverflow (key : SeriesKey X) : Bool := (match key.attributes.getSym (marker X) with
    | some (.bool true) => true
    | _ => false) &&
  key.attributes.entries.all fun e => decide (e.1 = marker X) || decide (e.1 = hostName X) || isPrivate e.1

inductive Accumulator (X : Externals)
  | sum (total : MetricValue) (monotonic : Bool)
  | histogram (h : Histogram)
  | gauge (value : MetricValue) (at_ : Int64)
  | distribution (sketch : X.DdSketch)
  | samples (s : Samples)
  | set (hll : X.HyperLogLog)
  | setMembers (members : List Bytes)

/-- The accumulator a new series opens with, decided from the record that opens it. -/
inductive Opener
  | sum (monotonic : Bool)
  | gauge
  | distribution
  | rawSamples (sampleRate : F64)
  | set
  | rawSetMembers
  | histogram (h : Histogram)

/-- How a record of this kind opens a series, or `none` when the kind has no merge rule. -/
def openerFor (kind : MetricKind X) (distributions : Distributions) (sets : Sets)
    (temporality : AggregateTemporality) : Option Opener :=
  match kind with
  | .sum s => if s.temporality = .delta then some (.sum s.monotonic) else none
  | .gauge _ | .gaugeDelta _ => some .gauge
  | .distribution _ => some .distribution
  | .samples s => some (if distributions = .sketch then .distribution else .rawSamples s.sampleRate)
  | .set _ => some .set
  | .setMembers _ => some (if sets = .estimate then .set else .rawSetMembers)
  | .histogram h =>
    if h.temporality = .delta ∧ temporality = .cumulative then some (.histogram h) else none
  | .exponentialHistogram _ | .summary _ => none

variable (ops : Sketches X)

/-- The empty accumulator; the opening record is merged into it right after. -/
def Opener.open : Opener → Accumulator X
  | .sum monotonic => .sum (.f64 F64.zero) monotonic
  | .gauge => .gauge (.f64 F64.zero) Int64.minValue
  | .distribution => .distribution ops.sketch
  | .rawSamples sampleRate => .samples ⟨[], sampleRate⟩
  | .set => .set ops.hll
  | .rawSetMembers => .setMembers []
  | .histogram h => .histogram
      ⟨h.buckets.map fun b => (b.1, 0), .cumulative, h.sum.map fun _ => F64.zero, none, none⟩

def asF64 : MetricValue → F64
  | .f64 v => v
  | .i64 v => ops.ofInt v.toInt
  | .u64 v => ops.ofInt v.toNat
  | .bool v => ops.ofInt v.toNat

/-- The sum of two values: an integer while both have one type and it fits, else a wider type. -/
def checkedAddRaw (a b : MetricValue) : MetricValue :=
  let float := MetricValue.f64 (ops.add (asF64 ops a) (asF64 ops b))
  let mixed (wide : Int) : MetricValue :=
    match tryI64 wide with
    | some v => .i64 v
    | none => (tryU64 wide).elim float .u64
  match a, b with
  | .f64 _, _ | _, .f64 _ => float
  | .i64 x, .i64 y => (tryI64 (x.toInt + y.toInt)).elim float .i64
  | .u64 x, .u64 y => (tryU64 (x.toNat + y.toNat)).elim float .u64
  | .i64 x, .u64 y => mixed (x.toInt + y.toNat)
  | .u64 x, .i64 y => mixed (x.toNat + y.toInt)
  | .bool x, .bool y => .i64 (Int64.ofInt (x.toNat + y.toNat))
  | .bool x, .i64 y => (tryI64 (x.toNat + y.toInt)).elim float .i64
  | .i64 x, .bool y => (tryI64 (x.toInt + y.toNat)).elim float .i64
  | .bool x, .u64 y => (tryU64 (x.toNat + y.toNat)).elim float .u64
  | .u64 x, .bool y => (tryU64 (x.toNat + y.toNat)).elim float .u64

def sameType : MetricValue → MetricValue → Bool
  | .f64 _, .f64 _ | .i64 _, .i64 _ | .u64 _, .u64 _ | .bool _, .bool _ => true
  | _, _ => false

/-- The sum, and whether it widened the type of either side. -/
def checkedAdd (a b : MetricValue) : MetricValue × Bool :=
  let result := checkedAddRaw ops a b
  (result, !sameType result a || !sameType result b)

/-- Whether two histograms have the same bucket layout; bounds are compared by their bits. -/
def bucketBoundsMatch (held incoming : List Bucket) : Bool :=
  decide (held.map Prod.fst = incoming.map Prod.fst)

def observed (buckets : List Bucket) : Bool := buckets.any fun b => 0 < b.2

/-- An extreme across a merge: a side that observed nothing is ignored, and one without a value leaves
none. -/
def foldExtreme (pick : F64 → F64 → F64) (held incoming : Bool × Option F64) : Option F64 :=
  if ¬incoming.1 then held.2
  else if ¬held.1 then incoming.2
  else match held.2, incoming.2 with
    | some a, some b => some (pick a b)
    | _, _ => none

def addBuckets (held incoming : List Bucket) : List Bucket :=
  List.zipWith (fun a b => (a.1, saturatingAdd a.2 b.2)) held incoming

def mergeHistogram (held incoming : Histogram) : Histogram where
  buckets := addBuckets held.buckets incoming.buckets
  temporality := held.temporality
  sum := match held.sum, incoming.sum with
    | some a, some b => some (ops.add a b)
    | _, _ => none
  min := foldExtreme ops.min (observed held.buckets, held.min) (observed incoming.buckets, incoming.min)
  max := foldExtreme ops.max (observed held.buckets, held.max) (observed incoming.buckets, incoming.max)

/-- Adds samples to a sketch value by value; one that is not finite has no bin. -/
def sketchSamples (sketch : X.DdSketch) (s : Samples) : X.DdSketch :=
  s.values.foldl (fun sketch v =>
    if v.isFinite then ops.sketchAdd sketch v (ops.weight s.sampleRate) else sketch) sketch

def insertMembers (hll : X.HyperLogLog) (members : List Bytes) : X.HyperLogLog :=
  members.foldl ops.hllInsert hll

/-- The union of raw members, in the order they came; past the cap all go into an estimate. -/
def unionMembers (ops : Sketches X) (cap : Nat) : List Bytes → List Bytes → Accumulator X
  | held, [] => .setMembers held
  | held, m :: rest =>
    if m ∈ held then unionMembers ops cap held rest
    else if cap < held.length + 1 then .set (insertMembers ops ops.hll (held ++ [m] ++ rest))
    else unionMembers ops cap (held ++ [m]) rest

/-- What became of a record at its series. -/
inductive Merged (X : Externals)
  | accumulated (accumulator : Accumulator X) (widened : Bool)
  | kindConflict
  | boundsMismatch

/-- Adds a value to a total; the opening record seeds it with its own type. -/
def addValue (wasVacant : Bool) (total value : MetricValue) : MetricValue × Bool :=
  if wasVacant then (value, false) else checkedAdd ops total value

/-- Merges a record, with its event's timestamp, into its series' accumulator. -/
def merge (cfg : Config X) (timestamp : Int64) (wasVacant : Bool) (held : Accumulator X) : MetricKind X → Merged X
  | .sum s =>
    match held with
    | .sum total monotonic =>
      let added := addValue cfg.sketches wasVacant total s.value
      .accumulated (.sum added.1 monotonic) added.2
    | _ => .kindConflict
  | .histogram incoming =>
    match held with
    | .histogram h =>
      if bucketBoundsMatch h.buckets incoming.buckets then
        .accumulated (.histogram (mergeHistogram cfg.sketches h incoming)) false
      else .boundsMismatch
    | _ => .kindConflict
  | .gauge v =>
    match held with
    | .gauge value at_ =>
      -- The last write by source timestamp wins, and the later arrival on a tie.
      if at_ ≤ timestamp then .accumulated (.gauge v timestamp) false
      else .accumulated (.gauge value at_) false
    | _ => .kindConflict
  | .gaugeDelta d =>
    match held with
    | .gauge value at_ =>
      let added := addValue cfg.sketches wasVacant value d
      .accumulated (.gauge added.1 at_) added.2
    | _ => .kindConflict
  | .distribution incoming =>
    match held with
    | .distribution sketch => .accumulated (.distribution (cfg.sketches.sketchMerge sketch incoming)) false
    | .samples s =>
      let sketch := sketchSamples cfg.sketches cfg.sketches.sketch s
      .accumulated (.distribution (cfg.sketches.sketchMerge sketch incoming)) false
    | _ => .kindConflict
  | .samples incoming =>
    match held with
    | .distribution sketch => .accumulated (.distribution (sketchSamples cfg.sketches sketch incoming)) false
    | .samples s =>
      if s.sampleRate ≠ incoming.sampleRate ∨
        cfg.maxSamplesPerSeries < s.values.length + incoming.values.length then
        let sketch := sketchSamples cfg.sketches cfg.sketches.sketch s
        .accumulated (.distribution (sketchSamples cfg.sketches sketch incoming)) false
      else .accumulated (.samples { s with values := s.values ++ incoming.values }) false
    | _ => .kindConflict
  | .set incoming =>
    match held with
    | .set hll => .accumulated (.set (cfg.sketches.hllMerge hll incoming)) false
    | .setMembers members =>
      let hll := insertMembers cfg.sketches cfg.sketches.hll members
      .accumulated (.set (cfg.sketches.hllMerge hll incoming)) false
    | _ => .kindConflict
  | .setMembers incoming =>
    match held with
    | .set hll => .accumulated (.set (insertMembers cfg.sketches hll incoming)) false
    | .setMembers members =>
      .accumulated (unionMembers cfg.sketches cfg.maxSetMembersPerSeries members incoming) false
    | _ => .kindConflict
  | .exponentialHistogram _ | .summary _ => .kindConflict

def recordTemporality : AggregateTemporality → Temporality
  | .delta => .delta
  | .cumulative => .cumulative

variable (temporality : AggregateTemporality)

def Accumulator.intoKind : Accumulator X → MetricKind X
  | .sum total monotonic => .sum ⟨total, recordTemporality temporality, monotonic⟩
  | .gauge value _ => .gauge value
  | .histogram h => .histogram h
  | .distribution sketch => .distribution sketch
  | .samples s => .samples s
  | .set hll => .set hll
  | .setMembers members => .setMembers members

/-- What a series emits when it survives the flush, or `none` when it does not. -/
def Accumulator.retainedKind : Accumulator X → Option (MetricKind X)
  | .gauge value _ => some (.gauge value)
  | .sum total monotonic =>
    if temporality = .cumulative then some (.sum ⟨total, recordTemporality temporality, monotonic⟩) else none
  | .histogram h => if temporality = .cumulative then some (.histogram h) else none
  | _ => none

/-- The first record of a series is merged into the accumulator it opened. -/
theorem merge_opened (cfg : Config X) (timestamp : Int64) {kind : MetricKind X} {opener : Opener}
    (opens : openerFor kind cfg.distributions cfg.sets cfg.temporality = some opener) :
    ∃ accumulator, merge cfg timestamp true (opener.open cfg.sketches) kind = .accumulated accumulator false := by
  cases kind with
  | sum s =>
    obtain ⟨-, ⟨⟩⟩ := Option.ite_none_right_eq_some.mp opens
    exact ⟨_, rfl⟩
  | gauge v =>
    obtain rfl := Option.some.inj opens
    simp only [merge, Opener.open]
    split <;> exact ⟨_, rfl⟩
  | gaugeDelta d | distribution sketch | set hll =>
    obtain rfl := Option.some.inj opens
    exact ⟨_, rfl⟩
  | samples s =>
    obtain rfl := Option.some.inj opens
    by_cases sketches : cfg.distributions = .sketch
    · simp only [sketches]
      exact ⟨_, rfl⟩
    · simp only [sketches, if_false, merge, Opener.open]
      split <;> exact ⟨_, rfl⟩
  | setMembers members =>
    obtain rfl := Option.some.inj opens
    by_cases estimate : cfg.sets = .estimate
    · simp only [estimate]
      exact ⟨_, rfl⟩
    · simp only [estimate]
      exact ⟨_, rfl⟩
  | histogram h =>
    obtain ⟨-, ⟨⟩⟩ := Option.ite_none_right_eq_some.mp opens
    have same : bucketBoundsMatch (h.buckets.map fun b => (b.1, 0)) h.buckets = true := by simp [bucketBoundsMatch]
    simp only [merge, Opener.open, same]
    exact ⟨_, rfl⟩
  | exponentialHistogram e | summary s => cases opens

theorem isOverflow_overflowOf (key : SeriesKey X) : isOverflow (overflowOf key) = true := by
  have marked : (overflowOf key).attributes.getSym (marker X) = some (.bool true) :=
    (AttrMap.getSym_insertSym ..).trans (if_pos rfl)
  simp only [isOverflow, marked, Bool.true_and, all_eq_true, or_eq_true, decide_eq_true_eq]
  intro e mem
  rcases AttrMap.mem_insertEntry mem with rfl | kept
  · exact .inl (.inl rfl)
  · have passed := (mem_filter.mp kept).2
    simp only [or_eq_true, decide_eq_true_eq] at passed
    tauto

end Aggregate

end Logit
