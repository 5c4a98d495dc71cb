import Logit.Core.Attrs
import Logit.Influx.Line
import Logit.Prometheus.Counts

namespace Logit.Influx

open ByteCodec Escape
open Decimal (byte)

variable {X : Externals}

/-- What the encoder takes from outside: the text of doubles, the double of a count, and what it asks of
the two sketches. -/
structure Rendering (X : Externals) extends FloatText where
  ofCount : UInt64 → F64
  quantile : X.DdSketch → F64 → Option F64
  sketchCount : X.DdSketch → UInt64
  sketchSum : X.DdSketch → F64
  sketchOf : Samples → X.DdSketch
  estimate : X.HyperLogLog → UInt64

/-- What the encoder counts. -/
inductive Counter
  | tagsNormalizedMultiValue
  | tagsOmittedUnrepresentable
  | tagsOmittedEmpty
  | tagsOmittedUnencodable
  | tagsOmittedReserved
  | metricsNormalizedCarrierMismatch
  | droppedUnencodableValue
  | droppedUnencodableKey
  | droppedReservedKey
  | droppedOversizeValue
  | degradedNonFiniteComponent
  | skippedNoRecordedValue
  | skippedSetMembers
  | skippedExponentialHistogram
  | droppedUnresolvedGaugeDelta
  | droppedCommentMeasurement
  | droppedTimestampOverflow
  | degradedDistribution
  | degradedSamples
  | degradedHistogram
  | degradedSummary
  | degradedSet
  | degradedMonotonicDeltaSum
  | degradedNonMonotonicDeltaSum
  | degradedCumulativeSum
  | skippedNoMetrics
deriving DecidableEq

def attrMeasurement : String := "_logit.influxdb.measurement"

def reservedFieldKey : String := "time"

def maxFieldValueBytes : Nat := 1048576

/-- Whether a backslash stands right before one of some bytes. -/
def marksBefore (some : UInt8 → Bool) : Bytes → Bool
  | [] => false
  | [_] => false
  | a :: b :: s => (a == backslash && some b) || marksBefore some (b :: s)

def breaksLine (b : UInt8) : Bool := b == newline || b == byte '\r'

def startsSkippable (s : Bytes) : Bool := s.head? = some (byte '\t') || s.head? = some 0

def measurementEncodable (s : Bytes) : Bool :=
  s ≠ [] && !startsSkippable s && !s.any breaksLine && s.getLast? ≠ some backslash && !marksBefore keyEscapes s

def tagEncodable (s : Bytes) : Bool :=
  !s.any breaksLine && s.getLast? ≠ some backslash && !marksBefore (· == space) s

def fieldKeyEncodable (s : Bytes) : Bool := s ≠ [] && tagEncodable s && !marksBefore fieldKeyEscapes s

variable (s : String)

def pushEscapedMeasurement : Bytes := escape backslash endsName (utf8Bytes s)

def pushEscapedKey : Bytes := escape backslash keyEscapes (utf8Bytes s)

def pushEscapedFieldKey : Bytes := escape backslash fieldKeyEscapes (utf8Bytes s)

def pushQuoted : Bytes := quote :: escape backslash stringEscapes (utf8Bytes s) ++ [quote]

variable (N : FloatText)

/-- A field value in its own type; a float is finite here. -/
def pushValue : FieldValue → Bytes
  | .f64 v => utf8Bytes (N.print v)
  | .i64 v => Decimal.printInt v.toInt ++ [byte 'i']
  | .u64 v => Decimal.print v.toNat ++ [byte 'u']
  | .bool v => utf8Bytes (if v then "true" else "false")
  | .str v => pushQuoted v

/-- One line that the encoder was asked to write, or has written, and how its field keys are written. -/
structure Point where
  carrier : Bool
  measurement : String
  tags : Tags
  fields : Fields
  timestamp : Int64
deriving DecidableEq

namespace Point

/-- The measurement and the tags, which are the identity of a series. -/
def series (p : Point) : Bytes := pushEscapedMeasurement p.measurement ++
    p.tags.flatMap fun t => comma :: (pushEscapedKey t.1 ++ equal :: pushEscapedKey t.2)

def fieldText (p : Point) (f : String × FieldValue) : Bytes :=
  (if p.carrier then pushEscapedFieldKey f.1 else utf8Bytes f.1) ++ equal :: pushValue N f.2

def fieldsText (p : Point) : Bytes := [comma].intercalate (p.fields.map (p.fieldText N))

def text (p : Point) : Bytes :=
  p.series ++ space :: (p.fieldsText N ++ space :: Decimal.printInt p.timestamp.toInt)

end Point

/-- Where to look on from a slot that is taken. -/
abbrev NextFree := Int64 → Option Int64

/-- The walk from an instant over the slots that are taken: those it passes, and where it ends. -/
def walk (nextFree : NextFree) : Nat → Int64 → List Int64 × Int64
  | 0, cur => ([], cur)
  | n + 1, cur =>
    match nextFree cur with
    | none => ([], cur)
    | some next => (cur :: (walk nextFree n next).1, (walk nextFree n next).2)

/-- The smallest free instant from one on, with every slot on the way pointed past it. -/
def allocateTimestamp (nextFree : NextFree) (requested : Int64) : Option (Int64 × NextFree) :=
  let (visited, cur) := walk nextFree (2 ^ 64) requested
  if cur = Int64.maxValue then none
  else some (cur, fun t => if t = cur ∨ t ∈ visited then some (cur + 1) else nextFree t)

/-- The encoder's state in a batch. `lines` are the points behind the text that was written. -/
structure Ctx where
  counts : List Counter
  series : Bytes → NextFree
  buf : Bytes
  lines : List Point

namespace Ctx

def start : Ctx := ⟨[], fun _ _ => none, [], []⟩

def count (c : Ctx) (counters : List Counter) : Ctx := { c with counts := c.counts ++ counters }

/-- Writes a line at the next free instant of its series, if there is one; else its fields count as
dropped. -/
def finishLine (c : Ctx) (p : Point) (fields : Nat) : Bool × Ctx :=
  match allocateTimestamp (c.series p.series) p.timestamp with
  | none => (false, c.count (List.replicate fields .droppedTimestampOverflow))
  | some (timestamp, nextFree) =>
    let p' := { p with timestamp }
    (true, { c with
      series := fun key => if key = p.series then nextFree else c.series key
      buf := c.buf ++ (p'.text N ++ [newline])
      lines := c.lines ++ [p'] })

end Ctx

/-- Whether a measurement can lead a line; if not, the line's fields count as dropped. -/
def measurementOk (measurement : String) (fields : Nat) : Except (List Counter) Unit :=
  if (utf8Bytes measurement).head? = some (byte '#') then
    .error (List.replicate fields .droppedCommentMeasurement)
  else if !measurementEncodable (utf8Bytes measurement) then
    .error (List.replicate fields .droppedUnencodableKey)
  else .ok ()

/-- Whether a text can be a carrier field key; if not, what the field counts as. -/
def fieldKeyOk (key : String) : Except Counter Unit :=
  if key = reservedFieldKey then .error .droppedReservedKey
  else if !fieldKeyEncodable (utf8Bytes key) then .error .droppedUnencodableKey
  else .ok ()

/-- A kind with no line-protocol shape. -/
inductive KindSkip
  | setMembers
  | exponentialHistogram
  | gaugeDelta

def KindSkip.counter : KindSkip → Counter
  | .setMembers => .skippedSetMembers
  | .exponentialHistogram => .skippedExponentialHistogram
  | .gaugeDelta => .droppedUnresolvedGaugeDelta

def typed : MetricValue → FieldValue
  | .f64 v => .f64 v
  | .i64 v => .i64 v
  | .u64 v => .u64 v
  | .bool v => .bool v

def writable : FieldValue → Bool
  | .f64 v => v.isFinite
  | _ => true

/-- The `value` field of a `Sum` or a `Gauge`; a non-finite float writes nothing. -/
def pushValueField (v : MetricValue) : Option (Fields × Bool) :=
  if writable (typed v) then some ([("value", typed v)], false) else none

/-- A field for a finite value, and whether a non-finite one was left out. -/
def pushOptionalFloat (key : String) : Option F64 → Fields × Bool
  | some v => if v.isFinite then ([(key, .f64 v)], false) else ([], true)
  | none => ([], false)

/-- One field for each finite quantile with a finite value, and whether one was left out. -/
def quantileFields (N : FloatText) : List (F64 × Option F64) → Fields × Bool
  | [] => ([], false)
  | (_, none) :: others => quantileFields N others
  | (q, some v) :: others =>
    let (fields, omitted) := quantileFields N others
    if q.isFinite && v.isFinite then ((N.print q, .f64 v) :: fields, omitted) else (fields, true)

variable (R : Rendering X)

def renderSummaryFields (count : UInt64) (sum : Option F64) (quantiles : List (F64 × Option F64)) :
    Fields × Bool :=
  let (sumField, noSum) := pushOptionalFloat "sum" sum
  let (fields, omitted) := quantileFields R.toFloatText quantiles
  (("count", .f64 (R.ofCount count)) :: (sumField ++ fields), noSum || omitted)

/-- The quantiles a sketch writes: 0, 0.5, 0.9, 0.99 and 1. -/
def sketchQuantiles : List F64 :=
  [⟨0⟩, ⟨0x3fe0000000000000⟩, ⟨0x3feccccccccccccd⟩, ⟨0x3fefae147ae147ae⟩, ⟨0x3ff0000000000000⟩]

def renderSketchFields (sketch : X.DdSketch) : Fields × Bool :=
  renderSummaryFields R (R.sketchCount sketch) (some (R.sketchSum sketch))
    (sketchQuantiles.map fun q => (q, R.quantile sketch q))

/-- One field for each finite bound with the cumulative count up to it, and whether one was left out. -/
def boundFields (R : Rendering X) : List Bucket → Fields × Bool
  | [] => ([], false)
  | (bound, count) :: others =>
    let (fields, omitted) := boundFields R others
    if bound.isFinite then ((R.print bound, .f64 (R.ofCount count)) :: fields, omitted)
    else (fields, omitted || bound.eq .negInfinity)

def renderHistogramFields (h : Histogram) : Fields × Bool :=
  let (cumulative, total) := Prometheus.cumulativeCounts h.buckets
  let (sum, noSum) := pushOptionalFloat "sum" h.sum
  let (min, noMin) := pushOptionalFloat "min" h.min
  let (max, noMax) := pushOptionalFloat "max" h.max
  let (bounds, omitted) := boundFields R cumulative
  (("count", .f64 (R.ofCount total)) :: (sum ++ min ++ max ++ bounds ++ [("+Inf", .f64 (R.ofCount total))]),
    h.buckets.any (fun b => b.1.isNan) || noSum || noMin || noMax || omitted)

/-- One metric's fields and whether a non-finite one was left out; nothing where the one value of the
record is not finite. -/
def renderFields : MetricKind X → Except KindSkip (Option (Fields × Bool))
  | .sum s => .ok (pushValueField s.value)
  | .gauge v => .ok (pushValueField v)
  | .distribution sketch => .ok (some (renderSketchFields R sketch))
  | .samples s => .ok (some (renderSketchFields R (R.sketchOf s)))
  | .histogram h => .ok (some (renderHistogramFields R h))
  | .summary s => .ok (some (renderSummaryFields R s.count (some s.sum) (s.quantiles.map fun e => (e.1, some e.2))))
  | .set hll => .ok (some ([("value", .u64 (R.estimate hll))], false))
  | .setMembers _ => .error .setMembers
  | .exponentialHistogram _ => .error .exponentialHistogram
  | .gaugeDelta _ => .error .gaugeDelta

def sumShape (s : Sum) : Counter :=
  match s.temporality, s.monotonic with
  | .delta, true => .degradedMonotonicDeltaSum
  | .delta, false => .degradedNonMonotonicDeltaSum
  | .cumulative, _ => .degradedCumulativeSum

/-- What a record that was written as fields of another shape counts as. -/
def degraded : MetricKind X → List Counter
  | .sum s => [sumShape s]
  | .distribution _ => [.degradedDistribution]
  | .samples _ => [.degradedSamples]
  | .histogram _ => [.degradedHistogram]
  | .summary _ => [.degradedSummary]
  | .set _ => [.degradedSet]
  | _ => []

def isNoRecordedValue (metric : MetricRecord X) : Bool := metric.flags &&& 1 ≠ 0

def Ctx.encodeRecordLine (c : Ctx) (tags : Tags) (metric : MetricRecord X) (timestamp : Int64) : Ctx :=
  if isNoRecordedValue metric then c.count [.skippedNoRecordedValue]
  else
    match renderFields R metric.kind with
    | .error skip => c.count [skip.counter]
    | .ok none => c.count [.droppedUnencodableValue]
    | .ok (some (fields, omitted)) =>
      match measurementOk (X.resolve metric.name) 1 with
      | .error counts => c.count counts
      | .ok () =>
        match c.finishLine R.toFloatText ⟨false, X.resolve metric.name, tags, fields, timestamp⟩ 1 with
        | (true, c) => c.count ((if omitted then [.degradedNonFiniteComponent] else []) ++ degraded metric.kind)
        | (false, c) => c

/-- A tag value as text, if its value has a plain one. -/
def tagValue (N : FloatText) : RawValue X → Option String
  | .str s => some s
  | .bool b => some (if b then "true" else "false")
  | .i64 i => some (toString i.toInt)
  | .u64 u => some (toString u.toNat)
  | .f64 f => some (N.print f)
  | _ => none

/-- A tag, and whether it is the last representable element of an array; or what it counts as omitted. -/
def renderTag (N : FloatText) (key : String) (value : RawValue X) : Except Counter ((String × String) × Bool) :=
  let rendered := match value with
    | .array elements => (elements.reverse.findSome? (tagValue N)).map (·, true)
    | value => (tagValue N value).map (·, false)
  match rendered with
  | none => .error .tagsOmittedUnrepresentable
  | some (text, multi) =>
    if key = "" ∨ text = "" then .error .tagsOmittedEmpty
    else if !tagEncodable (utf8Bytes key) || !tagEncodable (utf8Bytes text) then .error .tagsOmittedUnencodable
    else if key ∈ reservedTagKeys then .error .tagsOmittedReserved
    else .ok ((key, text), multi)

/-- The tags of an event from its merged attributes, with what they count as. A private key is no tag. -/
def renderTagSuffix (N : FloatText) : RawEntries X → List Counter × Tags
  | [] => ([], [])
  | (key, value) :: others =>
    let (counts, tags) := renderTagSuffix N others
    if isPrivate key then (counts, tags)
    else
      match renderTag N (X.resolve key) value with
      | .error counter => (counter :: counts, tags)
      | .ok (tag, multi) => (if multi then .tagsNormalizedMultiValue :: counts else counts, tag :: tags)

/-- The event's measurement, when it carries a non-empty one. -/
def carrierMeasurement (event : Event X) : Option String :=
  match event.attributes.getSym (X.intern attrMeasurement) with
  | some (.str s) => if s = "" then none else some s
  | _ => none

/-- The field key and value that a metric contributes to a carrier line. -/
def carrierField (metric : MetricRecord X) (measurement : String) : Option (String × MetricValue) :=
  let value := match metric.kind with
    | .gauge v => some v
    | .sum s => some s.value
    | _ => none
  value.bind fun v => do
    let rest ← stripPrefix measurement (X.resolve metric.name)
    let key ← stripPrefix "." rest
    if key = "" then none else some (key, v)

/-- A carrier line's fields while they are gathered: those in line, and those with a key that cannot lead,
held until another field leads. -/
structure Gathered where
  counts : List Counter
  fields : Fields
  deferred : Fields
  written : Nat
  sums : List Counter

namespace Gathered

def start : Gathered := ⟨[], [], [], 0, []⟩

def pushCarrierField (g : Gathered) (key : String) (value : FieldValue) : Gathered :=
  if g.fields.isEmpty then
    if startsSkippable (utf8Bytes key) then
      { g with deferred := g.deferred ++ [(key, value)], written := g.written + 1 }
    else { g with fields := (key, value) :: g.deferred, deferred := [], written := g.written + 1 }
  else { g with fields := g.fields ++ [(key, value)], written := g.written + 1 }

def pushMetric (measurement : String) (g : Gathered) (metric : MetricRecord X) : Gathered :=
  if isNoRecordedValue metric then { g with counts := g.counts ++ [.skippedNoRecordedValue] }
  else
    match carrierField metric measurement with
    | none => g
    | some (key, value) =>
      match fieldKeyOk key with
      | .error counter => { g with counts := g.counts ++ [counter] }
      | .ok () =>
        if !writable (typed value) then { g with counts := g.counts ++ [.droppedUnencodableValue] }
        else
          let g := g.pushCarrierField key (typed value)
          match metric.kind with
          | .sum s => { g with sums := g.sums ++ [sumShape s] }
          | _ => g

def pushAttribute (g : Gathered) (e : X.Symbol × RawValue X) : Gathered :=
  match stripPrefix fieldPrefix (X.resolve e.1), e.2 with
  | some key, .str text =>
    match fieldKeyOk key with
    | .error counter => { g with counts := g.counts ++ [counter] }
    | .ok () =>
      if maxFieldValueBytes < (utf8Bytes text).length then { g with counts := g.counts ++ [.droppedOversizeValue] }
      else g.pushCarrierField key (.str text)
  | _, _ => g

/-- With only keys that cannot lead, each field drops. -/
def close (g : Gathered) : Gathered :=
  if g.fields.isEmpty && !g.deferred.isEmpty then
    { g with counts := g.counts ++ List.replicate g.written .droppedUnencodableKey, deferred := [], written := 0 }
  else g

end Gathered

def gather (event : Event X) (measurement : String) : Gathered :=
  (event.attributes.entries.foldl Gathered.pushAttribute
    (event.metrics.foldl (Gathered.pushMetric measurement) .start)).close

/-- The one line of a carrier event's gathered fields. -/
def Ctx.writeCarrier (c : Ctx) (tags : Tags) (measurement : String) (timestamp : Int64) (g : Gathered) : Ctx :=
  let c := c.count g.counts
  if g.written = 0 then c
  else
    match measurementOk measurement g.written with
    | .error counts => c.count counts
    | .ok () =>
      match c.finishLine R.toFloatText ⟨true, measurement, tags, g.fields, timestamp⟩ g.written with
      | (true, c) => c.count g.sums
      | (false, c) => c

/-- A record that is not a field of the carrier line is a line of its own. -/
def Ctx.encodeMismatch (tags : Tags) (measurement : String) (timestamp : Int64) (c : Ctx)
    (metric : MetricRecord X) : Ctx :=
  if isNoRecordedValue metric || (carrierField metric measurement).isSome then c
  else (c.count [.metricsNormalizedCarrierMismatch]).encodeRecordLine R tags metric timestamp

/-- One line for the whole event, then a line for each record that does not fit it. -/
def Ctx.encodeCarrierEvent (c : Ctx) (tags : Tags) (event : Event X) (measurement : String) : Ctx :=
  event.metrics.foldl (Ctx.encodeMismatch R tags measurement event.timestamp)
    (c.writeCarrier R tags measurement event.timestamp (gather event measurement))

def Ctx.encodeEvent (resource : Resource X) (c : Ctx) (event : Event X) : Ctx :=
  match carrierMeasurement event with
  | none =>
    if event.metrics.isEmpty then c.count [.skippedNoMetrics]
    else
      let (counts, tags) := renderTagSuffix R.toFloatText (merged resource event)
      event.metrics.foldl (fun c metric => c.encodeRecordLine R tags metric event.timestamp) (c.count counts)
  | some measurement =>
    let (counts, tags) := renderTagSuffix R.toFloatText (merged resource event)
    (c.count counts).encodeCarrierEvent R tags event measurement

def encode (batch : EventBatch X) : Ctx := batch.events.foldl (Ctx.encodeEvent R batch.resource) .start

end Logit.Influx
