import Logit.Core.Value

namespace Logit

open ByteCodec

/-- A byte array of a fixed length, such as a trace or a span id. -/
structure FixedBytes (n : Nat) where
  bytes : Bytes
  size : bytes.length = n
deriving DecidableEq

def FixedBytes.zero (n : Nat) : FixedBytes n := ⟨List.replicate n 0, List.length_replicate⟩

/-- An application trace that a record was emitted under. -/
structure TraceRef where
  traceId : FixedBytes 16
  spanId : Option (FixedBytes 8)
  flags : UInt8

inductive Severity
  | trace | debug | info | warn | error | fatal
deriving DecidableEq

inductive BodyFormat
  | raw | json | structured
deriving DecidableEq

inductive Temporality
  | delta | cumulative
deriving DecidableEq

inductive SpanKind
  | internal | server | client | producer | consumer
deriving DecidableEq

inductive SpanStatus
  | unset | ok | error
deriving DecidableEq

structure LogRecord (X : Externals) where
  message : Value X
  severity : Option Severity
  bodyFormat : BodyFormat
  trace : Option TraceRef
  eventName : Option X.Symbol
  observedTimestamp : Int64
  droppedAttributesCount : UInt32

/-- The scalar a gauge, a sum or an exemplar carries. -/
inductive MetricValue
  | f64 (v : F64)
  | i64 (v : Int64)
  | u64 (v : UInt64)
  | bool (v : Bool)
deriving DecidableEq

/-- The derived `==`: the variant and the value are compared, and a double by its own `==`. -/
def MetricValue.eq : MetricValue → MetricValue → Bool
  | .f64 v, .f64 w => v.eq w
  | .i64 v, .i64 w => v == w
  | .u64 v, .u64 w => v == w
  | .bool v, .bool w => v == w
  | _, _ => false

structure Sum where
  value : MetricValue
  temporality : Temporality
  monotonic : Bool

structure Samples where
  values : List F64
  sampleRate : F64

/-- A bucket: its upper bound and its count. -/
abbrev Bucket := F64 × UInt64

structure Histogram where
  buckets : List Bucket
  temporality : Temporality
  sum : Option F64
  min : Option F64
  max : Option F64

structure ExpHistogram where
  scale : Int32
  zeroCount : UInt64
  zeroThreshold : F64
  positive : Int32 × List UInt64
  negative : Int32 × List UInt64
  temporality : Temporality
  count : UInt64
  sum : Option F64
  min : Option F64
  max : Option F64

structure Summary where
  quantiles : List (F64 × F64)
  count : UInt64
  sum : F64
  temporality : Temporality

inductive MetricKind (X : Externals)
  | sum (s : Sum)
  | gauge (v : MetricValue)
  | gaugeDelta (v : MetricValue)
  | samples (s : Samples)
  | distribution (sketch : X.DdSketch)
  | setMembers (members : List Bytes)
  | set (hll : X.HyperLogLog)
  | histogram (h : Histogram)
  | exponentialHistogram (e : ExpHistogram)
  | summary (s : Summary)

structure Exemplar (X : Externals) where
  timestamp : Int64
  value : MetricValue
  trace : Option TraceRef
  filteredAttributes : AttrMap X

structure MetricRecord (X : Externals) where
  name : X.Symbol
  unit : Option X.Symbol
  description : Option X.Symbol
  startTimestamp : Int64
  exemplars : List (Exemplar X)
  flags : UInt32
  kind : MetricKind X

structure SpanEvent (X : Externals) where
  timestamp : Int64
  name : Value X
  attributes : AttrMap X
  droppedAttributesCount : UInt32

structure SpanLink (X : Externals) where
  traceId : FixedBytes 16
  spanId : FixedBytes 8
  attributes : AttrMap X
  flags : UInt32
  traceState : Option Bytes
  droppedAttributesCount : UInt32

structure SpanExt where
  statusMessage : Option Bytes
  traceState : Option Bytes
  droppedAttributesCount : UInt32
  droppedEventsCount : UInt32
  droppedLinksCount : UInt32

structure SpanRecord (X : Externals) where
  traceId : FixedBytes 16
  spanId : FixedBytes 8
  parentSpanId : Option (FixedBytes 8)
  name : Value X
  kind : SpanKind
  status : SpanStatus
  events : List (SpanEvent X)
  links : List (SpanLink X)
  endTimestamp : Int64
  flags : UInt32
  ext : Option SpanExt

structure Event (X : Externals) where
  timestamp : Int64
  attributes : AttrMap X
  log : Option (LogRecord X)
  metrics : List (MetricRecord X)
  span : Option (SpanRecord X)

structure Resource (X : Externals) where
  attributes : AttrMap X
  droppedAttributesCount : UInt32
  schemaUrl : Option Bytes

structure Scope (X : Externals) where
  name : Bytes
  version : Bytes
  attributes : AttrMap X
  droppedAttributesCount : UInt32
  schemaUrl : Option Bytes

structure EventBatch (X : Externals) where
  resource : Resource X
  scope : Option (Scope X)
  events : List (Event X)

/-- A shared value: its address, and the value there, which does not change. -/
structure Arc (α : Type) where
  address : Nat
  value : α

def Arc.ptrEq {α : Type} (a b : Arc α) : Bool := a.address == b.address

/-- Which component made a batch, and which one the current node received it from. -/
structure Provenance (X : Externals) where
  origin : Option X.Symbol
  previous : Option X.Symbol

def saturatingAdd (a b : UInt64) : UInt64 := if a.toNat + b.toNat < 2 ^ 64 then a + b else UInt64.ofNat (2 ^ 64 - 1)

theorem saturatingAdd_toNat (a b : UInt64) : (saturatingAdd a b).toNat = min (2 ^ 64 - 1) (a.toNat + b.toNat) := by
  unfold saturatingAdd
  split
  · rename_i fits
    rw [UInt64.toNat_add]
    omega
  · rw [UInt64.toNat_ofNat_of_lt' (by decide)]
    omega

/-- A small batch: one log event with an attribute. -/
def EventBatch.sample : EventBatch Externals.plain where
  resource := ⟨AttrMap.empty, 0, none⟩
  scope := none
  events := [{
    timestamp := 7
    attributes := AttrMap.empty.insertSym "host" (.str "a")
    log := some ⟨.str "up", some .info, .raw, none, none, 0, 0⟩
    metrics := []
    span := none }]

end Logit
