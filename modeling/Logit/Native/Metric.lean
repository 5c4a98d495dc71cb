import Logit.Native.Record

namespace Logit.Native

open ByteCodec

variable {X : Externals}

namespace MetricTag

def sum : UInt8 := 0
def gauge : UInt8 := 1
def gaugeDelta : UInt8 := 2
def samples : UInt8 := 3
def distribution : UInt8 := 4
def setMembers : UInt8 := 5
def set : UInt8 := 6
def histogram : UInt8 := 7
def exponentialHistogram : UInt8 := 8
def summary : UInt8 := 9

end MetricTag

def writeScalarKind (tag : UInt8) (v : MetricValue) : Writer X.Symbol :=
  writeScalarField tag scalarLen (writeScalar v)

/-- The values with their count, then the sample rate. -/
def samplesBytes (s : Samples) : Bytes :=
  (writeUvarint s.values.length ++ s.values.flatMap f64Bytes) ++ f64Bytes s.sampleRate

def setMembersBytes (members : List Bytes) : Bytes :=
  writeUvarint members.length ++ members.flatMap fun m => writeUvarint m.length ++ m

/-- The buckets with their count, then the scalars in order. -/
def histogramBytes (h : Histogram) : Bytes := (writeUvarint h.buckets.length ++
    h.buckets.flatMap fun bucket => f64Bytes bucket.1 ++ writeUvarint bucket.2.toNat) ++
  ([temporalityTag h.temporality] ++ (writeOptionF64 h.sum ++ (writeOptionF64 h.min ++ writeOptionF64 h.max)))

def expHistogramBytes (e : ExpHistogram) : Bytes :=
  writeIvarint e.scale.toInt64 ++ (writeUvarint e.zeroCount.toNat ++ (f64Bytes e.zeroThreshold ++
    (writeExponentialBuckets e.positive ++ (writeExponentialBuckets e.negative ++
      ([temporalityTag e.temporality] ++ (writeUvarint e.count.toNat ++ (writeOptionF64 e.sum ++
        (writeOptionF64 e.min ++ writeOptionF64 e.max))))))))

def summaryBytes (s : Summary) : Bytes := (writeUvarint s.quantiles.length ++
    s.quantiles.flatMap fun quantile => f64Bytes quantile.1 ++ f64Bytes quantile.2) ++
  (writeUvarint s.count.toNat ++ (f64Bytes s.sum ++ [temporalityTag s.temporality]))

/-- A kind tag, the body's length, and a fixed, sequential body. -/
def writeMetricKind : MetricKind X → Writer X.Symbol
  | .sum s => writeScalarField MetricTag.sum (scalarLen + 2)
      (writeScalar s.value ++ [temporalityTag s.temporality, s.monotonic.toUInt8])
  | .gauge v => writeScalarKind MetricTag.gauge v
  | .gaugeDelta v => writeScalarKind MetricTag.gaugeDelta v
  | .samples s => writeField MetricTag.samples (.bytes (samplesBytes s))
  | .distribution sketch => writeField MetricTag.distribution (.bytes (X.sketchToBytes sketch))
  | .setMembers members => writeField MetricTag.setMembers (.bytes (setMembersBytes members))
  | .set hll => writeField MetricTag.set (.bytes (X.hllToBytes hll))
  | .histogram h => writeField MetricTag.histogram (.bytes (histogramBytes h))
  | .exponentialHistogram e =>
    writeField MetricTag.exponentialHistogram (.bytes (expHistogramBytes e))
  | .summary s => writeField MetricTag.summary (.bytes (summaryBytes s))

/-- Any byte but 0 is monotonic. -/
def readSum : Read Sum := do
  let value ← readScalar
  let temporality ← readTemporality
  let monotonic ← readU8
  pure ⟨value, temporality, monotonic != 0⟩

variable (limit : Nat)

def readSamples : Read Samples := do
  let values ← readCounted limit "samples" 8 8 readF64
  let sampleRate ← readF64
  pure ⟨values, sampleRate⟩

def sizeOfBytes : Nat := 32

def readSetMember : Read Bytes := do
  let len ← readUvarint
  .carve len fun _ => .malformed "set member blob truncated"

def readSetMembers : Read (List Bytes) := readCounted limit "set members" 1 sizeOfBytes readSetMember

def readBucket : Read Bucket := do
  let bound ← readF64
  let n ← readU64
  pure (bound, n)

def readHistogram : Read Histogram := do
  let buckets ← readCounted limit "histogram buckets" 9 16 readBucket
  let temporality ← readTemporality
  let sum ← readOptionF64
  let min ← readOptionF64
  let max ← readOptionF64
  pure ⟨buckets, temporality, sum, min, max⟩

def readExpHistogram : Read ExpHistogram := do
  let scale ← readI32
  let zeroCount ← readU64
  let zeroThreshold ← readF64
  let positive ← readExponentialBuckets limit
  let negative ← readExponentialBuckets limit
  let temporality ← readTemporality
  let count ← readU64
  let sum ← readOptionF64
  let min ← readOptionF64
  let max ← readOptionF64
  pure ⟨scale, zeroCount, zeroThreshold, positive, negative, temporality, count, sum, min, max⟩

def readQuantile : Read (F64 × F64) := do
  let q ← readF64
  let v ← readF64
  pure (q, v)

def readSummary : Read Summary := do
  let quantiles ← readCounted limit "summary quantiles" 16 16 readQuantile
  let count ← readU64
  let sum ← readF64
  let temporality ← readTemporality
  pure ⟨quantiles, count, sum, temporality⟩

/-- A blob handed whole to its type's own decoder. -/
def readBlob {α : Type} (what : String) (fromBytes : Bytes → Except String α) : Read α := do
  let blob ← .takeAll
  match fromBytes blob with
  | .ok a => pure a
  | .error e => .fail (.malformed s!"{what}: {e}")

/-- An unknown kind is refused, unlike an unknown field. -/
def readMetricKindBody (kindTag : UInt8) : Read (MetricKind X) :=
  if kindTag = MetricTag.sum then MetricKind.sum <$> readSum
  else if kindTag = MetricTag.gauge then MetricKind.gauge <$> readScalar
  else if kindTag = MetricTag.gaugeDelta then MetricKind.gaugeDelta <$> readScalar
  else if kindTag = MetricTag.samples then MetricKind.samples <$> readSamples limit
  else if kindTag = MetricTag.distribution then
    MetricKind.distribution <$> readBlob "bad distribution blob" X.sketchFromBytes
  else if kindTag = MetricTag.setMembers then MetricKind.setMembers <$> readSetMembers limit
  else if kindTag = MetricTag.set then MetricKind.set <$> readBlob "bad set blob" X.hllFromBytes
  else if kindTag = MetricTag.histogram then MetricKind.histogram <$> readHistogram limit
  else if kindTag = MetricTag.exponentialHistogram then
    MetricKind.exponentialHistogram <$> readExpHistogram limit
  else if kindTag = MetricTag.summary then MetricKind.summary <$> readSummary limit
  else .fail (.malformed (s!"unknown metric kind tag {kindTag} -- logit is pre-release, and " ++
    "MetricKind is reshaped in place rather than version-negotiated (see this module's own doc " ++
    "comment); a wire frame carrying an unrecognized kind tag is from an incompatible build, not " ++
    "a newer optional feature"))

/-- The body has to be used up. -/
def readMetricKind : Read (MetricKind X) := do
  let kindTag ← readU8
  let len ← readUvarint
  let body ← .carve len fun left =>
    .malformed s!"metric kind {kindTag} declares {len} bytes but only {left} remain"
  .inside body (trailingBytes s!"metric kind {kindTag}") (readMetricKindBody limit kindTag)

/-- The trace, a presence byte and the span, the flags. -/
def writeTraceRef (trace : TraceRef) : Bytes := trace.traceId.bytes ++ ((match trace.spanId with
    | some spanId => 1 :: spanId.bytes
    | none => [0]) ++ [trace.flags])

def readSpanPresence : Read (Option (FixedBytes 8)) := do
  let hasSpan ← readU8
  if hasSpan = 0 then pure none
  else if hasSpan = 1 then do
    let spanId ← takeId 8 fun _ => .malformed "truncated span_id"
    pure (some spanId)
  else .fail (.malformed s!"bad span_id presence byte {hasSpan}")

def readTraceRef : Read TraceRef := do
  let traceId ← takeId 16 fun _ => .malformed "truncated trace_id"
  let spanId ← readSpanPresence
  let flags ← readU8
  pure ⟨traceId, spanId, flags⟩

namespace ExemplarTag

def timestamp : UInt8 := 1
def value : UInt8 := 2
def trace : UInt8 := 3
def filteredAttributes : UInt8 := 4

end ExemplarTag

/-- A value equal to the default is not written. -/
def writeExemplar (exemplar : Exemplar X) : Writer X.Symbol := .when (exemplar.timestamp != 0)
      (writeScalarField ExemplarTag.timestamp 8 (i64Bytes exemplar.timestamp)) ++
  (.when (!exemplar.value.eq (.f64 F64.zero))
      (writeScalarField ExemplarTag.value scalarLen (writeScalar exemplar.value)) ++
  (.option exemplar.trace
      (fun trace => writeField ExemplarTag.trace (.bytes (writeTraceRef trace))) ++
  .when (!exemplar.filteredAttributes.isEmpty)
      (writeField ExemplarTag.filteredAttributes (writeAttrMap exemplar.filteredAttributes))))

def Exemplar.start : Exemplar X := ⟨0, .f64 F64.zero, none, AttrMap.empty⟩

variable (dict : Dict X)

def visitExemplar (fields : Exemplar X) (tag : UInt8) : Read (Exemplar X) :=
  if tag = ExemplarTag.timestamp then (fun v => { fields with timestamp := v }) <$> readExactI64
  else if tag = ExemplarTag.value then do
    let v ← readScalar
    ensureConsumed "exemplar value"
    pure { fields with value := v }
  else if tag = ExemplarTag.trace then (fun v => { fields with trace := some v }) <$> readTraceRef
  else if tag = ExemplarTag.filteredAttributes then
    (fun m => { fields with filteredAttributes := m }) <$> readAttrMap dict
  else clear fields

def readExemplar : Read (Exemplar X) := forEachField (visitExemplar dict) Exemplar.start

namespace MetricRecordTag

def name : UInt8 := 1
def unit : UInt8 := 2
def description : UInt8 := 3
def startTimestamp : UInt8 := 4
def exemplars : UInt8 := 5
def kind : UInt8 := 6
def flags : UInt8 := 7

end MetricRecordTag

def writeMetricRecord (record : MetricRecord X) : Writer X.Symbol :=
  writeSymbolField MetricRecordTag.name record.name ++
  (.option record.unit (writeSymbolField MetricRecordTag.unit) ++
  (.option record.description (writeSymbolField MetricRecordTag.description) ++
  (.when (record.startTimestamp != 0)
      (writeScalarField MetricRecordTag.startTimestamp 8 (i64Bytes record.startTimestamp)) ++
  (.when (!record.exemplars.isEmpty)
      (writeField MetricRecordTag.exemplars (writeRecordList record.exemplars writeExemplar)) ++
  (.when (record.flags != 0)
      (writeScalarField MetricRecordTag.flags 4 (u32Bytes record.flags)) ++
  writeField MetricRecordTag.kind (writeMetricKind record.kind))))))

/-- A record's fields as they are read: those it cannot do without may still be missing. -/
structure MetricFields (X : Externals) where
  name : Option X.Symbol
  unit : Option X.Symbol
  description : Option X.Symbol
  startTimestamp : Int64
  exemplars : List (Exemplar X)
  flags : UInt32
  kind : Option (MetricKind X)

def MetricFields.start : MetricFields X := ⟨none, none, none, 0, [], 0, none⟩

def sizeOfExemplar : Nat := 448

def visitMetricRecord (fields : MetricFields X) (tag : UInt8) : Read (MetricFields X) :=
  if tag = MetricRecordTag.name then
    (fun v => { fields with name := some v }) <$> readSymbolField dict
  else if tag = MetricRecordTag.unit then
    (fun v => { fields with unit := some v }) <$> readSymbolField dict
  else if tag = MetricRecordTag.description then
    (fun v => { fields with description := some v }) <$> readSymbolField dict
  else if tag = MetricRecordTag.startTimestamp then
    (fun v => { fields with startTimestamp := v }) <$> readExactI64
  else if tag = MetricRecordTag.exemplars then
    (fun v => { fields with exemplars := v }) <$>
      readRecordList dict.limit sizeOfExemplar (readExemplar dict)
  else if tag = MetricRecordTag.flags then (fun v => { fields with flags := v }) <$> readExactU32
  else if tag = MetricRecordTag.kind then
    (fun v => { fields with kind := some v }) <$> readMetricKind dict.limit
  else clear fields

/-- A field that a record cannot do without. -/
def require {α : Type} (what : String) : Option α → Read α
  | some a => pure a
  | none => .fail (.malformed what)

def readMetricRecord : Read (MetricRecord X) := do
  let fields ← forEachField (visitMetricRecord dict) MetricFields.start
  let name ← require "metric record missing name" fields.name
  let kind ← require "metric record missing kind" fields.kind
  pure ⟨name, fields.unit, fields.description, fields.startTimestamp, fields.exemplars, fields.flags, kind⟩

end Logit.Native
