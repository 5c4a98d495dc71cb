import Logit.Native.FieldRoundTrip

namespace Logit.Native

open ByteCodec List Folds Decoder Writer Reads

variable {X : Externals} {α σ : Type}

theorem readF64_bytes (v : F64) (rest : Bytes) (left : Nat) :
    readF64.run (f64Bytes v ++ rest) left = .ok (v, rest, left) := by
  have carved := carve_append (f64Bytes v) rest (fun _ => CodecError.malformed "expected 8 bytes for an f64") left
  rw [length_f64Bytes] at carved
  rw [readF64, bind_of_ok carved, f64FromBytes_f64Bytes]
  rfl

theorem readU64_write (v : UInt64) (rest : Bytes) (left : Nat) :
    readU64.run (writeUvarint v.toNat ++ rest) left = .ok (v, rest, left) := by
  rw [readU64, bind_of_ok (readUvarint_write v.toNat_lt rest left), UInt64.ofNat_toNat]
  rfl

theorem readI32_write (v : Int32) (rest : Bytes) (left : Nat) :
    readI32.run (writeIvarint v.toInt64 ++ rest) left = .ok (v, rest, left) := by
  rw [readI32, bind_of_ok (readIvarint_write v.toInt64 rest left), Int32.toInt32_toInt64]
  rfl

theorem readTemporality_tag (t : Temporality) (rest : Bytes) (left : Nat) :
    readTemporality.run ([temporalityTag t] ++ rest) left = .ok (t, rest, left) := by cases t <;> rfl

theorem readOptionF64_write (v : Option F64) (rest : Bytes) (left : Nat) :
    readOptionF64.run (writeOptionF64 v ++ rest) left = .ok (v, rest, left) := by
  cases v with
  | none => rfl
  | some v =>
    have inner := readF64_bytes v rest left
    rw [readOptionF64, writeOptionF64, cons_append, bind_of_ok (readU8_cons 1 _ left),
      if_neg (by decide), if_pos rfl, bind_of_ok inner]
    rfl

theorem readScalar_write (v : MetricValue) (rest : Bytes) (left : Nat) :
    readScalar.run (writeScalar v ++ rest) left = .ok (v, rest, left) := by
  have eight (b : Bytes) (size : b.length = 8) :
      (carve 8 fun _ => CodecError.malformed "expected 8 bytes for a metric value").run
        (b ++ rest) left = .ok (b, rest, left) := by
    rw [← size]
    exact carve_append b rest _ left
  cases v with
  | f64 v =>
    rw [readScalar, writeScalar, cons_append, bind_of_ok (readU8_cons _ _ left),
      bind_of_ok (eight _ (length_f64Bytes v)), f64FromBytes_f64Bytes]
    rfl
  | i64 v =>
    rw [readScalar, writeScalar, cons_append, bind_of_ok (readU8_cons _ _ left),
      bind_of_ok (eight _ (length_i64Bytes v)),
      i64FromBytes_i64Bytes]
    rfl
  | u64 v =>
    rw [readScalar, writeScalar, cons_append, bind_of_ok (readU8_cons _ _ left),
      bind_of_ok (eight _ (length_u64Bytes v)), u64FromBytes_u64Bytes]
    rfl
  | bool v =>
    rw [readScalar, writeScalar, cons_append, bind_of_ok (readU8_cons _ _ left),
      bind_of_ok (eight _ (length_u64Bytes _))]
    cases v <;> rfl

/-- Plain bytes, which no symbol goes into, are read back. -/
abbrev PlainReads (X : Externals) (bytes : Bytes) (read : Read α) (a : α) (cost : Nat) : Prop :=
  Reads wire (.bytes bytes : Writer X.Symbol) (fun _ => read) a cost

variable (limit : Nat)

/-- A counted list of elements that are plain bytes and cost nothing of their own. -/
theorem reads_plainList {items : List α} {part : α → Bytes} {read : Read α} (what : String) {minWire : Nat}
    (size : Nat) (wide : 0 < minWire) (long : ∀ a ∈ items, minWire ≤ (part a).length)
    (one : ∀ a ∈ items, PlainReads X (part a) read a 0) :
    PlainReads X (writeUvarint items.length ++ items.flatMap part)
      (readCounted limit what minWire size read) items (items.length * size) := by
  have list := reads_counted limit what size wide (fun a mem _ => long a mem) one
  rw [map_id', map_const', sum_replicate_nat] at list
  rw [PlainReads, bytes_append, bytes_flatMap]
  exact list

/-- What a kind's lists are charged. The bins of a distribution and the registers of a set are lists
too, but their own decoders make room for them and nothing is charged for it. -/
def metricKindCost : MetricKind X → Nat
  | .samples s => s.values.length * 8
  | .setMembers members => members.length * sizeOfBytes
  | .histogram h => h.buckets.length * 16
  | .exponentialHistogram e => e.positive.2.length * 8 + e.negative.2.length * 8
  | .summary s => s.quantiles.length * 16
  | _ => 0

theorem reads_sum (s : Sum) :
    PlainReads X (writeScalar s.value ++ [temporalityTag s.temporality, s.monotonic.toUInt8]) readSum s 0 := by
  refine Reads.bytes fun _ rest left => ?_
  obtain ⟨value, temporality, monotonic⟩ := s
  rw [append_assoc, readSum, bind_of_ok (readScalar_write value _ left)]
  cases temporality <;> cases monotonic <;> rfl

theorem reads_samples (s : Samples) :
    PlainReads X (samplesBytes s) (readSamples limit) s (s.values.length * 8) := by
  have values : PlainReads X (writeUvarint s.values.length ++ s.values.flatMap f64Bytes)
      (readCounted limit "samples" 8 8 readF64) s.values (s.values.length * 8) :=
    reads_plainList limit "samples" 8 (by decide) (fun v _ => (length_f64Bytes v).ge)
      fun v _ => Reads.bytes fun _ => readF64_bytes v
  have rate : PlainReads X (f64Bytes s.sampleRate) readF64 s.sampleRate 0 :=
    Reads.bytes fun _ => readF64_bytes s.sampleRate
  rw [PlainReads, samplesBytes, bytes_append]
  refine bind (d := 0) values ?_
  exact rate.map fun rate => Samples.mk s.values rate

theorem reads_setMember (m : Bytes) :
    PlainReads X (writeUvarint m.length ++ m) readSetMember m 0 := by
  intro before symbols _ _ small rest left _ _
  simp only [run_bytes, length_append] at small ⊢
  have fits : m.length < 2 ^ 64 := by
    have top : wire.length = 2 ^ 64 := rfl
    omega
  rw [append_assoc, readSetMember, bind_of_ok (readUvarint_write fits _ left), carve_append]
  rfl

theorem reads_setMembers (members : List Bytes) :
    PlainReads X (setMembersBytes members) (readSetMembers limit) members (members.length * sizeOfBytes) := by
  refine reads_plainList limit "set members" sizeOfBytes Nat.one_pos (fun m _ => ?_) fun m _ => reads_setMember m
  have size := one_le_length_writeUvarint m.length
  rw [length_append]
  omega

theorem readBucket_bytes (bucket : Bucket) (rest : Bytes) (left : Nat) :
    readBucket.run ((f64Bytes bucket.1 ++ writeUvarint bucket.2.toNat) ++ rest) left =
      .ok (bucket, rest, left) := by
  rw [append_assoc, readBucket, bind_of_ok (readF64_bytes bucket.1 _ left),
    bind_of_ok (readU64_write bucket.2 rest left)]
  rfl

theorem reads_histogram (h : Histogram) :
    PlainReads X (histogramBytes h) (readHistogram limit) h (h.buckets.length * 16) := by
  have buckets : PlainReads X (writeUvarint h.buckets.length ++ h.buckets.flatMap fun bucket =>
      f64Bytes bucket.1 ++ writeUvarint bucket.2.toNat)
      (readCounted limit "histogram buckets" 9 16 readBucket) h.buckets (h.buckets.length * 16) := by
    refine reads_plainList limit "histogram buckets" 16 (by decide) (fun bucket _ => ?_)
      fun bucket _ => Reads.bytes fun _ => readBucket_bytes bucket
    have size := one_le_length_writeUvarint bucket.2.toNat
    rw [length_append, length_f64Bytes]
    omega
  simp only [PlainReads, histogramBytes, bytes_append]
  refine bind (d := 0) buckets ?_
  refine Reads.andThen (fun _ => readTemporality_tag h.temporality) ?_
  refine Reads.andThen (fun _ => readOptionF64_write h.sum) ?_
  refine Reads.andThen (fun _ => readOptionF64_write h.min) ?_
  exact (Reads.bytes fun _ => readOptionF64_write h.max).map fun max =>
    Histogram.mk h.buckets h.temporality h.sum h.min max

theorem reads_exponentialBuckets (buckets : Int32 × List UInt64) :
    PlainReads X (writeExponentialBuckets buckets) (readExponentialBuckets limit) buckets
      (buckets.2.length * 8) := by
  have counts : PlainReads X (writeUvarint buckets.2.length ++
      buckets.2.flatMap fun count => writeUvarint count.toNat)
      (readCounted limit "exponential buckets" 1 8 readU64) buckets.2 (buckets.2.length * 8) :=
    reads_plainList limit "exponential buckets" 8 Nat.one_pos
      (fun _ _ => one_le_length_writeUvarint _) fun count _ => Reads.bytes fun _ => readU64_write count
  rw [PlainReads, writeExponentialBuckets, append_assoc, bytes_append]
  refine Reads.andThen (fun _ => readI32_write buckets.1) ?_
  exact counts.map fun counts => (buckets.1, counts)

theorem reads_expHistogram (e : ExpHistogram) :
    PlainReads X (expHistogramBytes e) (readExpHistogram limit) e
      (e.positive.2.length * 8 + e.negative.2.length * 8) := by
  simp only [PlainReads, expHistogramBytes, bytes_append]
  refine Reads.andThen (fun _ => readI32_write e.scale) ?_
  refine Reads.andThen (fun _ => readU64_write e.zeroCount) ?_
  refine Reads.andThen (fun _ => readF64_bytes e.zeroThreshold) ?_
  refine bind (reads_exponentialBuckets limit e.positive) ?_
  refine bind (d := 0) (reads_exponentialBuckets limit e.negative) ?_
  refine Reads.andThen (fun _ => readTemporality_tag e.temporality) ?_
  refine Reads.andThen (fun _ => readU64_write e.count) ?_
  refine Reads.andThen (fun _ => readOptionF64_write e.sum) ?_
  refine Reads.andThen (fun _ => readOptionF64_write e.min) ?_
  exact (Reads.bytes fun _ => readOptionF64_write e.max).map fun max =>
    ExpHistogram.mk e.scale e.zeroCount e.zeroThreshold e.positive e.negative e.temporality e.count
      e.sum e.min max

theorem readQuantile_bytes (quantile : F64 × F64) (rest : Bytes) (left : Nat) :
    readQuantile.run ((f64Bytes quantile.1 ++ f64Bytes quantile.2) ++ rest) left = .ok (quantile, rest, left) := by
  rw [append_assoc, readQuantile, bind_of_ok (readF64_bytes quantile.1 _ left),
    bind_of_ok (readF64_bytes quantile.2 rest left)]
  rfl

theorem reads_summary (s : Summary) :
    PlainReads X (summaryBytes s) (readSummary limit) s (s.quantiles.length * 16) := by
  have quantiles : PlainReads X (writeUvarint s.quantiles.length ++
      s.quantiles.flatMap fun quantile => f64Bytes quantile.1 ++ f64Bytes quantile.2)
      (readCounted limit "summary quantiles" 16 16 readQuantile) s.quantiles (s.quantiles.length * 16) := by
    refine reads_plainList limit "summary quantiles" 16 (by decide) (fun quantile _ => ?_)
      fun quantile _ => Reads.bytes fun _ => readQuantile_bytes quantile
    simp
  simp only [PlainReads, summaryBytes, bytes_append]
  refine bind (d := 0) quantiles ?_
  refine Reads.andThen (fun _ => readU64_write s.count) ?_
  refine Reads.andThen (fun _ => readF64_bytes s.sum) ?_
  exact (Reads.bytes fun _ => readTemporality_tag s.temporality).map fun temporality =>
    Summary.mk s.quantiles s.count s.sum temporality

theorem readBlob_whole {what : String} {fromBytes : Bytes → Except String α} {blob : Bytes} {a : α}
    (known : fromBytes blob = .ok a) (left : Nat) :
    (readBlob what fromBytes).run blob left = .ok (a, [], left) := by simp [readBlob, bind_apply, takeAll, known]

theorem reads_kind {tag : UInt8} {w : Writer X.Symbol} {kind : MetricKind X} {c : Nat}
    (inner : ReadsWhole wire w (fun _ => readMetricKindBody limit tag) kind c) :
    Reads wire (writeField tag w) (fun _ => readMetricKind limit) kind c :=
  reads_field (inner.inside _)

theorem length_writeScalar (v : MetricValue) : (writeScalar v).length = scalarLen := by
  cases v <;> simp [writeScalar, scalarLen]

theorem reads_metricKind (kind : MetricKind X) :
    Reads wire (writeMetricKind kind) (fun _ => readMetricKind limit) kind (metricKindCost kind) := by
  have scalar (v : MetricValue) : PlainReads X (writeScalar v) readScalar v 0 :=
    Reads.bytes fun _ => readScalar_write v
  cases kind with
  | sum s =>
    have size : (writeScalar s.value ++ [temporalityTag s.temporality, s.monotonic.toUInt8]).length =
        scalarLen + 2 := by simp [length_writeScalar]
    rw [writeMetricKind, writeScalarField_eq size]
    exact reads_kind limit ((reads_sum s).whole.map MetricKind.sum)
  | gauge v =>
    rw [writeMetricKind, writeScalarKind, writeScalarField_eq (length_writeScalar v)]
    exact reads_kind limit ((scalar v).whole.map MetricKind.gauge)
  | gaugeDelta v =>
    rw [writeMetricKind, writeScalarKind, writeScalarField_eq (length_writeScalar v)]
    exact reads_kind limit ((scalar v).whole.map MetricKind.gaugeDelta)
  | samples s => exact reads_kind limit ((reads_samples limit s).whole.map MetricKind.samples)
  | distribution sketch =>
    have blob : ReadsWhole wire (.bytes (X.sketchToBytes sketch) : Writer X.Symbol)
        (fun _ => readBlob "bad distribution blob" X.sketchFromBytes) sketch 0 :=
      ReadsWhole.bytes fun _ => readBlob_whole (X.sketch_roundTrip sketch)
    exact reads_kind limit (blob.map MetricKind.distribution)
  | setMembers members => exact reads_kind limit ((reads_setMembers limit members).whole.map MetricKind.setMembers)
  | set hll =>
    have blob : ReadsWhole wire (.bytes (X.hllToBytes hll) : Writer X.Symbol)
        (fun _ => readBlob "bad set blob" X.hllFromBytes) hll 0 :=
      ReadsWhole.bytes fun _ => readBlob_whole (X.hll_roundTrip hll)
    exact reads_kind limit (blob.map MetricKind.set)
  | histogram h => exact reads_kind limit ((reads_histogram limit h).whole.map MetricKind.histogram)
  | exponentialHistogram e =>
    exact reads_kind limit ((reads_expHistogram limit e).whole.map MetricKind.exponentialHistogram)
  | summary s => exact reads_kind limit ((reads_summary limit s).whole.map MetricKind.summary)

theorem readTraceRef_write (trace : TraceRef) (rest : Bytes) (left : Nat) :
    readTraceRef.run (writeTraceRef trace ++ rest) left = .ok (trace, rest, left) := by
  obtain ⟨traceId, spanId, flags⟩ := trace
  have short := takeId_append (n := 8) fun _ => CodecError.malformed "truncated span_id"
  rw [writeTraceRef, append_assoc, append_assoc, readTraceRef, bind_of_ok (takeId_append _ traceId _ left)]
  cases spanId with
  | none => rfl
  | some spanId =>
    have presence : readSpanPresence.run ((1 :: spanId.bytes) ++ ([flags] ++ rest)) left =
        .ok (some spanId, [flags] ++ rest, left) := by
      rw [readSpanPresence, cons_append, bind_of_ok (readU8_cons 1 _ left),
        if_neg (by decide), if_pos rfl, bind_of_ok (short spanId _ left)]
      rfl
    rw [bind_of_ok presence]
    rfl

/-- What an exemplar is read back as. A value that equals the default is not written, and zero
equals negative zero. -/
def canonicalExemplar (exemplar : Exemplar X) : Exemplar X :=
  { exemplar with
    value := if exemplar.value.eq (.f64 F64.zero) then .f64 F64.zero else exemplar.value }

theorem Folds.trace {visit : Symbols X → σ → UInt8 → Read σ} {fields fields' : σ} {tag : UInt8}
    {trace : TraceRef} {update : TraceRef → σ}
    (visits : ∀ symbols, visit symbols fields tag = update <$> readTraceRef := by intro; rfl)
    (lands : update trace = fields' := by rfl) :
    Folds (writeField tag (.bytes (writeTraceRef trace))) visit fields fields' 0 := by
  have inner : PlainReads X (writeTraceRef trace) readTraceRef trace 0 :=
    Reads.bytes fun _ => readTraceRef_write trace
  exact Folds.part inner.whole visits lands

theorem folds_exemplarValue (value : MetricValue) (fields : Exemplar X) (default : fields.value = .f64 F64.zero) :
    Folds (.when (!value.eq (.f64 F64.zero)) (writeScalarField ExemplarTag.value scalarLen (writeScalar value)))
      (fun symbols => visitExemplar ⟨symbols, limit⟩) fields
      { fields with value := if value.eq (.f64 F64.zero) then .f64 F64.zero else value } 0 := by
  refine when (fun written => ?_) fun elided => ?_
  · rw [writeScalarField_eq (length_writeScalar value)]
    refine field (ReadsWhole.bytes fun _ left => ?_)
    have scalar := readScalar_write value [] left
    rw [append_nil] at scalar
    rw [if_neg (by simpa using written)]
    exact bind_of_ok scalar _
  · rw [if_pos (by simpa using elided), ← default]
    exact ⟨rfl, rfl⟩

theorem folds_exemplar (exemplar : Exemplar X) (shallow : ShallowMap exemplar.filteredAttributes) :
    Folds (writeExemplar exemplar) (fun symbols => visitExemplar ⟨symbols, limit⟩) Exemplar.start
      (canonicalExemplar exemplar) (attrMapCost exemplar.filteredAttributes) := by
  refine andThen Folds.i64 ?_
  refine andThen (folds_exemplarValue limit exemplar.value _ rfl) ?_
  refine andThen (optional (fun (fields : Exemplar X) v => { fields with trace := v }) rfl fun _ => Folds.trace) ?_
  exact attrs shallow

variable (record : MetricRecord X)

/-- A metric as it is read back. -/
def canonicalMetric : MetricRecord X :=
  { record with exemplars := record.exemplars.map canonicalExemplar }

def ShallowMetric : Prop :=
  ∀ exemplar ∈ record.exemplars, ShallowMap exemplar.filteredAttributes

def metricCost : Nat := record.exemplars.length * sizeOfExemplar +
    (record.exemplars.map fun exemplar => attrMapCost exemplar.filteredAttributes).sum +
  metricKindCost record.kind

/-- The fields that a record is made of. -/
abbrev MetricFields.of : MetricFields X :=
  ⟨some record.name, record.unit, record.description, record.startTimestamp, record.exemplars, record.flags,
    some record.kind⟩

theorem folds_metricRecord (shallow : ShallowMetric record) :
    Folds (writeMetricRecord record) (fun symbols => visitMetricRecord ⟨symbols, limit⟩) MetricFields.start
      (.of (canonicalMetric record)) (metricCost record) := by
  refine andThen symbol ?_
  refine andThen (optional (fun (fields : MetricFields X) v => { fields with unit := v }) rfl fun _ => symbol) ?_
  refine andThen (optional (fun (fields : MetricFields X) v => { fields with description := v }) rfl
    fun _ => symbol) ?_
  refine andThen Folds.i64 ?_
  refine append (records (fun exemplar mem => (folds_exemplar limit exemplar (shallow exemplar mem)).read)) ?_
  refine andThen u32 ?_
  exact Folds.part (reads_metricKind limit record.kind).whole

theorem reads_metricRecord (shallow : ShallowMetric record) :
    ReadsWhole wire (writeMetricRecord record) (fun symbols => readMetricRecord ⟨symbols, limit⟩)
      (canonicalMetric record) (metricCost record) :=
  (folds_metricRecord limit record shallow).record rfl

end Logit.Native
