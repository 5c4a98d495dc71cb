import Logit.Native.BatchRoundTrip
import Logit.Native.Truncation

namespace Logit.Native

open ByteCodec List Nat Decoder Bool

variable {X : Externals}

/-- The bytes `part` take the trailer's loop from `fields` to `fields'`, and leave it with enough
rounds for what follows them. -/
def Trails (part : Bytes) (fields fields' : TrailerFields X) : Prop :=
  ∀ rest rounds left, part.length + rest.length ≤ rounds → ∃ rounds', rest.length ≤ rounds' ∧
    (readTrailerLoop rounds fields).run (part ++ rest) left = (readTrailerLoop rounds' fields').run rest left

theorem Trails.empty {fields : TrailerFields X} : Trails [] fields fields :=
  fun _ rounds _ room => ⟨rounds, by simpa using room, rfl⟩

theorem Trails.append {a b : Bytes} {fields middle fields' : TrailerFields X}
    (first : Trails a fields middle) (second : Trails b middle fields') : Trails (a ++ b) fields fields' := by
  intro rest rounds left room
  rw [length_append] at room
  obtain ⟨rounds₁, room₁, run₁⟩ := first (b ++ rest) rounds left (by rw [length_append]; omega)
  obtain ⟨rounds₂, room₂, run₂⟩ := second rest rounds₁ left (by rwa [length_append] at room₁)
  exact ⟨rounds₂, room₂, by rw [append_assoc, run₁, run₂]⟩

theorem Trails.field {tag : UInt8} {value : Bytes} {fields fields' : TrailerFields X}
    (short : value.length ≤ maxSaneTrailerFieldBytes)
    (visited : visitTrailerField fields tag value = pure fields') :
    Trails (writeTrailerField tag value) fields fields' := by
  intro rest rounds left room
  have size := length_writeTrailerField tag value
  rw [fieldLen] at size
  obtain ⟨rounds, rfl⟩ := exists_eq_succ_of_ne_zero (by omega : rounds ≠ 0)
  have fits : value.length < 2 ^ 64 := lt_of_le_of_lt short (by decide)
  refine ⟨rounds, by omega, ?_⟩
  rw [writeTrailerField, append_assoc, cons_append, readTrailerLoop,
    bind_of_ok (atEnd_cons _ _ _), if_neg Bool.false_ne_true,
    bind_of_ok (readU8_cons tag _ left), bind_of_ok (readUvarint_write fits _ left)]
  simp only [short]
  change (carve value.length _ >>= _).run _ _ = _
  rw [bind_of_ok (carve_append _ _ _ _), visited]
  rfl

theorem Trails.option {tag : UInt8} {value : Option Bytes} {fields fields' : TrailerFields X}
    (short : ∀ v, value = some v → v.length ≤ maxSaneTrailerFieldBytes)
    (absent : value = none → fields = fields')
    (visited : ∀ v, value = some v → visitTrailerField fields tag v = pure fields') :
    Trails (value.elim [] (writeTrailerField tag)) fields fields' := by
  cases value with
  | none =>
    rw [absent rfl]
    exact Trails.empty
  | some v => exact Trails.field (short v rfl) (visited v rfl)

theorem trailerSymbol_bytes (symbol : X.Symbol) : trailerSymbol (utf8Bytes (X.resolve symbol)) = pure symbol := by
  rw [trailerSymbol, fromUtf8_utf8Bytes]
  simp [X.intern_resolve]

theorem splitHopTrace_bytes (trace : HopTrace) :
    splitHopTrace (trace.traceId.bytes ++ trace.spanId.bytes) = pure trace := by
  obtain ⟨⟨traceId, size⟩, ⟨spanId, size'⟩⟩ := trace
  have whole : (traceId ++ spanId).length = hopTraceLen := by rw [length_append, size, size', hopTraceLen]
  have front : (traceId ++ spanId).take 16 = traceId := take_left' size
  have back : (traceId ++ spanId).drop 16 = spanId := drop_left' size
  simp only [splitHopTrace, whole, front, back]
  rfl

/-- The strings of a trailer are within the decoder's cap. -/
structure TrailerFits (provenance : Provenance X) : Prop where
  origin : ∀ v, originBytes provenance = some v → v.length ≤ maxSaneTrailerFieldBytes
  previous : ∀ v, previousBytes provenance = some v → v.length ≤ maxSaneTrailerFieldBytes

variable {provenance : Provenance X} {batch : EventBatch X}

theorem trails_trailer (fits : TrailerFits provenance) (trace : Option HopTrace) :
    Trails (writeTrailer provenance trace) TrailerFields.start ⟨provenance, trace⟩ := by
  obtain ⟨origin, previous⟩ := provenance
  have first : Trails ((originBytes (X := X) ⟨origin, previous⟩).elim []
      (writeTrailerField TrailerTag.origin)) TrailerFields.start ⟨⟨origin, none⟩, none⟩ := by
    refine Trails.option fits.origin (fun absent => ?_) fun v present => ?_
    · have none : origin = none := Option.map_eq_none_iff.mp absent
      rw [none]
      rfl
    · obtain ⟨symbol, rfl, rfl⟩ := Option.map_eq_some_iff.mp present
      exact congrArg (Functor.map _) (trailerSymbol_bytes symbol)
  have second : Trails ((previousBytes (X := X) ⟨origin, previous⟩).elim []
      (writeTrailerField TrailerTag.previous)) ⟨⟨origin, none⟩, none⟩ ⟨⟨origin, previous⟩, none⟩ := by
    refine Trails.option fits.previous (fun absent => ?_) fun v present => ?_
    · have none : previous = none := Option.map_eq_none_iff.mp absent
      rw [none]
    · obtain ⟨symbol, rfl, rfl⟩ := Option.map_eq_some_iff.mp present
      exact congrArg (Functor.map _) (trailerSymbol_bytes symbol)
  have third : Trails (trace.elim [] fun trace => TrailerTag.trace :: writeUvarint hopTraceLen ++
      (trace.traceId.bytes ++ trace.spanId.bytes)) (⟨⟨origin, previous⟩, none⟩ : TrailerFields X)
      ⟨⟨origin, previous⟩, trace⟩ := by
    cases trace with
    | none => exact Trails.empty
    | some trace =>
      have length : (trace.traceId.bytes ++ trace.spanId.bytes).length = hopTraceLen := by
        rw [length_append, trace.traceId.size, trace.spanId.size, hopTraceLen]
      have field : Trails (writeTrailerField TrailerTag.trace
          (trace.traceId.bytes ++ trace.spanId.bytes)) (⟨⟨origin, previous⟩, none⟩ : TrailerFields X)
          ⟨⟨origin, previous⟩, some trace⟩ :=
        Trails.field (by rw [length]; decide) (congrArg (Functor.map _) (splitHopTrace_bytes trace))
      rwa [writeTrailerField, length] at field
  exact first.append (second.append third)

theorem fieldLen_le {len : Nat} (short : len ≤ maxSaneTrailerFieldBytes) : fieldLen len ≤ 4099 := by
  have cap : maxSaneTrailerFieldBytes = 4096 := rfl
  have header := uvarintLen_le (k := 13) (v := len) (by omega) (by decide)
  rw [fieldLen]
  omega

theorem trailerLen_lt (fits : TrailerFits provenance) (trace : Option HopTrace) :
    trailerLen provenance trace < 2 ^ 64 := by
  have origin : ((originBytes provenance).elim 0 fun s => fieldLen s.length) ≤ 4099 := by
    cases given : originBytes provenance with
    | none => exact zero_le _
    | some v => exact fieldLen_le (fits.origin v given)
  have previous : ((previousBytes provenance).elim 0 fun s => fieldLen s.length) ≤ 4099 := by
    cases given : previousBytes provenance with
    | none => exact zero_le _
    | some v => exact fieldLen_le (fits.previous v given)
  have hop : (trace.elim 0 fun _ => fieldLen hopTraceLen) ≤ 4099 := by
    cases trace with
    | none => exact zero_le _
    | some _ => exact fieldLen_le (by decide)
  rw [trailerLen]
  omega

theorem readTrailer_write (fits : TrailerFits provenance) (trace : Option HopTrace) (rest : Bytes) (left : Nat) :
    (readTrailer X).run (writeUvarint (trailerLen provenance trace) ++
        writeTrailer provenance trace ++ rest) left = .ok (⟨provenance, trace⟩, rest, left) := by
  have length := length_writeTrailer provenance trace
  have small := trailerLen_lt fits trace
  obtain ⟨rounds, _, run⟩ := trails_trailer fits trace [] (writeTrailer provenance trace).length left (by simp)
  have read : (readTrailerLoop (writeTrailer provenance trace).length TrailerFields.start).run
      (writeTrailer provenance trace) left = .ok (⟨provenance, trace⟩, [], left) := by
    rw [append_nil] at run
    rw [run]
    cases rounds <;> rfl
  rw [append_assoc, readTrailer, bind_of_ok (readUvarint_write small _ left), ← length,
    bind_of_ok (carve_append _ _ _ _), onSlice_of_ok read]

theorem readHopPrefix_write {seq : SeqId} (numbered : seq.seq ≠ 0) (rest : Bytes) (left : Nat) :
    readHopPrefix.run (seq.id.bytes ++ (writeUvarint seq.seq.toNat ++ rest)) left = .ok (seq, rest, left) := by
  have number (f : CodecError → CodecError) : (mapError f readUvarint).run
      (writeUvarint seq.seq.toNat ++ rest) left = .ok (seq.seq.toNat, rest, left) :=
    mapError_eq_ok.mpr (readUvarint_write seq.seq.toNat_lt rest left)
  have positive : (seq.seq.toNat != 0) = true := by
    rw [bne_iff_ne]
    intro zero
    exact numbered (UInt64.toNat_inj.mp zero)
  rw [readHopPrefix, bind_of_ok (takeId_append _ seq.id _ left), bind_of_ok (number _)]
  simp only [positive, UInt64.ofNat_toNat]
  rfl

theorem decodeHopBatch_encodeHopBatch (decodable : Decodable batch) {context : HopContext X}
    (fits : TrailerFits context.provenance) (numbered : context.seq.seq ≠ 0) :
    decodeHopBatch (encodeHopBatch batch context) u64Max = .ok (canonicalBatch batch, context) := by
  have trailer := readTrailer_write fits context.trace [] (u64Max - batchCost batch)
  have body := decodeBatchBody_encodeBatch u64Max decodable
    (writeUvarint (trailerLen context.provenance context.trace) ++
      writeTrailer context.provenance context.trace) decodable.cost (le_refl u64Max)
  rw [append_nil] at trailer
  rw [decodeHopBatch, decodeWith, decodeHopReader, encodeHopBatch,
    bind_of_ok (readHopPrefix_write numbered _ u64Max), decodeHopBody]
  simp only [bind_assoc]
  rw [bind_of_ok body, bind_of_ok trailer]
  rfl

/-- No exemplar of the batch has the value negative zero. -/
def NoNegativeZero (batch : EventBatch X) : Prop :=
  ∀ event ∈ batch.events, ∀ record ∈ event.metrics, ∀ exemplar ∈ record.exemplars, exemplar.value ≠ .f64 F64.negZero

theorem bits_of_magnitude_eq_zero {x : F64} (zero : x.magnitude = 0) : x = F64.zero ∨ x = F64.negZero := by
  obtain ⟨bits⟩ := x
  have low : bits.toNat % 2 ^ 63 = 0 := by
    have masked := congrArg UInt64.toNat zero
    rwa [F64.magnitude, UInt64.toNat_and, show (0x7fffffffffffffff : UInt64).toNat = 2 ^ 63 - 1 from rfl,
      and_two_pow_sub_one_eq_mod] at masked
  have bound := bits.toNat_lt
  have two : bits.toNat = 0 ∨ bits.toNat = 2 ^ 63 := by omega
  rcases two with none | top
  · exact .inl (congrArg F64.mk (UInt64.toNat_inj.mp none))
  · exact .inr (congrArg F64.mk (UInt64.toNat_inj.mp top))

theorem value_of_eq_zero {v : MetricValue} (same : v.eq (.f64 F64.zero) = true)
    (positive : v ≠ .f64 F64.negZero) : v = .f64 F64.zero := by
  cases v with
  | f64 x =>
    simp only [MetricValue.eq, F64.eq, and_eq_true, or_eq_true, beq_iff_eq] at same
    rcases same.2 with bits | ⟨magnitude, _⟩
    · exact congrArg (fun b => MetricValue.f64 ⟨b⟩) bits
    · rcases bits_of_magnitude_eq_zero magnitude with rfl | rfl
      · rfl
      · exact absurd rfl positive
  | i64 _ | u64 _ | bool _ => cases same

theorem canonicalExemplar_eq {exemplar : Exemplar X} (positive : exemplar.value ≠ .f64 F64.negZero) :
    canonicalExemplar exemplar = exemplar := by
  unfold canonicalExemplar
  split
  · rename_i same
    rw [← value_of_eq_zero same positive]
  · rfl

theorem canonicalBatch_eq (positive : NoNegativeZero batch) : canonicalBatch batch = batch := by
  have metrics : ∀ event ∈ batch.events, canonicalEvent event = event := by
    intro event mem
    have records : ∀ record ∈ event.metrics, canonicalMetric record = record := by
      intro record inside
      have exemplars : ∀ exemplar ∈ record.exemplars, canonicalExemplar exemplar = exemplar :=
        fun exemplar here => canonicalExemplar_eq (positive event mem record inside exemplar here)
      rw [canonicalMetric, map_congr_left exemplars, map_id']
    rw [canonicalEvent, map_congr_left records, map_id']
  rw [canonicalBatch, map_congr_left metrics, map_id']

/-- A batch of one event, with a span and one gauge whose exemplar has this value. -/
def exemplarBatch (value : MetricValue) : EventBatch Externals.plain :=
  ⟨Resource.start, none, [⟨0, AttrMap.empty, none,
    [⟨"m", none, none, 0, [⟨0, value, none, AttrMap.empty⟩], 0, .gauge value⟩],
    some ⟨.zero 16, .zero 8, none, .str "s", .server, .ok, [], [], 9, 1, none⟩⟩]⟩

theorem shallowMap_empty : ShallowMap (AttrMap.empty : AttrMap X) := fun _ mem => by cases mem

/-- A batch within the decoder's caps, in which no exemplar is negative zero, is read back from its
payload as it was, and with it the context of a hop that fits its trailer. -/
theorem payload_roundTrip {batch : EventBatch X} (decodable : Decodable batch) (positive : NoNegativeZero batch) :
    decodeBatch (encodeBatch batch) u64Max = .ok batch ∧
    ∀ context : HopContext X, TrailerFits context.provenance → context.seq.seq ≠ 0 →
      decodeHopBatch (encodeHopBatch batch context) u64Max = .ok (batch, context) := by
  have same := canonicalBatch_eq positive
  refine ⟨?_, fun context fits numbered => ?_⟩
  · rw [decodeBatch_again (le_refl _) decodable decodable.cost, same]
  · rw [decodeHopBatch_encodeHopBatch decodable fits numbered, same]

/-- A batch with a span and an exemplar. -/
theorem payload_roundTrip_sample :
    let batch := exemplarBatch (.f64 ⟨1⟩)
    decodeBatch (encodeBatch batch) u64Max = .ok batch ∧
      ∀ context : HopContext Externals.plain, TrailerFits context.provenance → context.seq.seq ≠ 0 →
        decodeHopBatch (encodeHopBatch batch context) u64Max = .ok (batch, context) := by
  refine payload_roundTrip ⟨shallowMap_empty, fun scope none => ?_, fun event member => ?_,
    by decide +kernel, by decide +kernel, by decide +kernel, by decide +kernel⟩ fun event member => ?_
  · cases none
  · obtain rfl := mem_singleton.mp member
    refine ⟨shallowMap_empty, fun log none => ?_, fun record inside exemplar here => ?_, fun span same => ?_⟩
    · cases none
    · obtain rfl := mem_singleton.mp inside
      obtain rfl := mem_singleton.mp here
      exact shallowMap_empty
    · cases same
      refine ⟨(by decide : 0 ≤ maxValueDepth), fun _ none => ?_, fun _ none => ?_⟩ <;> cases none
  · obtain rfl := mem_singleton.mp member
    intro record inside exemplar here
    obtain rfl := mem_singleton.mp inside
    obtain rfl := mem_singleton.mp here
    decide

theorem events_le_of_decodeBatch {payload : Bytes} {limit : Nat} (run : decodeBatch payload limit = .ok batch) :
    batch.events.length ≤ maxSaneEventCount := by
  obtain ⟨left, body⟩ := decodeBatch_eq_ok run
  obtain ⟨dict, bytes₁, left₁, _, body₁⟩ := bind_eq_ok.mp body
  obtain ⟨resource, bytes₂, left₂, _, body₂⟩ := bind_eq_ok.mp body₁
  obtain ⟨scope, bytes₃, left₃, _, body₃⟩ := bind_eq_ok.mp body₂
  obtain ⟨events, bytes₄, left₄, read, last⟩ := bind_eq_ok.mp body₃
  obtain ⟨count, bytes₅, left₅, _, read₁⟩ := bind_eq_ok.mp read
  obtain ⟨checked, bytes₆, left₆, capped, read₂⟩ := bind_eq_ok.mp read₁
  obtain ⟨charged, bytes₇, left₇, _, read₃⟩ := bind_eq_ok.mp read₂
  cases last
  rw [length_of_times read₃]
  exact of_decide_eq_true (ensure_eq_ok.mp capped).1

def bareBatch (n : Nat) : EventBatch Externals.plain := ⟨Resource.start, none, List.replicate n Event.start⟩

/-- The events of a bare batch can be as many as the cap does not allow. And a value that is negative
zero is read back as zero. -/
theorem payload_roundTrip_fails : decodeBatch (encodeBatch (bareBatch (maxSaneEventCount + 1))) u64Max ≠
      .ok (bareBatch (maxSaneEventCount + 1)) ∧
    decodeBatch (encodeBatch (exemplarBatch (.f64 F64.negZero))) u64Max ≠ .ok
      (exemplarBatch (.f64 F64.negZero)) := by
  constructor
  · intro run
    have capped := events_le_of_decodeBatch run
    rw [bareBatch, length_replicate] at capped
    omega
  · intro same
    have values := congrArg (fun decoded => decoded.toOption.map fun batch => batch.events.map fun event =>
      event.metrics.map fun record => record.exemplars.map fun exemplar => exemplar.value) same
    revert values
    decide +kernel

end Logit.Native
