import Logit.Native.DecodedRecord
import Logit.Native.HopRoundTrip

namespace Logit.Native

open ByteCodec Nat Externals List Bool Writer.Draws
open ByteCodec.Decoder

variable {X : Externals} {cap : Nat}

/-- A dictionary entry is charged the bytes of its text and its symbol. -/
theorem yields_readDictEntry (X : Externals) (limit : Nat) : Yields cap (readDictEntry X limit) (fun _ => True)
      (fun symbol => (utf8Bytes (X.resolve symbol)).length + sizeOfSymbol) := by
  intro bytes left symbol rest left' room run
  obtain ⟨len, bytes₁, left₁, counted, run₁⟩ := bind_eq_ok.mp run
  obtain ⟨raw, bytes₂, left₂, carved, run₂⟩ := bind_eq_ok.mp run₁
  obtain ⟨_, bytes₃, left₃, charged, run₃⟩ := bind_eq_ok.mp run₂
  obtain ⟨_, size, rfl⟩ := carve_eq_ok.mp carved
  obtain rfl := Frugal.keeps _ _ _ _ _ counted
  have paid := (yields_charge limit (len + sizeOfSymbol) _ _ _ _ _ room charged).2
  cases decoded : fromUtf8 raw with
  | none =>
    rw [decoded] at run₃
    cases run₃
  | some text =>
    rw [decoded] at run₃
    cases run₃
    refine ⟨trivial, ?_⟩
    simp only [X.resolve_intern, utf8Bytes_of_fromUtf8 decoded, size]
    exact paid

theorem yields_readDictSymbols (X : Externals) (limit : Nat) :
    Yields cap (readDictSymbols X limit) (fun symbols => symbols.length ≤ maxSaneDictEntries)
      dictCost := by
  refine Yields.after fun count => ?_
  intro bytes left symbols rest left' room run
  obtain ⟨_, bytes₁, left₁, checked, run₁⟩ := bind_eq_ok.mp run
  obtain ⟨capped, same⟩ := ensure_eq_ok.mp checked
  cases same
  obtain ⟨⟨counted, _⟩, paid⟩ := (yields_readDictEntry X limit).times count _ _ _ _ _ room run₁
  exact ⟨le_trans (le_of_eq counted) (of_decide_eq_true capped), paid⟩

section Sections

variable (dict : Dict X)

theorem yields_readResourceSection (solvent : cap ≤ u64Max ∨ dict.symbols = []) :
    Yields cap (readResourceSection dict) (fun r => DrawnAttrs dict.symbols r.attributes)
      (fun r => attrMapCost r.attributes) :=
  Yields.after fun _ => Yields.after fun body =>
    (yields_readResource dict solvent).onSlice body

theorem yields_readScopeSection (solvent : cap ≤ u64Max ∨ dict.symbols = []) : Yields cap (readScopeSection dict)
      (fun scope => ∀ s, scope = some s → DrawnAttrs dict.symbols s.attributes) scopeCost := by
  refine Yields.after fun _ => .ite (yields_pure nofun rfl) <| .ite ?_ (yields_fail _ _ _)
  refine Yields.after fun _ => Yields.after fun body => ?_
  refine ((yields_readScope dict solvent).onSlice body).map (fun s drawn => ?_) fun s _ => le_rfl
  rintro _ ⟨⟩
  exact drawn

/-- The events' slots are charged before any event is read, so what follows has less than a whole
u64 to spend. -/
theorem yields_readEvents : Yields (u64Max + 1) (readEvents dict) (fun events => events.length ≤ maxSaneEventCount ∧
        ∀ event ∈ events, DrawnEvent dict.symbols event) eventsCost := by
  have entry : Yields u64Max (readEventEntry dict) (DrawnEvent dict.symbols) eventCost :=
    Yields.after fun _ => Yields.after fun body =>
      (yields_readEvent dict).onSlice body
  refine Yields.after fun count => ?_
  intro bytes left events rest left' room run
  obtain ⟨_, bytes₁, left₁, checked, run₁⟩ := bind_eq_ok.mp run
  obtain ⟨_, bytes₂, left₂, charged, run₂⟩ := bind_eq_ok.mp run₁
  obtain ⟨capped, same⟩ := ensure_eq_ok.mp checked
  cases same
  have few := of_decide_eq_true capped
  have exact : min (count * sizeOfEvent) u64Max = count * sizeOfEvent := by
    have most := mul_le_mul_right sizeOfEvent few
    have top : maxSaneEventCount * sizeOfEvent ≤ u64Max := by decide
    omega
  have paid : left₂ + count * sizeOfEvent ≤ left := by
    simp only [chargeList, exact] at charged
    split at charged
    · cases charged
    · exact (yields_charge dict.limit _ _ _ _ _ _ room charged).2
  rcases Nat.eq_zero_or_pos count with none | some
  · subst none
    cases run₂
    exact ⟨⟨zero_le _, by simp⟩, by simpa [eventsCost] using paid⟩
  · have slot : sizeOfEvent ≤ count * sizeOfEvent := Nat.le_mul_of_pos_left _ some
    have positive : 0 < sizeOfEvent := by decide
    obtain ⟨⟨counted, drawn⟩, spent⟩ := entry.times count _ _ _ _ _ (by omega) run₂
    subst counted
    simp only at spent
    exact ⟨⟨few, drawn⟩, by simp only [eventsCost]; omega⟩

end Sections

/-- A batch whose symbols are all of the dictionary, within the decoder's caps. -/
structure DrawnBatch (source : Symbols X) (batch : EventBatch X) : Prop where
  resource : DrawnAttrs source batch.resource.attributes
  scope : ∀ scope, batch.scope = some scope → DrawnAttrs source scope.attributes
  count : batch.events.length ≤ maxSaneEventCount
  events : ∀ event ∈ batch.events, DrawnEvent source event

theorem yields_readSections (dict : Dict X) (solvent : cap ≤ u64Max ∨ dict.symbols = [])
    (bounded : cap ≤ u64Max + 1) : Yields cap (readSections dict) (DrawnBatch dict.symbols) sectionsCost := by
  have events : Yields cap (readEvents dict) _ eventsCost :=
    fun bytes left events rest left' room => yields_readEvents dict bytes left events rest left'
      (by omega)
  refine (yields_readResourceSection dict solvent).bind fun resource first =>
    (yields_readScopeSection dict solvent).bind fun scope second => events.bind fun events third =>
      yields_pure ⟨first, second, third.1, third.2⟩ ?_
  simp only [sectionsCost]
  omega

variable {limit : Nat} {batch : EventBatch X}

/-- What the decoder accepts is drawn from the dictionary it read, and the dictionary's entries and
the batch's lists and maps are paid for. -/
theorem decodeBatchBody_yields (bounded : limit ≤ u64Max) {payload rest : Bytes} {left : Nat}
    (run : (decodeBatchBody X limit).run payload limit = .ok (batch, rest, left)) :
    ∃ symbols after remaining, (Dict.read X limit).run payload limit = .ok (⟨symbols, limit⟩, after, remaining) ∧
      symbols.length ≤ maxSaneDictEntries ∧ DrawnBatch symbols batch ∧
      left + (dictCost symbols + sectionsCost batch) ≤ limit := by
  rw [decodeBatchBody_eq] at run
  obtain ⟨symbols, after, remaining, dict, sections⟩ := bind_eq_ok.mp run
  obtain ⟨few, paid⟩ := yields_readDictSymbols X limit _ _ _ _ _ (lt_succ_self limit) dict
  have solvent : remaining + 1 ≤ u64Max ∨ symbols = [] := by
    cases symbols with
    | nil => exact .inr rfl
    | cons symbol others =>
      have four : sizeOfSymbol = 4 := rfl
      simp only [dictCost, map_cons, sum_cons] at paid
      exact .inl (by omega)
  obtain ⟨drawn, spent⟩ := yields_readSections ⟨symbols, limit⟩ solvent (by omega) _ _ _ _ _
    (lt_succ_self remaining) sections
  refine ⟨symbols, after, remaining, ?_, few, drawn, by omega⟩
  have whole : Dict.read X limit = readDictSymbols X limit >>= fun symbols => pure ⟨symbols, limit⟩ := by
    simp [Dict.read, readDictSymbols, Decoder.bind_assoc]
  rw [whole, bind_of_ok dict]
  rfl

section Draws

variable {source : Symbols X}

instance draws_scalarField (tag : UInt8) (len : Nat) (payload : Bytes) :
    (writeScalarField tag len payload : Writer X.Symbol).Draws source :=
  .bytes _

instance draws_bytesField (tag : UInt8) (payload : Bytes) :
    (writeBytesField tag payload : Writer X.Symbol).Draws source :=
  .bytes _

theorem draws_symbolField {symbol : X.Symbol} (known : symbol ∈ source) (tag : UInt8) :
    (writeSymbolField tag symbol).Draws source :=
  .entry known _

theorem draws_recordList {α : Type} {items : List α} {writeOne : α → Writer X.Symbol}
    (one : ∀ a ∈ items, (writeOne a).Draws source) : (writeRecordList items writeOne).Draws source := by
  have entries := each fun a mem => @Writer.Draws.sized _ _ _ (one a mem) writeUvarint
  unfold writeRecordList
  infer_instance

theorem draws_exemplar {exemplar : Exemplar X} (drawn : DrawnAttrs source exemplar.filteredAttributes) :
    (writeExemplar exemplar).Draws source := by
  have attributes := drawn.draws_map
  unfold writeExemplar
  infer_instance

/-- A metric's kind holds no symbols. -/
instance draws_metricKind (kind : MetricKind X) : (writeMetricKind kind).Draws source := by
  cases kind <;> simp only [writeMetricKind, writeScalarKind] <;> infer_instance

theorem DrawnMetric.draws {record : MetricRecord X} (drawn : DrawnMetric source (.of record)) :
    (writeMetricRecord record).Draws source := by
  have name := draws_symbolField (drawn.name _ rfl) MetricRecordTag.name
  have unit := option fun s found => draws_symbolField (drawn.unit s found) MetricRecordTag.unit
  have description := option fun s found =>
    draws_symbolField (drawn.description s found) MetricRecordTag.description
  have exemplars := draws_recordList fun e mem => draws_exemplar (drawn.exemplars e mem)
  unfold writeMetricRecord
  infer_instance

theorem DrawnLog.draws {log : LogRecord X} (drawn : DrawnLog source (.of log)) :
    (writeLogRecord log).Draws source := by
  have message := (drawn.message _ rfl).draws
  have eventName := option fun s found => draws_symbolField (drawn.eventName s found) LogTag.eventName
  unfold writeLogRecord writeValue
  infer_instance

theorem DrawnSpanEvent.draws {event : SpanEvent X} (drawn : DrawnSpanEvent source (.of event)) :
    (writeSpanEvent event).Draws source := by
  have name := (drawn.name _ rfl).draws
  have attributes := drawn.attributes.draws_map
  unfold writeSpanEvent writeValue
  infer_instance

theorem draws_spanLink {link : SpanLink X} (drawn : DrawnAttrs source link.attributes) :
    (writeSpanLink link).Draws source := by
  have attributes := drawn.draws_map
  unfold writeSpanLink
  infer_instance

instance draws_spanExt (ext : SpanExt) : (writeSpanExt ext : Writer X.Symbol).Draws source := by
  unfold writeSpanExt
  infer_instance

theorem DrawnSpan.draws {span : SpanRecord X} (drawn : DrawnSpan source (.of span)) :
    (writeSpanRecord span).Draws source := by
  have name := (drawn.name _ rfl).draws
  have events := draws_recordList fun e mem => (drawn.events e mem).draws
  have links := draws_recordList fun l mem => draws_spanLink (drawn.links l mem)
  unfold writeSpanRecord writeValue
  infer_instance

theorem DrawnEvent.draws {event : Event X} (drawn : DrawnEvent source event) :
    (writeEventOmitting none event).Draws source := by
  have attributes := drawn.attributes.draws_map
  have log := option fun log found => @draws_field _ _ _ (drawn.log log found).draws EventTag.log
  have metrics := draws_recordList fun r mem => (drawn.metrics r mem).draws
  have span := option fun span found => @draws_field _ _ _ (drawn.span span found).draws EventTag.span
  unfold writeEventOmitting
  infer_instance

theorem DrawnBatch.draws {batch : EventBatch X} (drawn : DrawnBatch source batch) :
    (batchSections batch).Draws source := by
  have resource : (writeResource batch.resource).Draws source := by
    have attributes := drawn.resource.draws_map
    unfold writeResource
    infer_instance
  have scope : (writeScopeSection batch.scope).Draws source := by
    cases present : batch.scope with
    | none => exact .bytes _
    | some scope =>
      have attributes := (drawn.scope scope present).draws_map
      unfold writeScopeSection writeScope
      infer_instance
  have events := each fun event mem =>
    @Writer.Draws.sized _ _ _ (drawn.events event mem).draws writeUvarint
  unfold batchSections writeSections
  infer_instance

end Draws

/-- The dictionary a batch is written with has no more than the one it was read with. -/
theorem DrawnBatch.subperm {source : Symbols X} (drawn : DrawnBatch source batch) :
    (batchSymbols batch).Subperm source := by
  refine subperm_of_subset (drawn.draws.distinct [] nodup_nil) fun s mem => ?_
  rcases drawn.draws.drawn [] s mem with old | new
  · cases old
  · exact new

theorem dictCost_le_of_subperm {symbols source : Symbols X} (sub : symbols.Subperm source) :
    dictCost symbols ≤ dictCost source := by
  obtain ⟨others, perm, sublist⟩ := sub
  rw [dictCost, ← (perm.map _).sum_eq]
  exact (sublist.map _).sum_le_sum fun _ _ => zero_le _

theorem DrawnEvent.shallow {source : Symbols X} {event : Event X} (drawn : DrawnEvent source event) :
    ShallowEvent event where
  attributes := drawn.attributes.shallowMap
  log log found := le_of_lt_succ ((drawn.log log found).message _ rfl).shallow
  metrics record mem e inside := ((drawn.metrics record mem).exemplars e inside).shallowMap
  span span found :=
    { name := le_of_lt_succ ((drawn.span span found).name _ rfl).shallow
      events := fun e mem =>
        ⟨le_of_lt_succ (((drawn.span span found).events e mem).name _ rfl).shallow,
          ((drawn.span span found).events e mem).attributes.shallowMap⟩
      links := fun l mem => ((drawn.span span found).links l mem).shallowMap }

/-- What the decoder accepts is within its own caps when it is written again, and costs no more than
was paid for it. -/
theorem decodable_of_decodeBatch (bounded : limit ≤ u64Max) {payload : Bytes}
    (accepted : decodeBatch payload limit = .ok batch) (length : (encodeBatch batch).length < 2 ^ 64) :
    Decodable batch ∧ batchCost batch ≤ limit := by
  obtain ⟨left, body⟩ := decodeBatch_eq_ok accepted
  obtain ⟨symbols, _, _, _, few, drawn, paid⟩ := decodeBatchBody_yields bounded body
  have sub := drawn.subperm
  have entries := dictCost_le_of_subperm sub
  have cost : batchCost batch ≤ limit := by
    rw [batchCost]
    omega
  refine ⟨⟨drawn.resource.shallowMap, fun scope found => (drawn.scope scope found).shallowMap,
    fun event mem => (drawn.events event mem).shallow, drawn.count, ?_, length, ?_⟩, cost⟩
  · exact le_trans sub.length_le few
  · exact le_trans cost bounded

theorem canonicalExemplar_ne {exemplar : Exemplar X} (negative : exemplar.value = .f64 F64.negZero) :
    canonicalExemplar exemplar ≠ exemplar := by
  intro same
  have value : (canonicalExemplar exemplar).value = .f64 F64.zero := by
    rw [canonicalExemplar, negative, if_pos (by decide)]
  rw [same, negative] at value
  exact absurd value (by decide)

theorem eq_of_map_eq_self {α : Type} {f : α → α} {items : List α} (same : items.map f = items) {a : α}
    (mem : a ∈ items) : f a = a :=
  map_inj_left.mp (same.trans (map_id items).symm) a mem

theorem canonicalBatch_eq_iff : canonicalBatch batch = batch ↔ NoNegativeZero batch := by
  refine ⟨fun same event mem record inside exemplar here negative => ?_, canonicalBatch_eq⟩
  have events := congrArg EventBatch.events same
  have one := eq_of_map_eq_self events mem
  have records := congrArg Event.metrics one
  have two := eq_of_map_eq_self records inside
  have exemplars := congrArg MetricRecord.exemplars two
  exact canonicalExemplar_ne negative (eq_of_map_eq_self exemplars here)

/-- Whatever bytes the decoder accepts, the batch they hold is accepted again once it is written,
within the same budget, and is the same batch, unless an exemplar of it has the value negative
zero. -/
theorem relay_lossless (payload : Bytes) (limit : UInt64) (batch : EventBatch X)
    (accepted : decodeBatch payload limit.toNat = .ok batch) (length : (encodeBatch batch).length < 2 ^ 64) :
    decodeBatch (encodeBatch batch) limit.toNat = .ok batch ↔ NoNegativeZero batch := by
  have bounded := le_pred_of_lt limit.toNat_lt
  obtain ⟨decodable, cost⟩ := decodable_of_decodeBatch bounded accepted length
  rw [decodeBatch_again bounded decodable cost, Except.ok.injEq, canonicalBatch_eq_iff]

instance (batch : EventBatch X) : Decidable (NoNegativeZero batch) :=
  inferInstanceAs (Decidable (∀ event ∈ batch.events, ∀ record ∈ event.metrics,
    ∀ exemplar ∈ record.exemplars, exemplar.value ≠ .f64 F64.negZero))

/-- A payload of one gauge "m" with one exemplar, whose value field has these eight bytes. -/
def exemplarPayload (value : Bytes) : Bytes :=
  [1, 1, 109, 0, 0, 1, 38, 4, 36, 1, 34, 1, 4, 0, 0, 0, 0, 5, 13, 1, 11, 2, 9, 0] ++ value ++
    [6, 11, 1, 9, 0, 0, 0, 0, 0, 0, 0, 0, 0]

theorem accepted_of_any (payload : Bytes) (check : EventBatch plain → Bool)
    (checked : (decodeBatch payload u64Max).toOption.any check = true) :
    ∃ batch, decodeBatch payload u64Max = .ok batch ∧ check batch = true := by
  cases run : decodeBatch (X := plain) payload u64Max with
  | error e =>
    rw [run] at checked
    cases checked
  | ok batch =>
    rw [run] at checked
    exact ⟨batch, rfl, checked⟩

theorem relay_lossless_sample : ∃ batch : EventBatch Externals.plain,
      decodeBatch (exemplarPayload [0, 0, 0, 0, 0, 0, 0xf0, 0x3f]) u64Max = .ok batch ∧
        decodeBatch (encodeBatch batch) u64Max = .ok batch := by
  obtain ⟨batch, accepted, checked⟩ := accepted_of_any (exemplarPayload [0, 0, 0, 0, 0, 0, 0xf0, 0x3f])
    (fun batch => decide (NoNegativeZero batch) && decide ((encodeBatch batch).length < 2 ^ 64))
    (by decide +kernel)
  rw [and_eq_true, decide_eq_true_iff, decide_eq_true_iff] at checked
  exact ⟨batch, accepted, (relay_lossless _ (UInt64.ofNat u64Max) batch accepted checked.2).mpr checked.1⟩

/-- The value field says negative zero, and the batch written again does not have it. -/
theorem relay_lossless_fails : ¬ ∀ (payload : Bytes) (batch : EventBatch Externals.plain),
      decodeBatch payload u64Max = .ok batch → decodeBatch (encodeBatch batch) u64Max = .ok batch := by
  intro lossless
  obtain ⟨batch, accepted, checked⟩ := accepted_of_any (exemplarPayload [0, 0, 0, 0, 0, 0, 0, 0x80])
    (fun batch => !decide (NoNegativeZero batch) && (decodeBatch (encodeBatch batch) u64Max).toOption.any
      fun again : EventBatch plain => decide (NoNegativeZero again))
    (by decide +kernel)
  rw [lossless _ batch accepted, and_eq_true, not_eq_true', decide_eq_false_iff_not] at checked
  exact checked.1 (of_decide_eq_true checked.2)

end Logit.Native
