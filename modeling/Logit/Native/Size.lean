import Logit.Native.BatchRoundTrip
import Logit.Frame

namespace Logit.Native

open ByteCodec List Nat Writer

variable {X : Externals} {α : Type}

/-- What a writer's bytes pay for: three for each symbol it adds to the table with some to spare, and
a 1024th of what reading them is charged. -/
structure Pays (w : Writer X.Symbol) (spare cost : Nat) : Prop where
  symbols : ∀ table, 3 * (w.run table).2.length + spare ≤ 3 * table.length + (w.run table).1.length
  charges : ∀ table, cost ≤ 1024 * (w.run table).1.length

namespace Pays

variable {w v : Writer X.Symbol} {a b c d : Nat}

theorem weaken (paid : Pays w a c) (spare : b ≤ a) (cost : d ≤ c) : Pays w b d := by
  refine ⟨fun table => ?_, fun table => le_trans cost (paid.charges table)⟩
  have symbols := paid.symbols table
  omega

theorem free (paid : Pays w a c) : Pays w 0 0 := paid.weaken (zero_le _) (zero_le _)

theorem bytes {part : Bytes} (cost : c ≤ 1024 * part.length) : Pays (.bytes part : Writer X.Symbol) part.length c :=
  ⟨fun _ => le_refl _, fun _ => cost⟩

theorem empty : Pays (.empty : Writer X.Symbol) 0 0 := bytes (zero_le _)

theorem append (first : Pays w a c) (second : Pays v b d) : Pays (w ++ v) (a + b) (c + d) := by
  refine ⟨fun table => ?_, fun table => ?_⟩
  · have one := first.symbols table
    have two := second.symbols (w.run table).2
    simp only [run_append, length_append]
    omega
  · have one := first.charges table
    have two := second.charges (w.run table).2
    simp only [run_append, length_append]
    omega

theorem andThen (first : Pays w 0 0) (second : Pays v 0 c) : Pays (w ++ v) 0 c := by
  have both := first.append second
  rwa [zero_add, zero_add] at both

theorem before (first : Pays w 0 c) (second : Pays v 0 0) : Pays (w ++ v) 0 c := first.append second

theorem sized (inner : Pays w a c) : Pays (.sized writeUvarint w) a (c + 1024) := by
  refine ⟨fun table => ?_, fun table => ?_⟩
  · have symbols := inner.symbols table
    simp only [run_sized, length_append]
    omega
  · have charges := inner.charges table
    have header := one_le_length_writeUvarint (w.run table).1.length
    simp only [run_sized, length_append]
    omega

theorem field {tag : UInt8} (inner : Pays w a c) : Pays (writeField tag w) (a + 2) (c + 1024) := by
  refine ⟨fun table => ?_, fun table => ?_⟩
  · have symbols := inner.symbols table
    have header := one_le_length_writeUvarint (w.run table).1.length
    simp only [writeField, run_append, run_bytes, run_sized, length_append, length_singleton]
    omega
  · have charges := inner.charges table
    simp only [writeField, run_append, run_bytes, run_sized, length_append, length_singleton]
    omega

theorem part {tag : UInt8} (inner : Pays w a c) : Pays (writeField tag w) 0 c :=
  inner.field.weaken (zero_le _) (le_add_right _ _)

theorem scalar {tag : UInt8} {len : Nat} {payload : Bytes} :
    Pays (writeScalarField tag len payload : Writer X.Symbol) 0 0 :=
  (bytes (zero_le _)).free

theorem when {condition : Bool} (inner : Pays w 0 c) (elided : condition = false → c = 0) :
    Pays (.when condition w) 0 c := by
  cases condition with
  | true => exact inner
  | false =>
    rw [elided rfl]
    exact empty

theorem optional {condition : Bool} (inner : Pays w 0 0) : Pays (.when condition w) 0 0 := inner.when fun _ => rfl

variable {part : α → Writer X.Symbol} {cost : α → Nat}

theorem option {value : Option α} (inner : ∀ a, value = some a → Pays (part a) 0 (cost a)) :
    Pays (.option value part) 0 (value.elim 0 cost) := by
  cases value with
  | none => exact empty
  | some a => exact inner a rfl

theorem present {value : Option α} (inner : ∀ a, Pays (part a) 0 0) : Pays (.option value part) 0 0 := by
  cases value with
  | none => exact empty
  | some a => exact inner a

theorem each {items : List α} (one : ∀ a ∈ items, Pays (part a) 0 (cost a)) :
    Pays (Writer.each part items) 0 (items.map cost).sum := by
  induction items with
  | nil => exact empty
  | cons a others ih => exact (one a (by simp)).append (ih fun b mem => one b (by simp [mem]))

/-- A counted list whose elements each pay for their own place in it. -/
theorem counted {items : List α} {size count : Nat} (small : size ≤ 1024)
    (one : ∀ a ∈ items, Pays (part a) 0 (cost a + 1024)) :
    Pays (.bytes (writeUvarint count) ++ Writer.each part items) 1
      (items.length * size + (items.map cost).sum) := by
  have list := Pays.each one
  have total : items.length * size + (items.map cost).sum ≤ (items.map fun a => cost a + 1024).sum := by
    clear list one
    induction items with
    | nil => simp
    | cons a others ih =>
      simp only [map_cons, sum_cons, length_cons, succ_mul]
      omega
  have header : Pays (.bytes (writeUvarint count) : Writer X.Symbol) 1 0 :=
    (bytes (zero_le _)).weaken (one_le_length_writeUvarint count) (zero_le _)
  exact (header.append list).weaken (le_refl _) (by omega)

/-- A reference to a symbol, with bytes beside it that pay for the symbol. -/
theorem symbol {tag : UInt8} {symbol : X.Symbol} : Pays (writeSymbolField tag symbol) 0 0 := by
  refine ⟨fun table => ?_, fun _ => zero_le _⟩
  have grown : (firstUse table symbol).2.length ≤ table.length + 1 := by
    unfold firstUse
    split <;> simp
  simp only [writeSymbolField, run_entry, length_append, length_u32Bytes]
  omega

end Pays

theorem pays_entry {e : X.Symbol × RawValue X} {c : Nat} (inner : Pays (writeRawValue e.2) 2 c) :
    Pays (writeEntry e) 0 c := by
  have grown (table : Symbols X) : (firstUse table e.1).2.length ≤ table.length + 1 := by
    unfold firstUse
    split <;> simp
  refine ⟨fun table => ?_, fun table => ?_⟩
  · have key := one_le_length_writeUvarint (dictIndex (firstUse table e.1).1).toNat
    have symbols := inner.symbols (firstUse table e.1).2
    have more := grown table
    simp only [writeEntry, run_append, run_entry, length_append]
    omega
  · have charges := inner.charges (firstUse table e.1).2
    simp only [writeEntry, run_append, run_entry, length_append]
    omega

theorem pays_entries {entries : RawEntries X} (count : Nat)
    (one : ∀ e ∈ entries, Pays (writeRawValue e.2) 2 (rawCost e.2 + 1024)) :
    Pays (.bytes (writeUvarint count) ++ writeEntries entries) 1
      (entries.length * sizeOfEntry + entriesCost entries) := by
  rw [writeEntries_eq, entriesCost_eq]
  exact Pays.counted (by decide) fun e mem => pays_entry (one e mem)

/-- Induction on the value's tree; a value's own tag and length pay for its place in a list. -/
theorem pays_rawValue (raw : RawValue X) : Pays (writeRawValue raw) 2 (rawCost raw + 1024) := by
  have scalar (tag : UInt8) (payload : Bytes) :
      Pays (writeField tag (.bytes payload) : Writer X.Symbol) 2 (0 + 1024) :=
    (Pays.bytes (zero_le _)).free.field
  induction raw using RawValue.induction with
  | null | bool v | i64 v | u64 v | f64 v | bytes v | str v | timestamp v => rw [writeRawValue]; exact scalar _ _
  | array items ih =>
    have list : Pays (.bytes (writeUvarint items.length) ++ Writer.each writeRawValue items) 1
        (items.length * sizeOfValue + (items.map rawCost).sum) :=
      Pays.counted (by decide) fun v mem => (ih v mem).weaken (zero_le _) (le_refl _)
    rw [writeRawValue, rawCost, writeItems_eq, itemsCost_eq]
    exact list.field.weaken (by omega) (le_refl _)
  | map entries ih =>
    have list := pays_entries entries.length ih
    rw [writeRawValue, rawCost]
    refine ⟨(list.field.weaken (by omega) (le_refl _)).symbols, fun table => ?_⟩
    -- The tag and the length pay for the map itself.
    have charges := list.charges table
    have header := one_le_length_writeUvarint
      ((Writer.bytes (writeUvarint entries.length) ++ writeEntries entries).run table).1.length
    have map : sizeOfAttrMap ≤ 1024 := by decide
    simp only [writeField, run_append (Writer.bytes _), run_bytes, run_sized,
      length_append, length_singleton] at charges header ⊢
    omega

theorem pays_value (v : Value X) : Pays (writeValue v) 0 (valueCost v) :=
  (pays_rawValue v.raw).weaken (zero_le _) (le_add_right _ _)

theorem pays_attrMap (m : AttrMap X) : Pays (writeAttrMap m) 0 (attrMapCost m) :=
  (pays_entries m.len fun e _ => pays_rawValue e.2).weaken (zero_le _) (le_refl _)

theorem pays_attrs {tag : UInt8} (m : AttrMap X) :
    Pays (.when (!m.isEmpty) (writeField tag (writeAttrMap m))) 0 (attrMapCost m) := by
  refine (pays_attrMap m).part.when fun none => ?_
  have same := AttrMap.eq_empty_of_isEmpty (by simpa using none)
  rw [same]
  rfl

theorem pays_records {items : List α} {writeOne : α → Writer X.Symbol} {cost : α → Nat} {size : Nat}
    (small : size ≤ 1024) (one : ∀ item ∈ items, Pays (writeOne item) 0 (cost item)) :
    Pays (writeRecordList items writeOne) 0 (items.length * size + (items.map cost).sum) :=
  (Pays.counted small fun item mem => (one item mem).sized).weaken (zero_le _) (le_refl _)

theorem pays_list {tag : UInt8} {items : List α} {writeOne : α → Writer X.Symbol} {cost : α → Nat}
    {size : Nat} (small : size ≤ 1024) (one : ∀ item ∈ items, Pays (writeOne item) 0 (cost item)) :
    Pays (.when (!items.isEmpty) (writeField tag (writeRecordList items writeOne))) 0
      (items.length * size + (items.map cost).sum) := by
  refine (pays_records small one).part.when fun none => ?_
  have same : items = [] := by simpa using none
  simp [same]

theorem length_le_flatMap (items : List α) (part : α → Bytes) (long : ∀ a, 1 ≤ (part a).length) :
    items.length ≤ (items.flatMap part).length := by
  induction items with
  | nil => exact le_refl _
  | cons a others ih =>
    have here := long a
    simp only [flatMap_cons, length_append, length_cons]
    omega

theorem metricKindCost_le (kind : MetricKind X) (table : Symbols X) :
    metricKindCost kind ≤ 1024 * ((writeMetricKind kind).run table).1.length := by
  have payload {tag : UInt8} {part : Bytes} {c : Nat} (paid : c ≤ 1024 * part.length) :
      c ≤ 1024 * ((writeField tag (.bytes part : Writer X.Symbol)).run table).1.length :=
    (Pays.bytes paid).part.charges table
  cases kind with
  | sum | gauge | gaugeDelta | distribution | set => exact zero_le _
  | samples s =>
    have list := length_le_flatMap s.values f64Bytes (by simp)
    refine payload ?_
    simp only [metricKindCost, samplesBytes, length_append]
    omega
  | setMembers members =>
    have list := length_le_flatMap members (fun m => writeUvarint m.length ++ m)
      fun m => by
        have header := one_le_length_writeUvarint m.length
        rw [length_append]
        omega
    refine payload ?_
    simp only [metricKindCost, setMembersBytes, sizeOfBytes, length_append] at list ⊢
    omega
  | histogram h =>
    have list := length_le_flatMap h.buckets
      (fun bucket => f64Bytes bucket.1 ++ writeUvarint bucket.2.toNat) (by simp; omega)
    refine payload ?_
    simp only [metricKindCost, histogramBytes, length_append] at list ⊢
    omega
  | exponentialHistogram e =>
    have counts (buckets : List UInt64) := length_le_flatMap buckets (fun count => writeUvarint count.toNat)
        fun count => one_le_length_writeUvarint count.toNat
    have positive := counts e.positive.2
    have negative := counts e.negative.2
    refine payload ?_
    simp only [metricKindCost, expHistogramBytes, writeExponentialBuckets, length_append]
    omega
  | summary s =>
    have list := length_le_flatMap s.quantiles (fun quantile => f64Bytes quantile.1 ++ f64Bytes quantile.2)
      (by simp)
    refine payload ?_
    simp only [metricKindCost, summaryBytes, length_append] at list ⊢
    omega

theorem pays_metricKind (kind : MetricKind X) : Pays (writeMetricKind kind) 0 (metricKindCost kind) := by
  refine ⟨fun table => ?_, metricKindCost_le kind⟩
  have same : ((writeMetricKind kind).run table).2 = table := by cases kind <;> rfl
  rw [same]
  omega

theorem pays_exemplar (exemplar : Exemplar X) :
    Pays (writeExemplar exemplar) 0 (attrMapCost exemplar.filteredAttributes) :=
  (Pays.optional .scalar).andThen ((Pays.optional .scalar).andThen
    ((Pays.present fun _ => (Pays.bytes (zero_le _)).free.part).andThen (pays_attrs _)))

theorem pays_metricRecord (record : MetricRecord X) : Pays (writeMetricRecord record) 0 (metricCost record) :=
  Pays.symbol.andThen ((Pays.present fun _ => .symbol).andThen ((Pays.present fun _ => .symbol).andThen
    ((Pays.optional .scalar).andThen ((pays_list (by decide) fun exemplar _ => pays_exemplar exemplar).append
        ((Pays.optional .scalar).andThen (pays_metricKind record.kind).part)))))

theorem pays_logRecord (log : LogRecord X) : Pays (writeLogRecord log) 0 (valueCost log.message) :=
  (pays_value log.message).part.before ((Pays.present fun _ => .scalar).andThen ((Pays.optional .scalar).andThen
      ((Pays.present fun _ => (Pays.bytes (zero_le _)).free.part).andThen ((Pays.present fun _ => .symbol).andThen
          ((Pays.optional .scalar).andThen (Pays.optional .scalar))))))

theorem pays_spanEvent (event : SpanEvent X) : Pays (writeSpanEvent event) 0 (spanEventCost event) :=
  Pays.scalar.andThen ((pays_value event.name).part.append
    ((pays_attrs event.attributes).before (Pays.optional .scalar)))

theorem pays_spanLink (link : SpanLink X) : Pays (writeSpanLink link) 0 (attrMapCost link.attributes) :=
  Pays.scalar.andThen (Pays.scalar.andThen ((pays_attrs link.attributes).before ((Pays.optional .scalar).andThen
      ((Pays.present fun _ => .scalar).andThen (Pays.optional .scalar)))))

theorem pays_spanExt (ext : SpanExt) : Pays (writeSpanExt ext : Writer X.Symbol) 0 0 :=
  (Pays.present fun _ => .scalar).andThen ((Pays.present fun _ => .scalar).andThen
    ((Pays.optional .scalar).andThen ((Pays.optional .scalar).andThen (Pays.optional .scalar))))

theorem pays_spanRecord (span : SpanRecord X) : Pays (writeSpanRecord span) 0 (spanCost span) :=
  Pays.scalar.andThen (Pays.scalar.andThen ((Pays.present fun _ => .scalar).andThen
    ((pays_value span.name).part.append ((Pays.optional .scalar).andThen ((Pays.optional .scalar).andThen
        ((pays_list (by decide) fun event _ => pays_spanEvent event).append
          ((pays_list (by decide) fun link _ => pays_spanLink link).before
            (Pays.scalar.andThen ((Pays.optional .scalar).andThen
              (Pays.present fun ext => (pays_spanExt ext).part))))))))))

theorem pays_event (event : Event X) : Pays (writeEventOmitting none event) 0 (eventCost event) :=
  (Pays.bytes (zero_le _)).free.part.andThen ((pays_attrs event.attributes).append
    ((Pays.option fun log _ => (pays_logRecord log).part).append
      ((pays_list (by decide) fun record _ => pays_metricRecord record).append
        (Pays.option fun span _ => (pays_spanRecord span).part))))

theorem pays_resource (resource : Resource X) : Pays (writeResource resource) 0 (attrMapCost resource.attributes) :=
  (pays_attrs resource.attributes).before
    ((Pays.optional .scalar).andThen (Pays.present fun _ => .scalar))

theorem pays_scope (scope : Scope X) : Pays (writeScope scope) 0 (attrMapCost scope.attributes) :=
  (Pays.optional .scalar).andThen ((Pays.optional .scalar).andThen ((pays_attrs scope.attributes).before
      ((Pays.optional .scalar).andThen (Pays.present fun _ => .scalar))))

theorem pays_sections (batch : EventBatch X) :
    Pays (batchSections batch) 0 (sectionsCost batch) := by
  have scope : Pays (writeScopeSection batch.scope) 0 (scopeCost batch.scope) := by
    cases batch.scope with
    | none => exact (Pays.bytes (zero_le _)).free
    | some scope =>
      exact (Pays.bytes (zero_le _)).free.andThen ((pays_scope scope).sized.weaken (zero_le _) (le_add_right _ _))
  have events : Pays (.bytes (writeUvarint batch.events.length) ++
      .each (fun event => .sized writeUvarint (writeEventOmitting none event)) batch.events) 0
      (eventsCost batch.events) :=
    (Pays.counted (by decide) fun event _ => (pays_event event).sized).weaken (zero_le _) (le_refl _)
  exact ((pays_resource batch.resource).sized.weaken (zero_le _) (le_add_right _ _)).append (scope.append events)

theorem four_mul_events_le (batch : EventBatch X) (table : Symbols X) :
    4 * batch.events.length ≤ ((batchSections batch).run table).1.length := by
  have one (event : Event X) (table : Symbols X) :
      4 ≤ ((Writer.sized writeUvarint (writeEventOmitting none event)).run table).1.length := by
    have header := one_le_length_writeUvarint ((writeEventOmitting none event).run table).1.length
    have time := one_le_length_writeUvarint (writeIvarint event.timestamp).length
    have value := one_le_length_writeUvarint (zigzagEncode event.timestamp).toNat
    have start : 3 ≤ ((writeEventOmitting none event).run table).1.length := by
      simp only [writeEventOmitting, writeField, run_append, run_bytes, run_sized,
        length_append, length_singleton, writeIvarint] at time ⊢
      omega
    simp only [run_sized, length_append]
    omega
  have list := length_each fun event (_ : event ∈ batch.events) => one event
  simp only [batchSections, writeSections, run_append, length_append]
  have events := list ((Writer.bytes (writeUvarint batch.events.length)).run ((writeScopeSection batch.scope).run
      ((Writer.sized writeUvarint (writeResource batch.resource)).run table).2).2).2
  omega

theorem dictCost_le (symbols : Symbols X) :
    dictCost symbols ≤ 5 * (writeDict symbols).length ∧ symbols.length ≤ (writeDict symbols).length := by
  have list : dictCost symbols ≤ 5 * (symbols.flatMap writeDictEntry).length ∧
      symbols.length ≤ (symbols.flatMap writeDictEntry).length := by
    induction symbols with
    | nil => exact ⟨le_refl _, le_refl _⟩
    | cons symbol others ih =>
      have header := one_le_length_writeUvarint (utf8Bytes (X.resolve symbol)).length
      simp only [dictCost, map_cons, sum_cons, sizeOfSymbol, flatMap_cons, length_append, length_cons] at ih ⊢
      omega
  rw [writeDict, length_append]
  omega

/-- The values of a batch are nested no deeper than a reader goes. -/
structure ShallowBatch (batch : EventBatch X) : Prop where
  resource : ShallowMap batch.resource.attributes
  scope : ∀ scope, batch.scope = some scope → ShallowMap scope.attributes
  events : ∀ event ∈ batch.events, ShallowEvent event

/-- A batch whose payload a frame can carry is within every cap of the decoder's that its values'
nesting is not a matter of. -/
theorem decodable_of_length_le {batch : EventBatch X} (shallow : ShallowBatch batch)
    (small : (encodeBatch batch).length ≤ Frame.maxSaneUncompressedLen) : Decodable batch := by
  have cap : Frame.maxSaneUncompressedLen = 67108864 := rfl
  have parts : (encodeBatch batch).length = (writeDict (batchSymbols batch)).length +
      ((batchSections batch).run []).1.length := by
    rw [encodeBatch_eq, length_append]
  have dict := dictCost_le (batchSymbols batch)
  have symbols : 3 * (batchSymbols batch).length ≤ ((batchSections batch).run []).1.length := by
    have paid := (pays_sections batch).symbols []
    rw [length_nil] at paid
    rw [batchSymbols]
    omega
  have charges := (pays_sections batch).charges []
  have events := four_mul_events_le batch []
  refine ⟨shallow.resource, shallow.scope, shallow.events, ?_, ?_, ?_, ?_⟩
  · rw [show maxSaneEventCount = 16777216 from rfl]
    omega
  · rw [show maxSaneDictEntries = 16777216 from rfl]
    omega
  · omega
  · rw [batchCost, show u64Max = 18446744073709551615 from rfl]
    omega

end Logit.Native
