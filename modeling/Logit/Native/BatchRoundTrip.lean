import Logit.Native.SpanRoundTrip
import Logit.Native.Hop

namespace Logit.Native

open ByteCodec List Folds Decoder Writer Nat

variable {X : Externals}

/-- An event as it is read back. -/
def canonicalEvent (event : Event X) : Event X := { event with metrics := event.metrics.map canonicalMetric }

/-- Nothing in the event nests too deep to be read. -/
structure ShallowEvent (event : Event X) : Prop where
  attributes : ShallowMap event.attributes
  log : ∀ log, event.log = some log → ShallowValue log.message
  metrics : ∀ record ∈ event.metrics, ShallowMetric record
  span : ∀ span, event.span = some span → ShallowSpan span

/-- What an event's lists and maps are charged. -/
def eventCost (event : Event X) : Nat := attrMapCost event.attributes +
  ((event.log.elim 0 fun log => valueCost log.message) +
  (event.metrics.length * sizeOfMetricRecord + (event.metrics.map metricCost).sum +
  event.span.elim 0 spanCost))

variable (limit : Nat)

theorem folds_event (event : Event X) (shallow : ShallowEvent event) :
    Folds (writeEventOmitting none event) (fun symbols => visitEvent ⟨symbols, limit⟩) Event.start
      (canonicalEvent event) (eventCost event) := by
  have timestamp : ReadsWhole wire (.bytes (writeIvarint event.timestamp) : Writer X.Symbol)
      (fun _ => readIvarint) event.timestamp 0 :=
    ReadsWhole.bytes fun _ => readIvarint_whole event.timestamp
  refine andThen (part timestamp) ?_
  refine append (attrs shallow.attributes) ?_
  refine append (option (fun fields v => { fields with log := v }) rfl
    fun log present => part (reads_logRecord limit log (shallow.log log present))) ?_
  refine append (records (fun record mem => reads_metricRecord limit record (shallow.metrics record mem))) ?_
  exact option (fun (fields : Event X) v => { fields with span := v }) rfl fun span present =>
    part (reads_spanRecord limit span (shallow.span span present))

theorem folds_resource (resource : Resource X) (shallow : ShallowMap resource.attributes) :
    Folds (writeResource resource) (fun symbols => visitResource ⟨symbols, limit⟩) Resource.start
      resource (attrMapCost resource.attributes) := by
  refine Folds.before (attrs shallow) ?_
  refine andThen u32 ?_
  exact optional (fun (fields : Resource X) v => { fields with schemaUrl := v }) rfl fun _ => Folds.bytes

theorem folds_scope (scope : Scope X) (shallow : ShallowMap scope.attributes) :
    Folds (writeScope scope) (fun symbols => visitScope ⟨symbols, limit⟩) Scope.start scope
      (attrMapCost scope.attributes) := by
  refine andThen text ?_
  refine andThen text ?_
  refine Folds.before (attrs shallow) ?_
  refine andThen u32 ?_
  exact optional (fun (fields : Scope X) v => { fields with schemaUrl := v }) rfl fun _ => Folds.bytes

theorem reads_resourceSection (resource : Resource X) (shallow : ShallowMap resource.attributes) :
    Reads wire (.sized writeUvarint (writeResource resource))
      (fun symbols => readResourceSection ⟨symbols, limit⟩) resource
      (attrMapCost resource.attributes) :=
  reads_sized (folds_resource limit resource shallow).read.onSlice

def scopeCost (scope : Option (Scope X)) : Nat := scope.elim 0 fun scope => attrMapCost scope.attributes

theorem reads_scopeSection (scope : Option (Scope X)) (shallow : ∀ s, scope = some s → ShallowMap s.attributes) :
    Reads wire (writeScopeSection scope) (fun symbols => readScopeSection ⟨symbols, limit⟩) scope
      (scopeCost scope) := by
  cases scope with
  | none => exact Reads.bytes fun _ _ _ => rfl
  | some scope =>
    have body := (folds_scope limit scope (shallow scope rfl)).read.onSlice.map some
    refine Reads.andThen (fun _ rest left => readU8_cons 1 rest left) ?_
    exact reads_sized body

theorem readEvents_of_count {dict : Dict X} {input rest : Bytes} {left left' count : Nat}
    (counted : readUvarint.run input left = .ok (count, rest, left')) (few : count ≤ maxSaneEventCount) :
    (readEvents dict).run input left =
      (readCounted dict.limit "batch" 1 sizeOfEvent (readEventEntry dict)).run input left := by
  rw [readEvents, readCounted, bind_of_ok counted, bind_of_ok counted]
  simp only [few]
  rfl

variable (events : List (Event X))

/-- The sections' events, counted and each with its length in front. -/
def writeEvents : Writer X.Symbol := .bytes (writeUvarint events.length) ++
    .each (fun event => .sized writeUvarint (writeEventOmitting none event)) events

def eventsCost : Nat := events.length * sizeOfEvent + (events.map eventCost).sum

theorem reads_events (shallow : ∀ event ∈ events, ShallowEvent event)
    (few : events.length ≤ maxSaneEventCount) :
    Reads wire (writeEvents events) (fun symbols => readEvents ⟨symbols, limit⟩)
      (events.map canonicalEvent) (eventsCost events) := by
  have one : ∀ event ∈ events, Reads wire (.sized writeUvarint (writeEventOmitting none event))
      (fun symbols => readEventEntry ⟨symbols, limit⟩) (canonicalEvent event) (eventCost event) :=
    fun event mem => reads_sized (folds_event limit event (shallow event mem)).read.onSlice
  have list := reads_counted limit "batch" sizeOfEvent one_pos (fun event _ => one_le_length_sized _) one
  intro before symbols sub bounded small rest left enough funded
  have run := list before symbols sub bounded small rest left enough funded
  have fits : events.length < 2 ^ 64 := lt_of_le_of_lt few (by decide)
  simp only [writeEvents, run_append, run_bytes, append_assoc] at run ⊢
  rw [readEvents_of_count (readUvarint_write fits _ left) few]
  exact run

/-- What a dictionary is charged: its texts and its symbols. -/
def dictCost (symbols : Symbols X) : Nat :=
  (symbols.map fun symbol => (utf8Bytes (X.resolve symbol)).length + sizeOfSymbol).sum

theorem reads_dictEntry (symbol : X.Symbol) :
    PlainReads X (writeDictEntry symbol) (readDictEntry X limit) symbol
      ((utf8Bytes (X.resolve symbol)).length + sizeOfSymbol) := by
  intro before symbols _ _ small rest left enough _
  simp only [run_bytes, length_append] at small ⊢
  have fits : (utf8Bytes (X.resolve symbol)).length < 2 ^ 64 := by
    have top : wire.length = 2 ^ 64 := rfl
    omega
  rw [append_assoc, readDictEntry, bind_of_ok (readUvarint_write fits _ left),
    bind_of_ok (carve_append _ _ _ _), bind_of_ok (charge_of_le enough _),
    fromUtf8_utf8Bytes]
  simp [bind_apply, X.intern_resolve]

theorem read_writeDict {symbols : Symbols X} (rest : Bytes) {left : Nat}
    (few : symbols.length ≤ maxSaneDictEntries) (small : (writeDict symbols).length < 2 ^ 64)
    (enough : dictCost symbols ≤ left) (funded : left ≤ u64Max) :
    (Dict.read X limit).run (writeDict symbols ++ rest) left =
      .ok (⟨symbols, limit⟩, rest, left - dictCost symbols) := by
  have list := Reads.times fun symbol (_ : symbol ∈ symbols) => reads_dictEntry limit symbol
  rw [← bytes_flatMap, map_id'] at list
  rw [writeDict, length_append] at small
  have fits : symbols.length < 2 ^ 64 := lt_of_le_of_lt few (by decide)
  have entries : ((Writer.bytes (symbols.flatMap writeDictEntry) : Writer X.Symbol).run []).1.length <
      wire.length := lt_of_le_of_lt (le_add_left _ _) small
  have run := list [] [] (prefix_refl _) (zero_le _) entries rest left enough funded
  rw [writeDict, append_assoc, Dict.read, bind_of_ok (readUvarint_write fits _ left)]
  simp only [few]
  exact bind_of_ok run _

variable (batch : EventBatch X)

/-- A batch as it is read back. -/
def canonicalBatch : EventBatch X := { batch with events := batch.events.map canonicalEvent }

/-- What follows a batch's dictionary. -/
abbrev batchSections : Writer X.Symbol := writeSections batch.resource batch.scope batch.events none

/-- The symbols of a batch's dictionary, in the order of their first use. -/
def batchSymbols : Symbols X := ((batchSections batch).run []).2

theorem encodeBatch_eq : encodeBatch batch = writeDict (batchSymbols batch) ++ ((batchSections batch).run []).1 :=
  rfl

/-- What all but the dictionary is charged. -/
def sectionsCost : Nat :=
  attrMapCost batch.resource.attributes + (scopeCost batch.scope + eventsCost batch.events)

/-- The budget a batch is charged when it is read: the memory of the lists it is rebuilt into. -/
def batchCost : Nat := dictCost (batchSymbols batch) + sectionsCost batch

/-- A batch within the decoder's caps, and of a size that a 64-bit process can hold. -/
structure Decodable (batch : EventBatch X) : Prop where
  resource : ShallowMap batch.resource.attributes
  scope : ∀ scope, batch.scope = some scope → ShallowMap scope.attributes
  shallow : ∀ event ∈ batch.events, ShallowEvent event
  events : batch.events.length ≤ maxSaneEventCount
  symbols : (batchSymbols batch).length ≤ maxSaneDictEntries
  length : (encodeBatch batch).length < 2 ^ 64
  cost : batchCost batch ≤ u64Max

/-- The sections' reader, once the dictionary is known. -/
def readSections (dict : Dict X) : Read (EventBatch X) := do
  let resource ← readResourceSection dict
  let scope ← readScopeSection dict
  let events ← readEvents dict
  pure ⟨resource, scope, events⟩

theorem reads_sections (decodable : Decodable batch) :
    Reads wire (batchSections batch)
      (fun symbols => readSections ⟨symbols, limit⟩) (canonicalBatch batch) (sectionsCost batch) := by
  refine Reads.bind (reads_resourceSection limit batch.resource decodable.resource) ?_
  refine Reads.bind (reads_scopeSection limit batch.scope decodable.scope) ?_
  exact (reads_events limit batch.events decodable.shallow decodable.events).map
    fun events => EventBatch.mk batch.resource batch.scope events

/-- A batch's own bytes are read back as the batch, whatever follows them. -/
theorem decodeBatchBody_encodeBatch {batch : EventBatch X} (decodable : Decodable batch) (rest : Bytes)
    {left : Nat} (enough : batchCost batch ≤ left) (funded : left ≤ u64Max) :
    (decodeBatchBody X limit).run (encodeBatch batch ++ rest) left =
      .ok (canonicalBatch batch, rest, left - batchCost batch) := by
  have length : (writeDict (batchSymbols batch)).length + ((batchSections batch).run []).1.length < 2 ^ 64 := by
    rw [← length_append]
    exact decodable.length
  have few : (batchSymbols batch).length ≤ wire.table := le_trans decodable.symbols (by decide)
  rw [batchCost] at enough
  have dict := read_writeDict limit (((batchSections batch).run []).1 ++ rest)
    decodable.symbols (by omega) (by omega : dictCost (batchSymbols batch) ≤ left) funded
  have sections := reads_sections limit batch decodable [] (batchSymbols batch) (prefix_refl _) few
    (by rw [show wire.length = 2 ^ 64 from rfl]; omega) rest (left - dictCost (batchSymbols batch))
    (by omega) (by rw [show wire.budget = u64Max from rfl]; omega)
  rw [encodeBatch_eq, append_assoc, decodeBatchBody, bind_of_ok dict, batchCost, ← Nat.sub_sub]
  exact sections

theorem decodeBatch_again {batch : EventBatch X} {limit : Nat} (bounded : limit ≤ u64Max)
    (decodable : Decodable batch) (cost : batchCost batch ≤ limit) :
    decodeBatch (encodeBatch batch) limit = .ok (canonicalBatch batch) := by
  have body := decodeBatchBody_encodeBatch limit decodable [] cost bounded
  rw [append_nil] at body
  rw [decodeBatch, decodeWith, decodeBatchReader, bind_of_ok body]
  rfl

end Logit.Native
