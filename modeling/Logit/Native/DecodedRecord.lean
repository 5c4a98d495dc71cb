import Logit.Native.Decoded

namespace Logit.Native

open ByteCodec Option Nat List
open ByteCodec.Decoder

variable {X : Externals} {α σ : Type} {cap : Nat}

/-- What every visit keeps holds of the fields read, and what they cost was paid for. -/
theorem yields_fields {visit : σ → UInt8 → Read σ} (good : σ → Prop) (cost : σ → Nat)
    (step : ∀ fields tag, good fields → Yields cap (visit fields tag) good fun f => cost f - cost fields)
    {fields : σ} (start : good fields) (free : cost fields = 0) :
    Yields cap (forEachField visit fields) good cost := by
  have loop (rounds : Nat) : ∀ fields, good fields →
      Yields cap (forEachFieldLoop visit rounds fields) good fun f => cost f - cost fields := by
    induction rounds with
    | zero => exact fun fields holds => yields_pure holds (Nat.sub_self _)
    | succ rounds ih =>
      intro fields holds
      refine Yields.after fun done => Yields.ite (yields_pure holds (Nat.sub_self _)) ?_
      refine Yields.after fun tag => Yields.after fun len => Yields.after fun field => ?_
      refine ((step fields tag holds).inside field _).bind fun fields' holds' => ?_
      refine (ih fields' holds').mono (fun _ kept => kept) fun f _ => ?_
      omega
  intro body left f rest left' room run
  obtain ⟨holds, paid⟩ := loop body.length fields start _ _ _ _ _ room run
  simp only [free] at paid
  exact ⟨holds, paid⟩

section Visits

variable {good : α → Prop} {cost : α → Nat} {read : Read α} {goodFields : σ → Prop}
  {costFields : σ → Nat} {fields : σ} {update : α → σ}

/-- A field that replaces one, or adds to one, at the cost of what was read. -/
theorem yields_set (inner : Yields cap read good cost) (kept : ∀ v, good v → goodFields (update v))
    (paid : ∀ v, costFields (update v) ≤ costFields fields + cost v) :
    Yields cap (update <$> read) goodFields fun f => costFields f - costFields fields :=
  inner.map kept fun v _ => by
    have enough := paid v
    omega

theorem yields_note [Frugal read] (kept : ∀ v, goodFields (update v))
    (same : ∀ v, costFields (update v) = costFields fields) :
    Yields cap (update <$> read) goodFields fun f => costFields f - costFields fields :=
  yields_set Frugal.yields (fun v _ => kept v) fun v => by
    rw [same v]
    exact le_add_right _ _

theorem yields_clear (holds : goodFields fields) :
    Yields cap (clear fields) goodFields fun f => costFields f - costFields fields :=
  Yields.after fun _ => yields_pure holds (Nat.sub_self _)

end Visits

theorem yields_require (what : String) (o : Option α) :
    Yields cap (require what o) (fun a => o = some a) (fun _ => 0) := by
  cases o with
  | none => exact yields_fail _ _ _
  | some a => exact yields_pure rfl rfl

/-- A record whose fields, taken apart again, are those that were read. -/
theorem yields_record {read : Read σ} {next : σ → Read α} {fieldsOf : α → σ} {good : σ → Prop} {cost : σ → Nat}
    (inner : Yields cap read good cost)
    (made : ∀ fields, Yields cap (next fields) (fun a => fieldsOf a = fields) fun _ => 0) :
    Yields cap (read >>= next) (fun a => good (fieldsOf a)) fun a => cost (fieldsOf a) := by
  refine inner.bind fun fields holds => (made fields).mono (fun a same => ?_) fun a same => ?_
  · rw [same]
    exact holds
  · rw [same, Nat.sub_self]

theorem forall_some {P : α → Prop} {v : α} (holds : P v) : ∀ a, some v = some a → P a := by
  rintro _ ⟨⟩
  exact holds

theorem yields_recordList (limit size : Nat) {readOne : Read α} {good : α → Prop} {cost : α → Nat}
    (inner : Yields u64Max readOne good cost) :
    Yields u64Max (readRecordList limit size readOne) (fun items => ∀ a ∈ items, good a)
      (fun items => items.length * size + (items.map cost).sum) :=
  yields_counted limit "record list" 1 size <| Yields.after fun _ =>
    Yields.after fun item => inner.inside item _

variable (limit : Nat)

theorem yields_countedScalars (what : String) (minWire size : Nat) {read : Read α} [Frugal read] :
    Yields u64Max (readCounted limit what minWire size read) (fun _ => True)
      (fun items => items.length * size) :=
  (yields_counted limit what minWire size Frugal.yields).mono (fun _ _ => trivial) fun _ _ =>
    le_add_right _ _

theorem yields_readExponentialBuckets :
    Yields u64Max (readExponentialBuckets limit) (fun _ => True) (fun b => b.2.length * 8) :=
  Yields.after fun _ =>
    (yields_countedScalars limit "exponential buckets" 1 8).bind fun _ _ => yields_pure trivial (Nat.sub_self _)

theorem yields_readSamples : Yields u64Max (readSamples limit) (fun _ => True) (fun s => s.values.length * 8) :=
  (yields_countedScalars limit "samples" 8 8).head fun _ => Yields.after fun _ => yields_pure rfl rfl

theorem yields_readSetMembers :
    Yields u64Max (readSetMembers limit) (fun _ => True) (fun members => members.length * sizeOfBytes) :=
  yields_countedScalars limit "set members" 1 sizeOfBytes

theorem yields_readHistogram :
    Yields u64Max (readHistogram limit) (fun _ => True) (fun h => h.buckets.length * 16) :=
  (yields_countedScalars limit "histogram buckets" 9 16).head fun _ =>
    Yields.after fun _ => Yields.after fun _ => Yields.after fun _ => Yields.after fun _ => yields_pure rfl rfl

theorem yields_readExpHistogram : Yields u64Max (readExpHistogram limit) (fun _ => True)
      (fun e => e.positive.2.length * 8 + e.negative.2.length * 8) := by
  refine Yields.after fun _ => Yields.after fun _ => Yields.after fun _ => ?_
  refine (yields_readExponentialBuckets limit).bind fun positive _ =>
    (yields_readExponentialBuckets limit).bind fun negative _ => ?_
  refine Yields.after fun _ => Yields.after fun _ => Yields.after fun _ => Yields.after fun _ =>
      Yields.after fun _ => yields_pure trivial ?_
  simp

theorem yields_readSummary : Yields u64Max (readSummary limit) (fun _ => True) (fun s => s.quantiles.length * 16) :=
  (yields_countedScalars limit "summary quantiles" 16 16).head fun _ =>
    Yields.after fun _ => Yields.after fun _ => Yields.after fun _ => yields_pure rfl rfl

theorem yields_readMetricKind :
    Yields u64Max (readMetricKind limit : Read (MetricKind X)) (fun _ => True) metricKindCost := by
  have part {β : Type} {read : Read β} {cost : β → Nat} (inner : Yields u64Max read (fun _ => True) cost)
      {make : β → MetricKind X} (same : ∀ b, metricKindCost (make b) = cost b) :
      Yields u64Max (make <$> read) (fun _ => True) metricKindCost :=
    inner.map (fun _ _ => trivial) fun b _ => le_of_eq (same b)
  refine Yields.after fun kindTag => Yields.after fun _ => Yields.after fun body => Yields.inside ?_ body _
  exact .ite (part Frugal.yields fun _ => rfl) <| .ite (part Frugal.yields fun _ => rfl) <|
    .ite (part Frugal.yields fun _ => rfl) <|
    .ite (part (yields_readSamples limit) fun _ => rfl) <|
    .ite (part Frugal.yields fun _ => rfl) <|
    .ite (part (yields_readSetMembers limit) fun _ => rfl) <|
    .ite (part Frugal.yields fun _ => rfl) <|
    .ite (part (yields_readHistogram limit) fun _ => rfl) <|
    .ite (part (yields_readExpHistogram limit) fun _ => rfl) <|
    .ite (part (yields_readSummary limit) fun _ => rfl) (yields_fail _ _ _)

/-- Attributes whose keys are of the dictionary, in values the decoder accepts. -/
abbrev DrawnAttrs (source : Symbols X) (m : AttrMap X) : Prop := DrawnMap source (maxValueDepth + 1) m

theorem DrawnMap.shallowMap {source : Symbols X} {m : AttrMap X} (drawn : DrawnAttrs source m) : ShallowMap m :=
  fun e mem => le_of_lt_succ (drawn.values e mem).shallow

def exemplarCost (exemplar : Exemplar X) : Nat := attrMapCost exemplar.filteredAttributes

variable (dict : Dict X)

theorem yields_readExemplar :
    Yields u64Max (readExemplar dict) (fun e => DrawnAttrs dict.symbols e.filteredAttributes)
      exemplarCost := by
  refine yields_fields (fun e : Exemplar X => DrawnAttrs dict.symbols e.filteredAttributes)
    exemplarCost (fun fields tag drawn => ?_) (DrawnMap.empty _ _) rfl
  refine .ite (yields_note (fun _ => drawn) fun _ => rfl) <| .ite ?_ <|
    .ite (yields_note (fun _ => drawn) fun _ => rfl) <|
    .ite (yields_set (yields_readAttrMap dict (.inl (le_refl _))) (fun _ m => m)
      fun _ => Nat.le_add_left _ _) (yields_clear drawn)
  exact Yields.after fun _ => Yields.after fun _ => yields_pure drawn (Nat.sub_self _)

/-- The symbols of a record's fields, as far as they are read, are of the dictionary. -/
structure DrawnMetric (source : Symbols X) (fields : MetricFields X) : Prop where
  name : ∀ s, fields.name = some s → s ∈ source
  unit : ∀ s, fields.unit = some s → s ∈ source
  description : ∀ s, fields.description = some s → s ∈ source
  exemplars : ∀ e ∈ fields.exemplars, DrawnAttrs source e.filteredAttributes

/-- What the fields read so far were charged; so for each `cost`. -/
def MetricFields.cost (fields : MetricFields X) : Nat :=
  fields.exemplars.length * sizeOfExemplar + (fields.exemplars.map exemplarCost).sum +
    fields.kind.elim 0 metricKindCost

theorem yields_visitMetricRecord (fields : MetricFields X) (tag : UInt8) (drawn : DrawnMetric dict.symbols fields) :
    Yields u64Max (visitMetricRecord dict fields tag) (DrawnMetric dict.symbols) fun f => f.cost - fields.cost := by
  have symbol {update : X.Symbol → MetricFields X} kept (same : ∀ s, (update s).cost = fields.cost) :
      Yields u64Max (update <$> readSymbolField dict) (DrawnMetric dict.symbols) fun f => f.cost - fields.cost :=
    yields_set (yields_readSymbolField dict) kept fun s => le_add_right_of_le (le_of_eq (same s))
  refine .ite (symbol (fun s known => { drawn with name := forall_some known }) fun _ => rfl) <|
    .ite (symbol (fun s known => { drawn with unit := forall_some known }) fun _ => rfl) <|
    .ite (symbol (fun s known => { drawn with description := forall_some known }) fun _ => rfl) <|
    .ite (yields_note (fun _ => { drawn with }) fun _ => rfl) <|
    .ite (yields_set (yields_recordList dict.limit sizeOfExemplar (yields_readExemplar dict))
      (fun v each => { drawn with exemplars := each }) fun v => ?_) <|
    .ite (yields_note (fun _ => { drawn with }) fun _ => rfl) <|
    .ite (yields_set (yields_readMetricKind dict.limit) (fun _ _ => { drawn with }) fun v => ?_)
      (yields_clear drawn)
  · simp only [MetricFields.cost]
    omega
  · simp only [MetricFields.cost, elim_some]
    omega

theorem yields_readMetricRecord :
    Yields u64Max (readMetricRecord dict) (fun record => DrawnMetric dict.symbols (.of record)) metricCost := by
  refine yields_record (yields_fields (DrawnMetric dict.symbols) MetricFields.cost (yields_visitMetricRecord dict)
    (by constructor <;> intro _ absent <;> cases absent) (by simp [MetricFields.cost, MetricFields.start]))
      fun fields => ?_
  refine (yields_require _ _).bind fun name named => (yields_require _ _).bind fun kind kinded => yields_pure ?_ rfl
  rw [MetricFields.of, ← named, ← kinded]

structure DrawnLog (source : Symbols X) (fields : LogFields X) : Prop where
  message : ∀ v, fields.message = some v → DrawnValue source (maxValueDepth + 1) v
  eventName : ∀ s, fields.eventName = some s → s ∈ source

def LogFields.cost (fields : LogFields X) : Nat := fields.message.elim 0 valueCost

theorem yields_visitLogRecord (fields : LogFields X) (tag : UInt8) (drawn : DrawnLog dict.symbols fields) :
    Yields u64Max (visitLogRecord dict fields tag) (DrawnLog dict.symbols) fun f => f.cost - fields.cost := by
  repeat' apply Yields.ite
  all_goals try exact yields_note (fun _ => { drawn with }) fun _ => rfl
  · exact yields_set (yields_readValue dict) (fun v value => { drawn with message := forall_some value })
      fun v => le_add_left _ _
  · exact yields_set (yields_readSymbolField dict) (fun s known => { drawn with eventName := forall_some known })
      fun _ => le_add_right _ _
  · exact yields_clear drawn

theorem yields_readLogRecord :
    Yields u64Max (readLogRecord dict) (fun log => DrawnLog dict.symbols (.of log)) fun log =>
      valueCost log.message := by
  refine yields_record (yields_fields (DrawnLog dict.symbols) LogFields.cost (yields_visitLogRecord dict)
    (by constructor <;> intro _ absent <;> cases absent) rfl) fun fields => ?_
  refine (yields_require _ _).bind fun message found => yields_pure ?_ rfl
  rw [LogFields.of, ← found]

structure DrawnSpanEvent (source : Symbols X) (fields : SpanEventFields X) : Prop where
  name : ∀ v, fields.name = some v → DrawnValue source (maxValueDepth + 1) v
  attributes : DrawnAttrs source fields.attributes

def SpanEventFields.cost (fields : SpanEventFields X) : Nat :=
  fields.name.elim 0 valueCost + attrMapCost fields.attributes

theorem yields_visitSpanEvent (fields : SpanEventFields X) (tag : UInt8)
    (drawn : DrawnSpanEvent dict.symbols fields) :
    Yields u64Max (visitSpanEvent dict fields tag) (DrawnSpanEvent dict.symbols) fun f => f.cost - fields.cost := by
  repeat' apply Yields.ite
  all_goals try exact yields_note (fun _ => { drawn with }) fun _ => rfl
  · refine yields_set (yields_readValue dict) (fun v value => { drawn with name := forall_some value }) fun v => ?_
    simp only [SpanEventFields.cost, elim_some]
    omega
  · refine yields_set (yields_readAttrMap dict (.inl (le_refl _)))
      (fun m entries => { drawn with attributes := entries }) fun m => ?_
    simp only [SpanEventFields.cost]
    omega
  · exact yields_clear drawn

theorem yields_readSpanEvent :
    Yields u64Max (readSpanEvent dict) (fun event => DrawnSpanEvent dict.symbols (.of event)) spanEventCost := by
  refine yields_record
    (yields_fields (DrawnSpanEvent dict.symbols) SpanEventFields.cost (yields_visitSpanEvent dict)
    ⟨(by intro _ absent; cases absent), DrawnMap.empty _ _⟩ rfl) fun fields => ?_
  refine (yields_require _ _).bind fun name found => yields_pure ?_ rfl
  rw [SpanEventFields.of, ← found]

def linkCost (link : SpanLink X) : Nat := attrMapCost link.attributes

theorem yields_readSpanLink :
    Yields u64Max (readSpanLink dict) (fun link => DrawnAttrs dict.symbols link.attributes) linkCost := by
  refine (yields_fields (fun f => DrawnAttrs dict.symbols f.attributes)
    (fun f => attrMapCost f.attributes) (fun fields tag drawn => ?_) (DrawnMap.empty _ _) rfl).bind
      fun fields drawn => ?_
  · repeat' apply Yields.ite
    all_goals try exact yields_note (fun _ => drawn) fun _ => rfl
    · exact yields_set (yields_readAttrMap dict (.inl (le_refl _))) (fun _ m => m) fun _ => le_add_left _ _
    · exact yields_clear drawn
  · refine (yields_require _ _).bind fun _ _ => (yields_require _ _).bind fun _ _ => yields_pure drawn ?_
    simp [linkCost]

structure DrawnSpan (source : Symbols X) (fields : SpanFields X) : Prop where
  name : ∀ v, fields.name = some v → DrawnValue source (maxValueDepth + 1) v
  events : ∀ event ∈ fields.events, DrawnSpanEvent source (.of event)
  links : ∀ link ∈ fields.links, DrawnAttrs source link.attributes

def SpanFields.cost (fields : SpanFields X) : Nat := fields.name.elim 0 valueCost +
  (fields.events.length * sizeOfSpanEvent + (fields.events.map spanEventCost).sum +
  (fields.links.length * sizeOfSpanLink + (fields.links.map linkCost).sum))

theorem yields_visitSpanRecord (fields : SpanFields X) (tag : UInt8) (drawn : DrawnSpan dict.symbols fields) :
    Yields u64Max (visitSpanRecord dict fields tag) (DrawnSpan dict.symbols) fun f => f.cost - fields.cost := by
  repeat' apply Yields.ite
  all_goals try exact yields_note (fun _ => { drawn with }) fun _ => rfl
  · refine yields_set (yields_readValue dict) (fun v value => { drawn with name := forall_some value }) fun v => ?_
    simp only [SpanFields.cost, elim_some]
    omega
  · refine yields_set (yields_recordList dict.limit sizeOfSpanEvent (yields_readSpanEvent dict))
      (fun v each => { drawn with events := each }) fun v => ?_
    simp only [SpanFields.cost]
    omega
  · refine yields_set (yields_recordList dict.limit sizeOfSpanLink (yields_readSpanLink dict))
      (fun v each => { drawn with links := each }) fun v => ?_
    simp only [SpanFields.cost]
    omega
  · exact yields_clear drawn

theorem yields_readSpanRecord :
    Yields u64Max (readSpanRecord dict) (fun span => DrawnSpan dict.symbols (.of span)) spanCost := by
  refine yields_record (yields_fields (DrawnSpan dict.symbols) SpanFields.cost (yields_visitSpanRecord dict)
    (by constructor <;> intro _ absent <;> cases absent) (by simp [SpanFields.cost, SpanFields.start]))
      fun fields => ?_
  refine (yields_require _ _).bind fun traceId traced => (yields_require _ _).bind fun spanId numbered =>
    (yields_require _ _).bind fun name found => yields_pure ?_ rfl
  rw [SpanFields.of, ← traced, ← numbered, ← found]

/-- Every symbol in the event is from the dictionary. -/
structure DrawnEvent (source : Symbols X) (event : Event X) : Prop where
  attributes : DrawnAttrs source event.attributes
  log : ∀ log, event.log = some log → DrawnLog source (.of log)
  metrics : ∀ record ∈ event.metrics, DrawnMetric source (.of record)
  span : ∀ span, event.span = some span → DrawnSpan source (.of span)

theorem yields_visitEvent (fields : Event X) (tag : UInt8) (drawn : DrawnEvent dict.symbols fields) :
    Yields u64Max (visitEvent dict fields tag) (DrawnEvent dict.symbols)
      fun f => eventCost f - eventCost fields := by
  repeat' apply Yields.ite
  · exact yields_note (fun _ => { drawn with }) fun _ => rfl
  · refine yields_set (yields_readAttrMap dict (.inl (le_refl _)))
      (fun m entries => { drawn with attributes := entries }) fun m => ?_
    simp only [eventCost]
    omega
  · refine yields_set (yields_readLogRecord dict) (fun v read => { drawn with log := forall_some read }) fun v => ?_
    simp only [eventCost, elim_some]
    omega
  · refine yields_set (yields_recordList dict.limit sizeOfMetricRecord (yields_readMetricRecord dict))
      (fun v each => { drawn with metrics := forall_mem_append.mpr ⟨drawn.metrics, each⟩ }) fun v => ?_
    simp only [eventCost, length_append, map_append, sum_append_nat, add_mul]
    omega
  · refine yields_set (yields_readSpanRecord dict) (fun v read => { drawn with span := forall_some read })
      fun v => ?_
    simp only [eventCost, elim_some]
    omega
  · exact yields_clear drawn

theorem yields_readEvent : Yields u64Max (readEvent dict) (DrawnEvent dict.symbols) eventCost :=
  yields_fields (DrawnEvent dict.symbols) eventCost (yields_visitEvent dict)
    ⟨DrawnMap.empty _ _, nofun, nofun, nofun⟩ (by simp [eventCost, Event.start, attrMapCost,
      AttrMap.len, AttrMap.empty, entriesCost])

section Sections

variable (dict : Dict X) (solvent : cap ≤ u64Max ∨ dict.symbols = [])

include solvent

theorem yields_readResource : Yields cap (readResource dict) (fun r => DrawnAttrs dict.symbols r.attributes)
      (fun r => attrMapCost r.attributes) := by
  refine yields_fields (fun r : Resource X => DrawnAttrs dict.symbols r.attributes)
    (fun r => attrMapCost r.attributes) (fun fields tag drawn => ?_) (DrawnMap.empty _ _) rfl
  repeat' apply Yields.ite
  all_goals try exact yields_note (fun _ => drawn) fun _ => rfl
  · exact yields_set (yields_readAttrMap dict solvent) (fun _ m => m) fun _ => le_add_left _ _
  · exact yields_clear drawn

theorem yields_readScope : Yields cap (readScope dict) (fun s => DrawnAttrs dict.symbols s.attributes)
      (fun s => attrMapCost s.attributes) := by
  refine yields_fields (fun s : Scope X => DrawnAttrs dict.symbols s.attributes)
    (fun s => attrMapCost s.attributes) (fun fields tag drawn => ?_) (DrawnMap.empty _ _) rfl
  repeat' apply Yields.ite
  all_goals try exact yields_note (fun _ => drawn) fun _ => rfl
  · exact yields_set (yields_readAttrMap dict solvent) (fun _ m => m) fun _ => le_add_left _ _
  · exact yields_clear drawn

end Sections

end Logit.Native
