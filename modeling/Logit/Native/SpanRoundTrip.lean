import Logit.Native.MetricRoundTrip

namespace Logit.Native

open ByteCodec Folds

variable {X : Externals}

def ShallowValue (v : Value X) : Prop := v.raw.nesting ≤ maxValueDepth

theorem severityFromTag_tag (s : Severity) : severityFromTag (severityTag s) = pure s := by
  cases s <;> rfl

theorem bodyFormatFromTag_tag (f : BodyFormat) : bodyFormatFromTag (bodyFormatTag f) = pure f := by
  cases f <;> rfl

theorem spanKindFromTag_tag (k : SpanKind) : spanKindFromTag (spanKindTag k) = pure k := by
  cases k <;> rfl

theorem spanStatusFromTag_tag (s : SpanStatus) : spanStatusFromTag (spanStatusTag s) = pure s := by
  cases s <;> rfl

variable (limit : Nat) (log : LogRecord X)

abbrev LogFields.of : LogFields X :=
  ⟨some log.message, log.severity, log.bodyFormat, log.trace, log.eventName, log.observedTimestamp,
    log.droppedAttributesCount⟩

theorem folds_logRecord (shallow : ShallowValue log.message) :
    Folds (writeLogRecord log) (fun symbols => visitLogRecord ⟨symbols, limit⟩) LogFields.start
      (.of log) (valueCost log.message) := by
  refine before (part (reads_value limit log.message shallow).whole) ?_
  refine andThen (optional (fun (fields : LogFields X) v => { fields with severity := v }) rfl
    fun s => tag (severityFromTag_tag s)) ?_
  refine andThen (tagged (bodyFormatFromTag_tag log.bodyFormat)) ?_
  refine andThen (optional (fun (fields : LogFields X) v => { fields with trace := v }) rfl fun _ => Folds.trace) ?_
  refine andThen (optional (fun (fields : LogFields X) v => { fields with eventName := v }) rfl fun _ => symbol) ?_
  refine andThen i64 ?_
  exact u32

theorem reads_logRecord (shallow : ShallowValue log.message) :
    ReadsWhole wire (writeLogRecord log) (fun symbols => readLogRecord ⟨symbols, limit⟩) log
      (valueCost log.message) :=
  (folds_logRecord limit log shallow).record rfl

variable (event : SpanEvent X)

def spanEventCost : Nat := valueCost event.name + attrMapCost event.attributes

structure ShallowSpanEvent (event : SpanEvent X) : Prop where
  name : ShallowValue event.name
  attributes : ShallowMap event.attributes

abbrev SpanEventFields.of : SpanEventFields X :=
  ⟨event.timestamp, some event.name, event.attributes, event.droppedAttributesCount⟩

theorem folds_spanEvent (shallow : ShallowSpanEvent event) :
    Folds (writeSpanEvent event) (fun symbols => visitSpanEvent ⟨symbols, limit⟩) SpanEventFields.start
      (.of event) (spanEventCost event) := by
  refine andThen (scalar (length_i64Bytes event.timestamp) (readExactI64_bytes event.timestamp)) ?_
  refine append (part (reads_value limit event.name shallow.name).whole) ?_
  refine before (attrs shallow.attributes) ?_
  exact u32

theorem reads_spanEvent (shallow : ShallowSpanEvent event) :
    ReadsWhole wire (writeSpanEvent event) (fun symbols => readSpanEvent ⟨symbols, limit⟩) event
      (spanEventCost event) :=
  (folds_spanEvent limit event shallow).record rfl

theorem folds_spanLink (link : SpanLink X) (shallow : ShallowMap link.attributes) :
    Folds (writeSpanLink link) (fun symbols => visitSpanLink ⟨symbols, limit⟩) SpanLinkFields.start
      ⟨some link.traceId, some link.spanId, link.attributes, link.flags, link.traceState,
        link.droppedAttributesCount⟩
      (attrMapCost link.attributes) := by
  refine andThen id ?_
  refine andThen id ?_
  refine before (attrs shallow) ?_
  refine andThen u32 ?_
  refine andThen (optional (fun (fields : SpanLinkFields X) v => { fields with traceState := v }) rfl
    fun _ => bytes) ?_
  exact u32

theorem reads_spanLink (link : SpanLink X) (shallow : ShallowMap link.attributes) :
    ReadsWhole wire (writeSpanLink link) (fun symbols => readSpanLink ⟨symbols, limit⟩) link
      (attrMapCost link.attributes) :=
  (folds_spanLink limit link shallow).record rfl

theorem folds_spanExt (ext : SpanExt) :
    Folds (writeSpanExt ext : Writer X.Symbol) (fun _ => visitSpanExt) SpanExt.start ext 0 := by
  refine andThen (optional (fun (fields : SpanExt) v => { fields with statusMessage := v }) rfl fun _ => bytes) ?_
  refine andThen (optional (fun (fields : SpanExt) v => { fields with traceState := v }) rfl fun _ => bytes) ?_
  refine andThen u32 ?_
  refine andThen u32 ?_
  exact u32 (fun _ => rfl) rfl

structure ShallowSpan (span : SpanRecord X) : Prop where
  name : ShallowValue span.name
  events : ∀ event ∈ span.events, ShallowSpanEvent event
  links : ∀ link ∈ span.links, ShallowMap link.attributes

variable (span : SpanRecord X)

/-- What a span's lists and maps are charged. -/
def spanCost : Nat := valueCost span.name +
  (span.events.length * sizeOfSpanEvent + (span.events.map spanEventCost).sum +
  (span.links.length * sizeOfSpanLink + (span.links.map fun link => attrMapCost link.attributes).sum))

/-- A span taken apart into its fields. -/
abbrev SpanFields.of : SpanFields X :=
  ⟨some span.traceId, some span.spanId, span.parentSpanId, some span.name, span.kind, span.status, span.events,
    span.links, span.endTimestamp, span.flags, span.ext⟩

theorem folds_spanRecord (shallow : ShallowSpan span) :
    Folds (writeSpanRecord span) (fun symbols => visitSpanRecord ⟨symbols, limit⟩) SpanFields.start
      (.of span) (spanCost span) := by
  have events := fun event mem => reads_spanEvent limit event (shallow.events event mem)
  have links := fun link mem => reads_spanLink limit link (shallow.links link mem)
  refine andThen id ?_
  refine andThen id ?_
  refine andThen (optional (fun (fields : SpanFields X) v => { fields with parentSpanId := v }) rfl fun _ => id) ?_
  refine append (part (reads_value limit span.name shallow.name).whole) ?_
  refine andThen (tagged (spanKindFromTag_tag span.kind)) ?_
  refine andThen (tagged (spanStatusFromTag_tag span.status)) ?_
  refine append (list events) ?_
  refine before (list links) ?_
  refine andThen (scalar (length_i64Bytes span.endTimestamp) (readExactI64_bytes span.endTimestamp)) ?_
  refine andThen u32 ?_
  exact optional (fun (fields : SpanFields X) v => { fields with ext := v }) rfl fun ext =>
    part (folds_spanExt ext).read

theorem reads_spanRecord (shallow : ShallowSpan span) :
    ReadsWhole wire (writeSpanRecord span) (fun symbols => readSpanRecord ⟨symbols, limit⟩) span
      (spanCost span) :=
  (folds_spanRecord limit span shallow).record rfl

end Logit.Native
