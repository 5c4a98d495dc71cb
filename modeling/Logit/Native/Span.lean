import Logit.Native.Metric

namespace Logit.Native

open ByteCodec

variable {X : Externals}

def severityTag : Severity → UInt8
  | .trace => 0
  | .debug => 1
  | .info => 2
  | .warn => 3
  | .error => 4
  | .fatal => 5

variable (tag : UInt8)

def severityFromTag : Read Severity :=
  if tag = 0 then pure .trace
  else if tag = 1 then pure .debug
  else if tag = 2 then pure .info
  else if tag = 3 then pure .warn
  else if tag = 4 then pure .error
  else if tag = 5 then pure .fatal
  else .fail (.malformed s!"unknown severity tag {tag}")

def bodyFormatTag : BodyFormat → UInt8
  | .raw => 0
  | .json => 1
  | .structured => 2

def bodyFormatFromTag : Read BodyFormat :=
  if tag = 0 then pure .raw
  else if tag = 1 then pure .json
  else if tag = 2 then pure .structured
  else .fail (.malformed s!"unknown body_format tag {tag}")

def spanKindTag : SpanKind → UInt8
  | .internal => 0
  | .server => 1
  | .client => 2
  | .producer => 3
  | .consumer => 4

def spanKindFromTag : Read SpanKind :=
  if tag = 0 then pure .internal
  else if tag = 1 then pure .server
  else if tag = 2 then pure .client
  else if tag = 3 then pure .producer
  else if tag = 4 then pure .consumer
  else .fail (.malformed s!"unknown span kind tag {tag}")

def spanStatusTag : SpanStatus → UInt8
  | .unset => 0
  | .ok => 1
  | .error => 2

def spanStatusFromTag : Read SpanStatus :=
  if tag = 0 then pure .unset
  else if tag = 1 then pure .ok
  else if tag = 2 then pure .error
  else .fail (.malformed s!"unknown span status tag {tag}")

/-- A field that is one byte. -/
def readTag {α : Type} (fromTag : UInt8 → Read α) : Read α := do
  let tag ← readU8
  fromTag tag

namespace LogTag

def message : UInt8 := 1
def severity : UInt8 := 2
def bodyFormat : UInt8 := 3
def trace : UInt8 := 4
def eventName : UInt8 := 5
def observedTimestamp : UInt8 := 6
def droppedAttributesCount : UInt8 := 7

end LogTag

/-- The message is always written, the rest unless it is the default. -/
def writeLogRecord (log : LogRecord X) : Writer X.Symbol := writeField LogTag.message (writeValue log.message) ++
  (.option log.severity (fun s => writeScalarField LogTag.severity 1 [severityTag s]) ++
  (.when (log.bodyFormat != .raw)
      (writeScalarField LogTag.bodyFormat 1 [bodyFormatTag log.bodyFormat]) ++
  (.option log.trace (fun trace => writeField LogTag.trace (.bytes (writeTraceRef trace))) ++
  (.option log.eventName (writeSymbolField LogTag.eventName) ++
  (.when (log.observedTimestamp != 0)
      (writeScalarField LogTag.observedTimestamp 8 (i64Bytes log.observedTimestamp)) ++
  .when (log.droppedAttributesCount != 0)
      (writeScalarField LogTag.droppedAttributesCount 4 (u32Bytes log.droppedAttributesCount)))))))

/-- A log record's fields as they are read. -/
structure LogFields (X : Externals) where
  message : Option (Value X)
  severity : Option Severity
  bodyFormat : BodyFormat
  trace : Option TraceRef
  eventName : Option X.Symbol
  observedTimestamp : Int64
  droppedAttributesCount : UInt32

def LogFields.start : LogFields X := ⟨none, none, .raw, none, none, 0, 0⟩

variable (dict : Dict X)

def visitLogRecord (fields : LogFields X) (tag : UInt8) : Read (LogFields X) :=
  if tag = LogTag.message then (fun v => { fields with message := some v }) <$> readValue dict
  else if tag = LogTag.severity then
    (fun v => { fields with severity := some v }) <$> readTag severityFromTag
  else if tag = LogTag.bodyFormat then
    (fun v => { fields with bodyFormat := v }) <$> readTag bodyFormatFromTag
  else if tag = LogTag.trace then (fun v => { fields with trace := some v }) <$> readTraceRef
  else if tag = LogTag.eventName then
    (fun v => { fields with eventName := some v }) <$> readSymbolField dict
  else if tag = LogTag.observedTimestamp then
    (fun v => { fields with observedTimestamp := v }) <$> readExactI64
  else if tag = LogTag.droppedAttributesCount then
    (fun v => { fields with droppedAttributesCount := v }) <$> readExactU32
  else clear fields

/-- Without a message there is no record. -/
def readLogRecord : Read (LogRecord X) := do
  let fields ← forEachField (visitLogRecord dict) LogFields.start
  let message ← require "log record missing message" fields.message
  pure ⟨message, fields.severity, fields.bodyFormat, fields.trace, fields.eventName,
    fields.observedTimestamp, fields.droppedAttributesCount⟩

namespace SpanEventTag

def timestamp : UInt8 := 1
def name : UInt8 := 2
def attributes : UInt8 := 3
def droppedAttributesCount : UInt8 := 4

end SpanEventTag

def writeSpanEvent (event : SpanEvent X) : Writer X.Symbol :=
  writeScalarField SpanEventTag.timestamp 8 (i64Bytes event.timestamp) ++
  (writeField SpanEventTag.name (writeValue event.name) ++
  (.when (!event.attributes.isEmpty)
      (writeField SpanEventTag.attributes (writeAttrMap event.attributes)) ++
  .when (event.droppedAttributesCount != 0)
      (writeScalarField SpanEventTag.droppedAttributesCount 4
        (u32Bytes event.droppedAttributesCount))))

structure SpanEventFields (X : Externals) where
  timestamp : Int64
  name : Option (Value X)
  attributes : AttrMap X
  droppedAttributesCount : UInt32

def SpanEventFields.start : SpanEventFields X := ⟨0, none, AttrMap.empty, 0⟩

def visitSpanEvent (fields : SpanEventFields X) (tag : UInt8) : Read (SpanEventFields X) :=
  if tag = SpanEventTag.timestamp then (fun v => { fields with timestamp := v }) <$> readExactI64
  else if tag = SpanEventTag.name then (fun v => { fields with name := some v }) <$> readValue dict
  else if tag = SpanEventTag.attributes then
    (fun m => { fields with attributes := m }) <$> readAttrMap dict
  else if tag = SpanEventTag.droppedAttributesCount then
    (fun v => { fields with droppedAttributesCount := v }) <$> readExactU32
  else clear fields

def readSpanEvent : Read (SpanEvent X) := do
  let fields ← forEachField (visitSpanEvent dict) SpanEventFields.start
  let name ← require "span event missing name" fields.name
  pure ⟨fields.timestamp, name, fields.attributes, fields.droppedAttributesCount⟩

namespace SpanLinkTag

def traceId : UInt8 := 1
def spanId : UInt8 := 2
def attributes : UInt8 := 3
def flags : UInt8 := 4
def traceState : UInt8 := 5
def droppedAttributesCount : UInt8 := 6

end SpanLinkTag

def writeSpanLink (link : SpanLink X) : Writer X.Symbol :=
  writeScalarField SpanLinkTag.traceId 16 link.traceId.bytes ++
  (writeScalarField SpanLinkTag.spanId 8 link.spanId.bytes ++
  (.when (!link.attributes.isEmpty)
      (writeField SpanLinkTag.attributes (writeAttrMap link.attributes)) ++
  (.when (link.flags != 0) (writeScalarField SpanLinkTag.flags 4 (u32Bytes link.flags)) ++
  (.option link.traceState (writeBytesField SpanLinkTag.traceState) ++
  .when (link.droppedAttributesCount != 0)
      (writeScalarField SpanLinkTag.droppedAttributesCount 4
        (u32Bytes link.droppedAttributesCount))))))

structure SpanLinkFields (X : Externals) where
  traceId : Option (FixedBytes 16)
  spanId : Option (FixedBytes 8)
  attributes : AttrMap X
  flags : UInt32
  traceState : Option Bytes
  droppedAttributesCount : UInt32

def SpanLinkFields.start : SpanLinkFields X := ⟨none, none, AttrMap.empty, 0, none, 0⟩

def visitSpanLink (fields : SpanLinkFields X) (tag : UInt8) : Read (SpanLinkFields X) :=
  if tag = SpanLinkTag.traceId then
    (fun v => { fields with traceId := some v }) <$>
      readId 16 (.malformed "bad span link trace_id length")
  else if tag = SpanLinkTag.spanId then
    (fun v => { fields with spanId := some v }) <$>
      readId 8 (.malformed "bad span link span_id length")
  else if tag = SpanLinkTag.attributes then
    (fun m => { fields with attributes := m }) <$> readAttrMap dict
  else if tag = SpanLinkTag.flags then (fun v => { fields with flags := v }) <$> readExactU32
  else if tag = SpanLinkTag.traceState then
    (fun v => { fields with traceState := some v }) <$> takeField
  else if tag = SpanLinkTag.droppedAttributesCount then
    (fun v => { fields with droppedAttributesCount := v }) <$> readExactU32
  else clear fields

def readSpanLink : Read (SpanLink X) := do
  let fields ← forEachField (visitSpanLink dict) SpanLinkFields.start
  let traceId ← require "span link missing trace_id" fields.traceId
  let spanId ← require "span link missing span_id" fields.spanId
  pure ⟨traceId, spanId, fields.attributes, fields.flags, fields.traceState, fields.droppedAttributesCount⟩

namespace SpanExtTag

def statusMessage : UInt8 := 1
def traceState : UInt8 := 2
def droppedAttributesCount : UInt8 := 3
def droppedEventsCount : UInt8 := 4
def droppedLinksCount : UInt8 := 5

end SpanExtTag

/-- The parts of a span that few have. -/
def writeSpanExt (ext : SpanExt) : Writer X.Symbol :=
  .option ext.statusMessage (writeBytesField SpanExtTag.statusMessage) ++
  (.option ext.traceState (writeBytesField SpanExtTag.traceState) ++
  (.when (ext.droppedAttributesCount != 0)
      (writeScalarField SpanExtTag.droppedAttributesCount 4 (u32Bytes ext.droppedAttributesCount)) ++
  (.when (ext.droppedEventsCount != 0)
      (writeScalarField SpanExtTag.droppedEventsCount 4 (u32Bytes ext.droppedEventsCount)) ++
  .when (ext.droppedLinksCount != 0)
      (writeScalarField SpanExtTag.droppedLinksCount 4 (u32Bytes ext.droppedLinksCount)))))

def SpanExt.start : SpanExt := ⟨none, none, 0, 0, 0⟩

def visitSpanExt (fields : SpanExt) (tag : UInt8) : Read SpanExt :=
  if tag = SpanExtTag.statusMessage then
    (fun v => { fields with statusMessage := some v }) <$> takeField
  else if tag = SpanExtTag.traceState then
    (fun v => { fields with traceState := some v }) <$> takeField
  else if tag = SpanExtTag.droppedAttributesCount then
    (fun v => { fields with droppedAttributesCount := v }) <$> readExactU32
  else if tag = SpanExtTag.droppedEventsCount then
    (fun v => { fields with droppedEventsCount := v }) <$> readExactU32
  else if tag = SpanExtTag.droppedLinksCount then
    (fun v => { fields with droppedLinksCount := v }) <$> readExactU32
  else clear fields

def readSpanExt : Read SpanExt := forEachField visitSpanExt SpanExt.start

namespace SpanTag

def traceId : UInt8 := 1
def spanId : UInt8 := 2
def parentSpanId : UInt8 := 3
def name : UInt8 := 4
def kind : UInt8 := 5
def status : UInt8 := 6
def events : UInt8 := 7
def links : UInt8 := 8
def endTimestamp : UInt8 := 9
def flags : UInt8 := 10
def ext : UInt8 := 11

end SpanTag

def writeSpanRecord (span : SpanRecord X) : Writer X.Symbol :=
  writeScalarField SpanTag.traceId 16 span.traceId.bytes ++
  (writeScalarField SpanTag.spanId 8 span.spanId.bytes ++
  (.option span.parentSpanId (fun id => writeScalarField SpanTag.parentSpanId 8 id.bytes) ++
  (writeField SpanTag.name (writeValue span.name) ++
  (.when (span.kind != .internal) (writeScalarField SpanTag.kind 1 [spanKindTag span.kind]) ++
  (.when (span.status != .unset)
      (writeScalarField SpanTag.status 1 [spanStatusTag span.status]) ++
  (.when (!span.events.isEmpty)
      (writeField SpanTag.events (writeRecordList span.events writeSpanEvent)) ++
  (.when (!span.links.isEmpty)
      (writeField SpanTag.links (writeRecordList span.links writeSpanLink)) ++
  (writeScalarField SpanTag.endTimestamp 8 (i64Bytes span.endTimestamp) ++
  (.when (span.flags != 0) (writeScalarField SpanTag.flags 4 (u32Bytes span.flags)) ++
  .option span.ext (fun ext => writeField SpanTag.ext (writeSpanExt ext)))))))))))

/-- A span's fields as they are read: its identifiers and name may be missing. -/
structure SpanFields (X : Externals) where
  traceId : Option (FixedBytes 16)
  spanId : Option (FixedBytes 8)
  parentSpanId : Option (FixedBytes 8)
  name : Option (Value X)
  kind : SpanKind
  status : SpanStatus
  events : List (SpanEvent X)
  links : List (SpanLink X)
  endTimestamp : Int64
  flags : UInt32
  ext : Option SpanExt

def SpanFields.start : SpanFields X := ⟨none, none, none, none, .internal, .unset, [], [], 0, 0, none⟩

def sizeOfSpanEvent : Nat := 448

def sizeOfSpanLink : Nat := 456

def visitSpanRecord (fields : SpanFields X) (tag : UInt8) : Read (SpanFields X) :=
  if tag = SpanTag.traceId then
    (fun v => { fields with traceId := some v }) <$>
      readId 16 (.malformed "bad span record trace_id length")
  else if tag = SpanTag.spanId then
    (fun v => { fields with spanId := some v }) <$>
      readId 8 (.malformed "bad span record span_id length")
  else if tag = SpanTag.parentSpanId then
    (fun v => { fields with parentSpanId := some v }) <$>
      readId 8 (.malformed "bad span record parent_span_id length")
  else if tag = SpanTag.name then (fun v => { fields with name := some v }) <$> readValue dict
  else if tag = SpanTag.kind then (fun v => { fields with kind := v }) <$> readTag spanKindFromTag
  else if tag = SpanTag.status then
    (fun v => { fields with status := v }) <$> readTag spanStatusFromTag
  else if tag = SpanTag.events then
    (fun v => { fields with events := v }) <$>
      readRecordList dict.limit sizeOfSpanEvent (readSpanEvent dict)
  else if tag = SpanTag.links then
    (fun v => { fields with links := v }) <$>
      readRecordList dict.limit sizeOfSpanLink (readSpanLink dict)
  else if tag = SpanTag.endTimestamp then
    (fun v => { fields with endTimestamp := v }) <$> readExactI64
  else if tag = SpanTag.flags then (fun v => { fields with flags := v }) <$> readExactU32
  else if tag = SpanTag.ext then (fun v => { fields with ext := some v }) <$> readSpanExt
  else clear fields

def readSpanRecord : Read (SpanRecord X) := do
  let fields ← forEachField (visitSpanRecord dict) SpanFields.start
  let traceId ← require "span record missing trace_id" fields.traceId
  let spanId ← require "span record missing span_id" fields.spanId
  let name ← require "span record missing name" fields.name
  pure ⟨traceId, spanId, fields.parentSpanId, name, fields.kind, fields.status, fields.events,
    fields.links, fields.endTimestamp, fields.flags, fields.ext⟩

end Logit.Native
