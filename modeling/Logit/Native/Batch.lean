import Logit.Native.Span

namespace Logit.Native

open ByteCodec

variable {X : Externals}

namespace EventTag

def timestamp : UInt8 := 1
def attributes : UInt8 := 2
def log : UInt8 := 3
def metrics : UInt8 := 4
def span : UInt8 := 5

end EventTag

/-- Whether an attribute's key does not start with the text to leave out. -/
def kept (omitted : String) (e : X.Symbol × RawValue X) : Bool := !omitted.toList.isPrefixOf (X.resolve e.1).toList

/-- The map less the entries left out, which are not counted either. -/
def writeAttrMapOmitting (m : AttrMap X) (omitted : String) : Writer X.Symbol :=
  .bytes (writeUvarint (m.entries.filter (kept omitted)).length) ++ writeEntries (m.entries.filter (kept omitted))

/-- An event's fields; with a text to leave out, less its top-level attributes under it. -/
def writeEventOmitting (omitted : Option String) (event : Event X) : Writer X.Symbol :=
  writeField EventTag.timestamp (.bytes (writeIvarint event.timestamp)) ++
  ((match omitted with
    | none => .when (!event.attributes.isEmpty)
        (writeField EventTag.attributes (writeAttrMap event.attributes))
    | some omitted => .when (event.attributes.entries.any (kept omitted))
        (writeField EventTag.attributes (writeAttrMapOmitting event.attributes omitted))) ++
  (.option event.log (fun log => writeField EventTag.log (writeLogRecord log)) ++
  (.when (!event.metrics.isEmpty)
      (writeField EventTag.metrics (writeRecordList event.metrics writeMetricRecord)) ++
  .option event.span (fun span => writeField EventTag.span (writeSpanRecord span)))))

def Event.start : Event X := ⟨0, AttrMap.empty, none, [], none⟩

def sizeOfMetricRecord : Nat := 224

variable (dict : Dict X)

def visitEvent (fields : Event X) (tag : UInt8) : Read (Event X) :=
  if tag = EventTag.timestamp then (fun v => { fields with timestamp := v }) <$> readIvarint
  else if tag = EventTag.attributes then
    (fun m => { fields with attributes := m }) <$> readAttrMap dict
  else if tag = EventTag.log then (fun v => { fields with log := some v }) <$> readLogRecord dict
  -- A repeated field adds to the metrics already read.
  else if tag = EventTag.metrics then
    (fun v => { fields with metrics := fields.metrics ++ v }) <$>
      readRecordList dict.limit sizeOfMetricRecord (readMetricRecord dict)
  else if tag = EventTag.span then (fun v => { fields with span := some v }) <$> readSpanRecord dict
  else clear fields

def readEvent : Read (Event X) := forEachField (visitEvent dict) Event.start

namespace ResourceTag

def attributes : UInt8 := 1
def droppedAttributesCount : UInt8 := 2
def schemaUrl : UInt8 := 3

end ResourceTag

variable (resource : Resource X)

def writeResource : Writer X.Symbol := .when (!resource.attributes.isEmpty)
      (writeField ResourceTag.attributes (writeAttrMap resource.attributes)) ++
  (.when (resource.droppedAttributesCount != 0)
      (writeScalarField ResourceTag.droppedAttributesCount 4
        (u32Bytes resource.droppedAttributesCount)) ++
  .option resource.schemaUrl (writeBytesField ResourceTag.schemaUrl))

def Resource.start : Resource X := ⟨AttrMap.empty, 0, none⟩

def visitResource (fields : Resource X) (tag : UInt8) : Read (Resource X) :=
  if tag = ResourceTag.attributes then
    (fun m => { fields with attributes := m }) <$> readAttrMap dict
  else if tag = ResourceTag.droppedAttributesCount then
    (fun v => { fields with droppedAttributesCount := v }) <$> readExactU32
  else if tag = ResourceTag.schemaUrl then
    (fun v => { fields with schemaUrl := some v }) <$> takeField
  else clear fields

def readResource : Read (Resource X) := forEachField (visitResource dict) Resource.start

namespace ScopeTag

def name : UInt8 := 1
def version : UInt8 := 2
def attributes : UInt8 := 3
def droppedAttributesCount : UInt8 := 4
def schemaUrl : UInt8 := 5

end ScopeTag

def writeScope (scope : Scope X) : Writer X.Symbol :=
  .when (!scope.name.isEmpty) (writeBytesField ScopeTag.name scope.name) ++
  (.when (!scope.version.isEmpty) (writeBytesField ScopeTag.version scope.version) ++
  (.when (!scope.attributes.isEmpty)
      (writeField ScopeTag.attributes (writeAttrMap scope.attributes)) ++
  (.when (scope.droppedAttributesCount != 0)
      (writeScalarField ScopeTag.droppedAttributesCount 4 (u32Bytes scope.droppedAttributesCount)) ++
  .option scope.schemaUrl (writeBytesField ScopeTag.schemaUrl))))

def Scope.start : Scope X := ⟨[], [], AttrMap.empty, 0, none⟩

def visitScope (fields : Scope X) (tag : UInt8) : Read (Scope X) :=
  if tag = ScopeTag.name then (fun v => { fields with name := v }) <$> takeField
  else if tag = ScopeTag.version then (fun v => { fields with version := v }) <$> takeField
  else if tag = ScopeTag.attributes then
    (fun m => { fields with attributes := m }) <$> readAttrMap dict
  else if tag = ScopeTag.droppedAttributesCount then
    (fun v => { fields with droppedAttributesCount := v }) <$> readExactU32
  else if tag = ScopeTag.schemaUrl then
    (fun v => { fields with schemaUrl := some v }) <$> takeField
  else clear fields

def readScope : Read (Scope X) := forEachField (visitScope dict) Scope.start

variable (scope : Option (Scope X))

/-- The scope section: a presence byte, then the scope with its length in front. -/
def writeScopeSection : Writer X.Symbol :=
  match scope with
  | some scope => .bytes [1] ++ .sized writeUvarint (writeScope scope)
  | none => .bytes [0]

/-- All that follows the dictionary. -/
def writeSections (events : List (Event X)) (omitted : Option String) : Writer X.Symbol :=
  .sized writeUvarint (writeResource resource) ++
  (writeScopeSection scope ++
  (.bytes (writeUvarint events.length) ++
    .each (fun event => .sized writeUvarint (writeEventOmitting omitted event)) events))

/-- The dictionary is written first and built last, by the sections. -/
def encodeEventsInner (events : List (Event X)) (omitted : Option String) : Bytes :=
  let (sections, symbols) := (writeSections resource scope events omitted).run []
  writeDict symbols ++ sections

def encodeBatch (batch : EventBatch X) : Bytes := encodeEventsInner batch.resource batch.scope batch.events none

def maxSaneEventCount : Nat := 16 * 1024 * 1024

/-- What a slot of an event takes in memory; so for each `sizeOf`. -/
def sizeOfEvent : Nat := 864

def readResourceSection : Read (Resource X) := do
  let resourceLen ← readUvarint
  let body ← .carve resourceLen fun left =>
    .malformed s!"resource section declares {resourceLen} bytes but only {left} remain"
  .onSlice body (readResource dict)

/-- Any presence byte but 0 and 1 is refused. -/
def readScopeSection : Read (Option (Scope X)) := do
  let present ← readU8
  if present = 0 then pure none
  else if present = 1 then do
    let scopeLen ← readUvarint
    let body ← .carve scopeLen fun left =>
      .malformed s!"scope section declares {scopeLen} bytes but only {left} remain"
    some <$> .onSlice body (readScope dict)
  else .fail (.malformed s!"bad scope presence byte {present}")

def readEventEntry : Read (Event X) := do
  let bodyLen ← readUvarint
  let body ← .carve bodyLen fun left =>
    .malformed s!"event declares {bodyLen} bytes but only {left} remain"
  .onSlice body (readEvent dict)

/-- The slots are charged, by the declared count, before they are made. -/
def readEvents : Read (List (Event X)) := do
  let eventCount ← readUvarint
  .ensure (eventCount ≤ maxSaneEventCount) (.malformed
    s!"batch declares {eventCount} events, over the {maxSaneEventCount} sanity cap")
  chargeList dict.limit "batch" eventCount 1 sizeOfEvent
  .note (.slots eventCount sizeOfEvent)
  .times (readEventEntry dict) eventCount

/-- A batch; what follows it is left to the caller. -/
def decodeBatchBody (X : Externals) (limit : Nat) : Read (EventBatch X) := do
  let dict ← Dict.read X limit
  let resource ← readResourceSection dict
  let scope ← readScopeSection dict
  let events ← readEvents dict
  pure ⟨resource, scope, events⟩

/-- A batch and nothing after it. -/
def decodeBatchReader (X : Externals) (limit : Nat) : Read (EventBatch X) := do
  let batch ← decodeBatchBody X limit
  ensureConsumed "batch"
  pure batch

/-- The result of a reader started on a payload with its whole budget. -/
def decodeWith {α : Type} (read : Nat → Read α) (payload : Bytes) (limit : Nat) : Result α :=
  (fun out => out.1) <$> (read limit).run payload limit

def decodeBatch (payload : Bytes) (limit : Nat) : Result (EventBatch X) :=
  decodeWith (decodeBatchReader X) payload limit

end Logit.Native
