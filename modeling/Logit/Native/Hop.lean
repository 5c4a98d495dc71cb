import Logit.Native.Batch

namespace Logit

open ByteCodec List

/-- The text an error is shown with. -/
def CodecError.text : CodecError → String
  | .malformed what => s!"malformed input: {what}"
  | .unsupported what => s!"unsupported: {what}"
  | .truncated needed => s!"truncated input: need {needed} more byte(s)"
  | .budgetExceeded limit => s!"payload decodes past its {limit}-byte decode budget"

/-- One batch's place on the native hop: the identity of the sink store it entered and its number
there. -/
structure SeqId where
  id : FixedBytes 16
  seq : UInt64
deriving DecidableEq

/-- The trace and span a batch was sent under. -/
structure HopTrace where
  traceId : FixedBytes 16
  spanId : FixedBytes 8

/-- What travels with a batch over a hop. -/
structure HopContext (X : Externals) where
  provenance : Provenance X
  trace : Option HopTrace
  seq : SeqId

namespace Native

variable {X : Externals}

namespace TrailerTag

def origin : UInt8 := 1
def previous : UInt8 := 2
def trace : UInt8 := 5

end TrailerTag

def hopTraceLen : Nat := 24

def maxSaneTrailerFieldBytes : Nat := 4096

/-- The length of a trailer field whose value has this length. -/
def fieldLen (len : Nat) : Nat := 1 + uvarintLen len + len

def writeTrailerField (tag : UInt8) (value : Bytes) : Bytes := tag :: writeUvarint value.length ++ value

variable (provenance : Provenance X)

def originBytes : Option Bytes :=
  provenance.origin.map fun symbol => utf8Bytes (X.resolve symbol)

def previousBytes : Option Bytes :=
  provenance.previous.map fun symbol => utf8Bytes (X.resolve symbol)

variable (trace : Option HopTrace)

/-- The trailer's length, computed before it is written. -/
def trailerLen : Nat :=
  ((originBytes provenance).elim 0 fun s => fieldLen s.length) +
  ((previousBytes provenance).elim 0 fun s => fieldLen s.length) +
  (trace.elim 0 fun _ => fieldLen hopTraceLen)

/-- Provenance and trace, each only if it is there. -/
def writeTrailer : Bytes :=
  (originBytes provenance).elim [] (writeTrailerField TrailerTag.origin) ++
  ((previousBytes provenance).elim [] (writeTrailerField TrailerTag.previous) ++
  trace.elim [] fun trace =>
    TrailerTag.trace :: writeUvarint hopTraceLen ++ (trace.traceId.bytes ++ trace.spanId.bytes))

theorem length_writeTrailerField (tag : UInt8) (value : Bytes) :
    (writeTrailerField tag value).length = fieldLen value.length := by
  rw [writeTrailerField, length_append, length_cons, length_writeUvarint, fieldLen]
  omega

theorem length_writeTrailer :
    (writeTrailer provenance trace).length = trailerLen provenance trace := by
  have hop (trace : HopTrace) : (TrailerTag.trace :: writeUvarint hopTraceLen ++
      (trace.traceId.bytes ++ trace.spanId.bytes)).length = fieldLen hopTraceLen := by
    simp only [length_append, length_cons, length_writeUvarint, fieldLen, trace.traceId.size,
      trace.spanId.size, hopTraceLen]
    omega
  rw [writeTrailer, trailerLen, length_append, length_append, Nat.add_assoc]
  congr 1
  · cases originBytes provenance <;> simp [length_writeTrailerField]
  · congr 1
    · cases previousBytes provenance <;> simp [length_writeTrailerField]
    · cases trace with
      | none => rfl
      | some trace => exact hop trace

/-- The identity and the number, the batch, and the trailer with its length in front. -/
def encodeHopBatch (batch : EventBatch X) (context : HopContext X) : Bytes :=
  context.seq.id.bytes ++ (writeUvarint context.seq.seq.toNat ++ (encodeBatch batch ++
    (writeUvarint (trailerLen context.provenance context.trace) ++ writeTrailer context.provenance context.trace)))

/-- No sender gives the number 0. -/
def readHopPrefix : Read SeqId := do
  let id ← takeId 16 fun remaining => .malformed
    s!"hop prefix needs a 16-byte sender identity, but only {remaining} bytes remain"
  let seq ← .mapError (fun e => .malformed s!"hop prefix sequence: {e.text}") readUvarint
  .ensure (seq != 0) (.malformed "hop prefix sequence is 0")
  pure ⟨id, UInt64.ofNat seq⟩

/-- The trailer as it is read: a repeated tag keeps its last value. -/
structure TrailerFields (X : Externals) where
  provenance : Provenance X
  trace : Option HopTrace

def TrailerFields.start : TrailerFields X := ⟨⟨none, none⟩, none⟩

def trailerSymbol (field : Bytes) : Read X.Symbol :=
  match fromUtf8 field with
  | some text => pure (X.intern text)
  | none => .fail (.malformed "provenance trailer field not utf-8")

/-- A trace context is a trace's 16 bytes and a span's 8. -/
def splitHopTrace (field : Bytes) : Read HopTrace where
  run bytes left := if size : field.length = hopTraceLen then
      .ok (⟨⟨field.take 16, by simp [size, hopTraceLen]⟩, ⟨field.drop 16, by simp [size, hopTraceLen]⟩⟩,
        bytes, left)
    else .error (.malformed
      s!"trace context trailer field declares {field.length} bytes, expected {hopTraceLen}")

def visitTrailerField (fields : TrailerFields X) (tag : UInt8) (field : Bytes) : Read (TrailerFields X) :=
  if tag = TrailerTag.origin then
    (fun v => { fields with provenance := { fields.provenance with origin := some v } }) <$>
      trailerSymbol field
  else if tag = TrailerTag.previous then
    (fun v => { fields with provenance := { fields.provenance with previous := some v } }) <$>
      trailerSymbol field
  else if tag = TrailerTag.trace then
    (fun v => { fields with trace := some v }) <$> splitHopTrace field
  -- An unknown tag is skipped.
  else pure fields

/-- The loop over the trailer's fields; the trailer's length bounds its rounds. -/
def readTrailerLoop : Nat → TrailerFields X → Read (TrailerFields X)
  | 0, fields => pure fields
  | rounds + 1, fields => do
    let done ← .atEnd
    if done then pure fields else do
      let tag ← readU8
      let len ← readUvarint
      .ensure (len ≤ maxSaneTrailerFieldBytes) (.malformed
        (s!"provenance trailer field {tag} declares {len} bytes, over the " ++
          s!"{maxSaneTrailerFieldBytes} sanity cap"))
      let field ← .carve len fun left =>
        .malformed s!"provenance trailer field {tag} declares {len} bytes but only {left} remain"
      let fields ← visitTrailerField fields tag field
      readTrailerLoop rounds fields

def readTrailer (X : Externals) : Read (TrailerFields X) := do
  let len ← readUvarint
  let trailer ← .carve len fun left =>
    .malformed s!"provenance trailer declares {len} bytes but only {left} remain"
  .onSlice trailer (readTrailerLoop trailer.length TrailerFields.start)

/-- All but the prefix, and nothing after it. -/
def decodeHopBody (X : Externals) (limit : Nat) : Read (EventBatch X × TrailerFields X) := do
  let batch ← decodeBatchBody X limit
  let fields ← readTrailer X
  ensureConsumed "batch"
  pure (batch, fields)

def decodeHopReader (X : Externals) (limit : Nat) : Read (EventBatch X × HopContext X) := do
  let seq ← readHopPrefix
  let (batch, fields) ← decodeHopBody X limit
  pure (batch, ⟨fields.provenance, fields.trace, seq⟩)

def decodeHopBatch (payload : Bytes) (limit : Nat) : Result (EventBatch X × HopContext X) :=
  decodeWith (decodeHopReader X) payload limit

end Native

end Logit
