import Logit.Frame.Extent
import Logit.Native.HopRoundTrip
import Logit.Native.Size

namespace Logit

open ByteCodec Native Logit.Frame List

/-- What a batch arrived with. -/
structure BatchContext (X : Externals) where
  trace : HopTrace
  provenance : Provenance X

/-- What a sink store hands its consumer. -/
structure StoreItem (X : Externals) where
  batch : EventBatch X
  ctx : BatchContext X
  seq : SeqId

namespace Spool

variable {X : Externals}

def contextLen : Nat := 24

def codecHopBatch : UInt8 := 2

def encodeContext (trace : HopTrace) : Bytes := trace.traceId.bytes ++ trace.spanId.bytes

def decodeContext (buf : Bytes) (long : contextLen ≤ buf.length) : HopTrace where
  traceId := ⟨buf.take 16, by simp [contextLen] at long ⊢; omega⟩
  spanId := ⟨(buf.drop 16).take 8, by simp [contextLen] at long ⊢; omega⟩

/-- The payload of an item's frame; the record's own prefix holds the trace. -/
def recordPayload (item : StoreItem X) : Bytes := encodeHopBatch item.batch ⟨item.ctx.provenance, none, item.seq⟩

/-- A record as a push writes it: the trace context, then the numbered batch in a frame. -/
def encodeRecord (Z : BlockCodec) (compression : Compression) (item : StoreItem X) : Result Bytes := do
  let framed ← writeFrame Z codecHopBatch compression (recordPayload item)
  pure (encodeContext item.ctx.trace ++ framed)

/-- One record off the front of the bytes, and its length. -/
def parseRecord (Z : BlockCodec) (buf : Bytes) : Result (StoreItem X × Nat) :=
  if long : contextLen ≤ buf.length then do
    let frameBytes := (buf.drop contextLen).take (frameExtent (buf.drop contextLen))
    let (codec, payload, rest) ← readFrame Z frameBytes
    if codec ≠ codecHopBatch then
      throw (.malformed (s!"disk record declares codec {codec}, expected the hop batch " ++ s!"({codecHopBatch})"))
    -- A trace in the trailer, which no push writes, is ignored.
    let (batch, hop) ← decodeHopBatch payload u64Max
    pure (⟨batch, ⟨decodeContext buf long, hop.provenance⟩, hop.seq⟩,
      contextLen + (frameBytes.length - rest.length))
  else .error (.truncated (contextLen - buf.length))

/-- What the callers of a push promise of an item: values no deeper than any input builds them,
component names far shorter than the trailer's cap, and a number that was counted from one. -/
structure Spoolable (X : Externals) where
  item : StoreItem X
  shallow : ShallowBatch item.batch
  fits : TrailerFits item.ctx.provenance
  numbered : item.seq.seq ≠ 0

/-- An item of a number, with a batch that has no events. -/
def Spoolable.empty (seq : UInt64) (numbered : seq ≠ 0) : Spoolable Externals.plain where
  item := ⟨⟨Resource.start, none, []⟩, ⟨⟨.zero 16, .zero 8⟩, ⟨none, none⟩⟩, ⟨.zero 16, seq⟩⟩
  shallow := ⟨shallowMap_empty, nofun, fun _ mem => absurd mem List.not_mem_nil⟩
  fits := ⟨nofun, nofun⟩
  numbered := numbered

def Spoolable.value (s : Spoolable X) : StoreItem X := { s.item with batch := canonicalBatch s.item.batch }

theorem length_encodeContext (trace : HopTrace) : (encodeContext trace).length = contextLen := by
  rw [encodeContext, length_append, trace.traceId.size, trace.spanId.size, contextLen]

theorem decodeContext_encodeContext {trace : HopTrace} {rest : Bytes}
    (long : contextLen ≤ (encodeContext trace ++ rest).length) :
    decodeContext (encodeContext trace ++ rest) long = trace := by
  obtain ⟨⟨traceId, size⟩, ⟨spanId, size'⟩⟩ := trace
  simp only [decodeContext, encodeContext, append_assoc]
  simp [take_left' size, drop_left' size, take_left' size']

def recordHeader (Z : BlockCodec) (compression : Compression) (item : StoreItem X)
    (compressed : Bytes) : FrameHeader :=
  headerOf Z codecHopBatch compression 0 (recordPayload item) compressed

variable {item : StoreItem X} {record : Bytes}

theorem encodeRecord_eq_ok {Z : BlockCodec} {compression : Compression}
    (written : encodeRecord Z compression item = .ok record) :
    ∃ compressed, (recordPayload item).length ≤ maxSaneUncompressedLen ∧
      compress Z compression (recordPayload item) = .ok compressed ∧
      record = encodeContext item.ctx.trace ++
        ((recordHeader Z compression item compressed).write ++ compressed) := by
  unfold encodeRecord writeFrame at written
  cases framing : writeFrameWithFlags Z codecHopBatch compression 0 (recordPayload item) with
  | error e =>
    rw [framing] at written
    cases written
  | ok framed =>
    rw [framing] at written
    cases written
    obtain ⟨compressed, small, made, rfl⟩ := writeFrameWithFlags_eq_ok framing
    exact ⟨compressed, small, made, rfl⟩

theorem decodeHopBatch_recordPayload (s : Spoolable X)
    (small : (recordPayload s.item).length ≤ maxSaneUncompressedLen) :
    decodeHopBatch (recordPayload s.item) u64Max =
      .ok (canonicalBatch s.item.batch, ⟨s.item.ctx.provenance, none, s.item.seq⟩) := by
  have batch : (encodeBatch s.item.batch).length ≤ maxSaneUncompressedLen := by
    rw [recordPayload, encodeHopBatch, length_append, length_append, length_append] at small
    omega
  exact decodeHopBatch_encodeHopBatch (decodable_of_length_le s.shallow batch) s.fits s.numbered

variable {Z : BlockCodec} {compression : Compression}

theorem parseRecord_frame {buf : Bytes} (long : contextLen ≤ buf.length) :
    (parseRecord Z buf : Result (StoreItem X × Nat)) =
      match readFrameWithHeader Z (buf.drop contextLen) with
      | .error e => .error e
      | .ok (header, payload, rest) =>
        if header.codec ≠ codecHopBatch then
          .error (.malformed (s!"disk record declares codec {header.codec}, expected the hop batch " ++
            s!"({codecHopBatch})"))
        else (decodeHopBatch payload u64Max).map fun out =>
          (⟨out.1, ⟨decodeContext buf long, out.2.provenance⟩, out.2.seq⟩,
            contextLen + ((buf.drop contextLen).length - rest.length)) := by
  rw [parseRecord, dif_pos long, readFrameWithHeader_extent Z (buf.drop contextLen)]
  simp only [readFrame]
  cases readFrameWithHeader Z ((buf.drop contextLen).take (frameExtent (buf.drop contextLen))) with
  | error e => rfl
  | ok out =>
    have size := congrArg length (take_append_drop (frameExtent (buf.drop contextLen)) (buf.drop contextLen))
    rw [length_append] at size
    simp only [bind, Except.bind, Except.map, pure, Except.pure]
    split
    · rfl
    · cases decodeHopBatch out.2.1 u64Max with
      | error e => rfl
      | ok found =>
        simp only [length_append]
        rw [← size, Nat.add_sub_add_right]

/-- A record is read back off the front of whatever bytes it starts, as its item's value. -/
theorem parseRecord_encodeRecord (s : Spoolable X) (written : encodeRecord Z compression s.item = .ok record)
    (rest : Bytes) : parseRecord Z (record ++ rest) = .ok (s.value, record.length) := by
  obtain ⟨compressed, small, made, rfl⟩ := encodeRecord_eq_ok written
  have length := length_encodeContext s.item.ctx.trace
  have whole : encodeContext s.item.ctx.trace ++
      ((recordHeader Z compression s.item compressed).write ++ compressed) ++ rest =
      encodeContext s.item.ctx.trace ++
        ((recordHeader Z compression s.item compressed).write ++ (compressed ++ rest)) := by simp
  have long : contextLen ≤ (encodeContext s.item.ctx.trace ++
      ((recordHeader Z compression s.item compressed).write ++ (compressed ++ rest))).length := by
    rw [length_append]
    omega
  have frame : readFrameWithHeader Z
    ((recordHeader Z compression s.item compressed).write ++ (compressed ++ rest)) =
      .ok (recordHeader Z compression s.item compressed, recordPayload s.item, rest) :=
    readFrameWithHeader_write small made rfl rest
  rw [whole, parseRecord_frame long]
  simp only [drop_left' length, frame, decodeContext_encodeContext, decodeHopBatch_recordPayload s small]
  simp [recordHeader, headerOf, length, Spoolable.value, Except.map, ← Nat.add_assoc]

theorem parseRecord_short {record part : Bytes} (written : encodeRecord Z compression item = .ok record)
    (cut : part <+: record) (proper : part.length < record.length) : ∃ needed, 0 < needed ∧
      (parseRecord Z part : Result (StoreItem X × Nat)) = .error (.truncated needed) := by
  obtain ⟨compressed, small, made, rfl⟩ := encodeRecord_eq_ok written
  have length := length_encodeContext item.ctx.trace
  by_cases long : contextLen ≤ part.length
  · obtain ⟨frame, rfl⟩ : ∃ frame, part = encodeContext item.ctx.trace ++ frame := by
      obtain ⟨frame, same⟩ := prefix_of_prefix_length_le (prefix_append _ _) cut (by rw [length]; exact long)
      exact ⟨frame, same.symm⟩
    have inner := (prefix_append_right_inj _).mp cut
    have shorter : frame.length < headerLen + compressed.length := by
      rw [length_append, length_append, length_append, FrameHeader.length_write] at proper
      omega
    obtain ⟨needed, positive, _, fails⟩ := readFrameWithHeader_short small made rfl inner shorter
    refine ⟨needed, positive, ?_⟩
    rw [parseRecord_frame long, drop_left' length, fails]
  · refine ⟨contextLen - part.length, by omega, ?_⟩
    rw [parseRecord, dif_neg long]

theorem frameHeader_read_magic {bytes : Bytes} {r : FrameHeader × Bytes}
    (read : FrameHeader.read bytes = .ok r) : fieldAt bytes 0 4 = magic := by
  by_contra other
  rw [FrameHeader.read] at read
  split at read
  · cases read
  · cases read

theorem parseRecord_magic {buf : Bytes} {r : StoreItem X × Nat} (parsed : parseRecord Z buf = .ok r) :
    fieldAt buf contextLen 4 = magic := by
  by_cases long : contextLen ≤ buf.length
  · rw [parseRecord_frame long] at parsed
    cases header : FrameHeader.read (buf.drop contextLen) with
    | error e =>
      simp only [readFrameWithHeader, header] at parsed
      cases parsed
    | ok r => exact frameHeader_read_magic header
  · rw [parseRecord, dif_neg long] at parsed
    cases parsed

theorem encodeRecord_nonempty (written : encodeRecord Z compression item = .ok record) : 0 < record.length := by
  obtain ⟨compressed, _, _, rfl⟩ := encodeRecord_eq_ok written
  rw [length_append, length_encodeContext]
  exact Nat.add_pos_left (by decide) _

/-- What the spool needs of its records: each is read back off the front of any bytes it starts, and
one that is cut short asks for more. -/
structure RecordFormat where
  Item : Type
  Value : Type
  record : Item → Result Bytes
  value : Item → Value
  parse : Bytes → Result (Value × Nat)
  nonempty : ∀ {item bytes}, record item = .ok bytes → 0 < bytes.length
  parse_record : ∀ {item bytes}, record item = .ok bytes → ∀ rest,
    parse (bytes ++ rest) = .ok (value item, bytes.length)
  parse_short : ∀ {item bytes part}, record item = .ok bytes → part <+: bytes →
    part.length < bytes.length → ∃ needed, 0 < needed ∧ parse part = .error (.truncated needed)

def hopRecords (X : Externals) (Z : BlockCodec) (compression : Compression) : RecordFormat where
  Item := Spoolable X
  Value := StoreItem X
  record s := encodeRecord Z compression s.item
  value := Spoolable.value
  parse := parseRecord Z
  nonempty := encodeRecord_nonempty
  parse_record := parseRecord_encodeRecord _
  parse_short := parseRecord_short

/-- Records that are neither compressed nor interned. -/
abbrev plainRecords : RecordFormat := hopRecords Externals.plain .plain .none

end Spool

end Logit
