import Logit.Native.Budget

namespace Logit.Frame

open ByteCodec Native List UInt32

/-- The libraries a frame is built with: a checksum and a block compressor, of which the frame relies
on no more than that a block decompresses to what it was made from and on its documented worst
expansion. -/
structure BlockCodec where
  crc32c : Bytes → UInt32
  lz4Compress : Bytes → Bytes
  lz4Decompress : Bytes → Nat → Except String Bytes
  lz4_roundTrip : ∀ payload, lz4Decompress (lz4Compress payload) payload.length = .ok payload
  lz4_bound : ∀ payload, (lz4Compress payload).length ≤ payload.length + payload.length / 255 + 16

/-- Blocks that are kept as they are, under a checksum of their length. -/
def BlockCodec.plain : BlockCodec where
  crc32c block := ofNat block.length
  lz4Compress payload := payload
  lz4Decompress block size := .ok (block.take size)
  lz4_roundTrip _ := congrArg Except.ok List.take_length
  lz4_bound _ := Nat.le_add_right_of_le (Nat.le_add_right _ _)

def magic : Bytes := [0x4c, 0x47, 0x49, 0x54]

def version : UInt16 := 1

def maxSaneUncompressedLen : Nat := 64 * 1024 * 1024

/-- The largest compressed length of a payload within a bound. The code's sum saturates at 32 bits,
which no bound it is given reaches. -/
def compressedBound (uncompressedBound : Nat) : Nat := uncompressedBound + uncompressedBound / 255 + 16

def maxSaneCompressedLen : Nat := compressedBound maxSaneUncompressedLen

def headerLen : Nat := 24

inductive Compression
  | none | lz4 | zstd
deriving DecidableEq

def Compression.toU8 : Compression → UInt8
  | .none => 0
  | .lz4 => 1
  | .zstd => 2

def Compression.fromU8 (b : UInt8) : Result Compression :=
  if b = 0 then .ok .none
  else if b = 1 then .ok .lz4
  else if b = 2 then .ok .zstd
  else .error (.malformed s!"unknown compression byte {b}")

theorem Compression.fromU8_toU8 (c : Compression) : Compression.fromU8 c.toU8 = .ok c := by
  cases c <;> rfl

structure FrameHeader where
  version : UInt16
  flags : UInt16
  codec : UInt8
  compression : Compression
  uncompressedLen : UInt32
  compressedLen : UInt32
  crc32c : UInt32

def u16Bytes (v : UInt16) : Bytes := toLeBytes 2 v.toNat

def u16FromBytes (b : Bytes) : UInt16 := UInt16.ofNat (fromLeBytes b)

theorem u16FromBytes_u16Bytes (v : UInt16) : u16FromBytes (u16Bytes v) = v := by
  rw [u16FromBytes, u16Bytes, fromLeBytes_toLeBytes v.toNat_lt, UInt16.ofNat_toNat]

@[simp] theorem length_u16Bytes (v : UInt16) : (u16Bytes v).length = 2 := length_toLeBytes 2 _

def FrameHeader.write (h : FrameHeader) : Bytes :=
  magic ++ (u16Bytes h.version ++ (u16Bytes h.flags ++ ([h.codec] ++ ([h.compression.toU8] ++
    (u16Bytes 0 ++ (u32Bytes h.uncompressedLen ++ (u32Bytes h.compressedLen ++ u32Bytes h.crc32c)))))))

@[simp] theorem FrameHeader.length_write (h : FrameHeader) : h.write.length = headerLen := by
  simp [FrameHeader.write, magic, headerLen]

/-- The bytes of a field at a fixed place of the header. -/
def fieldAt (bytes : Bytes) (start size : Nat) : Bytes := (bytes.drop start).take size

def listText (bytes : Bytes) : String := s!"{bytes}"

def FrameHeader.read (bytes : Bytes) : Result (FrameHeader × Bytes) := do
  if bytes.length < headerLen then throw (.truncated (headerLen - bytes.length))
  if fieldAt bytes 0 4 ≠ magic then
    throw (.malformed s!"bad magic {listText (fieldAt bytes 0 4)}, expected {listText magic}")
  let read := u16FromBytes (fieldAt bytes 4 2)
  if read ≠ Frame.version then
    throw (.unsupported s!"frame version {read}, this reader only understands {Frame.version}")
  let compression ← Compression.fromU8 ((fieldAt bytes 9 1).headD 0)
  pure (⟨read, u16FromBytes (fieldAt bytes 6 2), (fieldAt bytes 8 1).headD 0, compression,
    u32FromBytes (fieldAt bytes 12 4), u32FromBytes (fieldAt bytes 16 4),
    u32FromBytes (fieldAt bytes 20 4)⟩, bytes.drop headerLen)

def zstdWrite : CodecError :=
  .unsupported "zstd frames are not encodable yet -- see Compression::Zstd's own doc comment"

def zstdRead : CodecError :=
  .unsupported "zstd frames are not decodable yet -- see Compression::Zstd's own doc comment"

def compress (Z : BlockCodec) (compression : Compression) (payload : Bytes) : Result Bytes :=
  match compression with
  | .none => .ok payload
  | .lz4 => .ok (Z.lz4Compress payload)
  | .zstd => .error zstdWrite

def writeFrameWithFlags (Z : BlockCodec) (codec : UInt8) (compression : Compression) (flags : UInt16)
    (payload : Bytes) : Result Bytes := do
  if payload.length > maxSaneUncompressedLen then
    throw (.malformed (s!"frame payload is {payload.length} bytes, over the " ++
      s!"{maxSaneUncompressedLen}-byte uncompressed cap"))
  let compressed ← compress Z compression payload
  let header : FrameHeader := ⟨Frame.version, flags, codec, compression, ofNat payload.length,
    ofNat compressed.length, Z.crc32c compressed⟩
  pure (header.write ++ compressed)

def writeFrame (Z : BlockCodec) (codec : UInt8) (compression : Compression) (payload : Bytes) :
    Result Bytes :=
  writeFrameWithFlags Z codec compression 0 payload

def decompress (Z : BlockCodec) (header : FrameHeader) (compressed : Bytes) : Result Bytes :=
  match header.compression with
  | .none => .ok compressed
  | .lz4 =>
    match Z.lz4Decompress compressed header.uncompressedLen.toNat with
    | .ok payload => .ok payload
    | .error e => .error (.malformed s!"lz4 decompress: {e}")
  | .zstd => .error zstdRead

/-- One frame off the front of the bytes, its payload checked and decompressed, and what follows. -/
def readFrameWithHeader (Z : BlockCodec) (bytes : Bytes) : Result (FrameHeader × Bytes × Bytes) := do
  let (header, body) ← FrameHeader.read bytes
  if header.uncompressedLen.toNat > maxSaneUncompressedLen then
    throw (.malformed (s!"frame declares {header.uncompressedLen} uncompressed bytes, over the " ++
      s!"{maxSaneUncompressedLen} sanity cap"))
  if header.compressedLen.toNat > maxSaneCompressedLen then
    throw (.malformed (s!"frame declares {header.compressedLen} compressed bytes, over the " ++
      s!"{maxSaneCompressedLen} sanity cap"))
  if body.length < header.compressedLen.toNat then
    throw (.truncated (header.compressedLen.toNat - body.length))
  let compressed := body.take header.compressedLen.toNat
  if Z.crc32c compressed ≠ header.crc32c then
    throw (.malformed "crc32c mismatch -- frame is corrupt")
  let payload ← decompress Z header compressed
  if payload.length ≠ header.uncompressedLen.toNat then
    throw (.malformed
      (s!"decompressed to {payload.length} bytes, header declared " ++ s!"{header.uncompressedLen}"))
  pure (header, payload, body.drop header.compressedLen.toNat)

def readFrame (Z : BlockCodec) (bytes : Bytes) : Result (UInt8 × Bytes × Bytes) := do
  let (header, payload, rest) ← readFrameWithHeader Z bytes
  pure (header.codec, payload, rest)

/-- How many bytes off the front a frame's reader looks at. -/
def frameExtent (bytes : Bytes) : Nat :=
  if bytes.length < 20 then bytes.length
  else
    let compressedLen := (u32FromBytes (fieldAt bytes 16 4)).toNat
    let body := if compressedLen > maxSaneCompressedLen then 0 else compressedLen
    min (headerLen + body) bytes.length

/-- The offset of the first magic, whether or not a frame follows it. -/
def resync : Bytes → Option Nat
  | [] => none
  | b :: rest => if magic.isPrefixOf (b :: rest) then some 0 else (resync rest).map (· + 1)

@[simp] theorem length_magic : magic.length = 4 := rfl

theorem fieldAt_append {front : Bytes} {start size : Nat} (inside : start + size ≤ front.length) (back : Bytes) :
    fieldAt (front ++ back) start size = fieldAt front start size := by
  rw [fieldAt, fieldAt, drop_append_of_le_length (by omega), take_append_of_le_length (by rw [length_drop]; omega)]

theorem fieldAt_compressedLen (h : FrameHeader) (rest : Bytes) :
    fieldAt (h.write ++ rest) 16 4 = u32Bytes h.compressedLen := rfl

theorem FrameHeader.read_write {h : FrameHeader} (current : h.version = Frame.version) (rest : Bytes) :
    FrameHeader.read (h.write ++ rest) = .ok (h, rest) := by
  have long : ¬(h.write ++ rest).length < headerLen := by
    rw [length_append, FrameHeader.length_write]
    omega
  have body : (h.write ++ rest).drop headerLen = rest := drop_left' (FrameHeader.length_write h)
  have first : fieldAt (h.write ++ rest) 0 4 = magic := rfl
  have versionAt : fieldAt (h.write ++ rest) 4 2 = u16Bytes h.version := rfl
  have flagsAt : fieldAt (h.write ++ rest) 6 2 = u16Bytes h.flags := rfl
  have codecAt : fieldAt (h.write ++ rest) 8 1 = [h.codec] := rfl
  have compressionAt : fieldAt (h.write ++ rest) 9 1 = [h.compression.toU8] := rfl
  have uncompressedAt : fieldAt (h.write ++ rest) 12 4 = u32Bytes h.uncompressedLen := rfl
  have crcAt : fieldAt (h.write ++ rest) 20 4 = u32Bytes h.crc32c := rfl
  rw [FrameHeader.read, first, versionAt, flagsAt, codecAt, compressionAt,
    uncompressedAt, fieldAt_compressedLen, crcAt]
  simp [u16FromBytes_u16Bytes, current, Compression.fromU8_toU8]
  rw [← current]

theorem FrameHeader.read_short {bytes : Bytes} (short : bytes.length < headerLen) :
    FrameHeader.read bytes = .error (.truncated (headerLen - bytes.length)) := by
  rw [FrameHeader.read, if_pos short]
  rfl

variable {Z : BlockCodec} {codec : UInt8} {compression : Compression} {flags : UInt16}
  {payload compressed framed : Bytes}

def headerOf (Z : BlockCodec) (codec : UInt8) (compression : Compression) (flags : UInt16)
    (payload compressed : Bytes) : FrameHeader :=
  ⟨Frame.version, flags, codec, compression, ofNat payload.length,
    ofNat compressed.length, Z.crc32c compressed⟩

theorem writeFrameWithFlags_eq_ok (written : writeFrameWithFlags Z codec compression flags payload = .ok framed) :
    ∃ compressed, payload.length ≤ maxSaneUncompressedLen ∧ compress Z compression payload = .ok compressed ∧
      framed = (headerOf Z codec compression flags payload compressed).write ++ compressed := by
  by_cases long : payload.length > maxSaneUncompressedLen
  · rw [writeFrameWithFlags, if_pos long] at written
    cases written
  · rw [writeFrameWithFlags, if_neg long] at written
    cases made : compress Z compression payload with
    | error e =>
      rw [made] at written
      cases written
    | ok compressed =>
      rw [made] at written
      cases written
      exact ⟨compressed, by omega, rfl, rfl⟩

variable (short : payload.length ≤ maxSaneUncompressedLen)
include short

variable (made : compress Z compression payload = .ok compressed)
include made

theorem length_compressed_le : compressed.length ≤ maxSaneCompressedLen := by
  have bound : maxSaneCompressedLen = maxSaneUncompressedLen + maxSaneUncompressedLen / 255 + 16 := rfl
  cases compression with
  | none =>
    cases made
    omega
  | lz4 =>
    cases made
    have worst := Z.lz4_bound payload
    omega
  | zstd => cases made

variable {h : FrameHeader} (head : headerOf Z codec compression flags payload compressed = h)
include head

theorem headerOf_lens :
    h.uncompressedLen.toNat = payload.length ∧ h.compressedLen.toNat = compressed.length := by
  subst head
  exact ⟨toNat_ofNat_of_lt' (lt_of_le_of_lt short (by decide)),
    toNat_ofNat_of_lt' (lt_of_le_of_lt (length_compressed_le short made) (by decide))⟩

theorem decompress_compress : decompress Z h compressed = .ok payload := by
  subst head
  have fits : payload.length < 2 ^ 32 := lt_of_le_of_lt short (by decide)
  cases compression with
  | none =>
    cases made
    rfl
  | lz4 =>
    cases made
    simp [decompress, headerOf, toNat_ofNat_of_lt' fits, Z.lz4_roundTrip]
  | zstd => cases made

theorem readFrameWithHeader_write (rest : Bytes) :
    readFrameWithHeader Z (h.write ++ (compressed ++ rest)) = .ok (h, payload, rest) := by
  have cap := length_compressed_le short made
  obtain ⟨size, size'⟩ := headerOf_lens short made head
  have header := FrameHeader.read_write (h := h) (head ▸ rfl) (compressed ++ rest)
  have inner := decompress_compress short made head
  simp only [readFrameWithHeader, header, bind, Except.bind]
  rw [size, size', if_neg (by omega), if_neg (by omega), take_left, inner]
  simp [← head, headerOf, pure, Except.pure]

theorem readFrameWithHeader_short {part : Bytes} (cut : part <+: h.write ++ compressed)
    (proper : part.length < headerLen + compressed.length) :
    ∃ needed, 0 < needed ∧ part.length + needed ≤ headerLen + compressed.length ∧
      readFrameWithHeader Z part = .error (.truncated needed) := by
  by_cases inHeader : part.length < headerLen
  · refine ⟨headerLen - part.length, by omega, by omega, ?_⟩
    simp [readFrameWithHeader, FrameHeader.read_short inHeader, bind, Except.bind]
  · obtain ⟨body, rfl⟩ : ∃ body, part = h.write ++ body := by
      have front := prefix_of_prefix_length_le (prefix_append h.write compressed)
        cut (by rw [FrameHeader.length_write]; omega)
      obtain ⟨body, same⟩ := front
      exact ⟨body, same.symm⟩
    have cap := length_compressed_le short made
    obtain ⟨size, size'⟩ := headerOf_lens short made head
    have header := FrameHeader.read_write (h := h) (head ▸ rfl) body
    rw [length_append, FrameHeader.length_write] at proper ⊢
    refine ⟨compressed.length - body.length, by omega, by omega, ?_⟩
    simp only [readFrameWithHeader, header, bind, Except.bind]
    rw [size', if_neg (by omega), if_neg (by omega), if_pos (by omega)]
    rfl

/-- What a reader looks at of a frame is the frame, whatever follows it. -/
theorem frameExtent_write (rest : Bytes) :
    frameExtent (h.write ++ (compressed ++ rest)) = headerLen + compressed.length := by
  have cap := length_compressed_le short made
  have size := (headerOf_lens short made head).2
  have twenty : headerLen = 24 := rfl
  simp only [frameExtent, fieldAt_compressedLen, u32FromBytes_u32Bytes, length_append, FrameHeader.length_write]
  rw [if_neg (by omega), if_neg (by omega)]
  omega

end Logit.Frame
