import Logit.Frame

namespace Logit.Frame

open ByteCodec Native List Nat FrameHeader

variable {Z : BlockCodec} {front bytes : Bytes}

theorem FrameHeader.read_append (whole : headerLen ≤ front.length) (back : Bytes) :
    FrameHeader.read (front ++ back) = (FrameHeader.read front).map fun out => (out.1, out.2 ++ back) := by
  have field {start size : Nat} (inside : start + size ≤ headerLen) :
      fieldAt (front ++ back) start size = fieldAt front start size :=
    fieldAt_append (le_trans inside whole) back
  have long : ¬(front ++ back).length < headerLen := by
    rw [length_append]
    omega
  rw [FrameHeader.read, FrameHeader.read, if_neg long, if_neg (not_lt.mpr whole),
    field (by decide), field (by decide), field (by decide), field (by decide), field (by decide),
    field (by decide), field (by decide), field (by decide), drop_append_of_le_length whole]
  by_cases start : fieldAt front 0 4 = magic
  · by_cases current : u16FromBytes (fieldAt front 4 2) = Frame.version
    · simp only [start, current]
      cases Compression.fromU8 ((fieldAt front 9 1).headD 0) <;> rfl
    · simp only [start, current, ne_eq]
      rfl
  · simp only [start, ne_eq]
    rfl

def openBody (Z : BlockCodec) (header : FrameHeader) (compressed : Bytes) : Result Bytes :=
  if Z.crc32c compressed ≠ header.crc32c then
    .error (.malformed "crc32c mismatch -- frame is corrupt")
  else
    match decompress Z header compressed with
    | .error e => .error e
    | .ok payload =>
      if payload.length ≠ header.uncompressedLen.toNat then
        .error (.malformed (s!"decompressed to {payload.length} bytes, header declared " ++
          s!"{header.uncompressedLen}"))
      else .ok payload

theorem openBody_clear (header : FrameHeader) (compressed : Bytes) (needed : Nat) :
    openBody Z header compressed ≠ .error (.truncated needed) := by
  have inner : decompress Z header compressed ≠ .error (.truncated needed) := by
    unfold decompress
    split
    · simp
    · split <;> simp
    · simp [zstdRead]
  unfold openBody
  split
  · simp
  · split
    · rename_i failed
      rwa [failed] at inner
    · split <;> simp

/-- Past its header a frame is refused by what it declares, or it waits for its body. -/
theorem readFrameWithHeader_body (Z : BlockCodec) (header : FrameHeader) :
    (∃ text, ∀ {bytes body}, FrameHeader.read bytes = .ok (header, body) →
      readFrameWithHeader Z bytes = .error (.malformed text)) ∨
    header.compressedLen.toNat ≤ maxSaneCompressedLen ∧
      ∀ {bytes body}, FrameHeader.read bytes = .ok (header, body) →
      readFrameWithHeader Z bytes = if body.length < header.compressedLen.toNat then
          .error (.truncated (header.compressedLen.toNat - body.length))
        else (openBody Z header (body.take header.compressedLen.toNat)).map fun payload =>
          (header, payload, body.drop header.compressedLen.toNat) := by
  by_cases large : header.uncompressedLen.toNat > maxSaneUncompressedLen
  · refine .inl (Exists.intro ?_ ?_)
    rotate_left
    · intro bytes body read
      rw [readFrameWithHeader, read]
      simp only [bind, Except.bind]
      rw [if_pos large]
      rfl
  by_cases large' : header.compressedLen.toNat > maxSaneCompressedLen
  · refine .inl (Exists.intro ?_ ?_)
    rotate_left
    · intro bytes body read
      rw [readFrameWithHeader, read]
      simp only [bind, Except.bind]
      rw [if_neg large, if_pos large']
      rfl
  refine .inr ⟨not_lt.mp large', fun {bytes body} read => ?_⟩
  rw [readFrameWithHeader, read]
  simp only [bind, Except.bind]
  rw [if_neg large, if_neg large', openBody]
  by_cases cut : body.length < header.compressedLen.toNat
  · rw [if_pos cut, if_pos cut]
    rfl
  by_cases same : Z.crc32c (body.take header.compressedLen.toNat) = header.crc32c
  · rw [if_neg (not_not.mpr same), if_neg (not_not.mpr same)]
    cases decompress Z header (body.take header.compressedLen.toNat) with
    | error e => rfl
    | ok payload =>
      by_cases size : payload.length = header.uncompressedLen.toNat
      · simp only [size, ne_eq]
        rfl
      · simp only [size, ne_eq]
        rfl
  · rw [if_pos same, if_pos same]
    rfl

/-- A reader that has decided on an answer gives it over any longer buffer. -/
theorem readFrameWithHeader_append
    (decided : ∀ needed, readFrameWithHeader Z front ≠ .error (.truncated needed)) (back : Bytes) :
    readFrameWithHeader Z (front ++ back) =
      (readFrameWithHeader Z front).map fun out => (out.1, out.2.1, out.2.2 ++ back) := by
  by_cases short : front.length < headerLen
  · refine absurd ?_ (decided (headerLen - front.length))
    rw [readFrameWithHeader, read_short short]
    rfl
  have longer := read_append (not_lt.mp short) back
  cases read : FrameHeader.read front with
  | error e =>
    rw [read] at longer
    rw [readFrameWithHeader, readFrameWithHeader, read, longer]
    rfl
  | ok out =>
    rw [read] at longer
    rcases readFrameWithHeader_body Z out.1 with ⟨text, refused⟩ | ⟨_, answers⟩
    · rw [refused read, refused longer]
      rfl
    · by_cases cut : out.2.length < out.1.compressedLen.toNat
      · refine absurd ?_ (decided (out.1.compressedLen.toNat - out.2.length))
        rw [answers read, if_pos cut]
      · have held := not_lt.mp cut
        have cut' : ¬(out.2 ++ back).length < out.1.compressedLen.toNat := by
          rw [length_append]
          omega
        rw [answers read, answers longer, if_neg cut, if_neg cut', take_append_of_le_length held,
          drop_append_of_le_length held]
        cases openBody Z out.1 (out.2.take out.1.compressedLen.toNat) <;> rfl

/-- The length of the body that a header declares. -/
def declaredLen (bytes : Bytes) : Nat := (u32FromBytes (fieldAt bytes 16 4)).toNat

/-- A header that is there whole is refused by what it says, or its body is what follows it. -/
theorem FrameHeader.read_long (long : headerLen ≤ bytes.length) :
    (∃ e, (∀ needed, e ≠ .truncated needed) ∧ FrameHeader.read bytes = .error e) ∨
    ∃ header, FrameHeader.read bytes = .ok (header, bytes.drop headerLen) ∧
      header.compressedLen.toNat = declaredLen bytes := by
  rw [FrameHeader.read, if_neg (not_lt.mpr long)]
  by_cases start : fieldAt bytes 0 4 = magic
  · by_cases current : u16FromBytes (fieldAt bytes 4 2) = Frame.version
    · simp only [start, current, ne_eq, not_true, if_false, Compression.fromU8]
      split
      · exact .inr ⟨_, rfl, rfl⟩
      · split
        · exact .inr ⟨_, rfl, rfl⟩
        · split
          · exact .inr ⟨_, rfl, rfl⟩
          · exact .inl ⟨_, by simp, rfl⟩
    · simp only [start, current, ne_eq]
      exact .inl ⟨_, by simp, rfl⟩
  · simp only [start, ne_eq]
    exact .inl ⟨_, by simp, rfl⟩

/-- A frame asks for the bytes its header misses, or for those its body does. -/
theorem readFrameWithHeader_truncated {needed : Nat}
    (cut : readFrameWithHeader Z bytes = .error (.truncated needed)) :
    0 < needed ∧ (bytes.length + needed = headerLen ∨ headerLen ≤ bytes.length ∧
      declaredLen bytes ≤ maxSaneCompressedLen ∧ bytes.length + needed = headerLen + declaredLen bytes) := by
  by_cases short : bytes.length < headerLen
  · rw [readFrameWithHeader, read_short short] at cut
    cases cut
    omega
  have long := not_lt.mp short
  rcases read_long long with ⟨e, clear, read⟩ | ⟨header, read, declared⟩
  · rw [readFrameWithHeader, read] at cut
    cases cut
    exact absurd rfl (clear needed)
  · rcases readFrameWithHeader_body Z header with ⟨text, refused⟩ | ⟨sane, answers⟩
    · rw [refused read] at cut
      cases cut
    · have size := length_drop (i := headerLen) (l := bytes)
      rw [answers read] at cut
      by_cases missing : (bytes.drop headerLen).length < header.compressedLen.toNat
      · rw [if_pos missing] at cut
        cases cut
        omega
      · rw [if_neg missing] at cut
        cases opened : openBody Z header ((bytes.drop headerLen).take header.compressedLen.toNat) with
        | error e =>
          rw [opened] at cut
          cases cut
          exact absurd opened (openBody_clear _ _ _)
        | ok payload =>
          rw [opened] at cut
          cases cut

theorem readFrameWithHeader_extent (Z : BlockCodec) (bytes : Bytes) :
    readFrameWithHeader Z bytes = (readFrameWithHeader Z (bytes.take (frameExtent bytes))).map
      fun out => (out.1, out.2.1, out.2.2 ++ bytes.drop (frameExtent bytes)) := by
  by_cases all : bytes.length ≤ frameExtent bytes
  · rw [take_of_length_le all, drop_of_length_le all]
    cases readFrameWithHeader Z bytes <;> simp [Except.map]
  have within := not_le.mp all
  have length : (bytes.take (frameExtent bytes)).length = frameExtent bytes := by
    rw [length_take]
    omega
  conv_lhs => rw [← take_append_drop (frameExtent bytes) bytes]
  refine readFrameWithHeader_append (fun needed cut => ?_) _
  obtain ⟨positive, place⟩ := readFrameWithHeader_truncated cut
  -- The extent is short of the buffer: it is a header and a body within the cap, which are there.
  have extent : frameExtent bytes = min (headerLen + if declaredLen bytes > maxSaneCompressedLen then 0
      else declaredLen bytes) bytes.length := by
    unfold frameExtent at within ⊢
    split at within
    · omega
    · rename_i long
      rw [if_neg long]
      rfl
  have header : headerLen ≤ frameExtent bytes := by omega
  have same : declaredLen (bytes.take (frameExtent bytes)) = declaredLen bytes := by
    have field : fieldAt (bytes.take (frameExtent bytes) ++ bytes.drop (frameExtent bytes)) 16 4 =
        fieldAt (bytes.take (frameExtent bytes)) 16 4 :=
      fieldAt_append (by rw [length]; exact le_trans (by decide) header) _
    rw [take_append_drop] at field
    rw [declaredLen, declaredLen, field]
  split at extent <;> omega

variable {codec : UInt8} {compression : Compression} {flags : UInt16} {payload compressed : Bytes}

theorem writeFrameWithFlags_of_compress (small : payload.length ≤ maxSaneUncompressedLen)
    (made : compress Z compression payload = .ok compressed) :
    writeFrameWithFlags Z codec compression flags payload =
      .ok ((headerOf Z codec compression flags payload compressed).write ++ compressed) := by
  rw [writeFrameWithFlags, if_neg (not_lt.mpr small), made]
  rfl

/-- A frame is read back off whatever it starts and cut short it asks for no more than it misses,
and on any buffer at all a reader needs no more of it than its extent. There is no writer of zstd. -/
theorem frame_read_back (Z : BlockCodec) :
    (∀ codec compression flags payload, payload.length ≤ maxSaneUncompressedLen →
      compression = .zstd ∧ writeFrameWithFlags Z codec compression flags payload = .error zstdWrite ∨
      ∃ framed, writeFrameWithFlags Z codec compression flags payload = .ok framed ∧
        (∀ rest, readFrame Z (framed ++ rest) = .ok (codec, payload, rest) ∧
          frameExtent (framed ++ rest) = framed.length) ∧
        ∀ part, part <+: framed → part.length < framed.length → ∃ needed, 1 ≤ needed ∧
          part.length + needed ≤ framed.length ∧ readFrame Z part = .error (.truncated needed)) ∧
    ∀ bytes, readFrame Z bytes = (readFrame Z (bytes.take (frameExtent bytes))).map
      fun out => (out.1, out.2.1, out.2.2 ++ bytes.drop (frameExtent bytes)) := by
  constructor
  · intro codec compression flags payload small
    cases made : compress Z compression payload with
    | error e =>
      cases compression with
      | zstd =>
        rw [writeFrameWithFlags, if_neg (not_lt.mpr small)]
        exact .inl ⟨rfl, rfl⟩
      | none => cases made
      | lz4 => cases made
    | ok compressed =>
      refine .inr ⟨_, writeFrameWithFlags_of_compress small made, ?_, ?_⟩
      · intro rest
        rw [append_assoc, readFrame, readFrameWithHeader_write small made rfl, length_append]
        exact ⟨rfl, frameExtent_write small made rfl rest⟩
      · intro part cut proper
        rw [length_append] at proper ⊢
        obtain ⟨needed, positive, within, fails⟩ := readFrameWithHeader_short small made rfl cut proper
        refine ⟨needed, positive, within, ?_⟩
        rw [readFrame, fails]
        rfl
  · intro bytes
    have whole := readFrameWithHeader_extent Z bytes
    rw [readFrame, readFrame, whole]
    cases readFrameWithHeader Z (bytes.take (frameExtent bytes)) <;> rfl

theorem frame_read_back_plain : [1, 2].length ≤ maxSaneUncompressedLen ∧
    ∃ framed, writeFrameWithFlags .plain 2 .none 0 [1, 2] = .ok framed ∧
      ∀ rest, readFrame .plain (framed ++ rest) = .ok (2, [1, 2], rest) := by
  refine ⟨by decide, ?_⟩
  rcases (frame_read_back .plain).1 2 .none 0 [1, 2] (by decide) with ⟨zstd, _⟩ | ⟨framed, written, whole, _⟩
  · cases zstd
  · exact ⟨framed, written, fun rest => (whole rest).1⟩

end Logit.Frame
