import Logit.Native.Hop

namespace Logit.Native

open ByteCodec Writer List
open ByteCodec.Decoder

variable {X : Externals} {α : Type}

theorem readUvarint_determines (v : Nat) : Determines (writeUvarint v) readUvarint v := by
  intro rest left a rest' left' run
  obtain ⟨value, tail⟩ := readUvarint_write_eq_ok run
  exact ⟨value, tail⟩

instance (limit bytes : Nat) : Untouched (charge limit bytes) := by
  refine ⟨fun input remaining u rest remaining' run => ?_⟩
  simp only [charge] at run
  split at run
  · cases run
  · cases run
    rfl

variable (limit : Nat) (dict : Dict X)

instance (what : String) (count minWire size : Nat) : Untouched (chargeList limit what count minWire size) := by
  refine ⟨fun input remaining u rest remaining' run => ?_⟩
  simp only [chargeList] at run
  split at run
  · cases run
  · exact Untouched.whole _ _ _ _ _ run

/-- A slice with its length in front is taken whole, whatever is then made of the slice. -/
theorem sized_delimits (slice : Bytes) (short : Nat → Nat → CodecError) {next : Nat → Bytes → Read α}
    [∀ len slice, Untouched (next len slice)] :
    Delimits (writeUvarint slice.length ++ slice)
      (readUvarint >>= fun len => carve len (short len) >>= next len) :=
  (readUvarint_determines slice.length).bind (carve_delimits slice _).andThen

theorem readDictEntry_delimits (symbol : X.Symbol) :
    Delimits (writeDictEntry symbol) (readDictEntry X limit) := by
  refine @sized_delimits _ _ _ _ fun len raw => ?_
  refine @Untouched.bind _ _ _ _ _ inferInstance fun _ => ?_
  split <;> infer_instance

instance : Extends (readDictEntry X limit) :=
  .bind inferInstance fun _ => .bind inferInstance fun _ => .bind inferInstance fun _ => by split <;> infer_instance

theorem Dict.read_delimits (symbols : Symbols X) : Delimits (writeDict symbols) (Dict.read X limit) := by
  have entries : Delimits (symbols.flatMap writeDictEntry) (times (readDictEntry X limit) symbols.length) := by
    induction symbols with
    | nil => exact show Delimits [] (pure [] : Read _) from Untouched.delimits
    | cons symbol others ih => exact (readDictEntry_delimits limit symbol).bind fun _ => ih.andThen
  exact (readUvarint_determines symbols.length).bind (.after fun _ => entries.andThen)

theorem readScopeSection_delimits (scope : Option (Scope X)) (table : Symbols X) :
    Delimits ((writeScopeSection scope).run table).1 (readScopeSection dict) := by
  have presence (b : UInt8) : Determines [b] readU8 b := by
    intro rest left a rest' left' run
    cases run
    exact ⟨rfl, rfl⟩
  cases scope with
  | none => exact (presence 0).bind (show Delimits [] (pure none : Read _) from Untouched.delimits)
  | some scope => exact (presence 1).bind (sized_delimits _ _)

theorem readEvents_delimits (events : List (Event X)) (omitted : Option String) (table : Symbols X) :
    Delimits (writeUvarint events.length ++ ((each (fun event =>
      .sized writeUvarint (writeEventOmitting omitted event)) events).run table).1)
      (readEvents dict) := by
  have entries : Delimits ((each (fun event =>
      .sized writeUvarint (writeEventOmitting omitted event)) events).run table).1
      (times (readEventEntry dict) events.length) := by
    induction events generalizing table with
    | nil => exact show Delimits [] (pure [] : Read _) from Untouched.delimits
    | cons event others ih => exact (sized_delimits _ _).bind fun _ => (ih _).andThen
  exact (readUvarint_determines events.length).bind (.after fun _ =>
    .after fun _ => entries)

variable (batch : EventBatch X)

theorem decodeBatchBody_delimits : Delimits (encodeBatch batch) (decodeBatchBody X limit) :=
  (Dict.read_delimits limit _).bind fun dict =>
    (sized_delimits _ _).bind fun _ =>
      (readScopeSection_delimits dict batch.scope _).bind fun _ =>
        (readEvents_delimits dict batch.events none _).andThen

instance : Extends (readScopeSection dict) := by unfold readScopeSection readU8; infer_instance

instance : Extends (readEvents dict) := by unfold readEvents readEventEntry; infer_instance

instance : Extends (decodeBatchBody X limit) := by
    unfold decodeBatchBody Dict.read readResourceSection; infer_instance

/-- A reader that extends, and stops where an encoding ends, cannot use up a part of it. -/
theorem not_consumed_early {encoding cut missing : Bytes} {read : Read α} [longer : Extends read]
    (stops : Delimits encoding read) (split : cut ++ missing = encoding) (short : missing ≠ [])
    {left left' : Nat} {a : α} : read.run cut left ≠ .ok (a, [], left') := by
  intro run
  have whole := longer.longer _ _ _ _ _ run missing
  rw [split, ← append_nil encoding] at whole
  exact short (stops _ _ _ _ _ whole)

/-- A hop payload without its final check that nothing follows it. -/
def hopParts (X : Externals) (limit : Nat) : Read (SeqId × EventBatch X × TrailerFields X) := do
  let seq ← readHopPrefix
  let batch ← decodeBatchBody X limit
  let fields ← readTrailer X
  pure (seq, batch, fields)

theorem takeId_delimits {n : Nat} (short : Nat → CodecError) (id : FixedBytes n) :
    Delimits id.bytes (takeId n short) := by
  intro rest left a rest' left' run
  rw [takeId_append] at run
  cases run
  rfl

instance (n : Nat) (short : Nat → CodecError) : Extends (takeId n short) := by
  refine ⟨fun bytes left id rest left' run more => ?_⟩
  simp only [takeId] at run
  split at run
  · rename_i size
    cases run
    have split := takeId_append short ⟨bytes.take n, size⟩ (bytes.drop n ++ more) left
    rwa [← List.append_assoc, List.take_append_drop] at split
  · cases run

theorem readHopPrefix_delimits (seq : SeqId) :
    Delimits (seq.id.bytes ++ writeUvarint seq.seq.toNat) readHopPrefix := by
  refine (takeId_delimits _ seq.id).bind fun id => ?_
  have number (f : CodecError → CodecError) : Delimits (writeUvarint seq.seq.toNat) (mapError f readUvarint) := by
    intro rest left a rest' left' run
    exact (readUvarint_determines _ _ _ _ _ _ (mapError_eq_ok.mp run)).2
  exact (number _).andThen

theorem hopParts_delimits (context : HopContext X) :
    Delimits (encodeHopBatch batch context) (hopParts X limit) := by
  have trailer : Delimits (writeUvarint (trailerLen context.provenance context.trace) ++
      writeTrailer context.provenance context.trace) (readTrailer X) := by
    rw [← length_writeTrailer]
    exact sized_delimits _ _
  rw [encodeHopBatch, ← append_assoc]
  exact (readHopPrefix_delimits context.seq).bind fun _ =>
    (decodeBatchBody_delimits limit batch).bind fun _ => trailer.andThen

instance : Extends (hopParts X limit) := by unfold hopParts readHopPrefix readTrailer; infer_instance

variable {payload : Bytes} {limit : Nat}

theorem decodeWith_eq_ok {read : Nat → Read α} {a : α} (run : decodeWith read payload limit = .ok a) :
    ∃ rest left, (read limit).run payload limit = .ok (a, rest, left) := by
  unfold decodeWith at run
  cases result : (read limit).run payload limit with
  | error e =>
    rw [result] at run
    cases run
  | ok out =>
    rw [result] at run
    cases run
    exact ⟨out.2.1, out.2.2, rfl⟩

theorem decodeBatch_eq_ok {batch : EventBatch X} (run : decodeBatch payload limit = .ok batch) :
    ∃ left, (decodeBatchBody X limit).run payload limit = .ok (batch, [], left) := by
  obtain ⟨rest, left, whole⟩ := decodeWith_eq_ok run
  obtain ⟨b, after, left₁, body, final⟩ := bind_eq_ok.mp whole
  obtain ⟨u, rest', left₂, checked, last⟩ := bind_eq_ok.mp final
  obtain ⟨rfl, rfl, rfl⟩ := ensureConsumed_eq_ok.mp checked
  cases last
  exact ⟨_, body⟩

theorem decodeHopBatch_eq_ok {batch : EventBatch X} {context : HopContext X}
    (run : decodeHopBatch payload limit = .ok (batch, context)) :
    ∃ fields left, (hopParts X limit).run payload limit = .ok ((context.seq, batch, fields), [], left) := by
  obtain ⟨rest, left, whole⟩ := decodeWith_eq_ok run
  obtain ⟨seq, middle, left₁, first, second⟩ := bind_eq_ok.mp whole
  obtain ⟨⟨b, fields⟩, rest₁, left₂, body, last⟩ := bind_eq_ok.mp second
  obtain ⟨b', after, left₃, inner, more⟩ := bind_eq_ok.mp body
  obtain ⟨fields', after', left₄, trailer, final⟩ := bind_eq_ok.mp more
  obtain ⟨u, rest', left₅, checked, same⟩ := bind_eq_ok.mp final
  obtain ⟨rfl, rfl, rfl⟩ := ensureConsumed_eq_ok.mp checked
  cases same
  cases last
  refine ⟨fields, left, ?_⟩
  rw [hopParts, bind_of_ok first, bind_of_ok inner, bind_of_ok trailer]
  rfl

/-- No proper part of an encoding, cut anywhere, is accepted, under any budget: neither of a bare
batch nor of a hop payload. -/
theorem truncation_rejected (context : HopContext X) (limit : Nat) :
    (∀ cut < (encodeBatch batch).length, ∀ decoded : EventBatch X,
      decodeBatch ((encodeBatch batch).take cut) limit ≠ .ok decoded) ∧
    (∀ cut < (encodeHopBatch batch context).length, ∀ decoded : EventBatch X × HopContext X,
      decodeHopBatch ((encodeHopBatch batch context).take cut) limit ≠ .ok decoded) := by
  have remains {encoding : Bytes} {cut : Nat} (short : cut < encoding.length) : encoding.drop cut ≠ [] := by
    simpa using short
  constructor
  · intro cut short decoded run
    obtain ⟨left, body⟩ := decodeBatch_eq_ok run
    exact not_consumed_early (decodeBatchBody_delimits limit batch) (take_append_drop cut _) (remains short) body
  · rintro cut short ⟨decoded, found⟩ run
    obtain ⟨fields, left, parts⟩ := decodeHopBatch_eq_ok run
    exact not_consumed_early (hopParts_delimits limit batch context) (take_append_drop cut _) (remains short) parts

theorem four_le_length_encodeBatch : 4 ≤ (encodeBatch batch).length := by
  have dict (symbols : Symbols X) : 1 ≤ (writeDict symbols).length := by
    have count := one_le_length_writeUvarint symbols.length
    rw [writeDict, length_append]
    omega
  have scope (table : Symbols X) : 1 ≤ ((writeScopeSection batch.scope).run table).1.length := by
    cases batch.scope <;> simp [writeScopeSection]
  have events := one_le_length_writeUvarint batch.events.length
  simp only [encodeBatch, encodeEventsInner, writeSections, run_append, run_sized, length_append]
  exact Nat.add_le_add (dict _) (Nat.add_le_add (Nat.le_add_right_of_le (one_le_length_writeUvarint _))
    (Nat.add_le_add (scope _) (Nat.le_add_right_of_le events)))

theorem truncation_rejected_sample :
    3 < (encodeBatch EventBatch.sample).length ∧ ∀ decoded : EventBatch Externals.plain,
      decodeBatch ((encodeBatch EventBatch.sample).take 3) u64Max ≠ .ok decoded := by
  have cut : 3 < (encodeBatch EventBatch.sample).length := four_le_length_encodeBatch _
  have context : HopContext Externals.plain := ⟨⟨some "in", none⟩, none, ⟨⟨replicate 16 0, rfl⟩, 1⟩⟩
  exact ⟨cut, (truncation_rejected EventBatch.sample context u64Max).1 3 cut⟩

end Logit.Native
