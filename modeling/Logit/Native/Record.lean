import Logit.Native.Value

namespace Logit.Native

open ByteCodec

variable {X : Externals} {α σ : Type} (tag : UInt8)

/-- A field whose length is known up front. A declared length other than the payload's would put
every later field out of step. -/
def writeScalarField (len : Nat) (payload : Bytes) : Writer X.Symbol :=
  .bytes (tag :: writeUvarint len ++ payload)

/-- The loop over a body's fields: each is carved out, handed to `visit` with its tag, and has to be
consumed whole. Every round takes a byte, so the body's length bounds the rounds. -/
def forEachFieldLoop (visit : σ → UInt8 → Read σ) : Nat → σ → Read σ
  | 0, fields => pure fields
  | rounds + 1, fields => do
    let done ← .atEnd
    if done then pure fields else do
      let tag ← readU8
      let len ← readUvarint
      let field ← .carve len fun left =>
        .malformed s!"field {tag} declares {len} bytes but only {left} remain"
      let fields ← .inside field (trailingBytes s!"field {tag}") (visit fields tag)
      forEachFieldLoop visit rounds fields

/-- Reads a body of tagged fields, from the fields' defaults on. -/
def forEachField (visit : σ → UInt8 → Read σ) (fields : σ) : Read σ where
  run body left := (forEachFieldLoop visit body.length fields).run body left
  journal body left := (forEachFieldLoop visit body.length fields).journal body left

/-- Skips a field whose tag the reader does not know. -/
def clear (fields : σ) : Read σ := do
  let _ ← .takeAll
  pure fields

/-- A count, then each record with its length in front. -/
def writeRecordList (items : List α) (writeOne : α → Writer X.Symbol) : Writer X.Symbol :=
  .bytes (writeUvarint items.length) ++ .each (fun item => .sized writeUvarint (writeOne item)) items

/-- A record has to use up the length it declares. -/
def readListEntry (readOne : Read α) : Read α := do
  let len ← readUvarint
  let item ← .carve len fun left =>
    .malformed s!"list entry declares {len} bytes but only {left} remain"
  .inside item (fun _ => .malformed "list entry had trailing bytes") readOne

def readRecordList (limit size : Nat) (readOne : Read α) : Read (List α) :=
  readCounted limit "record list" 1 size (readListEntry readOne)

/-- A whole field of one length. -/
def readExact (len : Nat) (wrong : Nat → CodecError) (convert : Bytes → α) : Read α where
  run field left := if field.length ≠ len then .error (wrong field.length) else .ok (convert field, [], left)

def readExactU32 : Read UInt32 :=
  readExact 4 (fun n => .malformed s!"expected 4 bytes for a u32, got {n}") u32FromBytes

def readExactI64 : Read Int64 :=
  readExact 8 (fun n => .malformed s!"expected 8 bytes for an i64, got {n}") i64FromBytes

/-- A whole field that is an identifier. -/
def readId (n : Nat) (wrong : CodecError) : Read (FixedBytes n) where
  run field left := if size : field.length = n then .ok (⟨field, size⟩, [], left) else .error wrong

/-- The next `n` bytes, as an identifier. -/
def takeId (n : Nat) (short : Nat → CodecError) : Read (FixedBytes n) where
  run bytes left := if size : (bytes.take n).length = n then .ok (⟨bytes.take n, size⟩, bytes.drop n, left)
    else .error (short bytes.length)

theorem takeId_append {n : Nat} (short : Nat → CodecError) (id : FixedBytes n) (rest : Bytes)
    (left : Nat) : (takeId n short).run (id.bytes ++ rest) left = .ok (id, rest, left) := by
  obtain ⟨bytes, rfl⟩ := id
  simp [takeId]

/-- A symbol is written as its index in the dictionary. -/
def writeSymbolField (symbol : X.Symbol) : Writer X.Symbol :=
  .entry symbol fun position => tag :: writeUvarint 4 ++ u32Bytes (dictIndex position)

def readSymbolField (dict : Dict X) : Read X.Symbol := do
  let idx ← readExactU32
  dict.get idx

def writeBytesField (payload : Bytes) : Writer X.Symbol := writeScalarField tag payload.length payload

def takeField : Read Bytes := .takeAll

def temporalityTag : Temporality → UInt8
  | .delta => 0
  | .cumulative => 1

def temporalityFromTag : Read Temporality :=
  if tag = 0 then pure .delta
  else if tag = 1 then pure .cumulative
  else .fail (.malformed s!"unknown temporality tag {tag}")

def readTemporality : Read Temporality := do
  let tag ← readU8
  temporalityFromTag tag

def scalarF64 : UInt8 := 0
def scalarI64 : UInt8 := 1
def scalarU64 : UInt8 := 2
def scalarBool : UInt8 := 3

def scalarLen : Nat := 9

/-- A scalar's type byte, then its eight little-endian bytes. -/
def writeScalar : MetricValue → Bytes
  | .f64 v => scalarF64 :: f64Bytes v
  | .i64 v => scalarI64 :: i64Bytes v
  | .u64 v => scalarU64 :: u64Bytes v
  | .bool v => scalarBool :: u64Bytes (if v then 1 else 0)

/-- A boolean is a 64-bit 0 or 1. -/
def readScalar : Read MetricValue := do
  let tag ← readU8
  let b ← .carve 8 fun _ => .malformed "expected 8 bytes for a metric value"
  if tag = scalarF64 then pure (.f64 (f64FromBytes b))
  else if tag = scalarI64 then pure (.i64 (i64FromBytes b))
  else if tag = scalarU64 then pure (.u64 (u64FromBytes b))
  else if tag = scalarBool then
    if u64FromBytes b = 0 then pure (.bool false)
    else if u64FromBytes b = 1 then pure (.bool true)
    else .fail (.malformed s!"metric value bool holds {u64FromBytes b}")
  else .fail (.malformed s!"unknown metric value type {tag}")

def readF64 : Read F64 := do
  let b ← .carve 8 fun _ => .malformed "expected 8 bytes for an f64"
  pure (f64FromBytes b)

/-- A presence byte, and the float if it is there. -/
def writeOptionF64 : Option F64 → Bytes
  | some v => 1 :: f64Bytes v
  | none => [0]

def readOptionF64 : Read (Option F64) := do
  let present ← readU8
  if present = 0 then pure none
  else if present = 1 then do
    let v ← readF64
    pure (some v)
  else .fail (.malformed s!"bad Option<f64> presence byte {present}")

def writeExponentialBuckets (buckets : Int32 × List UInt64) : Bytes :=
  writeIvarint buckets.1.toInt64 ++ writeUvarint buckets.2.length ++
    buckets.2.flatMap fun count => writeUvarint count.toNat

def readU64 : Read UInt64 := do
  let v ← readUvarint
  pure (UInt64.ofNat v)

def readI32 : Read Int32 := do
  let v ← readIvarint
  pure v.toInt32

/-- The index of the first bucket, and the counts. -/
def readExponentialBuckets (limit : Nat) : Read (Int32 × List UInt64) := do
  let offset ← readI32
  let counts ← readCounted limit "exponential buckets" 1 8 readU64
  pure (offset, counts)

end Logit.Native
