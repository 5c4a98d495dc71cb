import Logit.Native.Budget

namespace Logit.Native

open ByteCodec

variable {X : Externals}

/-- The position of a symbol in the dictionary, as it is written. -/
def dictIndex (position : Nat) : UInt32 := UInt32.ofNat position

/-- A text with its length in front. -/
abbrev writeDictEntry (symbol : X.Symbol) : Bytes :=
  writeUvarint (utf8Bytes (X.resolve symbol)).length ++ utf8Bytes (X.resolve symbol)

/-- The symbols' texts in the order of their indices. -/
def writeDict (symbols : Symbols X) : Bytes := writeUvarint symbols.length ++ symbols.flatMap writeDictEntry

def maxSaneDictEntries : Nat := 16 * 1024 * 1024

def sizeOfSymbol : Nat := 4

/-- A text is charged with its symbol. -/
def readDictEntry (X : Externals) (limit : Nat) : Read X.Symbol := do
  let len ← readUvarint
  let raw ← .carve len fun left =>
    .malformed s!"dictionary entry declares {len} bytes but only {left} remain"
  charge limit (len + sizeOfSymbol)
  match fromUtf8 raw with
  | some text => do
    .note (.slots 1 sizeOfSymbol)
    pure (X.intern text)
  | none => .fail (.malformed "dictionary entry not utf-8")

def Dict.read (X : Externals) (limit : Nat) : Read (Dict X) := do
  let count ← readUvarint
  .ensure (count ≤ maxSaneDictEntries) (.malformed
    s!"dictionary declares {count} entries, over the {maxSaneDictEntries} sanity cap")
  .note (.reserved (min count 4096) sizeOfSymbol)
  let symbols ← .times (readDictEntry X limit) count
  pure ⟨symbols, limit⟩

/-- An index past the dictionary is refused. -/
def Dict.get (dict : Dict X) (idx : UInt32) : Read X.Symbol :=
  match dict.symbols[idx.toNat]? with
  | some symbol => pure symbol
  | none => .fail (.malformed
      s!"dictionary index {idx} out of range ({dict.symbols.length} entries)")

/-- `tag`, the payload's length, and the payload, which is built in a buffer of its own. -/
def writeField (tag : UInt8) (build : Writer X.Symbol) : Writer X.Symbol :=
  .bytes [tag] ++ .sized writeUvarint build

namespace ValueTag

def null : UInt8 := 0
def bool : UInt8 := 1
def i64 : UInt8 := 2
def u64 : UInt8 := 3
def f64 : UInt8 := 4
def bytes : UInt8 := 5
def str : UInt8 := 6
def timestamp : UInt8 := 7
def array : UInt8 := 8
def map : UInt8 := 9

end ValueTag

/-- How deep a value may nest. -/
def maxValueDepth : Nat := 128

def sizeOfValue : Nat := 40

def sizeOfEntry : Nat := 48

def sizeOfAttrMap : Nat := 392

mutual

/-- A tag and the payload; an array or a map holds its parts in turn. -/
def writeRawValue : RawValue X → Writer X.Symbol
  | .null => writeField ValueTag.null .empty
  | .bool v => writeField ValueTag.bool (.bytes [v.toUInt8])
  | .i64 v => writeField ValueTag.i64 (.bytes (writeIvarint v))
  | .u64 v => writeField ValueTag.u64 (.bytes (writeUvarint v.toNat))
  | .f64 v => writeField ValueTag.f64 (.bytes (f64Bytes v))
  | .bytes v => writeField ValueTag.bytes (.bytes v)
  | .str v => writeField ValueTag.str (.bytes (utf8Bytes v))
  | .timestamp v => writeField ValueTag.timestamp (.bytes (writeIvarint v))
  | .array items =>
    writeField ValueTag.array (.bytes (writeUvarint items.length) ++ writeItems items)
  | .map entries =>
    writeField ValueTag.map (.bytes (writeUvarint entries.length) ++ writeEntries entries)

def writeItems : List (RawValue X) → Writer X.Symbol
  | [] => .empty
  | v :: others => writeRawValue v ++ writeItems others

def writeEntries : RawEntries X → Writer X.Symbol
  | [] => .empty
  | (key, v) :: others =>
    (.entry key (fun position => writeUvarint (dictIndex position).toNat) ++ writeRawValue v) ++ writeEntries others

end

def writeValue (v : Value X) : Writer X.Symbol := writeRawValue v.raw

/-- The number of entries, then each key and value. -/
def writeAttrMap (m : AttrMap X) : Writer X.Symbol := .bytes (writeUvarint m.len) ++ writeEntries m.entries

/-- A key is an index into the dictionary. -/
def readKey (dict : Dict X) : Read X.Symbol := do
  let idx ← readUvarint
  dict.get (dictIndex idx)

def readEntry (dict : Dict X) (readInner : Read (Value X)) : Read (X.Symbol × Value X) := do
  let key ← readKey dict
  let v ← readInner
  pure (key, v)

/-- A map's entries, each value read by `readInner`, inserted as they come. -/
def readAttrMapWith (dict : Dict X) (readInner : Read (Value X)) : Read (AttrMap X) := do
  let pairs ← readCounted dict.limit "attribute map" 3 sizeOfEntry (readEntry dict readInner)
  pure (pairs.foldl (fun m pair => m.insertSym pair.1 pair.2) AttrMap.empty)

def readF64Payload : Read F64 where
  run payload left := if payload.length ≠ 8 then
      .error (.malformed s!"F64 value declared {payload.length} bytes, expected 8")
    else .ok (f64FromBytes payload, [], left)

/-- What follows a value's length, by its tag: `readInner` reads the values one level down. -/
def readValuePayload (dict : Dict X) (readInner : Read (Value X)) (tag : UInt8) (payload : Bytes) :
    Read (Value X) :=
  let whole := Decoder.inside payload (trailingBytes "value")
  if tag = ValueTag.null then whole (pure .null)
  else if tag = ValueTag.bool then whole do
    let b ← .byte (.malformed "Bool value has no payload byte")
    pure (.bool (b != 0))
  else if tag = ValueTag.i64 then whole do
    let v ← readIvarint
    pure (.i64 v)
  else if tag = ValueTag.u64 then whole do
    let v ← readUvarint
    pure (.u64 (UInt64.ofNat v))
  else if tag = ValueTag.f64 then whole do
    let v ← readF64Payload
    pure (.f64 v)
  else if tag = ValueTag.bytes then pure (.bytes payload)
  else if tag = ValueTag.str then
    match fromUtf8 payload with
    | some text => pure (.str text)
    | none => .fail (.malformed "Str value not utf-8")
  else if tag = ValueTag.timestamp then whole do
    let v ← readIvarint
    pure (.timestamp v)
  else if tag = ValueTag.array then whole do
    let items ← readCounted dict.limit "array value" 2 sizeOfValue readInner
    pure (.array items)
  else if tag = ValueTag.map then whole do
    charge dict.limit sizeOfAttrMap
    let m ← readAttrMapWith dict readInner
    pure (.map m)
  -- An unrecognized tag degrades to null; its payload was skipped by its length.
  else pure .null

/-- The recursive reader, by how many levels of the depth cap are left to it. -/
def readValueLevels (dict : Dict X) : Nat → Read (Value X)
  | 0 => .fail (.malformed s!"value nesting deeper than the {maxValueDepth}-level cap")
  | levels + 1 => do
    let tag ← readU8
    let len ← readUvarint
    let payload ← .carve len fun left =>
      .malformed s!"value tag {tag} declares {len} bytes but only {left} remain"
    readValuePayload dict (readValueLevels dict levels) tag payload

def readValueAt (dict : Dict X) (depth : Nat) : Read (Value X) := readValueLevels dict (maxValueDepth + 1 - depth)

/-- A value at the top, with every level left. -/
def readValue (dict : Dict X) : Read (Value X) := readValueAt dict 0

def readAttrMap (dict : Dict X) : Read (AttrMap X) := readAttrMapWith dict (readValueAt dict 0)

end Logit.Native
