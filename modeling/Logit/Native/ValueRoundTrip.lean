import Logit.Native.Value

namespace Logit.Native

open ByteCodec List Decoder Writer Reads Nat

variable {X : Externals} {α : Type}

/-- What a 64-bit process can hold: lengths below 2^64, dictionary indices in 32 bits, and a budget
in 64. -/
def wire : Limits := ⟨2 ^ 64, 2 ^ 32, u64Max⟩

mutual

/-- The budget a value's lists and maps are charged when it is read. -/
def rawCost : RawValue X → Nat
  | .array items => items.length * sizeOfValue + itemsCost items
  | .map entries => sizeOfAttrMap + (entries.length * sizeOfEntry + entriesCost entries)
  | _ => 0

def itemsCost : List (RawValue X) → Nat
  | [] => 0
  | v :: others => rawCost v + itemsCost others

def entriesCost : RawEntries X → Nat
  | [] => 0
  | (_, v) :: others => rawCost v + entriesCost others

end

/-- What a value's lists and maps are charged. -/
def valueCost (v : Value X) : Nat := rawCost v.raw

def attrMapCost (m : AttrMap X) : Nat := m.len * sizeOfEntry + entriesCost m.entries

theorem itemsCost_eq (items : List (RawValue X)) : itemsCost items = (items.map rawCost).sum := by
  induction items with
  | nil => rfl
  | cons v others ih => rw [itemsCost, ih, map_cons, sum_cons]

variable (entries : RawEntries X)

theorem entriesCost_eq :
    entriesCost entries = (entries.map fun e => rawCost e.2).sum := by
  induction entries with
  | nil => rfl
  | cons e others ih => rw [entriesCost, ih, map_cons, sum_cons]

def writeEntry (e : X.Symbol × RawValue X) : Writer X.Symbol :=
  .entry e.1 (fun position => writeUvarint (dictIndex position).toNat) ++ writeRawValue e.2

theorem writeItems_eq (items : List (RawValue X)) : writeItems items = Writer.each writeRawValue items := by
  induction items with
  | nil => rfl
  | cons v others ih => rw [writeItems, ih, each_cons]

theorem writeEntries_eq :
    writeEntries entries = Writer.each writeEntry entries := by
  induction entries with
  | nil => rfl
  | cons e others ih => rw [writeEntries, ih, each_cons, writeEntry]

theorem two_le_length_writeField (tag : UInt8) (build : Writer X.Symbol) (before : Symbols X) :
    2 ≤ ((writeField tag build).run before).1.length := by
  have size := one_le_length_writeUvarint (build.run before).1.length
  simp only [writeField, run_append, run_bytes, run_sized, length_append, length_singleton]
  omega

theorem two_le_length_writeRawValue (v : RawValue X) (before : Symbols X) :
    2 ≤ ((writeRawValue v).run before).1.length := by
  cases v <;> rw [writeRawValue] <;> exact two_le_length_writeField _ _ _

theorem three_le_length_writeEntry (e : X.Symbol × RawValue X) (before : Symbols X) :
    3 ≤ ((writeEntry e).run before).1.length := by
  have key := one_le_length_writeUvarint (dictIndex (firstUse before e.1).1).toNat
  have inner := two_le_length_writeRawValue e.2 (firstUse before e.1).2
  simp only [writeEntry, run_append, run_entry, length_append]
  omega

variable {w : Writer X.Symbol} {c : Nat} {tag : UInt8}

/-- A length in front of a part is read, and the part carved out whole. -/
theorem reads_sized {read : Symbols X → Bytes → Read α} {short : Nat → Nat → CodecError} {a : α}
    (inner : ReadsSlice wire w read a c) :
    Reads wire (.sized writeUvarint w) (fun symbols => readUvarint >>= fun len =>
      carve len (short len) >>= fun slice => read symbols slice) a c :=
  sized (fun _ bound rest left => readUvarint_write bound rest left) inner

theorem readU8_cons (b : UInt8) (rest : Bytes) (left : Nat) :
    readU8.run (b :: rest) left = .ok (b, rest, left) := rfl

theorem reads_field {read : Symbols X → UInt8 → Bytes → Read α} {short : UInt8 → Nat → Nat → CodecError}
    {a : α} (inner : ReadsSlice wire w (fun symbols slice => read symbols tag slice) a c) :
    Reads wire (writeField tag w) (fun symbols => readU8 >>= fun tag => readUvarint >>= fun len =>
      carve len (short tag len) >>= fun slice => read symbols tag slice) a c :=
  andThen (fun _ rest left => readU8_cons tag rest left) (reads_sized inner)

variable (limit : Nat)

/-- A counted list: the count is charged for against the bytes it needs at least, then each element
is read. -/
theorem reads_counted {β : Type} {items : List β} {part : β → Writer X.Symbol} {read : Symbols X → Read α}
    {value : β → α} {cost : β → Nat} (what : String) {minWire : Nat} (size : Nat) (wide : 0 < minWire)
    (long : ∀ b ∈ items, ∀ before, minWire ≤ ((part b).run before).1.length)
    (one : ∀ b ∈ items, Reads wire (part b) read (value b) (cost b)) :
    Reads wire (.bytes (writeUvarint items.length) ++ Writer.each part items)
      (fun symbols => readCounted limit what minWire size (read symbols)) (items.map value)
      (items.length * size + (items.map cost).sum) := by
  intro before symbols sub bounded small rest left enough funded
  have held := length_each long before
  have list := times one
  simp only [run_append, run_bytes, length_append] at sub small ⊢
  have counted : items.length ≤ items.length * minWire := Nat.le_mul_of_pos_right _ wide
  have fits : items.length < 2 ^ 64 := by
    have top : wire.length = 2 ^ 64 := rfl
    omega
  have room : items.length * minWire ≤ (((Writer.each part items).run before).1 ++ rest).length := by
    rw [length_append]
    omega
  rw [readCounted, append_assoc, bind_of_ok (readUvarint_write fits _ _),
    bind_of_ok (chargeList_of_le wide room (by omega) funded), bind_of_ok (note_apply _ _ _),
    list before symbols sub bounded (by omega) rest _ (by omega) (by omega), Nat.sub_sub]

theorem exists_values {items : List (RawValue X)} (ordered : ∀ v ∈ items, v.Ordered) :
    ∃ values : List (Value X), values.map Value.raw = items := by
  refine ⟨items.attach.map fun v => ⟨v.1, ordered v.1 v.2⟩, ?_⟩
  rw [map_map]
  exact items.attach_map_subtype_val

theorem exists_pairs {entries : RawEntries X} (ordered : ∀ e ∈ entries, e.2.Ordered) :
    ∃ pairs : List (X.Symbol × Value X), (pairs.map fun p => (p.1, p.2.raw)) = entries := by
  refine ⟨entries.attach.map fun e => (e.1.1, ⟨e.1.2, ordered e.1 e.2⟩), ?_⟩
  rw [map_map]
  exact entries.attach_map_subtype_val

theorem reads_key (key : X.Symbol) : Reads wire (.entry key fun position => writeUvarint (dictIndex position).toNat)
      (fun symbols => readKey ⟨symbols, limit⟩) key 0 := by
  refine entry fun symbols position found bounded rest left => ?_
  have inside := (List.getElem?_eq_some_iff.mp found).1
  have small : position < 2 ^ 32 := lt_of_lt_of_le inside bounded
  have index : (dictIndex position).toNat = position := by rw [dictIndex, UInt32.toNat_ofNat_of_lt' small]
  rw [readKey, bind_of_ok (readUvarint_write (by omega) rest left)]
  simp [Dict.get, index, found, pure_apply]

theorem reads_entry {readInner : Symbols X → Read (Value X)} {pair : X.Symbol × Value X}
    (inner : Reads wire (writeValue pair.2) readInner pair.2 (valueCost pair.2)) :
    Reads wire (writeEntry (pair.1, pair.2.raw))
      (fun symbols => readEntry ⟨symbols, limit⟩ (readInner symbols)) pair (valueCost pair.2) := by
  have both : Reads wire (writeEntry (pair.1, pair.2.raw))
      (fun symbols => readEntry ⟨symbols, limit⟩ (readInner symbols)) pair (0 + valueCost pair.2) :=
    (reads_key limit pair.1).bind (inner.map fun v => (pair.1, v))
  rwa [zero_add] at both

variable (m : AttrMap X)

/-- A map's entries read back in order: the keys increase, so each is inserted at the end. -/
theorem reads_attrMapWith {readInner : Symbols X → Read (Value X)}
    (inner : ∀ v : Value X, (∃ e ∈ m.entries, e.2 = v.raw) → Reads wire (writeValue v) readInner v (valueCost v)) :
    Reads wire (writeAttrMap m) (fun symbols => readAttrMapWith ⟨symbols, limit⟩ (readInner symbols))
      m (attrMapCost m) := by
  obtain ⟨pairs, split⟩ := exists_pairs m.nested
  have one : ∀ p ∈ pairs, Reads wire (writeEntry (p.1, p.2.raw))
      (fun symbols => readEntry ⟨symbols, limit⟩ (readInner symbols)) p (valueCost p.2) := by
    intro p mem
    refine reads_entry limit (inner p.2 ⟨(p.1, p.2.raw), ?_, rfl⟩)
    rw [← split]
    exact mem_map_of_mem mem
  have list := reads_counted limit "attribute map" sizeOfEntry (by decide : 0 < 3)
    (fun p _ => three_le_length_writeEntry _) one
  have rebuilt : pairs.foldl (fun m pair => m.insertSym pair.1 pair.2) AttrMap.empty = m := by
    refine AttrMap.ext_entries ?_
    rw [AttrMap.foldl_insertSym (by rw [split]; exact m.sorted), split]
    rfl
  have size : m.len = pairs.length := by rw [AttrMap.len, ← split, length_map]
  have built := list.map fun pairs => pairs.foldl (fun m pair => m.insertSym pair.1 pair.2) AttrMap.empty
  rw [map_id', rebuilt] at built
  rw [writeAttrMap, attrMapCost, writeEntries_eq, entriesCost_eq, size, ← split, each_map, map_map]
  exact built

theorem reads_charge (limit bytes : Nat) {read : Symbols X → Read α} {a : α} (inner : Reads wire w read a c) :
    Reads wire w (fun symbols => charge limit bytes >>= fun _ => read symbols) a (bytes + c) := by
  intro before symbols sub bounded small rest left enough funded
  rw [bind_of_ok (charge_of_le (by omega) _),
    inner before symbols sub bounded small rest _ (by omega) (by omega), Nat.sub_sub]

theorem reads_tagged (limit levels : Nat) {v : Value X}
    (inner : ReadsSlice wire w (fun symbols slice => readValuePayload ⟨symbols, limit⟩
      (readValueLevels ⟨symbols, limit⟩ levels) tag slice) v c) :
    Reads wire (writeField tag w) (fun symbols => readValueLevels ⟨symbols, limit⟩ (levels + 1)) v c :=
  reads_field inner

/-- A value without parts of its own, whose payload its tag's reader takes whole. -/
theorem reads_scalar (limit levels : Nat) {payload : Bytes} {v : Value X} {read : Read (Value X)}
    (accepted : ∀ left, read.run payload left = .ok (v, [], left))
    (selected : ∀ symbols : Symbols X, readValuePayload ⟨symbols, limit⟩
      (readValueLevels ⟨symbols, limit⟩ levels) tag payload = Decoder.inside payload (trailingBytes "value") read) :
    Reads wire (writeField tag (.bytes payload))
      (fun symbols => readValueLevels ⟨symbols, limit⟩ (levels + 1)) v 0 := by
  refine reads_tagged limit levels fun before symbols _ _ _ rest left _ _ => ?_
  simp only [run_bytes, selected]
  exact inside_of_ok (accepted left) _ rest

theorem readIvarint_whole (v : Int64) (left : Nat) : readIvarint.run (writeIvarint v) left = .ok (v, [], left) := by
  have run := readIvarint_write v [] left
  rwa [append_nil] at run

theorem readUvarint_whole {v : Nat} (fits : v < 2 ^ 64) (left : Nat) :
    readUvarint.run (writeUvarint v) left = .ok (v, [], left) := by
  have run := readUvarint_write fits [] left
  rwa [append_nil] at run

/-- A value within the depth that is left to the reader is read back at its cost. The induction is
on its tree; the parts of an array or a map have one level less. -/
theorem reads_rawValue (raw : RawValue X) (ordered : raw.Ordered) (levels : Nat) (shallow : raw.nesting ≤ levels) :
    Reads wire (writeRawValue raw) (fun symbols => readValueLevels ⟨symbols, limit⟩ (levels + 1))
      ⟨raw, ordered⟩ (rawCost raw) := by
  induction raw using RawValue.induction generalizing levels with
  | null =>
    refine reads_scalar limit levels ?_ fun _ => rfl
    intro left
    rfl
  | bool v =>
    refine reads_scalar limit levels ?_ fun _ => rfl
    intro left
    cases v <;> rfl
  | i64 v | timestamp v =>
    refine reads_scalar limit levels ?_ fun _ => rfl
    intro left
    exact bind_of_ok (readIvarint_whole v left) _
  | u64 v =>
    refine reads_scalar limit levels ?_ fun _ => rfl
    intro left
    rw [bind_of_ok (readUvarint_whole v.toNat_lt left), UInt64.ofNat_toNat]
    rfl
  | f64 v =>
    refine reads_scalar limit levels ?_ fun _ => rfl
    intro left
    have payload : readF64Payload.run (f64Bytes v) left = .ok (v, [], left) := by simp [readF64Payload]
    exact bind_of_ok payload _
  | bytes v => exact reads_tagged limit levels fun _ _ _ _ _ _ _ _ _ => rfl
  | str v =>
    refine reads_tagged limit levels fun before symbols _ _ _ rest left _ _ => ?_
    have text : readValuePayload ⟨symbols, limit⟩ (readValueLevels ⟨symbols, limit⟩ levels)
        ValueTag.str (utf8Bytes v) = pure (Value.str v) := by
      simp only [readValuePayload, fromUtf8_utf8Bytes]
      rfl
    simp only [run_bytes, text]
    rfl
  | array items ih =>
    obtain ⟨values, rfl⟩ := exists_values (RawValue.ordered_array.mp ordered)
    have one : ∀ v ∈ values, Reads wire (writeRawValue v.raw)
        (fun symbols => readValueLevels ⟨symbols, limit⟩ levels) v (rawCost v.raw) := by
      intro v mem
      have inside : v.raw ∈ values.map Value.raw := mem_map_of_mem mem
      have deeper := RawValue.nesting_lt_array inside
      obtain ⟨below, rfl⟩ := exists_eq_succ_of_ne_zero (by omega : levels ≠ 0)
      exact ih v.raw inside v.ordered below (by omega)
    have list := reads_counted limit "array value" sizeOfValue (by decide : 0 < 2)
      (fun v _ => two_le_length_writeRawValue _) one
    rw [map_id'] at list
    rw [writeRawValue, writeItems_eq, rawCost, itemsCost_eq, each_map, length_map, map_map]
    exact reads_tagged limit levels ((list.map Value.array).whole.inside _)
  | map entries ih =>
    obtain ⟨sorted, nested⟩ := RawValue.ordered_map.mp ordered
    have each : ∀ v : Value X, (∃ e ∈ entries, e.2 = v.raw) → Reads wire (writeValue v)
        (fun symbols => readValueLevels ⟨symbols, limit⟩ levels) v (valueCost v) := by
      rintro ⟨raw, inOrder⟩ ⟨e, mem, rfl⟩
      have deeper := RawValue.nesting_lt_map mem
      obtain ⟨below, rfl⟩ := exists_eq_succ_of_ne_zero (by omega : levels ≠ 0)
      exact ih e mem inOrder below (by omega)
    have read := (reads_attrMapWith limit ⟨entries, sorted, nested⟩ each).map Value.map
    exact reads_tagged limit levels ((reads_charge limit sizeOfAttrMap read).whole.inside _)

theorem reads_value (v : Value X) (shallow : v.raw.nesting ≤ maxValueDepth) :
    Reads wire (writeValue v) (fun symbols => readValue ⟨symbols, limit⟩) v (valueCost v) :=
  reads_rawValue limit v.raw v.ordered maxValueDepth shallow

/-- No value among the attributes is nested deeper than a reader goes. -/
def ShallowMap : Prop := ∀ e ∈ m.entries, e.2.nesting ≤ maxValueDepth

instance : Decidable (ShallowMap m) :=
  inferInstanceAs (Decidable (∀ e ∈ m.entries, e.2.nesting ≤ maxValueDepth))

theorem reads_attrMap (shallow : ShallowMap m) :
    Reads wire (writeAttrMap m) (fun symbols => readAttrMap ⟨symbols, limit⟩) m (attrMapCost m) := by
  refine reads_attrMapWith limit m ?_
  rintro v ⟨e, mem, same⟩
  exact reads_value limit v (same ▸ shallow e mem)

end Logit.Native
