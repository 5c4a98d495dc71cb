import Logit.Lib.Yields
import Logit.Native.Metering

namespace Logit.Native

open ByteCodec List Nat AttrMap
open ByteCodec.Decoder

variable {X : Externals} {α σ : Type} {cap : Nat}

theorem yields_charge (limit bytes : Nat) : Yields cap (charge limit bytes) (fun _ => True) (fun _ => bytes) := by
  intro input left u rest left' _ run
  simp only [charge] at run
  split at run
  · cases run
  · cases run
    exact ⟨trivial, Nat.le_of_eq (Nat.sub_add_cancel (by omega))⟩

variable (limit : Nat) (dict : Dict X)

/-- Below the top of a u64 the product of a count and a size is charged in full: had it saturated,
it could not have been paid. -/
theorem yields_chargeList (what : String) (count minWire size : Nat) :
    Yields u64Max (chargeList limit what count minWire size) (fun _ => True)
      (fun _ => count * size) := by
  intro input left u rest left' room run
  simp only [chargeList] at run
  split at run
  · cases run
  · have paid := (yields_charge limit (min (count * size) u64Max) _ _ _ _ _ room run).2
    simp only at paid
    have whole : left' + count * size ≤ left := by omega
    exact ⟨trivial, whole⟩

theorem yields_counted (what : String) (minWire size : Nat) {read : Read α} {good : α → Prop} {cost : α → Nat}
    (inner : Yields u64Max read good cost) :
    Yields u64Max (readCounted limit what minWire size read) (fun items => ∀ a ∈ items, good a)
      (fun items => items.length * size + (items.map cost).sum) := by
  refine Yields.after fun count =>
    (yields_chargeList limit what count minWire size).bind fun _ _ =>
      (inner.times count).mono (fun items both => both.2) fun items both => ?_
  rw [both.1]
  omega

/-- Whatever it starts with, a list is of what its elements' reader returns. -/
theorem yields_counted_members (what : String) (minWire size : Nat) {read : Read α} {good : α → Prop}
    {cost : α → Nat} (inner : Yields cap read good cost) :
    Yields cap (readCounted limit what minWire size read) (fun items => ∀ a ∈ items, good a)
      (fun _ => 0) := by
  refine Yields.after fun count =>
    meterChargeList.yields.bind fun _ _ =>
      (inner.times count).mono (fun items both => both.2) fun _ _ => ?_
  exact zero_le _

theorem yields_get (idx : UInt32) : Yields cap (dict.get idx) (· ∈ dict.symbols) (fun _ => 0) := by
  unfold Dict.get
  split
  · rename_i symbol found
    exact yields_pure (mem_of_getElem? found) rfl
  · exact yields_fail _ _ _

theorem yields_readKey : Yields cap (readKey dict) (· ∈ dict.symbols) (fun _ => 0) :=
  Yields.after fun _ => yields_get dict _

theorem yields_readSymbolField : Yields cap (readSymbolField dict) (· ∈ dict.symbols) (fun _ => 0) :=
  Yields.after fun _ => yields_get dict _

/-- A value of so many levels at most, whose keys are all of the dictionary. -/
structure Drawn (source : Symbols X) (levels : Nat) (v : RawValue X) : Prop where
  draws : (writeRawValue v).Draws source
  shallow : v.nesting < levels

/-- A value of the dictionary's symbols, nested no deeper than the levels. -/
def DrawnValue (source : Symbols X) (levels : Nat) (v : Value X) : Prop := Drawn source levels v.raw

structure DrawnMap (source : Symbols X) (levels : Nat) (m : AttrMap X) : Prop where
  keys : ∀ e ∈ m.entries, e.1 ∈ source
  values : ∀ e ∈ m.entries, Drawn source levels e.2

theorem DrawnMap.empty (source : Symbols X) (levels : Nat) : DrawnMap source levels (empty : AttrMap X) :=
  ⟨nofun, nofun⟩

variable {source : Symbols X} {levels : Nat} {m : AttrMap X} {readInner : Read (Value X)}

theorem DrawnMap.insertSym {key : X.Symbol} {v : Value X} (drawn : DrawnMap source levels m)
    (known : key ∈ source) (value : DrawnValue source levels v) :
    DrawnMap source levels (m.insertSym key v) := by
  constructor
  · intro e mem
    rcases mem_insertEntry mem with rfl | old
    · exact known
    · exact drawn.keys e old
  · intro e mem
    rcases mem_insertEntry mem with rfl | old
    · exact value
    · exact drawn.values e old

theorem DrawnMap.draws (drawn : DrawnMap source levels m) : (writeEntries m.entries).Draws source := by
  rw [writeEntries_eq]
  refine .each fun e mem => ?_
  have key := Writer.Draws.entry (drawn.keys e mem)
  have value := (drawn.values e mem).draws
  unfold writeEntry
  infer_instance

instance draws_field {part : Writer X.Symbol} [part.Draws source] (tag : UInt8) :
    (writeField tag part).Draws source := by
  unfold writeField
  infer_instance

theorem DrawnMap.draws_map (drawn : DrawnMap source levels m) : (writeAttrMap m).Draws source := by
  have entries := drawn.draws
  unfold writeAttrMap
  infer_instance

theorem attrMapCost_insertSym (m : AttrMap X) (key : X.Symbol) (v : Value X) :
    attrMapCost (m.insertSym key v) ≤ attrMapCost m + (sizeOfEntry + valueCost v) := by
  have entries (es : RawEntries X) : (insertEntry key v.raw es).length ≤ es.length + 1 ∧
      entriesCost (insertEntry key v.raw es) ≤ entriesCost es + rawCost v.raw := by
    induction es with
    | nil => simp [insertEntry, entriesCost]
    | cons e others ih =>
      rw [insertEntry]
      split
      · simp only [length_cons, entriesCost]
        omega
      · split <;> simp only [length_cons, entriesCost] <;> omega
  obtain ⟨longer, dearer⟩ := entries m.entries
  have room := mul_le_mul_right sizeOfEntry longer
  rw [succ_mul] at room
  simp only [attrMapCost, len, insertSym, valueCost]
  omega

theorem DrawnMap.foldl {pairs : List (X.Symbol × Value X)} (drawn : DrawnMap source levels m)
    (each : ∀ p ∈ pairs, p.1 ∈ source ∧ DrawnValue source levels p.2) :
    DrawnMap source levels (pairs.foldl (fun m pair => m.insertSym pair.1 pair.2) m) := by
  induction pairs generalizing m with
  | nil => exact drawn
  | cons p others ih =>
    obtain ⟨known, value⟩ := each p (by simp)
    exact ih (drawn.insertSym known value) fun q mem => each q (by simp [mem])

theorem attrMapCost_foldl (pairs : List (X.Symbol × Value X)) (m : AttrMap X) :
    attrMapCost (pairs.foldl (fun m pair => m.insertSym pair.1 pair.2) m) ≤
      attrMapCost m + (pairs.length * sizeOfEntry + (pairs.map fun p => valueCost p.2).sum) := by
  induction pairs generalizing m with
  | nil => simp
  | cons p others ih =>
    have one := attrMapCost_insertSym m p.1 p.2
    have rest := ih (m.insertSym p.1 p.2)
    rw [foldl_cons, length_cons, map_cons, sum_cons, succ_mul]
    omega

theorem yields_readEntry (inner : Yields cap readInner (DrawnValue dict.symbols levels) valueCost) :
    Yields cap (readEntry dict readInner)
      (fun p => p.1 ∈ dict.symbols ∧ DrawnValue dict.symbols levels p.2) (fun p => valueCost p.2) :=
  (yields_readKey dict).bind fun _ known => inner.bind fun _ value => yields_pure ⟨known, value⟩ (by simp)

theorem yields_readAttrMapWith (inner : Yields u64Max readInner (DrawnValue dict.symbols levels) valueCost) :
    Yields u64Max (readAttrMapWith dict readInner) (DrawnMap dict.symbols levels) attrMapCost := by
  refine (yields_counted dict.limit "attribute map" 3 sizeOfEntry
    (yields_readEntry dict inner)).bind fun pairs each => yields_pure ((DrawnMap.empty _ _).foldl each) ?_
  have paid := attrMapCost_foldl pairs empty
  rw [show attrMapCost empty = 0 from rfl] at paid
  omega

theorem yields_readAttrMapWith_empty (none : dict.symbols = []) (readInner : Read (Value X)) (levels : Nat) :
    Yields cap (readAttrMapWith dict readInner) (DrawnMap dict.symbols levels) attrMapCost := by
  have entry : Yields cap (readEntry dict readInner) (fun _ => False) (fun _ => 0) :=
    (yields_readKey dict).bind fun key known => by
      rw [none] at known
      cases known
  refine (yields_counted_members dict.limit "attribute map" 3 sizeOfEntry entry).bind fun pairs each => ?_
  cases pairs with
  | nil => exact yields_pure (DrawnMap.empty _ _) rfl
  | cons p others => exact (each p (by simp)).elim

theorem nesting_array_lt {items : List (RawValue X)} (each : ∀ v ∈ items, v.nesting < levels) :
    (RawValue.array items).nesting < levels + 1 := by
  rw [RawValue.nesting]
  induction items with
  | nil => exact succ_pos levels
  | cons v others ih =>
    have here := each v (by simp)
    have there := ih fun w mem => each w (by simp [mem])
    rw [RawValue.nestingItems]
    omega

theorem nesting_map_lt {entries : RawEntries X} (each : ∀ e ∈ entries, e.2.nesting < levels) :
    (RawValue.map entries).nesting < levels + 1 := by
  rw [RawValue.nesting_map]
  exact nesting_array_lt (forall_mem_map.mpr each)

theorem drawn_scalar (source : Symbols X) (levels : Nat) {v : RawValue X} {tag : UInt8}
    {b : Bytes} (written : writeRawValue v = writeField tag (.bytes b)) (flat : v.nesting = 0) :
    Drawn source (levels + 1) v :=
  ⟨written ▸ draws_field tag, flat ▸ succ_pos levels⟩

theorem drawn_array {items : List (Value X)} (each : ∀ v ∈ items, DrawnValue source levels v) :
    DrawnValue source (levels + 1) (Value.array items) := by
  have mem : ∀ v ∈ items.map Value.raw, Drawn source levels v := by
    intro v mem
    obtain ⟨item, inside, rfl⟩ := mem_map.mp mem
    exact each item inside
  refine ⟨?_, nesting_array_lt fun v inside => (mem v inside).shallow⟩
  rw [Value.array, writeRawValue, writeItems_eq]
  have items := Writer.Draws.each fun v inside => (mem v inside).draws
  infer_instance

theorem drawn_map (drawn : DrawnMap source levels m) : DrawnValue source (levels + 1) (Value.map m) := by
  refine ⟨?_, nesting_map_lt fun e inside => (drawn.values e inside).shallow⟩
  rw [Value.map, writeRawValue]
  have entries := drawn.draws
  infer_instance

theorem valueCost_array (items : List (Value X)) :
    valueCost (Value.array items) = items.length * sizeOfValue + (items.map valueCost).sum := by
  simp only [valueCost, Value.array, rawCost, itemsCost_eq, length_map, map_map]
  rfl

/-- What a payload is read as, one level above what its parts are read as. The arrays and maps of
the value are what was charged for. -/
theorem yields_readValuePayload (inner : Yields u64Max readInner (DrawnValue dict.symbols levels) valueCost)
    (tag : UInt8) (payload : Bytes) : Yields u64Max (readValuePayload dict readInner tag payload)
      (DrawnValue dict.symbols (levels + 1)) valueCost := by
  have scalar {β : Type} {read : Read β} [Frugal read] {make : β → Value X}
      (flat : ∀ b, DrawnValue dict.symbols (levels + 1) (make b) ∧ valueCost (make b) = 0) :
      Yields u64Max (Decoder.inside payload (trailingBytes "value") (read >>= fun b => pure (make b)))
        (DrawnValue dict.symbols (levels + 1)) valueCost := by
    refine Yields.inside (Yields.after fun b => ?_) _ _
    exact yields_pure (flat b).1 (flat b).2
  have null : DrawnValue dict.symbols (levels + 1) Value.null := drawn_scalar _ _ rfl rfl
  refine .ite ((yields_pure null rfl).inside _ _) <| .ite (scalar fun _ => ⟨drawn_scalar _ _ rfl rfl, rfl⟩) <|
    .ite (scalar fun _ => ⟨drawn_scalar _ _ rfl rfl, rfl⟩) <|
    .ite (scalar fun _ => ⟨drawn_scalar _ _ rfl rfl, rfl⟩) <|
    .ite (scalar fun _ => ⟨drawn_scalar _ _ rfl rfl, rfl⟩) <|
    .ite (yields_pure (drawn_scalar _ _ rfl rfl) rfl) <|
    .ite ?_ <|
    .ite (scalar fun _ => ⟨drawn_scalar _ _ rfl rfl, rfl⟩) <|
    .ite ?_ <| .ite ?_ <| yields_pure null rfl
  · split
    · exact yields_pure (drawn_scalar _ _ rfl rfl) rfl
    · exact yields_fail _ _ _
  · refine ((yields_counted dict.limit "array value" 2 sizeOfValue inner).bind fun items each =>
      yields_pure (drawn_array each) ?_).inside _ _
    rw [valueCost_array, Nat.sub_self]
  · refine ((yields_charge dict.limit sizeOfAttrMap).bind fun _ _ =>
      (yields_readAttrMapWith dict inner).bind fun m drawn => yields_pure (drawn_map drawn) ?_).inside
        _ _
    have cost : valueCost (Value.map m) = sizeOfAttrMap + attrMapCost m := rfl
    omega

theorem yields_readValueLevels (levels : Nat) :
    Yields u64Max (readValueLevels dict levels) (DrawnValue dict.symbols levels)
      valueCost := by
  induction levels with
  | zero => exact yields_fail _ _ _
  | succ levels ih =>
    exact Yields.after fun _ => Yields.after fun _ => Yields.after fun _ => yields_readValuePayload dict ih _ _

theorem yields_readValue : Yields u64Max (readValue dict) (DrawnValue dict.symbols (maxValueDepth + 1)) valueCost :=
  yields_readValueLevels dict _

/-- A map of the payload is paid for, whether the budget can still saturate or there is no
dictionary to take a key from. -/
theorem yields_readAttrMap (solvent : cap ≤ u64Max ∨ dict.symbols = []) :
    Yields cap (readAttrMap dict) (DrawnMap dict.symbols (maxValueDepth + 1)) attrMapCost := by
  rcases solvent with room | none
  · intro bytes left m rest left' below run
    exact yields_readAttrMapWith dict (yields_readValueLevels dict _) _ _ _ _ _ (by omega) run
  · exact yields_readAttrMapWith_empty dict none _ _

end Logit.Native
