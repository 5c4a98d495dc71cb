import Logit.Lib.Decoder

namespace Logit

open ByteCodec List

/-- What the event model takes from outside: the process-wide string interner, ordered by interning,
and the two sketch types that travel as opaque blobs. -/
structure Externals where
  Symbol : Type
  order : LinearOrder Symbol
  intern : String → Symbol
  resolve : Symbol → String
  intern_resolve : ∀ symbol, intern (resolve symbol) = symbol
  resolve_intern : ∀ text, resolve (intern text) = text
  DdSketch : Type
  sketchToBytes : DdSketch → Bytes
  sketchFromBytes : Bytes → Except String DdSketch
  sketch_roundTrip : ∀ sketch, sketchFromBytes (sketchToBytes sketch) = .ok sketch
  HyperLogLog : Type
  hllToBytes : HyperLogLog → Bytes
  hllFromBytes : Bytes → Except String HyperLogLog
  hll_roundTrip : ∀ hll, hllFromBytes (hllToBytes hll) = .ok hll

instance (X : Externals) : LinearOrder X.Symbol := X.order

/-- Strings that are their own symbols, and blobs that are their own sketches. -/
def Externals.plain : Externals where
  Symbol := String
  order := inferInstance
  intern text := text
  resolve symbol := symbol
  intern_resolve _ := rfl
  resolve_intern _ := rfl
  DdSketch := Bytes
  sketchToBytes sketch := sketch
  sketchFromBytes := .ok
  sketch_roundTrip _ := rfl
  HyperLogLog := Bytes
  hllToBytes hll := hll
  hllFromBytes := .ok
  hll_roundTrip _ := rfl

/-- A double, as its bit pattern. -/
structure F64 where
  bits : UInt64
deriving DecidableEq

namespace F64

def zero : F64 := ⟨0⟩

def negZero : F64 := ⟨0x8000000000000000⟩

variable (x : F64)

def magnitude : UInt64 := x.bits &&& 0x7fffffffffffffff

def isNan : Bool := 0x7ff0000000000000 < x.magnitude

/-- The `==` of two doubles: no NaN equals anything, and the two zeros are equal. -/
def eq (y : F64) : Bool := !x.isNan && !y.isNan && (x.bits == y.bits || (x.magnitude == 0 && y.magnitude == 0))

def nan : F64 := ⟨0x7ff8000000000000⟩

def isFinite : Bool := x.magnitude < 0x7ff0000000000000

/-- The place of a double that is no NaN on the number line, with one place for both zeros. -/
def place : Int := if x.bits < 0x8000000000000000 then x.magnitude.toNat else -x.magnitude.toNat

/-- The `<` of two doubles; no NaN is below or above anything. -/
def lt (y : F64) : Bool := !x.isNan && !y.isNan && decide (x.place < y.place)

theorem lt_irrefl : x.lt x = false := by
  simp [lt]

end F64

/-- The tree of a value, before the order of its maps' keys is looked at. -/
inductive RawValue (X : Externals) : Type
  | null
  | bool (v : Bool)
  | i64 (v : Int64)
  | u64 (v : UInt64)
  | f64 (v : F64)
  | bytes (v : Bytes)
  | str (v : String)
  | timestamp (v : Int64)
  | array (items : List (RawValue X))
  | map (entries : List (X.Symbol × RawValue X))

/-- The entries of a map. -/
abbrev RawEntries (X : Externals) := List (X.Symbol × RawValue X)

namespace RawValue

variable {X : Externals}

/-- Induction over a value's tree, with the parts of an array or a map taken as members. -/
theorem induction {motive : RawValue X → Prop} (null : motive .null) (bool : ∀ v, motive (.bool v))
    (i64 : ∀ v, motive (.i64 v)) (u64 : ∀ v, motive (.u64 v)) (f64 : ∀ v, motive (.f64 v))
    (bytes : ∀ v, motive (.bytes v)) (str : ∀ v, motive (.str v)) (timestamp : ∀ v, motive (.timestamp v))
    (array : ∀ items, (∀ v ∈ items, motive v) → motive (.array items))
    (map : ∀ entries, (∀ e ∈ entries, motive e.2) → motive (.map entries)) (value : RawValue X) :
    motive value := by
  refine @RawValue.rec X motive (fun items => ∀ v ∈ items, motive v)
    (fun entries => ∀ e ∈ entries, motive e.2) (fun e => motive e.2)
    null bool i64 u64 f64 bytes str timestamp array map ?_ ?_ ?_ ?_ ?_ value
  · simp
  · intro head tail first others v mem
    rcases mem_cons.mp mem with rfl | later
    · exact first
    · exact others v later
  · simp
  · intro head tail first others e mem
    rcases mem_cons.mp mem with rfl | later
    · exact first
    · exact others e later
  · exact fun _ _ inner => inner

mutual

/-- Every map of the tree has its keys in strictly increasing order. -/
def Ordered : RawValue X → Prop
  | .array items => OrderedItems items
  | .map entries => entries.Pairwise (fun a b => a.1 < b.1) ∧ OrderedEntries entries
  | _ => True

def OrderedItems : List (RawValue X) → Prop
  | [] => True
  | v :: others => v.Ordered ∧ OrderedItems others

def OrderedEntries : RawEntries X → Prop
  | [] => True
  | (_, v) :: others => v.Ordered ∧ OrderedEntries others

end

variable {items : List (RawValue X)} {entries : RawEntries X}

theorem orderedItems_iff : OrderedItems items ↔ ∀ v ∈ items, v.Ordered := by
  induction items with
  | nil => simp [OrderedItems]
  | cons v others ih => simp [OrderedItems, ih]

theorem orderedEntries_iff : OrderedEntries entries ↔ ∀ e ∈ entries, e.2.Ordered := by
  induction entries with
  | nil => simp [OrderedEntries]
  | cons e others ih => simp [OrderedEntries, ih]

theorem ordered_array : (array items).Ordered ↔ ∀ v ∈ items, v.Ordered := by
  rw [Ordered, orderedItems_iff]

theorem ordered_map : (map entries).Ordered ↔
      entries.Pairwise (fun a b => a.1 < b.1) ∧ ∀ e ∈ entries, e.2.Ordered := by rw [Ordered, orderedEntries_iff]

mutual

/-- How many arrays and maps enclose the deepest value of the tree. -/
def nesting : RawValue X → Nat
  | .array items => nestingItems items
  | .map entries => nestingEntries entries
  | _ => 0

def nestingItems : List (RawValue X) → Nat
  | [] => 0
  | v :: others => max (v.nesting + 1) (nestingItems others)

def nestingEntries : RawEntries X → Nat
  | [] => 0
  | (_, v) :: others => max (v.nesting + 1) (nestingEntries others)

end

theorem nesting_lt_array {v : RawValue X} (mem : v ∈ items) : v.nesting < (array items).nesting := by
  rw [nesting]
  induction items with
  | nil => cases mem
  | cons head others ih =>
    rw [nestingItems]
    rcases mem_cons.mp mem with rfl | later
    · omega
    · have deeper := ih later
      omega

theorem nesting_map (entries : RawEntries X) :
    (map entries).nesting = (array (entries.map Prod.snd)).nesting := by
  simp only [nesting]
  induction entries with
  | nil => rfl
  | cons e others ih => rw [nestingEntries, map_cons, nestingItems, ih]

theorem nesting_lt_map {e : X.Symbol × RawValue X} (mem : e ∈ entries) :
    e.2.nesting < (map entries).nesting := by
  rw [nesting_map]
  exact nesting_lt_array (mem_map_of_mem mem)

end RawValue

/-- The value type carried by attributes and payloads. -/
structure Value (X : Externals) where
  raw : RawValue X
  ordered : raw.Ordered

/-- Event attributes: entries in strictly increasing key order. -/
structure AttrMap (X : Externals) where
  entries : RawEntries X
  sorted : entries.Pairwise (fun a b => a.1 < b.1)
  nested : ∀ e ∈ entries, e.2.Ordered

variable {X : Externals}

namespace Value

def null : Value X := ⟨.null, trivial⟩

def bool (v : Bool) : Value X := ⟨.bool v, trivial⟩

def i64 (v : Int64) : Value X := ⟨.i64 v, trivial⟩

def u64 (v : UInt64) : Value X := ⟨.u64 v, trivial⟩

def f64 (v : F64) : Value X := ⟨.f64 v, trivial⟩

def bytes (v : Bytes) : Value X := ⟨.bytes v, trivial⟩

def str (v : String) : Value X := ⟨.str v, trivial⟩

def timestamp (v : Int64) : Value X := ⟨.timestamp v, trivial⟩

def array (items : List (Value X)) : Value X := ⟨.array (items.map Value.raw), by
    rw [RawValue.ordered_array]
    intro v mem
    obtain ⟨item, _, rfl⟩ := List.mem_map.mp mem
    exact item.ordered⟩

def map (m : AttrMap X) : Value X := ⟨.map m.entries, RawValue.ordered_map.mpr ⟨m.sorted, m.nested⟩⟩

end Value

namespace AttrMap

theorem ext_entries {m n : AttrMap X} (same : m.entries = n.entries) : m = n := by
  cases n
  cases same
  rfl

def empty : AttrMap X := ⟨[], List.Pairwise.nil, by simp⟩

def len (m : AttrMap X) : Nat := m.entries.length

def isEmpty (m : AttrMap X) : Bool := m.entries.isEmpty

theorem eq_empty_of_isEmpty {m : AttrMap X} (none : m.isEmpty = true) : m = empty :=
  ext_entries (isEmpty_iff.mp none)

/-- The binary search of the sorted entries, and the overwrite or the insertion where it ends. -/
def insertEntry (key : X.Symbol) (v : RawValue X) : RawEntries X → RawEntries X
  | [] => [(key, v)]
  | e :: others =>
    if e.1 < key then e :: insertEntry key v others
    else if e.1 = key then (key, v) :: others
    else (key, v) :: e :: others

variable {key : X.Symbol} {v : RawValue X} {entries : RawEntries X}

theorem mem_insertEntry {e : X.Symbol × RawValue X} (mem : e ∈ insertEntry key v entries) :
    e = (key, v) ∨ e ∈ entries := by
  induction entries with
  | nil => exact .inl (mem_singleton.mp mem)
  | cons head others ih =>
    simp only [insertEntry] at mem
    split at mem
    · rcases mem_cons.mp mem with rfl | later
      · exact .inr (by simp)
      · exact (ih later).imp_right (mem_cons_of_mem head)
    · split at mem
      · exact (mem_cons.mp mem).imp_right (mem_cons_of_mem head)
      · exact mem_cons.mp mem

theorem insertEntry_sorted (sorted : entries.Pairwise (fun a b => a.1 < b.1)) :
    (insertEntry key v entries).Pairwise (fun a b => a.1 < b.1) := by
  induction entries with
  | nil => simp [insertEntry]
  | cons head others ih =>
    obtain ⟨above, rest⟩ := pairwise_cons.mp sorted
    simp only [insertEntry]
    split
    · rename_i below
      refine pairwise_cons.mpr ⟨?_, ih rest⟩
      intro e mem
      rcases mem_insertEntry mem with rfl | old
      · exact below
      · exact above e old
    · split
      · rename_i same
        refine pairwise_cons.mpr ⟨?_, rest⟩
        intro e mem
        exact same ▸ above e mem
      · rename_i notBelow different
        have after := lt_of_le_of_ne (not_lt.mp notBelow) (Ne.symm different)
        refine pairwise_cons.mpr ⟨?_, sorted⟩
        intro e mem
        rcases mem_cons.mp mem with rfl | old
        · exact after
        · exact after.trans (above e old)

def insertSym (m : AttrMap X) (key : X.Symbol) (v : Value X) : AttrMap X where
  entries := insertEntry key v.raw m.entries
  sorted := insertEntry_sorted m.sorted
  nested e mem := by
    rcases mem_insertEntry mem with rfl | old
    · exact v.ordered
    · exact m.nested e old

theorem insertEntry_last (below : ∀ e ∈ entries, e.1 < key) :
    insertEntry key v entries = entries ++ [(key, v)] := by
  induction entries with
  | nil => rfl
  | cons head others ih =>
    have rest := ih fun e mem => below e (by simp [mem])
    rw [insertEntry, if_pos (below head (by simp)), rest]
    rfl

/-- Inserting sorted entries in turn after smaller ones appends them all. -/
theorem foldl_insertSym {m : AttrMap X} {pairs : List (X.Symbol × Value X)}
    (sorted : (m.entries ++ pairs.map fun p => (p.1, p.2.raw)).Pairwise (fun a b => a.1 < b.1)) :
    (pairs.foldl (fun m p => m.insertSym p.1 p.2) m).entries = m.entries ++ pairs.map fun p => (p.1, p.2.raw) := by
  induction pairs generalizing m with
  | nil => simp
  | cons p others ih =>
    have below : ∀ e ∈ m.entries, e.1 < p.1 := by
      intro e mem
      exact (pairwise_append.mp sorted).2.2 e mem (p.1, p.2.raw) (by simp)
    have entries : (m.insertSym p.1 p.2).entries = m.entries ++ [(p.1, p.2.raw)] := insertEntry_last below
    rw [foldl_cons, ih (by rw [entries]; simpa using sorted), entries]
    simp

end AttrMap

end Logit
