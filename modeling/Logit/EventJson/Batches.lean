import Logit.Core.Event

namespace Logit.EventJson

open ByteCodec

variable {X : Externals}

mutual

/-- The derived `==` of values, under which a NaN is no value's equal and the two zeros are equal. -/
def valueEq : RawValue X → RawValue X → Bool
  | .null, .null => true
  | .bool v, .bool w => v == w
  | .i64 v, .i64 w => v == w
  | .u64 v, .u64 w => v == w
  | .f64 v, .f64 w => v.eq w
  | .bytes v, .bytes w => v == w
  | .str v, .str w => v == w
  | .timestamp v, .timestamp w => v == w
  | .array v, .array w => itemsEq v w
  | .map v, .map w => entriesEq v w
  | _, _ => false

def itemsEq : List (RawValue X) → List (RawValue X) → Bool
  | [], [] => true
  | v :: vs, w :: ws => valueEq v w && itemsEq vs ws
  | _, _ => false

def entriesEq : RawEntries X → RawEntries X → Bool
  | [], [] => true
  | (k, v) :: vs, (l, w) :: ws => decide (k = l) && valueEq v w && entriesEq vs ws
  | _, _ => false

end

def resourceEq (a b : Resource X) : Bool :=
  entriesEq a.attributes.entries b.attributes.entries && a.droppedAttributesCount == b.droppedAttributesCount &&
    a.schemaUrl == b.schemaUrl

def scopeEq (a b : Scope X) : Bool :=
  a.name == b.name && a.version == b.version && entriesEq a.attributes.entries b.attributes.entries &&
    a.droppedAttributesCount == b.droppedAttributesCount && a.schemaUrl == b.schemaUrl

/-- A line's resource and scope. -/
abbrev Origin (X : Externals) := Resource X × Option (Scope X)

def originEq (a b : Origin X) : Bool := resourceEq a.1 b.1 &&
    match a.2, b.2 with
    | none, none => true
    | some a, some b => scopeEq a b
    | _, _ => false

/-- A line's resource and scope behind their pointers. -/
structure Shared (X : Externals) where
  resource : Arc (Resource X)
  scope : Option (Arc (Scope X))

namespace Shared

def origin (s : Shared X) : Origin X := (s.resource.value, s.scope.map Arc.value)

def sameScope : Option (Arc (Scope X)) → Option (Arc (Scope X)) → Bool
  | none, none => true
  | some a, some b => a.ptrEq b
  | _, _ => false

def ptrEq (a b : Shared X) : Bool := a.resource.ptrEq b.resource && sameScope a.scope b.scope

end Shared

/-- One line of the format: the text of an event with its batch's resource and scope, what a reader makes
of a line, and what the format keeps of each (it has one NaN). The text is an object without line breaks. -/
structure LineCodec (X : Externals) where
  render : Origin X → Event X → Bytes
  read : Bytes → Except String (Origin X × Event X)
  kept : Origin X → Origin X
  keptEvent : Event X → Event X
  closed : ∀ origin event, (render origin event).getLast? = some 0x7d
  unbroken : ∀ origin event, ∀ b ∈ render origin event, (b == 0x0a) = false

def renderNdjson (C : LineCodec X) (batch : EventBatch X) : Bytes :=
  batch.events.flatMap fun event => C.render (batch.resource, batch.scope) event ++ [0x0a]

/-- The last line's resource and scope. `fresh` is past every address given out. -/
structure EventJsonDecoder (X : Externals) where
  last : Option (Shared X)
  fresh : Nat
  below : ∀ shared, last = some shared → shared.resource.address < fresh

namespace EventJsonDecoder

def new : EventJsonDecoder X := ⟨none, 0, nofun⟩

/-- A line's own pointers, which the next line may share. -/
def allocate (d : EventJsonDecoder X) (origin : Origin X) : Shared X × EventJsonDecoder X :=
  let pair : Shared X := ⟨⟨d.fresh, origin.1⟩, origin.2.map (Arc.mk (d.fresh + 1))⟩
  (pair, ⟨some pair, d.fresh + 2, fun _ same => Option.some.inj same ▸ Nat.lt_add_of_pos_right Nat.two_pos⟩)

/-- The previous line's pointers when this line's resource and scope equal them. -/
def share (d : EventJsonDecoder X) (origin : Origin X) : Shared X × EventJsonDecoder X :=
  match d.last with
  | some last => if originEq last.origin origin then (last, d) else d.allocate origin
  | none => d.allocate origin

end EventJsonDecoder

def isBlank (b : UInt8) : Bool := b == 0x20 || b == 0x09 || b == 0x0a || b == 0x0c || b == 0x0d

def stripReturn (line : Bytes) : Bytes := if line.getLast? = some 0x0d then line.dropLast else line

/-- The lines that are not blank, without their line ends. -/
def lines (bytes : Bytes) : List Bytes :=
  ((bytes.splitOnP (· == 0x0a)).map stripReturn).filter fun line => !line.all isBlank

/-- A batch that the decoder builds. -/
structure Run (X : Externals) where
  shared : Shared X
  events : List (Event X)

def Run.batch (b : Run X) : EventBatch X := ⟨b.shared.origin.1, b.shared.origin.2, b.events⟩

/-- A line goes to the last batch when it has that batch's pointers. -/
def pushLine (batches : List (Run X)) (shared : Shared X) (event : Event X) : List (Run X) :=
  match batches.getLast? with
  | some b => if b.shared.ptrEq shared then batches.dropLast ++ [{ b with events := b.events ++ [event] }]
    else batches ++ [⟨shared, [event]⟩]
  | none => [⟨shared, [event]⟩]

def decodeBatchLines (C : LineCodec X) :
    EventJsonDecoder X → List (Run X) → List Bytes → Except String (List (Run X))
  | _, batches, [] => .ok batches
  | d, batches, line :: others =>
    match C.read line with
    | .error e => .error e
    | .ok (origin, event) =>
      decodeBatchLines C (d.share origin).2 (pushLine batches (d.share origin).1 event) others

def decodeBatches (C : LineCodec X) (d : EventJsonDecoder X) (bytes : Bytes) :
    Except String (List (EventBatch X)) :=
  (decodeBatchLines C d [] (lines bytes)).map (·.map Run.batch)

/-- One run of lines; a line whose pointers are not the first line's fails it. -/
def decodeIntoLines (C : LineCodec X) : EventJsonDecoder X → Option (Shared X) → List (Event X) → List Bytes →
    Except String (Option (Shared X) × List (Event X))
  | _, first, out, [] => .ok (first, out)
  | d, first, out, line :: others =>
    match C.read line with
    | .error e => .error e
    | .ok (origin, event) =>
      match first with
      | none => decodeIntoLines C (d.share origin).2 (some (d.share origin).1) (out ++ [event]) others
      | some f =>
        if f.ptrEq (d.share origin).1 then decodeIntoLines C (d.share origin).2 first (out ++ [event]) others
        else .error "the resource or scope changes partway; decode one run at a time"

def decodeInto (C : LineCodec X) (d : EventJsonDecoder X) (bytes : Bytes) :
    Except String (Origin X × List (Event X)) :=
  (decodeIntoLines C d none [] (lines bytes)).map fun (first, out) =>
    ((first.map Shared.origin).getD (⟨AttrMap.empty, 0, none⟩, none), out)

end Logit.EventJson
