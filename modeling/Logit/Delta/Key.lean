import Logit.Core.Event

namespace Logit.Delta

open List Bool

variable {X : Externals}

theorem bits_eq_iff {a b : F64} : a.bits = b.bits ↔ a = b := by
  cases a
  cases b
  simp

mutual

/-- Equality of two values with doubles compared by their bits. -/
def valueKeyEq : RawValue X → RawValue X → Bool
  | .null, .null => true
  | .bool a, .bool b => a == b
  | .i64 a, .i64 b => a == b
  | .u64 a, .u64 b => a == b
  | .f64 a, .f64 b => a.bits == b.bits
  | .bytes a, .bytes b => a == b
  | .str a, .str b => a == b
  | .timestamp a, .timestamp b => a == b
  | .array a, .array b => itemsKeyEq a b
  | .map a, .map b => entriesKeyEq a b
  | _, _ => false

def itemsKeyEq : List (RawValue X) → List (RawValue X) → Bool
  | [], [] => true
  | a :: as, b :: bs => valueKeyEq a b && itemsKeyEq as bs
  | _, _ => false

def entriesKeyEq : RawEntries X → RawEntries X → Bool
  | [], [] => true
  | (k, a) :: as, (l, b) :: bs => decide (k = l) && valueKeyEq a b && entriesKeyEq as bs
  | _, _ => false

end

theorem itemsKeyEq_iff {as bs : List (RawValue X)}
    (each : ∀ a ∈ as, ∀ b, valueKeyEq a b = true ↔ a = b) : itemsKeyEq as bs = true ↔ as = bs := by
  induction as generalizing bs with
  | nil => cases bs <;> simp [itemsKeyEq]
  | cons a as ih =>
    cases bs with
    | nil => simp [itemsKeyEq]
    | cons b bs =>
      have first := each a mem_cons_self b
      have others := @ih bs (fun v mem => each v (mem_cons_of_mem a mem))
      simp [itemsKeyEq, first, others]

theorem entriesKeyEq_iff {as bs : RawEntries X}
    (each : ∀ e ∈ as, ∀ b, valueKeyEq e.2 b = true ↔ e.2 = b) : entriesKeyEq as bs = true ↔ as = bs := by
  induction as generalizing bs with
  | nil => cases bs <;> simp [entriesKeyEq]
  | cons a as ih =>
    cases bs with
    | nil => simp [entriesKeyEq]
    | cons b bs =>
      have first := each a mem_cons_self b.2
      have others := @ih bs (fun e mem => each e (mem_cons_of_mem a mem))
      obtain ⟨k, v⟩ := a
      obtain ⟨l, w⟩ := b
      simp [entriesKeyEq, first, others]

/-- Comparing doubles by their bits makes the comparison of values an exact one. -/
theorem valueKeyEq_iff (a b : RawValue X) : valueKeyEq a b = true ↔ a = b := by
  induction a using RawValue.induction generalizing b with
  | array items each => cases b <;> simp [valueKeyEq, itemsKeyEq_iff each]
  | map entries each => cases b <;> simp [valueKeyEq, entriesKeyEq_iff each]
  | f64 v => cases b <;> simp [valueKeyEq, bits_eq_iff]
  | _ => cases b <;> simp [valueKeyEq]

def attrMapKeyEq (a b : AttrMap X) : Bool := entriesKeyEq a.entries b.entries

theorem attrMapKeyEq_iff {a b : AttrMap X} : attrMapKeyEq a b = true ↔ a = b := by
  obtain ⟨as, _, _⟩ := a
  obtain ⟨bs, _, _⟩ := b
  simp [attrMapKeyEq, entriesKeyEq_iff (fun e _ => valueKeyEq_iff e.2)]

def resourceKeyEq (a b : Resource X) : Bool :=
  a.schemaUrl == b.schemaUrl && a.droppedAttributesCount == b.droppedAttributesCount &&
    attrMapKeyEq a.attributes b.attributes

theorem resourceKeyEq_iff {a b : Resource X} : resourceKeyEq a b = true ↔ a = b := by
  obtain ⟨_, _, _⟩ := a
  obtain ⟨_, _, _⟩ := b
  simp only [resourceKeyEq, and_eq_true, beq_iff_eq, attrMapKeyEq_iff, Resource.mk.injEq]
  tauto

def scopeKeyEq : Option (Scope X) → Option (Scope X) → Bool
  | none, none => true
  | some a, some b =>
    a.name == b.name && a.version == b.version && a.schemaUrl == b.schemaUrl &&
      a.droppedAttributesCount == b.droppedAttributesCount && attrMapKeyEq a.attributes b.attributes
  | _, _ => false

theorem scopeKeyEq_iff {a b : Option (Scope X)} : scopeKeyEq a b = true ↔ a = b := by
  rcases a with _ | ⟨_, _, _, _, _⟩ <;> rcases b with _ | ⟨_, _, _, _, _⟩ <;> simp [scopeKeyEq, attrMapKeyEq_iff]
  tauto

/-- The converted kind a series holds, part of its key. -/
inductive Kind
  | sum | histogram | exponentialHistogram | summary | nonMonotonicSum
deriving DecidableEq

structure Key (X : Externals) where
  resource : Resource X
  scope : Option (Scope X)
  name : X.Symbol
  unit : Option X.Symbol
  kind : Kind
  attributes : AttrMap X

/-- The comparison `find` makes for each slot under a hash. -/
def Key.eq (k other : Key X) : Bool :=
  decide (k.name = other.name) && decide (k.unit = other.unit) && decide (k.kind = other.kind) &&
    resourceKeyEq k.resource other.resource && scopeKeyEq k.scope other.scope &&
    attrMapKeyEq k.attributes other.attributes

theorem Key.eq_iff {k other : Key X} : k.eq other = true ↔ k = other := by
  obtain ⟨_, _, _, _, _, _⟩ := k
  obtain ⟨_, _, _, _, _, _⟩ := other
  simp only [Key.eq, and_eq_true, decide_eq_true_eq, resourceKeyEq_iff, scopeKeyEq_iff,
    attrMapKeyEq_iff, Key.mk.injEq]
  tauto

instance : DecidableEq (Key X) := fun _ _ => decidable_of_iff _ Key.eq_iff

end Logit.Delta
