import Logit.Sink.Output

namespace Logit.Sink

def u64Limit : Nat := 2 ^ 64 - 1

def saturatingAdd (a b : Nat) : Nat := min (a + b) u64Limit

/-- What a full buffer does with another item. It cannot block: the queue over it does. -/
inductive DropPolicy
  | dropOldest
  | dropNewest
  deriving DecidableEq

inductive PushOutcome (T : Type)
  | accepted
  | evicted (items : List T)
  | rejected (item : T)

/-- A queue bounded by count and total weight. `items[..reserved]` is never evicted. -/
structure InMemoryBuffer (T : Type) where
  items : List (T × Nat)
  maxLen : Nat
  maxWeight : Nat
  weight : Nat
  overflow : DropPolicy
  reserved : Nat

namespace InMemoryBuffer

variable {T : Type}

def new (maxLen maxWeight : Nat) (overflow : DropPolicy) : InMemoryBuffer T :=
  ⟨[], maxLen, maxWeight, 0, overflow, 0⟩

variable (b : InMemoryBuffer T)

def wouldOverflow (weight : Nat) : Bool :=
  b.items.length ≥ b.maxLen || saturatingAdd b.weight weight > b.maxWeight

/-- The loop of `evict_to_fit`: each round removes the first item past the reserved ones, so their
number bounds the rounds. -/
def evictLoop (weight : Nat) : Nat → InMemoryBuffer T → InMemoryBuffer T × List T
  | 0, b => (b, [])
  | rounds + 1, b =>
    if b.wouldOverflow weight then
      match b.items[b.reserved]? with
      | none => (b, [])
      | some (item, itemWeight) =>
        let (b', evicted) := evictLoop weight rounds { b with
          items := b.items.eraseIdx b.reserved
          weight := b.weight - itemWeight }
        (b', item :: evicted)
    else (b, [])

def evictToFit (weight : Nat) : InMemoryBuffer T × List T :=
  evictLoop weight (b.items.length - b.reserved) b

def pushBack (item : T) (weight : Nat) : InMemoryBuffer T :=
  { b with items := b.items ++ [(item, weight)], weight := saturatingAdd b.weight weight }

def push (item : T) (weight : Nat) : InMemoryBuffer T × PushOutcome T :=
  if !b.wouldOverflow weight then (b.pushBack item weight, .accepted)
  else
    match b.overflow with
    | .dropOldest =>
      let (b', evicted) := b.evictToFit weight
      (b'.pushBack item weight, .evicted evicted)
    | .dropNewest => (b, .rejected item)

def peekAt (n : Nat) : InMemoryBuffer T × Option T :=
  match b.items[n]? with
  | none => (b, none)
  | some (item, _) => ({ b with reserved := max b.reserved (n + 1) }, some item)

def commit : InMemoryBuffer T × Option T :=
  match b.items with
  | [] => ({ b with reserved := b.reserved - 1 }, none)
  | (item, weight) :: rest =>
    ({ b with items := rest, weight := b.weight - weight, reserved := b.reserved - 1 }, some item)

end InMemoryBuffer

structure QueueConfig where
  maxItems : Nat
  maxWeight : Nat
  overflow : OverflowPolicy

/-- The buffer with producers that may have to wait. -/
structure BoundedQueue (T : Type) where
  inner : InMemoryBuffer T
  blockWhenFull : Bool
  closed : Bool

namespace BoundedQueue

variable {T : Type}

/-- Under `block` the buffer is built to drop its oldest, which it comes to only for an item that never
fits, or after a close. -/
def new (config : QueueConfig) : BoundedQueue T :=
  let underlying := match config.overflow with
    | .block | .dropOldest => DropPolicy.dropOldest
    | .dropNewest => DropPolicy.dropNewest
  ⟨.new config.maxItems config.maxWeight underlying, config.overflow = .block, false⟩

def mustWait (q : BoundedQueue T) (weight : Nat) : Bool :=
  let impossibleToEverFit := weight > q.inner.maxWeight || q.inner.maxLen = 0
  q.blockWhenFull && q.inner.wouldOverflow weight && !impossibleToEverFit && !q.closed

end BoundedQueue

end Logit.Sink
