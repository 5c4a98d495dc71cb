import Logit.Lib.Calls
import Logit.Sink.Buffer

namespace Logit.Sink

variable {T : Type}

/-- Which bound a push found full: the count once it is reached, else the weight. -/
inductive Bound
  | items
  | weight
  deriving DecidableEq

inductive DropReason
  | overflowOldest
  | overflowNewest
  deriving DecidableEq

/-- What a call on the queue did, for its caller and for the drop counts. -/
inductive QueueEffect (T : Type)
  | queued (item : T)
  | dropped (reason : DropReason) (item : T) (bound : Bound)
  | popped (item : T)
  | ended
  | peeked (item : Option T)
  deriving DecidableEq

/-- A call on the queue. `pushes` and `pops` are a caller's own loops over `push` and `pop`. -/
inductive QueueCall (T : Type)
  | push (item : T)
  | pushMany (items : List T)
  | pop
  | popMany (max : Nat)
  | peekAt (n : Nat)
  | commit
  | takeAll
  | close
  | pushes (items : List T)
  | pops (max : Nat)

abbrev QueuePolled (T : Type) := Polled (BoundedQueue T) (QueueCall T) (QueueEffect T)

namespace BoundedQueue

variable (q : BoundedQueue T)

def boundHit : Bound := if q.inner.items.length ≥ q.inner.maxLen then .items else .weight

/-- What is counted for the outcome of a push. -/
def counted (item : T) (bound : Bound) : PushOutcome T → List (QueueEffect T)
  | .accepted => [.queued item]
  | .evicted evicted => evicted.map (fun old => .dropped .overflowOldest old bound) ++ [.queued item]
  | .rejected rejected => [.dropped .overflowNewest rejected bound]

/-- One round of `push`: it waits, or the buffer takes the item by its policy. -/
def push (weigh : T → Nat) (q : BoundedQueue T) (item : T) : QueuePolled T :=
  if q.mustWait (weigh item) then ⟨q, [], some (.push item)⟩
  else
    let bound := q.boundHit
    let (inner, outcome) := q.inner.push item (weigh item)
    ⟨{ q with inner }, counted item bound outcome, none⟩

/-- The loop of `push_many` under one lock: items go in until one has to wait. What was dropped is
counted once the lock is released. -/
def pushManyLoop (weigh : T → Nat) : List T → BoundedQueue T → List (QueueEffect T) → QueuePolled T
  | [], q, dropped => ⟨q, dropped, none⟩
  | item :: rest, q, dropped =>
    if q.mustWait (weigh item) then ⟨q, dropped, some (.pushMany (item :: rest))⟩
    else
      let bound := q.boundHit
      let (inner, outcome) := q.inner.push item (weigh item)
      pushManyLoop weigh rest { q with inner } (dropped ++ counted item bound outcome)

def pushMany (weigh : T → Nat) (q : BoundedQueue T) (items : List T) : QueuePolled T :=
  pushManyLoop weigh items q []

/-- One round of `pop`: the head is reserved and removed under one lock. -/
def pop (q : BoundedQueue T) : QueuePolled T :=
  match q.inner.peekAt 0 with
  | (inner, some _) =>
    match inner.commit with
    | (inner, some item) => ⟨{ q with inner }, [.popped item], none⟩
    | (inner, none) => ⟨{ q with inner }, [], some .pop⟩
  | (inner, none) =>
    if q.closed then ⟨{ q with inner }, [.ended], none⟩ else ⟨{ q with inner }, [], some .pop⟩

def popManyLoop : Nat → InMemoryBuffer T → List T → InMemoryBuffer T × List T
  | 0, b, out => (b, out)
  | more + 1, b, out =>
    match b.commit with
    | (b', some item) => popManyLoop more b' (out ++ [item])
    | (b', none) => (b', out)

def popMany (q : BoundedQueue T) (max : Nat) : QueuePolled T :=
  let (inner, out) := popManyLoop (Nat.max max 1) q.inner []
  if out.isEmpty then
    if q.closed then ⟨{ q with inner }, [.ended], none⟩ else ⟨{ q with inner }, [], some (.popMany max)⟩
  else ⟨{ q with inner }, out.map .popped, none⟩

def takeAll : QueuePolled T :=
  let (inner, out) := popManyLoop (q.inner.items.length + 1) q.inner []
  ⟨{ q with inner }, out.map .popped, none⟩

/-- A caller that pushes its items one by one, and waits with the one that has to. -/
def pushes (weigh : T → Nat) : List T → BoundedQueue T → QueuePolled T
  | [], q => ⟨q, [], none⟩
  | item :: rest, q =>
    let p := q.push weigh item
    match p.left with
    | some _ => ⟨p.shared, p.effects, some (.pushes (item :: rest))⟩
    | none =>
      let more := pushes weigh rest p.shared
      ⟨more.shared, p.effects ++ more.effects, more.left⟩

/-- Further pops, while there is something to pop. -/
def morePops : Nat → BoundedQueue T → QueuePolled T
  | 0, q => ⟨q, [], none⟩
  | more + 1, q =>
    if q.inner.items.isEmpty then ⟨q, [], none⟩
    else
      let p := q.pop
      let rest := morePops more p.shared
      ⟨rest.shared, p.effects ++ rest.effects, none⟩

/-- A caller that pops up to so many items, one by one, and waits only for the first. -/
def pops (q : BoundedQueue T) (max : Nat) : QueuePolled T :=
  let first := q.pop
  match first.left with
  | some _ => ⟨first.shared, first.effects, some (.pops max)⟩
  | none =>
    let rest := morePops (Nat.max max 1 - 1) first.shared
    ⟨rest.shared, first.effects ++ rest.effects, none⟩

def poll (weigh : T → Nat) (q : BoundedQueue T) : QueueCall T → QueuePolled T
  | .push item => q.push weigh item
  | .pushMany items => q.pushMany weigh items
  | .pop => q.pop
  | .popMany max => q.popMany max
  | .peekAt n =>
    let (inner, item) := q.inner.peekAt n
    ⟨{ q with inner }, [.peeked item], none⟩
  | .commit =>
    let (inner, item) := q.inner.commit
    ⟨{ q with inner }, (item.map .popped).toList, none⟩
  | .takeAll => q.takeAll
  | .close => ⟨{ q with closed := true }, [], none⟩
  | .pushes items => pushes weigh items q
  | .pops max => q.pops max

/-- The reserved items are there. -/
def Held : Prop := q.inner.reserved ≤ q.inner.items.length

end BoundedQueue

end Logit.Sink
