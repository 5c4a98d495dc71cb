import Logit.Sink.QueueCalls
import Logit.Sink.Reserve

namespace Logit.Sink

open List InMemoryBuffer

variable {T : Type}

/-- What a call may be replaced by: a batched one by the single ones it stands for. -/
inductive Replaces : QueueCall T → QueueCall T → Prop
  | same (c : QueueCall T) : Replaces c c
  | pushMany (items : List T) : Replaces (.pushMany items) (.pushes items)
  | popMany (max : Nat) : Replaces (.popMany max) (.pops max)

namespace BoundedQueue

variable {q : BoundedQueue T} {weigh : T → Nat}

theorem push_waits {item : T} (waits : q.mustWait (weigh item) = true) :
    q.push weigh item = ⟨q, [], some (.push item)⟩ := by rw [push, if_pos waits]

theorem push_goes {item : T} (goes : ¬ q.mustWait (weigh item) = true) :
    q.push weigh item = ⟨{ q with inner := (q.inner.push item (weigh item)).1 },
      counted item q.boundHit (q.inner.push item (weigh item)).2, none⟩ := by rw [push, if_neg goes]

/-- Under its one lock `push_many` does what the single pushes do in turn, and stops with the item
they stop with. -/
theorem pushManyLoop_related (weigh : T → Nat) (items : List T) (q : BoundedQueue T)
    (dropped : List (QueueEffect T)) :
    (pushManyLoop weigh items q dropped).shared = (pushes weigh items q).shared ∧
    (pushManyLoop weigh items q dropped).effects = dropped ++ (pushes weigh items q).effects ∧
    Option.Rel Replaces (pushManyLoop weigh items q dropped).left (pushes weigh items q).left := by
  induction items generalizing q dropped with
  | nil => exact ⟨rfl, (append_nil _).symm, .none⟩
  | cons item rest ih =>
    rw [pushManyLoop, pushes]
    by_cases waits : q.mustWait (weigh item) = true
    · rw [if_pos waits, push_waits waits]
      exact ⟨rfl, (append_nil _).symm, .some (.pushMany _)⟩
    · rw [if_neg waits, push_goes waits]
      obtain ⟨shared, effects, left⟩ := ih { q with inner := (q.inner.push item (weigh item)).1 }
        (dropped ++ counted item q.boundHit (q.inner.push item (weigh item)).2)
      exact ⟨shared, by rw [effects, append_assoc], left⟩

theorem pushMany_related (weigh : T → Nat) (q : BoundedQueue T) (items : List T) :
    Calls.PollRelated Replaces (q.pushMany weigh items) (pushes weigh items q) := by
  obtain ⟨shared, effects, left⟩ := pushManyLoop_related weigh items q []
  exact ⟨shared, effects, left⟩

theorem pop_cons {first : T × Nat} {rest : List (T × Nat)} (some : q.inner.items = first :: rest) :
    q.pop = ⟨{ q with inner := q.inner.commit.1 }, [.popped first.1], none⟩ := by
  have front : q.inner.items[0]? = .some first := by rw [some]; rfl
  have found : q.inner.peekAt 0 = ({ q.inner with reserved := max q.inner.reserved 1 }, .some first.1) := by
    rw [InMemoryBuffer.peekAt, front]
  have removed : q.inner.commit.2 = .some first.1 := by rw [InMemoryBuffer.commit, some]
  have same := commit_peekAt found
  rw [pop, found]
  simp only [same]
  split
  · rename_i inner item committed
    rw [committed] at removed ⊢
    cases removed
    rfl
  · rename_i inner committed
    rw [committed] at removed
    cases removed

theorem pop_nil (none : q.inner.items = []) :
    q.pop = if q.closed then ⟨q, [.ended], .none⟩ else ⟨q, [], some .pop⟩ := by
  have found : q.inner.peekAt 0 = (q.inner, .none) := by
    rw [InMemoryBuffer.peekAt, none]
    rfl
  rw [pop, found]

theorem popManyLoop_out (more : Nat) (b : InMemoryBuffer T) (out : List T) :
    popManyLoop more b out = ((popManyLoop more b []).1, out ++ (popManyLoop more b []).2) := by
  induction more generalizing b out with
  | zero => simp [popManyLoop]
  | succ more ih =>
    rw [popManyLoop, popManyLoop]
    split
    · rename_i b' item removed
      rw [ih b' (out ++ [item]), ih b' ([] ++ [item])]
      simp
    · simp

theorem popManyLoop_cons {b : InMemoryBuffer T} {first : T × Nat} {rest : List (T × Nat)}
    (some : b.items = first :: rest) (more : Nat) : popManyLoop (more + 1) b [] =
      ((popManyLoop more b.commit.1 []).1, first.1 :: (popManyLoop more b.commit.1 []).2) := by
  have removed : b.commit = (b.commit.1, .some first.1) := by rw [InMemoryBuffer.commit, some]
  rw [popManyLoop, removed]
  simp only [nil_append]
  rw [popManyLoop_out more b.commit.1 [first.1]]
  rfl

theorem popManyLoop_nil {b : InMemoryBuffer T} (held : b.reserved ≤ b.items.length)
    (none : b.items = []) (more : Nat) : popManyLoop more b [] = (b, []) := by
  cases more with
  | zero => rfl
  | succ more => rw [popManyLoop, commit_empty held none]

theorem morePops_eq (more : Nat) (held : q.Held) :
    morePops more q = ⟨{ q with inner := (popManyLoop more q.inner []).1 },
      (popManyLoop more q.inner []).2.map .popped, none⟩ := by
  induction more generalizing q with
  | zero => rfl
  | succ more ih =>
    rw [morePops]
    cases items : q.inner.items with
    | nil =>
      rw [popManyLoop_nil held items]
      rfl
    | cons first rest =>
      have next : ({ q with inner := q.inner.commit.1 } : BoundedQueue T).Held := commit_held held
      rw [pop_cons items, popManyLoop_cons items]
      simp only [ih next]
      rfl

theorem popMany_related (held : q.Held) (max : Nat) : Calls.PollRelated Replaces (q.popMany max) (q.pops max) := by
  have least : Nat.max max 1 = Nat.max max 1 - 1 + 1 := by
    have one := Nat.le_max_right max 1
    change 1 ≤ Nat.max max 1 at one
    omega
  cases items : q.inner.items with
  | nil =>
    rw [popMany, pops, popManyLoop_nil held items, pop_nil items]
    by_cases closed : q.closed = true
    · have rest := morePops_eq (Nat.max max 1 - 1) held
      rw [popManyLoop_nil held items] at rest
      simp only [if_pos closed, rest]
      exact ⟨rfl, rfl, .none⟩
    · simp only [if_neg closed]
      exact ⟨rfl, rfl, .some (.popMany max)⟩
  | cons first rest =>
    have next : ({ q with inner := q.inner.commit.1 } : BoundedQueue T).Held := commit_held held
    rw [popMany, least, popManyLoop_cons items, pops, pop_cons items]
    simp only [morePops_eq _ next]
    exact ⟨rfl, rfl, .none⟩

theorem poll_related (held : q.Held) {c d : QueueCall T} (replaces : Replaces c d) :
    Calls.PollRelated Replaces (q.poll weigh c) (q.poll weigh d) := by
  cases replaces with
  | same =>
    refine ⟨rfl, rfl, ?_⟩
    cases (q.poll weigh c).left with
    | none => exact .none
    | some left => exact .some (.same left)
  | pushMany items => exact pushMany_related weigh q items
  | popMany max => exact popMany_related held max

/-- What the buffer keeps through its own operations, it keeps through every call. -/
structure Kept (inv : InMemoryBuffer T → Prop) : Prop where
  push : ∀ b item weight, inv b → inv (b.push item weight).1
  peekAt : ∀ b n, inv b → inv (b.peekAt n).1
  commit : ∀ b, inv b → inv b.commit.1

namespace Kept

variable {inv : InMemoryBuffer T → Prop}

theorem popManyLoop (kept : Kept inv) {b : InMemoryBuffer T} (holds : inv b) (more : Nat)
    (out : List T) : inv (popManyLoop more b out).1 := by
  induction more generalizing b out with
  | zero => exact holds
  | succ more ih =>
    have next := kept.commit b holds
    rw [BoundedQueue.popManyLoop]
    split
    · rename_i removed
      rw [removed] at next
      exact ih next _
    · rename_i removed
      rw [removed] at next
      exact next

theorem poll_push (kept : Kept inv) (holds : inv q.inner) (item : T) : inv (q.push weigh item).shared.inner := by
  rw [BoundedQueue.push]
  split
  · exact holds
  · exact kept.push _ _ _ holds

theorem poll_pushes (kept : Kept inv) (holds : inv q.inner) (items : List T) :
    inv (pushes weigh items q).shared.inner := by
  induction items generalizing q with
  | nil => exact holds
  | cons item rest ih =>
    have next : inv (q.push weigh item).shared.inner := kept.poll_push holds item
    rw [pushes]
    split
    · exact next
    · exact ih next

theorem poll_pop (kept : Kept inv) (holds : inv q.inner) : inv q.pop.shared.inner := by
  cases items : q.inner.items with
  | nil =>
    rw [pop_nil items]
    split <;> exact holds
  | cons first rest =>
    rw [pop_cons items]
    exact kept.commit _ holds

theorem poll_morePops (kept : Kept inv) (holds : inv q.inner) (more : Nat) :
    inv (morePops more q).shared.inner := by
  induction more generalizing q with
  | zero => exact holds
  | succ more ih =>
    rw [morePops]
    split
    · exact holds
    · exact ih (kept.poll_pop holds)

theorem poll (kept : Kept inv) (weigh : T → Nat) (holds : inv q.inner) (c : QueueCall T) :
    inv (q.poll weigh c).shared.inner := by
  cases c with
  | push item => exact kept.poll_push holds item
  | pushMany items =>
    rw [BoundedQueue.poll, (pushMany_related weigh q items).shared]
    exact kept.poll_pushes holds items
  | pop => exact kept.poll_pop holds
  | popMany max =>
    have loop := kept.popManyLoop holds (Nat.max max 1) []
    rw [BoundedQueue.poll, popMany]
    simp only
    split
    · split <;> exact loop
    · exact loop
  | peekAt n => exact kept.peekAt _ n holds
  | commit => exact kept.commit _ holds
  | takeAll => exact kept.popManyLoop holds (q.inner.items.length + 1) []
  | close => exact holds
  | pushes items => exact kept.poll_pushes holds items
  | pops max =>
    have first := kept.poll_pop holds
    rw [BoundedQueue.poll, pops]
    split
    · exact first
    · exact kept.poll_morePops first _

end Kept

theorem kept_held : Kept fun b : InMemoryBuffer T => b.reserved ≤ b.items.length where
  push _ item weight held := push_held held item weight
  peekAt _ n held := peekAt_held held n
  commit _ held := commit_held held

end BoundedQueue

/-- The items a call has put into the queue, in order. -/
def queuedItems (effects : List (QueueEffect T)) : List T := effects.filterMap fun effect => match effect with
    | .queued item => some item
    | _ => none

/-- How a `push_many` stands: what it has queued and what it has still to queue are its items. -/
def Queues (made : QueueCall T) (effects : List (QueueEffect T)) (left : Option (QueueCall T)) : Prop :=
  ∀ items, made = .pushMany items → match left with
    | none => queuedItems effects = items
    | some c => ∃ rest, c = .pushMany rest ∧ queuedItems effects ++ rest = items

namespace BoundedQueue

variable {q : BoundedQueue T} {weigh : T → Nat}

/-- A queue that blocks: its buffer rejects nothing. -/
def Blocks (q : BoundedQueue T) : Prop := q.inner.overflow = .dropOldest

theorem kept_blocks : Kept fun b : InMemoryBuffer T => b.overflow = .dropOldest where
  push b item weight blocks := by
    rcases b.push_cases item weight with same | ⟨n, same⟩ <;> rw [same] <;> exact blocks
  peekAt b n blocks := by
    rw [InMemoryBuffer.peekAt]
    split <;> exact blocks
  commit b blocks := by
    rw [InMemoryBuffer.commit]
    split <;> exact blocks

/-- Whatever it does to older items, the buffer of a queue that blocks takes the new one. -/
theorem queued_push (blocks : q.Blocks) (item : T) (weight : Nat) (bound : Bound) :
    queuedItems (counted item bound (q.inner.push item weight).2) = [item] := by
  rw [InMemoryBuffer.push, show q.inner.overflow = .dropOldest from blocks]
  split
  · rfl
  · simp [counted, queuedItems]

theorem queuedItems_append (a b : List (QueueEffect T)) : queuedItems (a ++ b) = queuedItems a ++ queuedItems b :=
  filterMap_append

theorem pushManyLoop_queues (weigh : T → Nat) (blocks : q.Blocks) (items : List T) (before : List (QueueEffect T)) :
    match (pushManyLoop weigh items q before).left with
    | none => queuedItems (pushManyLoop weigh items q before).effects = queuedItems before ++ items
    | some c => ∃ rest, c = .pushMany rest ∧
        queuedItems (pushManyLoop weigh items q before).effects ++ rest = queuedItems before ++ items := by
  induction items generalizing q before with
  | nil => simp [pushManyLoop]
  | cons item rest ih =>
    rw [pushManyLoop]
    by_cases waits : q.mustWait (weigh item) = true
    · rw [if_pos waits]
      exact ⟨item :: rest, rfl, rfl⟩
    · rw [if_neg waits]
      have one := queued_push blocks item (weigh item) q.boundHit
      have same := kept_blocks.push _ item (weigh item) blocks
      have more := ih (q := { q with inner := (q.inner.push item (weigh item)).1 }) same
        (before ++ counted item q.boundHit (q.inner.push item (weigh item)).2)
      rw [queuedItems_append, one, append_assoc] at more
      exact more

theorem poll_queues (blocks : q.Blocks) {made c : QueueCall T} {before : List (QueueEffect T)}
    (stands : Queues made before (some c)) :
    Queues made (before ++ (q.poll weigh c).effects) (q.poll weigh c).left := by
  intro items called
  obtain ⟨rest, rfl, whole⟩ := stands items called
  have loop := pushManyLoop_queues weigh blocks rest []
  change match (q.pushMany weigh rest).left with
    | none => queuedItems (before ++ (q.pushMany weigh rest).effects) = items
    | some c => ∃ rest', c = .pushMany rest' ∧
        queuedItems (before ++ (q.pushMany weigh rest).effects) ++ rest' = items
  rw [pushMany]
  cases left : (pushManyLoop weigh rest q []).left with
  | none =>
    rw [left] at loop
    rw [queuedItems_append, loop]
    exact whole
  | some c =>
    rw [left] at loop
    obtain ⟨rest', same, queued⟩ := loop
    refine ⟨rest', same, ?_⟩
    rw [queuedItems_append, append_assoc, queued]
    exact whole

end BoundedQueue

/-- A run of any number of tasks' calls on a new queue. -/
def runCalls (weigh : T → Nat) (config : QueueConfig) (events : List (Calls.Event (QueueCall T))) :
    Option (Calls (BoundedQueue T) (QueueCall T) (QueueEffect T)) :=
  (Calls.start (BoundedQueue.new config)).run (BoundedQueue.poll weigh) events

/-- What a run leaves for everyone: the queue, with its contents, its reserved items and its weight,
and what each task's calls did, drops included. -/
def outcome (s : Calls (BoundedQueue T) (QueueCall T) (QueueEffect T)) :
    BoundedQueue T × List (Nat × QueueEffect T) :=
  (s.shared, s.log)

/-- Batched calls can be replaced by the single calls they stand for, any of them and anywhere in
any run, and the run comes out the same. On a queue that blocks, a `push_many` that waits has queued
the first of its items and still has the others. -/
theorem batched_calls (weigh : T → Nat) (config : QueueConfig) {events events' : List (Calls.Event (QueueCall T))}
    (replaced : List.Forall₂ (Calls.EventRelated Replaces) events events') :
    (runCalls weigh config events).map outcome = (runCalls weigh config events').map outcome ∧
    (config.overflow = .block → ∀ s, runCalls weigh config events = some s →
      ∀ task t, s.tasks task = some t → Queues t.made t.effects t.left) := by
  constructor
  · have runs :
      Option.Rel (Calls.Related Replaces) (runCalls weigh config events) (runCalls weigh config events') :=
      Calls.run_related BoundedQueue.Held (fun _ c held => BoundedQueue.kept_held.poll weigh held c)
        (fun _ _ _ held => BoundedQueue.poll_related held) (Nat.zero_le _)
        ⟨rfl, rfl, fun _ => .none⟩ replaced
    generalize runCalls weigh config events = a at runs
    generalize runCalls weigh config events' = b at runs
    cases runs with
    | none => rfl
    | some related => exact congrArg some (Prod.ext related.shared related.log)
  · intro blocking s ran
    refine Calls.run_tasks BoundedQueue.Blocks
      (fun _ c blocks => BoundedQueue.kept_blocks.poll weigh blocks c) Queues
      (fun c items called => ⟨items, called, rfl⟩)
      (fun _ _ _ _ blocks => BoundedQueue.poll_queues blocks) ?_
      (fun _ _ absent => by cases absent) ran
    simp [BoundedQueue.Blocks, Calls.start, BoundedQueue.new, blocking, InMemoryBuffer.new]

/-- Three items into room for two: the call waits with its third, until a `pop_many` makes room. -/
theorem batched_calls_sample :
    let config : QueueConfig := ⟨2, 100, .block⟩
    let events : List (Calls.Event (QueueCall Nat)) :=
      [.call 0 (.pushMany [7, 8, 9]), .call 1 (.popMany 2), .wake 0]
    let events' : List (Calls.Event (QueueCall Nat)) := [.call 0 (.pushes [7, 8, 9]), .call 1 (.pops 2), .wake 0]
    (runCalls (fun _ => 1) config events).isSome ∧
    (runCalls (fun _ => 1) config events).map outcome = (runCalls (fun _ => 1) config events').map outcome ∧
    ∀ s, runCalls (fun _ => 1) config events = some s →
      ∀ task t, s.tasks task = some t → Queues t.made t.effects t.left := by
  have both := batched_calls (fun _ : Nat => 1) ⟨2, 100, .block⟩
    (.cons (.call 0 (.pushMany [7, 8, 9])) (.cons (.call 1 (.popMany 2)) (.cons (.wake 0) .nil)))
  exact ⟨by decide, both.1, both.2 rfl⟩

end Logit.Sink
