import Mathlib

namespace StopAndWait

open List

variable {B : Type}

/-- What happens on one numbered channel: a batch gets its number, a batch is sent and accepted or not,
or the channel is closed to further numbers. -/
inductive Event (B : Type)
  | numbered (b : B)
  | sent (b : B) (accepted : Bool)
  | closed

def Event.numbered? : Event B → Option B
  | .numbered b => some b
  | _ => none

def Event.accepted? : Event B → Option B
  | .sent b true => some b
  | _ => none

def numberedOf (trace : List (Event B)) : List B := trace.filterMap Event.numbered?

def acceptedOf (trace : List (Event B)) : List B := trace.filterMap Event.accepted?

@[simp] theorem numberedOf_append (xs ys : List (Event B)) :
    numberedOf (xs ++ ys) = numberedOf xs ++ numberedOf ys := filterMap_append

@[simp] theorem acceptedOf_append (xs ys : List (Event B)) :
    acceptedOf (xs ++ ys) = acceptedOf xs ++ acceptedOf ys := filterMap_append

@[simp] theorem numberedOf_numbered (b : B) : numberedOf [.numbered b] = [b] := rfl

@[simp] theorem numberedOf_sent (b : B) (a : Bool) : numberedOf [.sent b a] = [] := rfl

@[simp] theorem acceptedOf_accepted (b : B) : acceptedOf [.sent b true] = [b] := rfl

@[simp] theorem acceptedOf_refused (b : B) : acceptedOf [.sent b false] = [] := rfl

/-- What an event may be after the events before it. A batch is sent only when every batch numbered
before it was accepted, and is not accepted yet itself; a number follows those given before. -/
def Lawful (follows : List B → B → Prop) (before : List (Event B)) : Event B → Prop
  | .numbered b => .closed ∉ before ∧ follows (numberedOf before) b
  | .sent b _ => acceptedOf before ++ [b] <+: numberedOf before
  | .closed => True

def Legal (follows : List B → B → Prop) (trace : List (Event B)) : Prop :=
  ∀ before e after, trace = before ++ e :: after → Lawful follows before e

variable {follows : List B → B → Prop}

theorem Legal.nil : Legal follows ([] : List (Event B)) := by
  intro before e after split
  simp at split

variable {trace : List (Event B)}

theorem Legal.snoc {e : Event B} (legal : Legal follows trace) (lawful : Lawful follows trace e) :
    Legal follows (trace ++ [e]) := by
  intro before e' after split
  rcases eq_nil_or_concat after with rfl | ⟨init, last, rfl⟩
  · obtain ⟨rfl, same⟩ := append_inj' split rfl
    obtain rfl : e = e' := by simpa using same
    exact lawful
  · rw [concat_eq_append, ← cons_append, ← append_assoc] at split
    obtain ⟨same, -⟩ := append_inj' split rfl
    exact legal before e' init same

theorem Legal.close (legal : Legal follows trace) (events : List (Event B))
    (closing : ∀ e ∈ events, e = .closed) : Legal follows (trace ++ events) := by
  induction events generalizing trace with
  | nil => simpa using legal
  | cons e events ih =>
    have here : Lawful follows trace e := by
      rw [closing e mem_cons_self]
      trivial
    have more := ih (legal.snoc here) fun e' mem => closing e' (mem_cons_of_mem _ mem)
    simpa using more

/-- Numbers given one after another while the channel is open. -/
theorem Legal.number (legal : Legal follows trace) (batches : List B) (isOpen : .closed ∉ trace)
    (chain : ∀ before b after, batches = before ++ b :: after → follows (numberedOf trace ++ before) b) :
    Legal follows (trace ++ batches.map .numbered) := by
  induction batches generalizing trace with
  | nil => simpa using legal
  | cons b batches ih =>
    have first : follows (numberedOf trace) b := by simpa using chain [] b batches rfl
    have lawful : Lawful follows trace (.numbered b) := ⟨isOpen, first⟩
    have more := ih (legal.snoc lawful) (by simp [isOpen]) fun before b' after split => by
      have rest := chain (b :: before) b' after (by rw [split]; rfl)
      simpa using rest
    simpa using more

/-- A batch in one round of sending: whether it was sent, and whether it was accepted. -/
structure Shipment (B : Type) where
  batch : B
  sent : Bool
  accepted : Bool

def Shipment.event (d : Shipment B) : Option (Event B) := if d.sent then some (.sent d.batch d.accepted) else none

/-- A round in which nothing is sent behind a batch that was not accepted. -/
inductive Orderly : List (Shipment B) → Prop
  | done : Orderly []
  | accepted {b : B} {rest : List (Shipment B)} : Orderly rest → Orderly (⟨b, true, true⟩ :: rest)
  | stopped {d : Shipment B} {rest : List (Shipment B)} (refused : d.accepted = false)
      (behind : ∀ d' ∈ rest, d'.sent = false ∧ d'.accepted = false) : Orderly (d :: rest)

variable {round : List (Shipment B)}

theorem Orderly.of_unsent (unsent : ∀ d ∈ round, d.sent = false ∧ d.accepted = false) : Orderly round := by
  cases round with
  | nil => exact .done
  | cons d rest =>
    exact .stopped (unsent d mem_cons_self).2 fun d' mem =>
      unsent d' (mem_cons_of_mem _ mem)

/-- Two parts of a round, where a batch not accepted in the first leaves the second unsent. -/
theorem Orderly.append {round rest : List (Shipment B)} (orderly : Orderly round) (later : Orderly rest)
    (stops : (∃ d ∈ round, d.accepted = false) → ∀ d ∈ rest, d.sent = false ∧ d.accepted = false) :
    Orderly (round ++ rest) := by
  induction orderly with
  | done => exact later
  | accepted _ ih =>
    refine .accepted (ih fun refused => stops ?_)
    obtain ⟨d, mem, refused⟩ := refused
    exact ⟨d, mem_cons_of_mem _ mem, refused⟩
  | @stopped d round refused behind =>
    refine .stopped refused fun d' mem => ?_
    rcases mem_append.mp mem with inRound | inRest
    · exact behind d' inRound
    · exact stops ⟨d, mem_cons_self, refused⟩ d' inRest

theorem numberedOf_events (round : List (Shipment B)) : numberedOf (round.filterMap Shipment.event) = [] := by
  refine filterMap_eq_nil_iff.mpr fun e mem => ?_
  obtain ⟨d, -, made⟩ := mem_filterMap.mp mem
  unfold Shipment.event at made
  split_ifs at made
  obtain rfl := Option.some.inj made
  rfl

theorem events_of_unsent (unsent : ∀ d ∈ round, d.sent = false ∧ d.accepted = false) :
    round.filterMap Shipment.event = [] := by
  refine filterMap_eq_nil_iff.mpr fun d mem => ?_
  simp [Shipment.event, (unsent d mem).1]

theorem filter_of_unsent (unsent : ∀ d ∈ round, d.sent = false ∧ d.accepted = false) :
    round.filter (fun d => !d.accepted) = round := by
  refine filter_eq_self.mpr fun d mem => ?_
  simp [(unsent d mem).2]

/-- What was numbered and not accepted yet is `waiting`, in the order of the numbers. -/
def Waiting (trace : List (Event B)) (waiting : List B) : Prop := numberedOf trace = acceptedOf trace ++ waiting

/-- An orderly round over what is waiting is lawful, and leaves waiting what was not accepted. -/
theorem Orderly.legal (orderly : Orderly round) :
    ∀ {trace : List (Event B)}, Legal follows trace → Waiting trace (round.map Shipment.batch) →
      Legal follows (trace ++ round.filterMap Shipment.event) ∧ Waiting (trace ++ round.filterMap Shipment.event)
          ((round.filter fun d => !d.accepted).map Shipment.batch) := by
  induction orderly with
  | done =>
    intro trace legal waiting
    simpa using And.intro legal waiting
  | @accepted b rest _ ih =>
    intro trace legal waiting
    have lawful : Lawful follows trace (.sent b true) := by
      unfold Lawful
      rw [waiting]
      exact ⟨rest.map Shipment.batch, by simp⟩
    have onward : Waiting (trace ++ [.sent b true]) (rest.map Shipment.batch) := by
      unfold Waiting at waiting ⊢
      simp [waiting]
    have later := ih (legal.snoc lawful) onward
    simpa [Shipment.event] using later
  | @stopped d rest refused behind =>
    intro trace legal waiting
    have left : (d :: rest).filter (fun d => !d.accepted) = d :: rest := by simp [refused, filter_of_unsent behind]
    rw [left, filterMap_cons, events_of_unsent behind]
    cases went : d.sent with
    | false => simpa [Shipment.event, went] using And.intro legal waiting
    | true =>
      have lawful : Lawful follows trace (.sent d.batch false) := by
        unfold Lawful
        rw [waiting]
        exact ⟨rest.map Shipment.batch, by simp⟩
      simp only [Shipment.event, went, refused]
      refine ⟨legal.snoc lawful, ?_⟩
      unfold Waiting at waiting ⊢
      simp [waiting]

theorem numberedOf_map_numbered (batches : List B) : numberedOf (batches.map Event.numbered) = batches := by
  simp [numberedOf, Function.comp_def, Event.numbered?]

theorem Waiting.number {waiting : List B} (holds : Waiting trace waiting) (batches : List B) :
    Waiting (trace ++ batches.map .numbered) (waiting ++ batches) := by
  have accepts : acceptedOf (batches.map Event.numbered) = [] := by simp [acceptedOf, Event.accepted?]
  unfold Waiting at holds ⊢
  rw [numberedOf_append, acceptedOf_append, numberedOf_map_numbered, accepts, holds]
  simp

/-- With nothing accepted in between, what is sent next is the batch sent before. -/
theorem Legal.resent {trace before between after : List (Event B)} {b b' : B} {a a' : Bool}
    (legal : Legal follows trace) (split : trace = before ++ .sent b a :: (between ++ .sent b' a' :: after))
    (unaccepted : acceptedOf (.sent b a :: between) = []) : b' = b := by
  have first := legal before (.sent b a) _ split
  have second : acceptedOf (before ++ .sent b a :: between) ++ [b'] <+:
      numberedOf (before ++ .sent b a :: between) := by
    refine legal (before ++ .sent b a :: between) (.sent b' a') after ?_
    simpa using split
  rw [acceptedOf_append, unaccepted, numberedOf_append] at second
  have longer := first.trans (prefix_append _ (numberedOf (.sent b a :: between)))
  have same := prefix_of_prefix_length_le second longer (by simp)
  have equal := same.eq_of_length (by simp)
  simpa using equal

end StopAndWait
