import Logit.Datadog.Plan
import Logit.Otlp.Send

namespace Logit.Datadog

open List
open Prod (fst snd)

open Sink (Fault)
open Http (Answers BatchAccounting Attempt Outcomes Ran SettledOnce)

/-- The encoder: what it reads of a batch's events, the series points that a batch sends twice or that
an earlier batch sent, and the body of a route's chunk, compressed. -/
structure Encoder (β δ π : Type) where
  events : β → List Event
  seriesDuplicatesIn : β → List Nat → δ
  leaveOffSent : δ → (π → Option (Option Nat)) → δ
  ofEvent : δ → Nat → Nat
  encode : Route → β → Option δ → List Item → Option Encoded

/-- What is fixed for a batch at its first attempt. -/
structure BatchState (δ : Type) where
  now : Option Int
  duplicates : Option δ

structure DatadogOutput (δ : Type) where
  accounting : BatchAccounting
  batch : BatchState δ

/-- What an attempt finds: the clock, the seconds that earlier batches sent, and the answers to its
requests. -/
structure Conditions (π : Type) where
  clock : Int
  sent : π → Option (Option Nat)
  answers : Answers

structure Request where
  route : Route
  items : List Item
  encoded : Encoded

def number (next : Nat) (requests : List Request) : List (Nat × Request) := (requests.zipIdx next).map Prod.swap

variable {β δ π : Type} (encoder : Encoder β δ π)

/-- The series duplicates of a batch, and what is frozen of them for its later attempts. -/
def Encoder.planDuplicates (batch : β) (sent : π → Option (Option Nat))
    (series : List Item) (armed : Bool) (frozen : Option δ) : Option δ × Option δ :=
  if series = [] then (none, frozen)
  else match frozen.filter fun _ => armed with
    | some duplicates => (some duplicates, frozen)
    | none =>
      let duplicates := encoder.leaveOffSent
        (encoder.seriesDuplicatesIn batch (series.map fun item => item.index)) sent
      (some duplicates, if armed then some duplicates else frozen)

/-- The items of a route; a series item writes no point that is left off. -/
def Encoder.items (batch : β) (now : Int) (duplicates : Option δ) (route : Route) : List Item :=
  match route, duplicates with
  | .series, some duplicates => (plan (encoder.events batch) now .series).map fun item =>
    { item with weight := item.weight - encoder.ofEvent duplicates item.index }
  | route, _ => plan (encoder.events batch) now route

def Encoder.requests (encoder : Encoder β δ π) (batch : β) (duplicates : Option δ) (items : List Item)
    (route : Route) : List Request :=
  (splitEncode items route.caps (encoder.encode route batch
    (if route = .series then duplicates else none))).requests.map
      fun (items, encoded) => ⟨route, items, encoded⟩

/-- The encode half of an attempt: every request with its number, the units and whether each was live,
and the requests that the destination has not settled. -/
structure Prepared where
  requests : List (Nat × Request)
  units : List (Nat × Bool)
  postings : List (Nat × Request)

def Encoder.prepareRoutes (encoder : Encoder β δ π) (batch : β) (now : Int) (duplicates : Option δ) :
    List Route → BatchAccounting → Nat → Prepared × BatchAccounting
  | [], accounting, _ => (⟨[], [], []⟩, accounting)
  | route :: rest, accounting, next =>
    let items := encoder.items batch now duplicates route
    if items = [] then encoder.prepareRoutes batch now duplicates rest accounting next
    else
      let encoded := accounting.encode (1 + route.index)
      let numbered := number next (encoder.requests batch duplicates items route)
      let later := encoder.prepareRoutes batch now duplicates rest encoded.2 (next + numbered.length)
      (⟨numbered ++ later.1.requests, (1 + route.index, encoded.1) :: later.1.units,
        (numbered.filter fun r => !encoded.2.settled r.1) ++ later.1.postings⟩, later.2)

/-- The encode half at a send time; also what is frozen for the batch's later attempts. -/
def Encoder.prepare (accounting : BatchAccounting) (frozen : Option δ)
    (batch : β) (now : Int) (sent : π → Option (Option Nat)) : Prepared × BatchAccounting × Option δ :=
  let planned := accounting.encode 0
  let duplicates := encoder.planDuplicates batch sent (plan (encoder.events batch) now .series)
    accounting.armed frozen
  let prepared := encoder.prepareRoutes batch now duplicates.1 routes planned.2 0
  ({ prepared.1 with units := (0, planned.1) :: prepared.1.units }, prepared.2, duplicates.2)

/-- The requests of an attempt, or its result when there is none to send. -/
def Prepared.run (prepared : Prepared) (acceptedBefore : Bool) (answers : Answers) : Ran :=
  if prepared.postings = [] then ⟨[], [], (Outcomes.new acceptedBefore).finish⟩
  else Http.run answers (prepared.postings.map fst) (.new acceptedBefore)

/-- One attempt at the send time fixed for the batch, or else the clock's. A final result clears what
was fixed. -/
def DatadogOutput.send (batch : β) (output : DatadogOutput δ)
    (conditions : Conditions π) : Attempt Request × DatadogOutput δ :=
  let now := output.batch.now.getD conditions.clock
  let prepared := encoder.prepare output.accounting output.batch.duplicates batch now conditions.sent
  let ran := prepared.1.run prepared.2.1.anyAccepted conditions.answers
  let replayed := prepared.2.1.replay ran.journal
  (⟨prepared.1.requests, prepared.1.units, ran.posted, ran.result⟩,
    { accounting := replayed.finish ran.result
      batch := if replayed.isFinal ran.result then ⟨none, none⟩
        else { output.batch with duplicates := prepared.2.2 } })

def DatadogOutput.observeBatch (output : DatadogOutput δ) (clock : Int) : DatadogOutput δ :=
  { accounting := output.accounting.observe, batch := ⟨some clock, none⟩ }

/-- The attempts at a batch up to a final result. -/
def DatadogOutput.attempts (encoder : Encoder β δ π) (batch : β) :
    List (Conditions π) → DatadogOutput δ → List (Attempt Request)
  | [], _ => []
  | conditions :: later, output =>
    let next := output.send encoder batch conditions
    if output.accounting.isFinal next.1.result then [next.1]
    else next.1 :: DatadogOutput.attempts encoder batch later next.2

section

variable (encoder : Encoder β δ π) (batch : β) (now : Int) (duplicates : Option δ) (rest : List Route)

/-- The encode units of the routes that have an item. -/
def Encoder.routeUnits : List Nat :=
  (rest.filter fun route => encoder.items batch now duplicates route ≠ []).map fun route => 1 + route.index

def Encoder.routeRequests : List Request :=
  (rest.filter fun route => encoder.items batch now duplicates route ≠ []).flatMap fun route =>
    encoder.requests batch duplicates (encoder.items batch now duplicates route) route

theorem number_append (next : Nat) (xs ys : List Request) :
    number next (xs ++ ys) = number next xs ++ number (next + xs.length) ys := by
  rw [number, zipIdx_append, map_append]
  rfl

theorem length_number (next : Nat) (xs : List Request) : (number next xs).length = xs.length := by
  rw [number, length_map, length_zipIdx]

theorem prepareRoutes_eq (accounting : BatchAccounting) (next : Nat) :
    encoder.prepareRoutes batch now duplicates rest accounting next =
      (⟨number next (encoder.routeRequests batch now duplicates rest),
        (accounting.encodeAll (encoder.routeUnits batch now duplicates rest)).1,
        (number next (encoder.routeRequests batch now duplicates rest)).filter
          fun r => !accounting.settled r.1⟩,
        (accounting.encodeAll (encoder.routeUnits batch now duplicates rest)).2) := by
  induction rest generalizing accounting next with
  | nil => rfl
  | cons route rest ih =>
    rw [Encoder.prepareRoutes]
    by_cases empty : encoder.items batch now duplicates route = []
    · simp [empty, ih, Encoder.routeUnits, Encoder.routeRequests]
    · have settled : ∀ n, (accounting.encode (1 + route.index)).2.settled n = accounting.settled n := by
        intro n
        simp only [BatchAccounting.encode]
        split <;> rfl
      simp [empty, ih, Encoder.routeUnits, Encoder.routeRequests, settled, number_append, length_number,
        BatchAccounting.encodeAll]

/-- The encode units of a batch: its plan, and each route that has an item. -/
def Encoder.batchUnits : List Nat := 0 :: encoder.routeUnits batch now duplicates routes

def Encoder.batchRequests : List (Nat × Request) := number 0 (encoder.routeRequests batch now duplicates routes)

theorem batchRequests_distinct : ((encoder.batchRequests batch now duplicates).map fst).Nodup := by
  have names : ∀ next (xs : List Request), (number next xs).map fst = range' next xs.length := by
    intro next xs
    rw [number, map_map]
    exact zipIdx_map_snd next xs
  rw [Encoder.batchRequests, names]
  exact nodup_range'

theorem batchUnits_distinct : (encoder.batchUnits batch now duplicates).Nodup ∧
    ∀ unit ∈ encoder.batchUnits batch now duplicates, unit < 32 := by
  have inside : (encoder.batchUnits batch now duplicates).Sublist (0 :: routes.map fun route => 1 + route.index) :=
    .cons_cons _ (filter_sublist.map _)
  refine ⟨inside.nodup (by decide), fun unit mem => ?_⟩
  have small : ∀ unit ∈ 0 :: routes.map (fun route => 1 + route.index), unit < 32 := by decide
  exact small unit (inside.subset mem)

end

theorem Prepared.run_eq (prepared : Prepared) (before : Bool) (answers : Answers) :
    prepared.run before answers = Http.run answers (prepared.postings.map fst) (.new before) := by
  unfold Prepared.run
  split
  next empty =>
    rw [empty]
    rfl
  next => rfl

section

variable {encoder : Encoder β δ π} {batch : β} {now : Int} {duplicates frozen : Option δ}

/-- An attempt with this send time and these duplicates posts the batch's unsettled requests. -/
theorem send_eq (output : DatadogOutput δ) (conditions : Conditions π)
    (time : output.batch.now.getD conditions.clock = now)
    (planned : encoder.planDuplicates batch conditions.sent (plan (encoder.events batch) now .series)
      output.accounting.armed output.batch.duplicates = (duplicates, frozen)) :
    ((output.send encoder batch conditions).1, (output.send encoder batch conditions).2.accounting) =
        output.accounting.attempt (encoder.batchUnits batch now duplicates)
          (encoder.batchRequests batch now duplicates) conditions.answers ∧
      (output.accounting.isFinal (output.send encoder batch conditions).1.result = false →
        (output.send encoder batch conditions).2.batch = { output.batch with duplicates := frozen }) := by
  obtain ⟨counted, encoded⟩ := BatchAccounting.encodeAll_frame output.accounting
    (encoder.batchUnits batch now duplicates)
  have left : ((encoder.batchRequests batch now duplicates).filter
        fun r => !(output.accounting.encode 0).2.settled r.1).map fst =
      ((encoder.batchRequests batch now duplicates).map fst).filter
        fun n => !(output.accounting.encodeAll (encoder.batchUnits batch now duplicates)).2.settled n := by
    obtain ⟨counted', first⟩ := BatchAccounting.encodeAll_frame output.accounting [0]
    have one : (output.accounting.encode 0).2 = { output.accounting with counted := counted' } := first
    rw [one, encoded, filter_map]
    rfl
  refine ⟨?_, fun again => ?_⟩
  · simp only [DatadogOutput.send, Encoder.prepare, time, planned, prepareRoutes_eq, Prepared.run_eq]
    simp only [Encoder.batchRequests] at left
    rw [left]
    rfl
  · simp only [DatadogOutput.send, Encoder.prepare, time, planned, prepareRoutes_eq] at again ⊢
    refine if_neg ?_
    simp only [Encoder.batchUnits, BatchAccounting.encodeAll] at encoded
    obtain ⟨accepted, rejected, replayed⟩ := BatchAccounting.replay_frame
      { output.accounting with counted := counted } _
    rw [encoded] at again ⊢
    rw [replayed, Bool.not_eq_true]
    exact again

/-- What the first attempt at an observed batch plans is planned again in each later one, whatever was
sent in the meantime. -/
theorem planDuplicates_frozen {sent : π → Option (Option Nat)} {series : List Item}
    (planned : encoder.planDuplicates batch sent series true none = (duplicates, frozen))
    (later : π → Option (Option Nat)) :
    encoder.planDuplicates batch later series true frozen = (duplicates, frozen) := by
  unfold Encoder.planDuplicates at planned ⊢
  by_cases empty : series = []
  · rw [if_pos empty, Prod.mk.injEq] at planned ⊢
    exact ⟨planned.1, rfl⟩
  · simp only [if_neg empty] at planned ⊢
    obtain ⟨rfl, rfl⟩ := planned
    rfl

/-- The attempts at a batch, as one delivery of the requests that the first one plans. -/
theorem attempts_eq (conditions : List (Conditions π)) (output : DatadogOutput δ)
    (armed : output.accounting.armed = true) (time : output.batch.now = some now)
    (first : ∀ c ∈ conditions.head?, encoder.planDuplicates batch c.sent
      (plan (encoder.events batch) now .series) true output.batch.duplicates = (duplicates, frozen))
    (again : ∀ sent, encoder.planDuplicates batch sent (plan (encoder.events batch) now .series) true
      frozen = (duplicates, frozen)) :
    output.attempts encoder batch conditions = output.accounting.deliver (encoder.batchUnits batch now duplicates)
        (encoder.batchRequests batch now duplicates) (conditions.map Conditions.answers) := by
  induction conditions generalizing output with
  | nil => rfl
  | cons head later ih =>
    have plans : encoder.planDuplicates batch head.sent (plan (encoder.events batch) now .series)
        output.accounting.armed output.batch.duplicates = (duplicates, frozen) := by
      rw [armed]
      exact first head rfl
    obtain ⟨same, kept⟩ := send_eq output head (by rw [time, Option.getD_some]) plans
    rw [DatadogOutput.attempts, map_cons, BatchAccounting.deliver, ← same]
    cases ends : output.accounting.isFinal (output.send encoder batch head).1.result with
    | true => simp
    | false =>
      have state := kept ends
      have attempted := congrArg fst same
      have accounting := congrArg snd same
      simp only at attempted accounting
      simp only [Bool.false_eq_true, if_false]
      rw [ih]
      · rw [accounting, BatchAccounting.attempt_armed _ _ _ _ (attempted ▸ ends), armed]
      · rw [state]
        exact time
      · rw [state]
        exact fun c _ => again c.sent

theorem attempts_observed (encoder : Encoder β δ π) (batch : β) (output : DatadogOutput δ) (clock : Int)
    (conditions : List (Conditions π)) :
    ∃ duplicates, (output.observeBatch clock).attempts encoder batch conditions =
      output.accounting.observe.deliver (encoder.batchUnits batch clock duplicates)
        (encoder.batchRequests batch clock duplicates) (conditions.map Conditions.answers) := by
  cases conditions with
  | nil => exact ⟨none, rfl⟩
  | cons first later =>
    rcases planned : encoder.planDuplicates batch first.sent (plan (encoder.events batch) clock .series)
      true none with ⟨duplicates, frozen⟩
    refine ⟨duplicates, attempts_eq _ _ rfl rfl (fun c head => ?_) (planDuplicates_frozen planned)⟩
    obtain rfl := Option.some.inj head
    exact planned

end

end Logit.Datadog
