import Logit.Core.Event

namespace Logit.Routing

open List Nat

/-- The destinations of an event: the slots whose bits are set, ascending. Slot 0 is the router's own edge. -/
structure Destinations where
  slots : List Nat
  ascending : slots.Pairwise (· < ·)
  bits : ∀ slot ∈ slots, slot < 64
deriving DecidableEq

namespace Destinations

def none : Destinations := ⟨[], .nil, by simp⟩

def forward : Destinations := ⟨[0], by simp, by simp⟩

def filter (d : Destinations) (keep : Nat → Bool) : Destinations where
  slots := d.slots.filter keep
  ascending := d.ascending.filter _
  bits slot mem := d.bits slot (mem_filter.mp mem).1

variable (d : Destinations)

def within (slots : Nat) : Destinations := d.filter fun slot => slot < slots

def highestSlot : Option Nat := d.slots.getLast?

def withoutSlot (slot : Nat) : Destinations := d.filter fun other => other ≠ slot

end Destinations

/-- Keeps the slots that there are; a mark without one becomes the router's own edge. -/
def checkedMark (mark : Destinations) (slots : Nat) : Destinations :=
  if (mark.within slots).slots.isEmpty then .forward else mark.within slots

variable {X : Externals}

/-- A router in a batch: what it makes of the resource, and how it marks an event. -/
structure Router (X : Externals) where
  mapResource : Resource X → Option (Resource X)
  route : Resource X → Event X → Destinations

namespace Router

def resource (router : Router X) (batch : EventBatch X) : Resource X :=
  (router.mapResource batch.resource).getD batch.resource

def mark (router : Router X) (slots : Nat) (batch : EventBatch X) (event : Event X) : Destinations :=
  checkedMark (router.route (router.resource batch) event) slots

end Router

/-- A destination's share: a batch of its own, or the whole batch that all of them hold. -/
inductive Partition (X : Externals) where
  | owned (batch : EventBatch X)
  | shared (batch : EventBatch X)

def Partition.deref : Partition X → EventBatch X
  | owned batch => batch
  | shared batch => batch

abbrev Dests (X : Externals) : Type := Nat → List (Event X)

def push (event : Event X) (dests : Dests X) (slot : Nat) : Dests X :=
  Function.update dests slot (dests slot ++ [event])

variable (mark : Event X → Destinations)

/-- Clones an event into each of its destinations but the highest, and moves it there. -/
def moveEvent (dests : Dests X) (event : Event X) : Dests X :=
  match (mark event).highestSlot with
  | none => dests
  | some last => push event (((mark event).withoutSlot last).slots.foldl (push event) dests) last

/-- The partitions, and the buffers that are left. -/
def takePartitions (slots : Nat) (dests : Dests X) (resource : Resource X) (scope : Option (Scope X)) :
    List (Nat × Partition X) × Dests X where
  fst := (List.range slots).filterMap fun slot =>
    if (dests slot).isEmpty then none else some (slot, .owned ⟨resource, scope, dests slot⟩)
  snd slot := if slot < slots then [] else dests slot

variable (router : Router X)

def routeBatch (slots : Nat) (dests : Dests X) (batch : EventBatch X) : List (Nat × Partition X) × Dests X :=
  let resource := router.resource batch
  let mark := router.mark slots batch
  let first := ((batch.events.map mark).head?).getD .none
  if 1 < first.slots.length ∧ ∀ event ∈ batch.events, mark event = first then
    (first.slots.map fun slot => (slot, .shared { batch with resource }), dests)
  else takePartitions slots (batch.events.foldl (moveEvent mark) dests) resource batch.scope

theorem mem_checkedMark {mark : Destinations} {targets slot : Nat}
    (mem : slot ∈ (checkedMark mark (targets + 1)).slots) : slot < targets + 1 := by
  unfold checkedMark at mem
  split at mem
  · rw [mem_singleton.mp mem]
    omega
  · simpa using (mem_filter.mp mem).2

theorem foldl_push (event : Event X) {slots : List Nat} (distinct : slots.Nodup) (dests : Dests X) (slot : Nat) :
    slots.foldl (push event) dests slot = dests slot ++ if slot ∈ slots then [event] else [] := by
  induction slots generalizing dests with
  | nil => simp
  | cons first others ih =>
    obtain ⟨absent, rest⟩ := nodup_cons.mp distinct
    rw [foldl_cons, ih rest]
    by_cases here : slot = first
    · subst here
      simp [push, absent]
    · simp [push, here]

theorem moveEvent_eq (dests : Dests X) (event : Event X) :
    moveEvent mark dests event = (mark event).slots.foldl (push event) dests := by
  simp only [moveEvent, Destinations.highestSlot]
  have ascending := (mark event).ascending
  cases found : (mark event).slots.getLast? with
  | none => rw [getLast?_eq_none_iff.mp found, foldl_nil]
  | some last =>
    obtain ⟨others, shape⟩ := getLast?_eq_some_iff.mp found
    rw [shape] at ascending
    have low : ∀ slot ∈ others, slot ≠ last := by
      intro slot mem
      exact Nat.ne_of_lt ((pairwise_append.mp ascending).2.2 slot mem last (by simp))
    have kept : others.filter (fun slot => slot ≠ last) = others := by simpa using low
    show push event (foldl (push event) dests ((mark event).slots.filter fun slot => slot ≠ last)) last = _
    rw [shape, filter_append, kept]
    simp

/-- The buffers after the events were moved: each has the events that are marked for it, in order. -/
theorem foldl_moveEvent (events : List (Event X)) (dests : Dests X) (slot : Nat) :
    events.foldl (moveEvent mark) dests slot = dests slot ++ events.filter fun e => slot ∈ (mark e).slots := by
  induction events generalizing dests with
  | nil => simp
  | cons event others ih =>
    rw [foldl_cons, ih, moveEvent_eq, foldl_push event ((mark event).ascending.imp ne_of_lt)]
    by_cases here : slot ∈ (mark event).slots <;> simp [here]

/-- The slots below a bound, picked in order from the numbers below it. -/
theorem range_filter {slots : List Nat} {n : Nat} (ascending : slots.Pairwise (· < ·))
    (low : ∀ slot ∈ slots, slot < n) :
    (range n).filter (fun slot => slot ∈ slots) = slots := by
  have sorted := (@pairwise_lt_range n).filter fun slot => decide (slot ∈ slots)
  refine List.Perm.eq_of_pairwise (fun a b _ _ one other => by omega) sorted ascending ?_
  refine (perm_ext_iff_of_nodup (sorted.imp ne_of_lt) (ascending.imp ne_of_lt)).mpr fun slot => ?_
  simpa using low slot

/-- What each destination is due: the events marked for it, in the batch's context. -/
def due (slots : Nat) (batch : EventBatch X) : List (Nat × EventBatch X) :=
  (List.range slots).filterMap fun slot =>
    let events := batch.events.filter fun e => slot ∈ (router.mark slots batch e).slots
    if events.isEmpty then none else some (slot, ⟨router.resource batch, batch.scope, events⟩)

/-- Over any router, targets and batch: each destination gets the batch it is due, and the buffers are left
empty for the next one. -/
theorem routeBatch_due (targets : Nat) (batch : EventBatch X) :
    ((routeBatch router (targets + 1) (fun _ => []) batch).1.map fun p => (p.1, p.2.deref)) =
        due router (targets + 1) batch ∧
      (routeBatch router (targets + 1) (fun _ => []) batch).2 = fun _ => [] := by
  simp only [routeBatch, due]
  generalize same : router.mark (targets + 1) batch = mark
  have low : ∀ event, ∀ slot ∈ (mark event).slots, slot < targets + 1 := by
    intro event slot member
    rw [← same] at member
    exact mem_checkedMark member
  split
  · rename_i shared
    obtain ⟨several, all⟩ := shared
    refine ⟨?_, rfl⟩
    cases events : batch.events with
    | nil => simp [events, Destinations.none] at several
    | cons head others =>
      simp only [events, map_cons, head?_cons, Option.getD_some] at all ⊢
      have whole : ∀ slot, ((head :: others).filter fun e => slot ∈ (mark e).slots) =
          if slot ∈ (mark head).slots then head :: others else [] := by
        intro slot
        split
        · rename_i marked
          exact filter_eq_self.mpr fun e member => by simpa [all e member] using marked
        · rename_i unmarked
          exact filter_eq_nil_iff.mpr fun e member => by simpa [all e member] using unmarked
      rw [map_map, ← filterMap_eq_map, ← range_filter (mark head).ascending (low head), filterMap_filter]
      refine filterMap_congr fun slot _ => ?_
      rw [whole]
      by_cases marked : slot ∈ (mark head).slots <;> simp [marked, Partition.deref]
  · simp only [foldl_moveEvent, nil_append, takePartitions, map_filterMap]
    refine ⟨filterMap_congr fun slot _ => ?_, funext fun slot => ?_⟩
    · split <;> rfl
    · split
      · rfl
      · rename_i high
        exact filter_eq_nil_iff.mpr fun e _ => by simpa using fun member => high (low e slot member)

/-- An event that is marked for nothing goes to the router's own edge. -/
theorem unmarked_forwarded : (routeBatch ⟨fun _ => none, fun _ _ => .none⟩ 1 (fun _ => []) EventBatch.sample).1 =
      [(0, .owned EventBatch.sample)] := rfl

end Logit.Routing
