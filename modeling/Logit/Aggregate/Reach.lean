import Logit.Aggregate.Flush

namespace Logit.Aggregate

open List Aggregator Option Nat

variable {X : Externals} {cfg : Config X} {s s' : Aggregator X} {log : Log X}

/-- A call's pointers are not those of other values that the memo holds. -/
def Input.Alive (s : Aggregator X) : Input X → Prop
  | .batch _ scope _ => AliveScope s scope
  | .event resource _ => Aggregate.Alive s resource
  | .flush _ => True

def absorbedItem (f : MetricRecord X × Fate X) : Option (Item X) :=
  match f.2 with
  | .absorbed place openSeq _ widened => some (.absorbed place openSeq f.1 widened)
  | _ => none

def emittedItems (now : Int64) (groups : List (Origin X × List (Aggregator.Emission X))) : Log X :=
  groups.flatMap fun g => g.2.flatMap fun e => e.event.metrics.map fun r =>
    .emitted ⟨g.1.name, e.key⟩ e.openSeq now r

theorem emittedItems_flush (cfg : Config X) (s : Aggregator X) (now : Int64) :
    emittedItems now (s.flush cfg now).1 = (s.held.filter fun e => e.2.2.updatedThisWindow).map fun e =>
      .emitted ⟨e.1.name, e.2.1⟩ e.2.2.openSeq now (pointOf cfg now e.2.1 e.2.2) := by
  have regroup : emittedItems now (s.flush cfg now).1 =
      ((s.flush cfg now).1.flatMap fun g => g.2.map fun e => (g.1, e)).flatMap fun e =>
        e.2.event.metrics.map fun r => Item.emitted ⟨e.1.name, e.2.key⟩ e.2.openSeq now r := by
    rw [emittedItems, flatMap_assoc]
    simp [flatMap_map]
  rw [regroup, flush_emitted, emissions]
  simp only [flushSeries_emits]
  induction s.held with
  | nil => rfl
  | cons e held ih =>
    cases updated : e.2.2.updatedThisWindow with
    | true =>
      rw [filter_cons_of_pos (by exact updated), filterMap_cons_some (by rw [if_pos updated, map_some]),
        flatMap_cons, ih]
      rfl
    | false =>
      rw [filter_cons_of_neg (by simp [updated]), filterMap_cons_none (by simp [updated])]
      exact ih

/-- One call: what it did, the newest first, and the state. -/
def step (cfg : Config X) (s : Aggregator X) : Input X → Log X × Aggregator X
  | .batch resource scope ctx => ([], ((s.beginBatch resource).observeBatchContext ctx).observeScope scope)
  | .event resource event =>
    let processed := s.process cfg resource event
    ((processed.fates.filterMap absorbedItem).reverse, processed.state)
  | .flush now =>
    let flushed := s.flush cfg now
    (.flushed now :: emittedItems now flushed.1, flushed.2)

/-- The states that calls lead to, with what they did. -/
inductive Reach (cfg : Config X) : Log X → Aggregator X → Prop
  | start : Reach cfg [] (.new cfg)
  | next {log : Log X} {s : Aggregator X} (before : Reach cfg log s) (input : Input X)
    (alive : input.Alive s) : Reach cfg ((step cfg s input).1 ++ log) (step cfg s input).2

/-- A log after a flush. -/
abbrev flushedLog (cfg : Config X) (s : Aggregator X) (now : Int64) (log : Log X) : Log X :=
  .flushed now :: emittedItems now (s.flush cfg now).1 ++ log

/-- The same runs, one record at a time. -/
inductive Trace (cfg : Config X) : Log X → Aggregator X → Prop
  | start : Trace cfg [] (.new cfg)
  | quiet {log : Log X} {s s' : Aggregator X} (before : Trace cfg log s) (groups : s'.groups = s.groups)
    (windowStart : s'.windowStart = s.windowStart) (next : s'.nextOpenSeq = s.nextOpenSeq)
    (sound : Sound cfg s' []) : Trace cfg log s'
  | absorbed {log : Log X} {s s' : Aggregator X} (before : Trace cfg log s) (sound : Sound cfg s' [])
    {timestamp : Int64} {name : GroupName X} {key : SeriesKey X} {r : MetricRecord X}
    {place : Place X} {openSeq : Nat} {folded widened : Bool}
    (effect : Effect cfg s timestamp name key r (.absorbed place openSeq folded widened) s') :
    Trace cfg (.absorbed place openSeq r widened :: log) s'
  | flushed {log : Log X} {s : Aggregator X} (before : Trace cfg log s) (now : Int64)
    (sound : Sound cfg (s.flush cfg now).2 []) :
    Trace cfg (flushedLog cfg s now log) (s.flush cfg now).2

theorem Sound.start (cfg : Config X) : Sound cfg (.new cfg) [] where
  counts := ⟨rfl, rfl, fun limit _ n => ⟨rfl, zero_le _⟩, fun _ => rfl⟩
  max := rfl
  perName := rfl
  order built := by cases built
  unbuilt _ := rfl
  distinct := nodup_nil
  hashed o mem := by cases mem
  memo m memoized := by cases memoized
  alive m memoized := by cases memoized
  seqs := nodup_nil
  recent e mem := by cases mem
  evictions e mem := by cases mem

theorem Trace.sound (trace : Trace cfg log s) : Sound cfg s [] := by
  cases trace with
  | start => exact .start cfg
  | quiet _ _ _ _ sound | absorbed _ sound | flushed _ _ sound => exact sound

/-- The loop over an event's records: the index of their group once it is known, and the state. -/
def Aggregator.loop (cfg : Config X) (resource : Arc (Resource X)) (event : Event X) (scanFields : Bool)
    (records : List (MetricRecord X)) (start : Option Nat × Aggregator X) : Option Nat × Aggregator X :=
  records.foldl (fun at_ r =>
    let recorded := at_.2.record cfg resource event scanFields at_.1 r
    (recorded.group, recorded.state)) start

section

variable {resource : Arc (Resource X)} {gi : Option Nat}

theorem records_state (event : Event X) (scanFields : Bool) (records : List (MetricRecord X)) (gi : Option Nat)
    (s : Aggregator X) : (Aggregator.records cfg resource event scanFields records gi s).state =
      (Aggregator.loop cfg resource event scanFields records (gi, s)).2 := by
  induction records generalizing gi s with
  | nil => rfl
  | cons r records ih => exact ih ..

theorem Ready.loop (ready : Ready cfg s resource gi) (event : Event X) (scanFields : Bool)
    (records : List (MetricRecord X)) :
    let after := Aggregator.loop cfg resource event scanFields records (gi, s)
    Ready cfg after.2 resource after.1 ∧ after.2.scope = s.scope := by
  induction records generalizing gi s with
  | nil => exact ⟨ready, rfl⟩
  | cons r records ih =>
    obtain ⟨ready', scope, -⟩ := ready.record event scanFields r
    obtain ⟨last, scope'⟩ := ih ready'
    exact ⟨last, scope'.trans scope⟩

theorem Trace.records (trace : Trace cfg log s) (ready : Ready cfg s resource gi)
    (event : Event X) (scanFields : Bool) (records : List (MetricRecord X)) :
    let processed := Aggregator.records cfg resource event scanFields records gi s
    Trace cfg ((processed.fates.filterMap absorbedItem).reverse ++ log) processed.state := by
  induction records generalizing gi s log with
  | nil => exact trace
  | cons r records ih =>
    obtain ⟨ready', scope, effect⟩ := ready.record event scanFields r
    unfold Aggregator.records
    simp only
    cases fate : (s.record cfg resource event scanFields gi r).fate with
    | passed reason =>
      rw [fate] at effect
      cases effect with
      | passed _ groups frame =>
        exact ih (.quiet trace groups frame.windowStart frame.nextOpenSeq ready'.sound) ready'
    | dropped =>
      rw [fate] at effect
      cases effect with
      | dropped groups frame =>
        exact ih (.quiet trace groups frame.windowStart frame.nextOpenSeq ready'.sound) ready'
    | absorbed place openSeq folded widened =>
      rw [fate] at effect
      have later := ih (.absorbed trace ready'.sound effect) ready'
      have taken : absorbedItem (r, Fate.absorbed place openSeq folded widened) =
          some (.absorbed place openSeq r widened) := rfl
      rw [filterMap_cons_some taken, reverse_cons, append_assoc]
      exact later

end

theorem Reach.trace (reach : Reach cfg log s) : Trace cfg log s ∧ s.budget.held ≤ s.budget.max := by
  induction reach with
  | start => exact ⟨.start, zero_le _⟩
  | @next log s before input alive ih =>
    obtain ⟨trace, within⟩ := ih
    have sound := trace.sound
    cases input with
    | batch resource scope ctx =>
      have same : Sound cfg (step cfg s (.batch resource scope ctx)).2 [] := { sound with alive := alive }
      exact ⟨.quiet trace rfl rfl rfl same, within⟩
    | event resource event =>
      have ready : Ready cfg s resource none := ⟨sound, within, alive, fun i mem => by cases mem⟩
      unfold step process
      simp only
      split
      · rename_i why _
        have none : (event.metrics.map fun r => (r, (Fate.passed (.closed why)))).filterMap
            absorbedItem = [] := by
          rw [filterMap_map]
          exact filterMap_eq_nil_iff.mpr fun _ _ => rfl
        rw [none]
        exact ⟨trace, within⟩
      · refine ⟨trace.records ready event _ _, ?_⟩
        rw [records_state]
        exact (ready.loop event _ _).1.within
    | flush now =>
      obtain ⟨flushed, within', -⟩ := sound.flush within now
      exact ⟨.flushed trace now flushed, within'⟩

theorem named_countP (name : X.Symbol) (held : List (Entry (Origin X) X)) :
    named name (held.map fun e => e.2.1) = held.countP fun e => decide (e.2.1.name = name) && !isOverflow
      e.2.1 := by
  rw [named, countP_map]
  rfl

/-- Runs of one event a window: each with the time of its flush, the newest first. -/
def rounds (cfg : Config X) (resource : Arc (Resource X)) : List (Event X × Int64) → Log X × Aggregator X
  | [] => ([], .new cfg)
  | (event, now) :: earlier =>
    let before := rounds cfg resource earlier
    let processed := step cfg before.2 (.event resource event)
    let flushed := step cfg processed.2 (.flush now)
    (flushed.1 ++ (processed.1 ++ before.1), flushed.2)

theorem reach_rounds (cfg : Config X) (resource : Arc (Resource X)) (windows : List (Event X × Int64)) :
    Reach cfg (rounds cfg resource windows).1 (rounds cfg resource windows).2 ∧
      (rounds cfg resource windows).2.lastGroup = none := by
  induction windows with
  | nil => exact ⟨.start, rfl⟩
  | cons window earlier ih =>
    obtain ⟨reach, unmemoized⟩ := ih
    have alive : Alive (rounds cfg resource earlier).2 resource := by
      intro m memoized
      rw [unmemoized] at memoized
      cases memoized
    have processed := reach.next (.event resource window.1) alive
    exact ⟨processed.next (.flush window.2) trivial, rfl⟩

def Sketches.plain : Sketches .plain where
  add a _ := a
  min a _ := a
  max a _ := a
  ofInt _ := F64.zero
  weight _ := 1
  sketch := []
  sketchMerge a _ := a
  sketchAdd a _ _ := a
  hll := []
  hllInsert a _ := a
  hllMerge a _ := a

/-- One series kept across flushes, two in a window. -/
def Config.sample (temporality : AggregateTemporality) : Config .plain :=
  ⟨4, 1, 2, some 1, temporality, .sketch, 8, .estimate, 8, fun _ _ => 0, .plain⟩

def Arc.sample : Arc (Resource .plain) := ⟨0, ⟨AttrMap.empty, 0, none⟩⟩

def sampleEvent (timestamp : Int64) (counts : List (String × Int64)) : Event .plain :=
  ⟨timestamp, AttrMap.empty, none,
    counts.map fun c => ⟨c.1, none, none, 0, [], 0, .sum ⟨.i64 c.2, .delta, true⟩⟩, none⟩

end Logit.Aggregate
