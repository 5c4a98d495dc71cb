import Logit.Aggregate.Starts
import Logit.Delta.Counters

namespace Logit.Aggregate

open List Option Prod Aggregator Bool

open Delta (countOf Natural Counter restarted exactInt)

variable {X : Externals} {cfg : Config X} {s s' : Aggregator X} {log : Log X} {place : Place X}

/-- A point of a series: its opening, its time and the record. -/
abbrev Stamped (X : Externals) := Nat × Int64 × MetricRecord X

def total (records : List (MetricRecord X)) : ℤ := (records.map fun r => countOf r.kind).sum

/-- Every record absorbed is an increment of a counter. -/
def Increments (log : Log X) : Prop := ∀ place openSeq r widened,
  .absorbed place openSeq r widened ∈ log → Natural r.kind ∧ ∀ sum, r.kind = .sum sum → sum.monotonic = true

/-- What was flushed: all but the window that is open. -/
def settled (log : Log X) : Log X := log.dropWhile fun item => !item.isFlush

theorem window_settled (log : Log X) : window log ++ settled log = log := takeWhile_append_dropWhile

/-- The totals of the openings of a series: of each the last point, the newest first. -/
def openedTotal : List (Stamped X) → ℤ
  | [] => 0
  | [e] => countOf e.2.2.kind
  | e :: last :: older => countOf e.2.2.kind + openedTotal (last :: older) -
      if e.1 = last.1 then countOf last.2.2.kind else 0

/-- What is lost where a series was opened again and the point after is neither below the one before
nor seen to start after it: the total of the opening before. -/
def lost : List (Stamped X) → ℤ
  | [] => 0
  | [_] => 0
  | e :: last :: older =>
    (if e.1 ≠ last.1 ∧ ¬countOf e.2.2.kind < countOf last.2.2.kind ∧
        restarted e.2.2.startTimestamp last.2.1 e.2.1 = false then countOf last.2.2.kind else 0) +
      lost (last :: older)

/-- A later point of a series against an earlier one. -/
structure Follows (later earlier : Stamped X) : Prop where
  time : earlier.2.1 < later.2.1
  opened : earlier.1 ≤ later.1
  grown : earlier.1 = later.1 → countOf earlier.2.2.kind ≤ countOf later.2.2.kind
  steady : earlier.1 = later.1 → restarted later.2.2.startTimestamp earlier.2.1 later.2.1 = false

/-- What the difference makes of a series' points, and what it loses, are the totals of its openings. -/
theorem converted_add_lost {points : List (Stamped X)} (follows : points.Pairwise Follows) :
    Delta.convertedTotal (points.map snd) + lost points = openedTotal points := by
  induction points with
  | nil => rfl
  | cons e points ih =>
    cases points with
    | nil => exact add_zero _
    | cons last older =>
      obtain ⟨later, rest⟩ := pairwise_cons.mp follows
      have before := ih rest
      have step := later last mem_cons_self
      have shape : Delta.convertedTotal ((e :: last :: older).map snd) =
          Delta.increase (e.2.1, e.2.2.kind) (last.2.1, last.2.2.kind) e.2.2.startTimestamp +
            Delta.convertedTotal ((last :: older).map snd) := rfl
      rw [shape, lost, openedTotal, Delta.increase]
      simp only
      by_cases same : e.1 = last.1
      · have grown := step.grown same.symm
        have steady := step.steady same.symm
        rw [if_neg (by rw [steady]; simp; omega)]
        omega
      · by_cases whole : countOf e.2.2.kind < countOf last.2.2.kind ∨
            restarted e.2.2.startTimestamp last.2.1 e.2.1 = true
        · rw [if_pos whole, if_neg]
          · omega
          · rintro ⟨-, above, unseen⟩
            rcases whole with below | seen
            · exact above below
            · rw [unseen] at seen
              cases seen
        · have unseen : restarted e.2.2.startTimestamp last.2.1 e.2.1 = false := by
            simpa using fun seen => whole (.inr seen)
          rw [if_neg whole, if_pos ⟨same, fun below => whole (.inl below), unseen⟩]
          omega

theorem lost_nonneg {points : List (Stamped X)} (natural : ∀ e ∈ points, Natural e.2.2.kind) : 0 ≤ lost points := by
  induction points with
  | nil => exact le_refl 0
  | cons e points ih =>
    cases points with
    | nil => exact le_refl 0
    | cons last older =>
      obtain ⟨-, others⟩ := forall_mem_cons.mp natural
      have before := ih others
      obtain ⟨sum, n, kind, exact, nonneg⟩ := others last mem_cons_self
      have count : countOf last.2.2.kind = n := by simp [kind, countOf, exact]
      rw [lost]
      split <;> omega

theorem total_nonneg {records : List (MetricRecord X)} (natural : ∀ r ∈ records, Natural r.kind) :
    0 ≤ total records := by
  refine sum_nonneg fun n mem => ?_
  obtain ⟨r, inside, rfl⟩ := mem_map.mp mem
  obtain ⟨sum, n, kind, exact, nonneg⟩ := natural r inside
  simpa [kind, countOf, exact] using nonneg

theorem IsSum.total {ops : Sketches X} {records : List (MetricRecord X)} {v : MetricValue}
    (sum : IsSum ops records v) (natural : ∀ r ∈ records, Natural r.kind) :
    exactInt v = some (Aggregate.total records) := by
  obtain ⟨values, own, -, exact⟩ := sum
  rw [exact]
  clear exact
  induction records generalizing values with
  | nil =>
    obtain rfl := map_eq_nil_iff.mp own.symm
    rfl
  | cons r records ih =>
    cases values with
    | nil => cases own
    | cons value values =>
      obtain ⟨first, others⟩ := forall_mem_cons.mp natural
      obtain ⟨head, rest⟩ := cons.inj own
      obtain ⟨sum, n, kind, exact, -⟩ := first
      have same : value = sum.value := by
        rw [sumValue, kind] at head
        exact (some.inj head).symm
      rw [intTotal, ih others values rest, same]
      simp [Aggregate.total, kind, countOf, exact]

variable {openSeq : Nat} {r : MetricRecord X}

theorem mem_absorbedBy (mem : r ∈ absorbedBy place openSeq log) :
    ∃ widened, .absorbed place openSeq r widened ∈ log := by
  obtain ⟨item, inside, taken⟩ := mem_filterMap.mp mem
  cases item with
  | absorbed p q r' widened =>
    obtain ⟨⟨rfl, rfl⟩, ⟨⟩⟩ := ite_none_right_eq_some.mp taken
    exact ⟨widened, inside⟩
  | _ => cases taken

theorem mem_absorbedAt (mem : r ∈ absorbedAt place log) :
    ∃ openSeq widened, .absorbed place openSeq r widened ∈ log := by
  obtain ⟨item, inside, taken⟩ := mem_filterMap.mp mem
  cases item with
  | absorbed p q r' widened =>
    obtain ⟨rfl, ⟨⟩⟩ := ite_none_right_eq_some.mp taken
    exact ⟨q, widened, inside⟩
  | _ => cases taken

theorem absorbedAt_eq_nil (none : ∀ openSeq r widened, .absorbed place openSeq r widened ∉ log) :
    absorbedAt place log = [] := by
  refine eq_nil_iff_forall_not_mem.mpr fun r mem => ?_
  obtain ⟨openSeq, widened, inside⟩ := mem_absorbedAt mem
  exact none openSeq r widened inside

theorem absorbedBy_eq_nil (none : ∀ r widened, .absorbed place openSeq r widened ∉ log) :
    absorbedBy place openSeq log = [] := by
  refine eq_nil_iff_forall_not_mem.mpr fun r mem => ?_
  obtain ⟨widened, inside⟩ := mem_absorbedBy mem
  exact none r widened inside

theorem mem_emittedAt {e : Stamped X} (mem : e ∈ emittedAt place log) :
    .emitted place e.1 e.2.1 e.2.2 ∈ log := by
  obtain ⟨item, inside, taken⟩ := mem_filterMap.mp mem
  cases item with
  | emitted p q now r =>
    obtain ⟨rfl, ⟨⟩⟩ := ite_none_right_eq_some.mp taken
    exact inside
  | _ => cases taken

theorem total_append (left right : List (MetricRecord X)) : total (left ++ right) = total left + total right := by
  rw [total, map_append, sum_append]
  rfl

theorem Trace.counters (trace : Trace cfg log s) (increments : Increments log) {state : SeriesState X}
    (held : HeldAt s place state) : ∃ v, state.accumulator = .sum v true := by
  induction trace generalizing place state with
  | start =>
    obtain ⟨o, mem, -⟩ := held
    cases mem
  | quiet _ groups _ _ _ ih => exact ih increments ((heldAt_sameGroups groups).mp held)
  | @absorbed log _ _ before _ _ _ _ r p q _ widened effect ih =>
    have earlier : Increments log := fun p q r w mem => increments p q r w (mem_cons_of_mem _ mem)
    obtain ⟨⟨sum, -, kind, -⟩, monotonic⟩ := increments p q r widened mem_cons_self
    cases effect with
    | touched picks before accumulator held' merged after frame =>
      rcases (after place state).mp held with ⟨rfl, rfl⟩ | ⟨-, stays⟩
      · obtain ⟨v, was⟩ := ih earlier held'
        rw [was, kind] at merged
        obtain ⟨rfl, -⟩ := Merged.accumulated.inj merged
        exact ⟨_, rfl⟩
      · exact ih earlier stays
    | opened picks opener accumulator opens vacant merged after =>
      rcases after place state held with ⟨rfl, rfl⟩ | ⟨-, stays⟩
      · rw [kind] at opens merged
        obtain ⟨-, ⟨⟩⟩ := ite_none_right_eq_some.mp opens
        obtain ⟨rfl, -⟩ := Merged.accumulated.inj merged
        rw [← monotonic sum kind]
        exact ⟨_, rfl⟩
      · exact ih earlier stays
  | flushed before now sound ih =>
    obtain ⟨was, there, survives⟩ := flush_heldAt held
    have earlier := fun p q r w mem => increments p q r w (mem_append_right _ mem)
    obtain ⟨v, own⟩ := ih earlier there
    rcases flushSeries_survives survives with ⟨-, -, kind, -, rfl⟩ | ⟨-, rfl⟩
    · refine ⟨v, ?_⟩
      rw [own]
      rfl
    · exact ⟨v, own⟩

/-- What the points at a place say of what was absorbed there and flushed. -/
structure Tally (place : Place X) (log : Log X) : Prop where
  totals : openedTotal (emittedAt place log) = total (absorbedAt place (settled log))
  last : ∀ e older, emittedAt place log = e :: older →
    countOf e.2.2.kind = total (absorbedBy place e.1 (settled log))
  seen : ∀ openSeq r widened, .absorbed place openSeq r widened ∈ settled log →
    ∃ e ∈ emittedAt place log, e.1 = openSeq
  follows : (emittedAt place log).Pairwise Follows
  counters : ∀ e ∈ emittedAt place log, Counter e.2.2

theorem Tally.latest (tally : Tally place log) {head : Stamped X} {older : List (Stamped X)}
    (points : emittedAt place log = head :: older) {e : Stamped X} (mem : e ∈ emittedAt place log) :
    e.1 ≤ head.1 := by
  rw [points] at mem
  have follows := tally.follows
  rw [points] at follows
  rcases mem_cons.mp mem with rfl | old
  · exact Nat.le_refl _
  · exact ((pairwise_cons.mp follows).1 e old).opened

theorem Increments.natural (increments : Increments log) : ∀ r ∈ absorbedBy place openSeq log, Natural r.kind := by
  intro r mem
  obtain ⟨widened, inside⟩ := mem_absorbedBy mem
  exact (increments place openSeq r widened inside).1

theorem absorbedBy_split (openSeq : Nat) (log : Log X) : absorbedBy place openSeq log =
    absorbedBy place openSeq (window log) ++ absorbedBy place openSeq (settled log) := by
  rw [← absorbedBy_append, window_settled]

theorem absorbedAt_split (log : Log X) :
    absorbedAt place log = absorbedAt place (window log) ++ absorbedAt place (settled log) := by
  conv_lhs => rw [← window_settled log]
  exact filterMap_append

section

variable {now : Int64} {state : SeriesState X}

theorem absorbedAt_settled_flushed : absorbedAt place (settled (flushedLog cfg s now log)) =
    absorbedAt place (window log) ++ absorbedAt place (settled log) :=
  (absorbedAt_emitted (emitted_flush cfg s now) log).trans (absorbedAt_split log)

theorem absorbedBy_settled_flushed (openSeq : Nat) : absorbedBy place openSeq (settled (flushedLog cfg s now log)) =
    absorbedBy place openSeq (window log) ++ absorbedBy place openSeq (settled log) :=
  (absorbedBy_flushed now).trans (absorbedBy_split openSeq log)

theorem mem_settled_flushed {openSeq : Nat} {r : MetricRecord X} {widened : Bool}
    (mem : .absorbed place openSeq r widened ∈ settled (flushedLog cfg s now log)) :
    .absorbed place openSeq r widened ∈ window log ∨ .absorbed place openSeq r widened ∈ settled log := by
  rw [← mem_append, window_settled]
  exact mem_absorbed_flushed mem

section

variable (trace : Trace cfg log s) (increments : Increments log) (unwidened : Unwidened log)
  (cumulative : cfg.temporality = .cumulative) (held : HeldAt s place state)
include trace increments unwidened cumulative held

theorem Trace.point (now : Int64) : Counter (pointOf cfg now place.key state) ∧
      countOf (pointOf cfg now place.key state).kind = total (absorbedBy place state.openSeq log) := by
  obtain ⟨v, own⟩ := trace.counters increments held
  have holds := ((trace.books unwidened).held place state held).holds
  rw [own] at holds
  have exact := IsSum.total holds increments.natural
  have kind : (pointOf cfg now place.key state).kind = .sum ⟨v, .cumulative, true⟩ := by
    show state.accumulator.intoKind cfg.temporality = _
    rw [own, cumulative]
    rfl
  refine ⟨⟨UInt32.zero_and, ?_, ?_⟩, ?_⟩
  · intro sum same
    rw [kind] at same
    obtain rfl := MetricKind.sum.inj same
    exact ⟨rfl, rfl⟩
  · exact ⟨_, _, kind, exact, total_nonneg increments.natural⟩
  · rw [kind]
    simp [countOf, exact]

variable (retains : 1 ≤ cfg.seriesRetention) (starts : Starts log s) (strict : ∀ t, .flushed t ∈ log → t < now)
  (tally : Tally place log)
include retains starts strict tally

theorem Tally.follows_new {e : Stamped X} (mem : e ∈ emittedAt place log) :
    Follows (state.openSeq, now, pointOf cfg now place.key state) e := by
  have point := mem_emittedAt mem
  obtain ⟨counter, count⟩ := trace.point increments unwidened cumulative held now
  refine ⟨strict _ (starts.timed _ _ _ _ point), (starts.held place state held).newest _ _ _ point, ?_, ?_⟩
  · intro same
    obtain ⟨head, older, points⟩ := exists_cons_of_ne_nil (ne_nil_of_mem mem)
    -- the newest point is of the same opening, and holds what was flushed of it
    have latest := tally.latest points mem
    have newest := (starts.held place state held).newest _ _ _ (mem_emittedAt (points ▸ mem_cons_self))
    have own : head.1 = state.openSeq := by omega
    have flushed := tally.last head older points
    rw [own] at flushed
    have recent : 0 ≤ total (absorbedBy place state.openSeq (window log)) := total_nonneg fun r mem => by
        obtain ⟨widened, inside⟩ := mem_absorbedBy mem
        exact (increments _ _ _ _ (mem_window inside)).1
    rw [absorbedBy_split, total_append] at count
    have bound : countOf e.2.2.kind ≤ countOf head.2.2.kind := by
      have follows := tally.follows
      rw [points] at mem follows
      rcases mem_cons.mp mem with rfl | old
      · exact le_refl _
      · exact ((pairwise_cons.mp follows).1 e old).grown (same.trans own.symm)
    show countOf e.2.2.kind ≤ countOf (pointOf cfg now place.key state).kind
    omega
  · intro same
    have own := same
    have started : hasStart e.2.2.kind = true := by
      obtain ⟨sum, -, kind, -⟩ := (tally.counters e mem).natural
      rw [kind]
      rfl
    have carries : hasStart (state.accumulator.intoKind cfg.temporality) = true := by
      obtain ⟨v, acc⟩ := trace.counters increments held
      rw [acc]
      rfl
    rw [own] at point
    obtain ⟨-, bound⟩ := (starts.held place state held).same _ _ point started
    show restarted (startOf cfg now state) e.2.1 now = false
    rw [startOf_hasStart cumulative retains carries]
    have before : ¬ e.2.1 < min state.firstSeen now := Int64.not_lt.mpr (Int64.le_trans Std.min_le_left bound)
    simp [restarted, before]

theorem Tally.flushed_updated (updated : state.updatedThisWindow = true) :
    Tally place (flushedLog cfg s now log) := by
  have books := trace.books unwidened
  obtain ⟨counter, count⟩ := trace.point increments unwidened cumulative held now
  have emitted : emittedAt place (flushedLog cfg s now log) =
      (state.openSeq, now, pointOf cfg now place.key state) :: emittedAt place log := by
    show emittedAt place (emittedItems now (s.flush cfg now).1 ++ log) = _
    rw [emittedAt_append, emittedAt_flush trace.sound held updated]
    rfl
  -- what was flushed of this opening before is in the newest point, if that is its own
  have fresh (other : ∀ e ∈ emittedAt place log, e.1 ≠ state.openSeq) :
      total (absorbedBy place state.openSeq (settled log)) = 0 := by
    rw [absorbedBy_eq_nil]
    · rfl
    · intro r widened inside
      obtain ⟨e, there, own⟩ := tally.seen _ _ _ inside
      exact other e there own
  rw [absorbedBy_split, total_append] at count
  refine ⟨?_, ?_, ?_, ?_, ?_⟩
  · rw [emitted, absorbedAt_settled_flushed, total_append, books.absorbedAt_window trace.sound held]
    have totals := tally.totals
    cases same : emittedAt place log with
    | nil =>
      rw [same] at totals fresh
      show countOf (pointOf cfg now place.key state).kind = _
      rw [count, fresh (by simp), ← totals]
      rfl
    | cons head older =>
      rw [same] at totals
      show countOf (pointOf cfg now place.key state).kind + _ - _ = _
      by_cases own : state.openSeq = head.1
      · have flushed := tally.last head older same
        rw [← own] at flushed
        omega
      · rw [fresh fun e there => ?_] at count
        · omega
        · have latest := tally.latest same there
          have newest := (starts.held place state held).newest _ _ _ (mem_emittedAt (same ▸ mem_cons_self))
          omega
  · intro e older same
    rw [emitted] at same
    obtain ⟨rfl, -⟩ := cons.inj same
    rw [absorbedBy_settled_flushed, total_append]
    exact count
  · intro q r widened mem
    rw [emitted]
    rcases mem_settled_flushed mem with recent | old
    · obtain ⟨other, there, own, -⟩ := books.current place q r widened recent
      rw [trace.sound.heldAt_unique there held] at own
      exact ⟨_, mem_cons_self, own⟩
    · obtain ⟨e, there, own⟩ := tally.seen q r widened old
      exact ⟨e, mem_cons_of_mem _ there, own⟩
  · rw [emitted]
    refine pairwise_cons.mpr ⟨fun e mem => ?_, tally.follows⟩
    exact follows_new trace increments unwidened cumulative held retains starts strict tally mem
  · rw [emitted]
    exact forall_mem_cons.mpr ⟨counter, tally.counters⟩

end

theorem Tally.flushed_idle (tally : Tally place log) (trace : Trace cfg log s) (unwidened : Unwidened log)
    (idle : ∀ state, HeldAt s place state → state.updatedThisWindow = false) (now : Int64) :
    Tally place (flushedLog cfg s now log) := by
  have none : emittedAt place (emittedItems now (s.flush cfg now).1) = [] := by
    refine eq_nil_iff_forall_not_mem.mpr fun e mem => ?_
    obtain ⟨p, state, held, updated, same⟩ := mem_emittedItems (mem_emittedAt mem)
    obtain ⟨rfl, -⟩ := Item.emitted.inj same
    rw [idle state held] at updated
    cases updated
  have emitted : emittedAt place (flushedLog cfg s now log) = emittedAt place log := by
    show emittedAt place (emittedItems now (s.flush cfg now).1 ++ log) = _
    rw [emittedAt_append, none]
    rfl
  have quiet : ∀ q r widened, .absorbed place q r widened ∉ window log := by
    intro q r widened mem
    obtain ⟨state, held, -, updated⟩ := (trace.books unwidened).current place q r widened mem
    rw [idle state held] at updated
    cases updated
  refine ⟨?_, ?_, ?_, ?_, ?_⟩
  · rw [emitted, absorbedAt_settled_flushed, absorbedAt_eq_nil quiet]
    exact tally.totals
  · intro e older same
    rw [emitted] at same
    rw [absorbedBy_settled_flushed, absorbedBy_eq_nil (quiet _)]
    exact tally.last e older same
  · intro q r widened mem
    rw [emitted]
    exact tally.seen q r widened ((mem_settled_flushed mem).resolve_left (quiet q r widened))
  · rw [emitted]
    exact tally.follows
  · rw [emitted]
    exact tally.counters

end

def Increasing (log : Log X) : Prop := (flushTimes log).Pairwise fun later earlier => earlier < later

instance : Decidable (Increasing log) := inferInstanceAs (Decidable (List.Pairwise _ _))

theorem Increasing.clocked (increasing : Increasing log) : Clocked log :=
  List.Pairwise.imp (fun below => Int64.le_of_lt below) increasing

theorem Trace.tally (trace : Trace cfg log s) (cumulative : cfg.temporality = .cumulative)
    (retains : 1 ≤ cfg.seriesRetention) (increasing : Increasing log) (unwidened : Unwidened log)
    (increments : Increments log) (place : Place X) : Tally place log := by
  induction trace with
  | start =>
    refine ⟨rfl, ?_, ?_, List.Pairwise.nil, ?_⟩
    · intro e older same
      cases same
    · intro q r widened mem
      cases mem
    · intro e mem
      cases mem
  | quiet _ _ _ _ _ ih => exact ih increasing unwidened increments
  | absorbed before _ effect ih =>
    have tally := ih increasing unwidened.tail fun p q r w mem => increments p q r w (mem_cons_of_mem _ mem)
    exact { tally with }
  | @flushed log s before now _ ih =>
    have times := increasing
    rw [Increasing, flushTimes_flushed] at times
    obtain ⟨latest, earlier⟩ := pairwise_cons.mp times
    have unwidened' : Unwidened log := fun p q r w mem => unwidened p q r w (mem_append_right _ mem)
    have increments' : Increments log := fun p q r w mem => increments p q r w (mem_append_right _ mem)
    have tally := ih earlier unwidened' increments'
    have starts := (before.starts cumulative retains (Increasing.clocked earlier)).1
    by_cases updated : ∃ state, HeldAt s place state ∧ state.updatedThisWindow = true
    · obtain ⟨state, held, updated⟩ := updated
      exact .flushed_updated before increments' unwidened' cumulative held retains starts
        (fun t mem => latest t (mem_flushTimes.mpr mem)) tally updated
    · refine tally.flushed_idle before unwidened' (fun state held => ?_) now
      by_contra other
      exact updated ⟨state, held, by simpa using other⟩

/-- The place that a record on its way through `cumulative_to_delta` is of. -/
def placeOf (p : Delta.Point X) : Place X := ⟨(p.resource, p.scope), ⟨p.record.name, p.record.unit, p.attributes⟩⟩

/-- The series that `cumulative_to_delta` keeps for a counter at a place. -/
def keyOf (place : Place X) : Delta.Key X :=
  ⟨place.group.1, place.group.2, place.key.name, place.key.unit, .sum, place.key.attributes⟩

/-- The records given for a place, with their times, in their order. -/
def fedAt (place : Place X) (inputs : List (Delta.Input X)) : List (Int64 × MetricRecord X) := inputs.filterMap fun
    | .record p => if placeOf p = place then some (p.ts, p.record) else none
    | .endBatch => none

/-- The flushed events were given: for each place its points in the order of the flushes, in batches of
any size and with any clock. -/
def Feeds (log : Log X) (inputs : List (Delta.Input X)) : Prop :=
  ∀ place, fedAt place inputs = ((emittedAt place log).map Prod.snd).reverse

theorem placeOf_key {p : Delta.Point X} {kind : Delta.Kind} (same : p.key kind = keyOf place) :
    placeOf p = place := by
  obtain ⟨resource, scope, name, unit, -, attributes⟩ := Delta.Key.mk.inj same
  simp [placeOf, resource, scope, name, unit, attributes]

/-- At a place that holds counters, the records given are the points of one series. -/
theorem pointsOf_fedAt (settings : Delta.Settings X) {inputs : List (Delta.Input X)}
    (counters : ∀ p ∈ fedAt place inputs, Counter p.2) :
    Delta.pointsOf settings (keyOf place) inputs = fedAt place inputs := by
  refine filterMap_congr fun input mem => ?_
  cases input with
  | endBatch => rfl
  | record p =>
    show (if p.series settings = some (keyOf place) then some (p.ts, p.record) else none) =
      if placeOf p = place then some (p.ts, p.record) else none
    by_cases here : placeOf p = place
    · have given : (p.ts, p.record) ∈ fedAt place inputs := mem_filterMap.mpr ⟨.record p, mem, if_pos here⟩
      have counter := counters _ given
      have own : p.series settings = some (keyOf place) := by
        rw [Delta.Point.series, Delta.Point.kind, counter.kind, ← here]
        rfl
      rw [if_pos here, if_pos own]
    · rw [if_neg here, if_neg]
      intro own
      obtain ⟨kind, -, same⟩ := map_eq_some_iff.mp own
      exact here (placeOf_key same)

/-- Increments aggregated to cumulative totals and differenced again. For every series, what comes out
and what is lost is what was absorbed and flushed. A loss is the total of an opening, where the first
point of the next is not below it and its start is zero, not after the last point, or its own time. -/
theorem deltas_account (reach : Reach cfg log s) (cumulative : cfg.temporality = .cumulative)
    (retains : 1 ≤ cfg.seriesRetention) (increasing : Increasing log) (unwidened : Unwidened log)
    (increments : Increments log) {settings : Delta.Settings X} (keep : settings.initial = .keep)
    {inputs : List (Delta.Input X)} (feeds : Feeds log inputs)
    (kept : (Delta.run settings inputs).state.trail = []) (place : Place X) :
    Delta.emittedTotal (keyOf place) (Delta.run settings inputs).log + lost (emittedAt place log) =
      total (absorbedAt place (settled log)) ∧ 0 ≤ lost (emittedAt place log) := by
  have tally := reach.trace.1.tally cumulative retains increasing unwidened increments place
  have given : (fedAt place inputs).reverse = (emittedAt place log).map snd := by rw [feeds place, reverse_reverse]
  have counters : ∀ p ∈ fedAt place inputs, Counter p.2 := by
    intro p member
    have reversed := mem_reverse.mpr member
    rw [given] at reversed
    obtain ⟨e, inside, rfl⟩ := mem_map.mp reversed
    exact tally.counters e inside
  have counts : Delta.Counts (fedAt place inputs).reverse := by
    refine ⟨fun p member => counters p (mem_reverse.mp member), ?_⟩
    rw [given]
    exact pairwise_map.mpr (tally.follows.imp fun follows => follows.time)
  have points := pointsOf_fedAt settings counters
  rw [← points] at counts
  obtain ⟨out, -⟩ := Delta.counter_run keep inputs kept counts
  rw [points, given] at out
  rw [out, converted_add_lost tally.follows]
  exact ⟨tally.totals, lost_nonneg fun e member => (tally.counters e member).natural⟩

def feedItem : Item X → List (Delta.Input X)
  | .emitted place _ now r => [.record ⟨now, place.group.1, place.group.2, now, place.key.attributes, r⟩, .endBatch]
  | _ => []

def feed (log : Log X) : List (Delta.Input X) := log.reverse.flatMap feedItem

theorem Trace.named (trace : Trace cfg log s) {now : Int64} (mem : .emitted place openSeq now r ∈ log) :
    r.name = place.key.name ∧ r.unit = place.key.unit := by
  induction trace with
  | start => cases mem
  | quiet _ _ _ _ _ ih => exact ih mem
  | absorbed _ _ _ ih =>
    rcases mem_cons.mp mem with new | old
    · cases new
    · exact ih old
  | flushed _ _ _ ih =>
    rcases mem_flushed mem with old | ⟨state, -, -, -, -, rfl⟩
    · exact ih old
    · exact ⟨rfl, rfl⟩

theorem Trace.feeds (trace : Trace cfg log s) : Feeds log (feed log) := by
  intro place
  rw [emittedAt, ← map_reverse, ← filterMap_reverse, map_filterMap, filterMap_eq_flatMap_toList,
    fedAt, feed, filterMap_flatMap]
  refine flatMap_congr fun item mem => ?_
  cases item with
  | emitted p q now r =>
    obtain ⟨name, unit⟩ := trace.named (mem_reverse.mp mem)
    have own : placeOf ⟨now, p.group.1, p.group.2, now, p.key.attributes, r⟩ = p := by simp [placeOf, name, unit]
    by_cases here : p = place
    · subst here
      simp [feedItem, own]
    · simp [feedItem, own, here]
  | _ => rfl

/-- A record that was absorbed is an increment, and widened nothing. -/
def Item.isIncrement : Item X → Bool
  | .absorbed _ _ r widened => !widened && match r.kind with
    | .sum sum => sum.monotonic && (exactInt sum.value).any (0 ≤ ·)
    | _ => false
  | _ => true

theorem increments_of_all (all : log.all Item.isIncrement = true) : Unwidened log ∧ Increments log := by
  have each : ∀ place openSeq r widened, .absorbed place openSeq r widened ∈ log → widened = false ∧
      Natural r.kind ∧ ∀ sum, r.kind = .sum sum → sum.monotonic = true := by
    intro place openSeq r widened mem
    have holds := all_eq_true.mp all _ mem
    cases kind : r.kind with
    | sum sum =>
      simp only [Item.isIncrement, kind, and_eq_true, not_eq_true'] at holds
      obtain ⟨plain, monotonic, natural⟩ := holds
      obtain ⟨n, value, nonneg⟩ := (any_eq_true _ _).mp natural
      exact ⟨plain, ⟨sum, n, rfl, value, of_decide_eq_true nonneg⟩, fun _ same => by cases same; exact monotonic⟩
    | _ => simp [Item.isIncrement, kind] at holds
  exact ⟨fun place openSeq r widened mem => (each place openSeq r widened mem).1,
    fun place openSeq r widened mem => (each place openSeq r widened mem).2⟩

/-- `a`, of which 5 and 7 were absorbed. The two opening totals of 5 and 7 are read as one that grew by 2. -/
theorem reopened_total_lost :
    let cfg := Config.sample .cumulative
    let settings := { Delta.Settings.sample with initial := .keep }
    let place : Place Externals.plain := ⟨(Arc.sample.value, none), ⟨"a", none, AttrMap.empty⟩⟩
    ∃ log s, Reach cfg log s ∧ cfg.temporality = .cumulative ∧ 1 ≤ cfg.seriesRetention ∧ 1 ≤ cfg.maxRetainedSeries ∧
      Increasing log ∧ Unwidened log ∧ Increments log ∧ Feeds log (feed log) ∧
      (Delta.run settings (feed log)).state.trail = [] ∧
      Delta.emittedTotal (keyOf place) (Delta.run settings (feed log)).log = 7 ∧
      total (absorbedAt place (settled log)) = 12 := by
  intro cfg settings place
  have run := (reach_rounds cfg Arc.sample evictionWindows).1
  have all : (rounds cfg Arc.sample evictionWindows).1.all Item.isIncrement = true := by decide +kernel
  have increments := increments_of_all all
  exact ⟨_, _, run, rfl, by decide, by decide, by decide +kernel, increments.1, increments.2, run.trace.1.feeds,
    isEmpty_iff.mp (by decide +kernel), by decide +kernel, by decide +kernel⟩

theorem deltas_account_sample :
    let cfg := Config.sample .cumulative
    let settings := { Delta.Settings.sample with initial := .keep }
    let place : Place Externals.plain := ⟨(Arc.sample.value, none), ⟨"a", none, AttrMap.empty⟩⟩
    let log := (rounds cfg Arc.sample evictionWindows).1
    lost (emittedAt place log) = 5 ∧
      Delta.emittedTotal (keyOf place) (Delta.run settings (feed log)).log + lost (emittedAt place log) =
        total (absorbedAt place (settled log)) := by
  intro cfg settings place log
  have run := (reach_rounds cfg Arc.sample evictionWindows).1
  have increments : Unwidened log ∧ Increments log := increments_of_all (by decide +kernel)
  exact ⟨by decide +kernel, (deltas_account run rfl (by decide) (by decide +kernel) increments.1 increments.2
    (show settings.initial = .keep from rfl) run.trace.1.feeds (isEmpty_iff.mp (by decide +kernel)) place).1⟩

end Logit.Aggregate
