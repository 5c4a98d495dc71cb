import Logit.Aggregate.Ledger

namespace Logit.Aggregate

open List Aggregator

variable {X : Externals} {cfg : Config X} {s s' : Aggregator X} {log : Log X}

theorem le_max_right (a b : Int64) : b ≤ max a b := by
  show b ≤ if a ≤ b then b else a
  split
  · exact Int64.le_refl b
  · exact Int64.le_of_lt (Int64.not_le.mp ‹_›)

def flushTimes (log : Log X) : List Int64 := log.filterMap fun
    | .flushed now => some now
    | _ => none

/-- No flush is before one that came earlier. -/
def Clocked (log : Log X) : Prop := (flushTimes log).Pairwise fun later earlier => earlier ≤ later

instance : Decidable (Clocked log) := inferInstanceAs (Decidable (List.Pairwise _ _))

theorem mem_flushTimes {now : Int64} : now ∈ flushTimes log ↔ .flushed now ∈ log := by
  constructor
  · intro mem
    obtain ⟨item, inside, same⟩ := mem_filterMap.mp mem
    cases item with
    | flushed t =>
      obtain rfl := Option.some.inj same
      exact inside
    | _ => cases same
  · intro mem
    exact mem_filterMap.mpr ⟨_, mem, rfl⟩

theorem flushTimes_emitted {items : Log X} (points : Emitted items) (older : Log X) :
    flushTimes (items ++ older) = flushTimes older :=
  filterMap_emitted points (fun _ _ _ _ => rfl) older

theorem flushTimes_flushed (cfg : Config X) (s : Aggregator X) (now : Int64) (log : Log X) :
    flushTimes (flushedLog cfg s now log) = now :: flushTimes log := by
  show now :: flushTimes (_ ++ log) = _
  rw [flushTimes_emitted (emitted_flush cfg s now)]

/-- A point that carries a start carries the series' own, or the flush's time if that is before. -/
theorem startOf_hasStart (cumulative : cfg.temporality = .cumulative) (retains : 1 ≤ cfg.seriesRetention)
    {state : SeriesState X} {now : Int64}
    (started : hasStart (state.accumulator.intoKind cfg.temporality) = true) :
    startOf cfg now state = min state.firstSeen now := by
  refine if_pos ⟨retains, ?_⟩
  cases own : state.accumulator with
  | sum total monotonic | histogram h => simp [Accumulator.retainedKind, cumulative, hasStart]
  | _ =>
    rw [own] at started
    cases started

/-- What the points emitted at a place say of the series held there. -/
structure Dates (log : Log X) (place : Place X) (state : SeriesState X) : Prop where
  newest : ∀ openSeq now r, .emitted place openSeq now r ∈ log → openSeq ≤ state.openSeq
  after : ∀ openSeq now r, .emitted place openSeq now r ∈ log → openSeq < state.openSeq → now ≤ state.firstSeen
  same : ∀ now r, .emitted place state.openSeq now r ∈ log → Aggregator.hasStart r.kind = true →
    r.startTimestamp = state.firstSeen ∧ state.firstSeen ≤ now

/-- What the points emitted so far say of the state. -/
structure Starts (log : Log X) (s : Aggregator X) : Prop where
  timed : ∀ place openSeq now r, .emitted place openSeq now r ∈ log → .flushed now ∈ log
  clock : ∀ now, .flushed now ∈ log → ∃ start, s.windowStart = some start ∧ now ≤ start
  fresh : ∀ place openSeq now r, .emitted place openSeq now r ∈ log → openSeq < s.nextOpenSeq
  held : ∀ place state, HeldAt s place state → Dates log place state

/-- A series' start does not move, is not after its points, and not before a point of an earlier
opening. -/
structure Signals (log : Log X) : Prop where
  bounded : ∀ place openSeq now r, .emitted place openSeq now r ∈ log → Aggregator.hasStart r.kind = true →
    r.startTimestamp ≤ now
  agree : ∀ place openSeq now r, .emitted place openSeq now r ∈ log → Aggregator.hasStart r.kind = true →
    ∀ openSeq' now' r', .emitted place openSeq' now' r' ∈ log →
      (openSeq' = openSeq → Aggregator.hasStart r'.kind = true → r'.startTimestamp = r.startTimestamp) ∧
        (openSeq' < openSeq → now' ≤ r.startTimestamp)

theorem Starts.sameGroups (starts : Starts log s) (groups : s'.groups = s.groups)
    (windowStart : s'.windowStart = s.windowStart) (next : s'.nextOpenSeq = s.nextOpenSeq) : Starts log s' where
  timed := starts.timed
  clock := by
    rw [windowStart]
    exact starts.clock
  fresh := by
    rw [next]
    exact starts.fresh
  held place state held := starts.held place state ((heldAt_sameGroups groups).mp held)

theorem emitted_older {item : Item X} (point : ∀ p q t r, item ≠ .emitted p q t r) {p : Place X} {q : Nat}
    {t : Int64}
    {r : MetricRecord X} (mem : .emitted p q t r ∈ item :: log) : .emitted p q t r ∈ log :=
  (mem_cons.mp mem).resolve_left fun new => point p q t r new.symm

section

variable {timestamp : Int64} {name : GroupName X} {key : SeriesKey X} {r : MetricRecord X}
  {place : Place X} {openSeq : Nat} {folded widened : Bool}

/-- A record changes the start of no series, and gives a new one a start that is not before the last
flush. -/
theorem Starts.absorbed (starts : Starts log s)
    (effect : Effect cfg s timestamp name key r (.absorbed place openSeq folded widened) s') :
    Starts (.absorbed place openSeq r widened :: log) s' := by
  have older {p q now r'} (mem : Item.emitted p q now r' ∈ Item.absorbed place openSeq r widened :: log) :=
    emitted_older (fun _ _ _ _ same => by cases same) mem
  have timed : ∀ p q now r', Item.emitted p q now r' ∈ Item.absorbed place openSeq r widened :: log →
      .flushed now ∈ Item.absorbed place openSeq r widened :: log :=
    fun p q now r' mem => mem_cons_of_mem _ (starts.timed p q now r' (older mem))
  have clock : ∀ now, Item.flushed now ∈ Item.absorbed place openSeq r widened :: log →
      ∃ start, s.windowStart = some start ∧ now ≤ start := by
    intro now mem
    rcases mem_cons.mp mem with new | old
    · cases new
    · exact starts.clock now old
  have dates {p state} (dates : Dates log p state) : Dates (.absorbed place openSeq r widened :: log) p state :=
    ⟨fun q now r' mem => dates.newest q now r' (older mem),
      fun q now r' mem => dates.after q now r' (older mem),
      fun now r' mem => dates.same now r' (older mem)⟩
  cases effect with
  | touched picks before accumulator held merged after frame =>
    refine ⟨timed, ?_, ?_, fun p state held' => dates ?_⟩
    · rw [frame.windowStart]
      exact clock
    · intro p q now r' mem
      rw [frame.nextOpenSeq]
      exact starts.fresh p q now r' (older mem)
    · rcases (after p state).mp held' with ⟨rfl, rfl⟩ | ⟨-, stays⟩
      · exact { starts.held _ before held with }
      · exact starts.held p state stays
  | opened picks opener accumulator opens vacant merged after there kept windowStart next =>
    refine ⟨timed, ?_, ?_, fun p state held' => dates ?_⟩
    · rw [windowStart]
      exact clock
    · intro p q now r' mem
      rw [next]
      exact Nat.lt_succ_of_lt (starts.fresh p q now r' (older mem))
    · rcases after p state held' with ⟨rfl, rfl⟩ | ⟨-, stays⟩
      · refine ⟨fun q now r' mem => (starts.fresh _ q now r' mem).le, fun q now r' mem _ => ?_,
          fun now r' mem => ?_⟩
        · obtain ⟨start, opened, bound⟩ := starts.clock now (starts.timed _ q now r' mem)
          simp only [newSeries, opened]
          exact Int64.le_trans bound (le_max_right _ _)
        · have below : s.nextOpenSeq < s.nextOpenSeq := starts.fresh _ _ now r' mem
          omega
      · exact starts.held p state stays

end

section

variable {now : Int64}

theorem mem_flushed {place : Place X} {openSeq : Nat} {t : Int64} {r : MetricRecord X}
    (mem : .emitted place openSeq t r ∈ flushedLog cfg s now log) : .emitted place openSeq t r ∈ log ∨
      ∃ state, HeldAt s place state ∧ state.updatedThisWindow = true ∧ openSeq = state.openSeq ∧ t = now ∧
        r = pointOf cfg now place.key state := by
  rcases mem_append.mp mem with new | old
  · rcases mem_cons.mp new with marker | point
    · cases marker
    · obtain ⟨place, state, held, updated, same⟩ := mem_emittedItems point
      cases same
      exact .inr ⟨state, held, updated, rfl, rfl, rfl⟩
  · exact .inl old

theorem Clocked.latest (clocked : Clocked (flushedLog cfg s now log)) {t : Int64} (mem : .flushed t ∈ log) :
    t ≤ now := by
  rw [Clocked, flushTimes_flushed] at clocked
  exact (pairwise_cons.mp clocked).1 t (mem_flushTimes.mpr mem)

theorem min_eq_of_le {a b t : Int64} (left : a ≤ t) (right : t ≤ b) : min a b = a :=
  Std.LawfulOrderLeftLeaningMin.min_eq_left a b (Int64.le_trans left right)

variable (starts : Starts log s) (sound : Sound cfg s []) (cumulative : cfg.temporality = .cumulative)
  (retains : 1 ≤ cfg.seriesRetention) (clocked : Clocked (flushedLog cfg s now log))
include starts sound cumulative retains clocked

theorem Starts.flushed : Starts (flushedLog cfg s now log) (s.flush cfg now).2 := by
  refine ⟨?_, fun t mem => ⟨now, rfl, ?_⟩, ?_, fun p kept held => ?_⟩
  · intro p q t r mem
    rcases mem_flushed mem with old | ⟨_, _, _, _, rfl, _⟩
    · exact mem_append_right _ (starts.timed p q t r old)
    · exact mem_cons_self
  · rw [← mem_flushTimes, flushTimes_flushed, mem_cons, mem_flushTimes] at mem
    rcases mem with rfl | old
    · exact Int64.le_refl _
    · exact clocked.latest old
  · intro p q t r mem
    rcases mem_flushed mem with old | ⟨state, ⟨o, held, -⟩, _, rfl, _, _⟩
    · exact starts.fresh p q t r old
    · exact sound.recent _ held
  obtain ⟨state, before, survives⟩ := flush_heldAt held
  have dates := starts.held p state before
  have own := (flushSeries_kept survives).1
  refine ⟨fun q t r mem => ?_, fun q t r mem earlier => ?_, fun t r mem started => ?_⟩
  · rw [own]
    rcases mem_flushed mem with old | ⟨other, there, _, rfl, _, _⟩
    · exact dates.newest q t r old
    · rw [sound.heldAt_unique there before]
  · rw [own] at earlier
    rcases mem_flushed mem with old | ⟨other, there, _, rfl, _, _⟩
    · have bound := dates.after q t r old earlier
      rcases flushSeries_survives survives with ⟨-, -, kind, -, rfl⟩ | ⟨-, rfl⟩
      · split
        · exact Std.le_min_iff.mpr ⟨bound, clocked.latest (starts.timed _ _ _ _ old)⟩
        · exact bound
      · exact bound
    · rw [sound.heldAt_unique there before] at earlier
      omega
  · rw [own] at mem
    rcases mem_flushed mem with old | ⟨other, there, updated, _, rfl, rfl⟩
    · obtain ⟨same, bound⟩ := dates.same t r old started
      rcases flushSeries_survives survives with ⟨-, -, kind, -, rfl⟩ | ⟨-, rfl⟩
      · rw [min_eq_of_le bound (clocked.latest (starts.timed _ _ _ _ old)), ite_self]
        exact ⟨same, bound⟩
      · exact ⟨same, bound⟩
    · obtain rfl := sound.heldAt_unique there before
      have lowered : (pointOf cfg t p.key other).startTimestamp = min other.firstSeen t :=
        startOf_hasStart cumulative retains started
      rcases flushSeries_survives survives with ⟨-, -, kind, retained, rfl⟩ | ⟨idle, rfl⟩
      · have kinds := retainedKind_eq retained
        have carries : hasStart kind = true := by
          rw [kinds]
          exact started
        rw [if_pos carries, lowered]
        exact ⟨rfl, Std.min_le_right⟩
      · rw [idle] at updated
        cases updated

theorem Starts.signals (signals : Signals log) : Signals (flushedLog cfg s now log) := by
  -- the start on a series' point is the one that its earlier points carried
  have agrees :
      ∀ {p state t r}, HeldAt s p state → Item.emitted p state.openSeq t r ∈ log → hasStart r.kind = true →
      hasStart (state.accumulator.intoKind cfg.temporality) = true →
      startOf cfg now state = r.startTimestamp := by
    intro p state t r held old started started'
    obtain ⟨same, bound⟩ := (starts.held p state held).same t r old started
    have past := clocked.latest (starts.timed _ _ _ _ old)
    rw [startOf_hasStart cumulative retains started', min_eq_of_le bound past, same]
  refine ⟨?_, ?_⟩
  · intro p q t r mem started
    rcases mem_flushed mem with old | ⟨state, _, _, _, rfl, rfl⟩
    · exact signals.bounded p q t r old started
    · show startOf cfg t state ≤ t
      rw [startOf_hasStart cumulative retains started]
      exact Std.min_le_right
  · intro p q t r mem started q' t' r' mem'
    rcases mem_flushed mem with old | ⟨state, held, _, rfl, rfl, rfl⟩
    · rcases mem_flushed mem' with old' | ⟨state, held, _, rfl, rfl, rfl⟩
      · exact signals.agree p q t r old started q' t' r' old'
      · have newest := (starts.held p state held).newest q t r old
        refine ⟨?_, by omega⟩
        rintro rfl
        exact agrees held old started
    · rcases mem_flushed mem' with old' | ⟨other, there, _, rfl, rfl, rfl⟩
      · refine ⟨?_, fun earlier => ?_⟩
        · rintro rfl started'
          exact (agrees held old' started' started).symm
        · have bound := (starts.held p state held).after q' t' r' old' earlier
          show t' ≤ startOf cfg t state
          rw [startOf_hasStart cumulative retains started]
          exact Std.le_min_iff.mpr ⟨bound, clocked.latest (starts.timed _ _ _ _ old')⟩
      · rw [sound.heldAt_unique there held]
        exact ⟨fun _ _ => rfl, fun earlier => absurd earlier (lt_irrefl _)⟩

end

theorem Signals.older {item : Item X} (signals : Signals log) (point : ∀ p q t r, item ≠ .emitted p q t r) :
    Signals (item :: log) :=
  ⟨fun p q t r mem => signals.bounded p q t r (emitted_older point mem),
    fun p q t r mem started q' t' r' mem' =>
      signals.agree p q t r (emitted_older point mem) started q' t' r' (emitted_older point mem')⟩

theorem Starts.start (cfg : Config X) : Starts [] (Aggregator.new cfg) := by
  refine ⟨?_, ?_, ?_, ?_⟩
  · intro p q t r mem
    cases mem
  · intro t mem
    cases mem
  · intro p q t r mem
    cases mem
  · rintro p state ⟨o, mem, -⟩
    cases mem

theorem Signals.start : Signals ([] : Log X) := by
  refine ⟨?_, ?_⟩
  all_goals
    intro p q t r mem
    cases mem

theorem Trace.starts (trace : Trace cfg log s) (cumulative : cfg.temporality = .cumulative)
    (retains : 1 ≤ cfg.seriesRetention) (clocked : Clocked log) : Starts log s ∧ Signals log := by
  induction trace with
  | start => exact ⟨.start cfg, .start⟩
  | quiet before groups windowStart next sound ih =>
    obtain ⟨starts, signals⟩ := ih clocked
    exact ⟨starts.sameGroups groups windowStart next, signals⟩
  | absorbed before sound effect ih =>
    obtain ⟨starts, signals⟩ := ih clocked
    exact ⟨starts.absorbed effect, signals.older fun p q t r same => by cases same⟩
  | @flushed log s before now sound ih =>
    have earlier : Clocked log := by
      rw [Clocked, flushTimes_flushed] at clocked
      exact (pairwise_cons.mp clocked).2
    obtain ⟨starts, signals⟩ := ih earlier
    exact ⟨starts.flushed before.sound cumulative retains clocked,
      starts.signals before.sound cumulative retains clocked signals⟩

/-- Under cumulative temporality, when no flush is before an earlier one, a series' start is the same on
all its points, is not after any of them, and is not before a point of an earlier opening at its place. -/
theorem starts_signal_restarts (reach : Reach cfg log s) (cumulative : cfg.temporality = .cumulative)
    (retains : 1 ≤ cfg.seriesRetention) (clocked : Clocked log) {place : Place X} {openSeq : Nat} {now : Int64}
    {r : MetricRecord X} (point : .emitted place openSeq now r ∈ log)
    (started : Aggregator.hasStart r.kind = true) :
    r.startTimestamp ≤ now ∧
    (∀ now' r', .emitted place openSeq now' r' ∈ log → Aggregator.hasStart r'.kind = true →
      r'.startTimestamp = r.startTimestamp) ∧
    ∀ openSeq' now' r', .emitted place openSeq' now' r' ∈ log → openSeq' < openSeq → now' ≤ r.startTimestamp := by
  obtain ⟨-, signals⟩ := reach.trace.1.starts cumulative retains clocked
  have agree := signals.agree _ _ _ _ point started
  exact ⟨signals.bounded _ _ _ _ point started, fun now' r' point' => (agree _ now' r' point').1 rfl,
    fun openSeq' now' r' point' => (agree openSeq' now' r' point').2⟩

/-- The cap evicts `a` at the flush of 10, where its total is 5. It opens again with the start 10. -/
def evictionWindows : List (Event Externals.plain × Int64) :=
  [(sampleEvent 8 [("a", 7)], 20), (sampleEvent 5 [("b", 1), ("a", 5)], 10)]

theorem starts_signal_restarts_sample :
    let log := (rounds (.sample .cumulative) Arc.sample evictionWindows).1
    let place : Place Externals.plain := ⟨(Arc.sample.value, none), ⟨"a", none, AttrMap.empty⟩⟩
    ∃ r r', .emitted place 2 20 r ∈ log ∧ .emitted place 1 10 r' ∈ log ∧ 10 ≤ r.startTimestamp := by
  intro log place
  have reopened : log[1]? = some (.emitted place 2 20
      ⟨"a", none, none, 10, [], 0, .sum ⟨.i64 7, .cumulative, true⟩⟩) := rfl
  have evicted : log[4]? = some (.emitted place 1 10
      ⟨"a", none, none, 5, [], 0, .sum ⟨.i64 5, .cumulative, true⟩⟩) := rfl
  have point := mem_of_getElem? reopened
  have point' := mem_of_getElem? evicted
  have signals := starts_signal_restarts (reach_rounds (.sample .cumulative) Arc.sample evictionWindows).1
    rfl (by decide) (by decide +kernel) point rfl
  exact ⟨_, _, point, point', signals.2.2 _ _ _ point' (by decide)⟩

end Logit.Aggregate
