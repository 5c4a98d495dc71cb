import Logit.Aggregate.Reach
import Logit.Aggregate.Totals

namespace Logit.Aggregate

open List Aggregator Bool Function

variable {X : Externals} {cfg : Config X} {s s' : Aggregator X} {log : Log X}

instance : DecidableEq (Place X) := fun a b =>
  decidable_of_iff ((Delta.resourceKeyEq a.group.1 b.group.1 && Delta.scopeKeyEq a.group.2 b.group.2 &&
    decide (a.key = b.key)) = true) (by
      obtain ⟨⟨_, _⟩, _⟩ := a
      obtain ⟨⟨_, _⟩, _⟩ := b
      simp only [Bool.and_eq_true, Delta.resourceKeyEq_iff, Delta.scopeKeyEq_iff, decide_eq_true_eq,
        Place.mk.injEq, Prod.mk.injEq])

variable (place : Place X)

/-- The records absorbed into one opening of a series, the newest first. -/
def absorbedBy (openSeq : Nat) (log : Log X) : List (MetricRecord X) := log.filterMap fun
    | .absorbed p q r _ => if p = place ∧ q = openSeq then some r else none
    | _ => none

/-- The records absorbed at a place, the newest first. -/
def absorbedAt (log : Log X) : List (MetricRecord X) := log.filterMap fun
    | .absorbed p _ r _ => if p = place then some r else none
    | _ => none

/-- The points emitted at a place, the newest first. -/
def emittedAt (log : Log X) : List (Nat × Int64 × MetricRecord X) := log.filterMap fun
    | .emitted p q now r => if p = place then some (q, now, r) else none
    | _ => none

def Item.isFlush : Item X → Bool
  | .flushed _ => true
  | _ => false

/-- What happened since the last flush. -/
def window (log : Log X) : Log X := log.takeWhile fun item => !item.isFlush

/-- No addition of the run widened the type of a value. -/
def Unwidened (log : Log X) : Prop := ∀ place openSeq r widened,
  .absorbed place openSeq r widened ∈ log → widened = false

/-- Only points, as a flush emits them. -/
def Emitted (items : Log X) : Prop :=
  ∀ item ∈ items, ∃ place openSeq now r, item = .emitted place openSeq now r

theorem emitted_flush (cfg : Config X) (s : Aggregator X) (now : Int64) :
    Emitted (emittedItems now (s.flush cfg now).1) := by
  intro item mem
  rw [emittedItems_flush] at mem
  obtain ⟨e, -, rfl⟩ := mem_map.mp mem
  exact ⟨_, _, _, _, rfl⟩

variable {item : Item X}

theorem mem_emittedItems {now : Int64} (mem : item ∈ emittedItems now (s.flush cfg now).1) :
    ∃ place state, HeldAt s place state ∧ state.updatedThisWindow = true ∧
      item = .emitted place state.openSeq now (pointOf cfg now place.key state) := by
  rw [emittedItems_flush] at mem
  obtain ⟨e, inside, rfl⟩ := mem_map.mp mem
  obtain ⟨held, updated⟩ := mem_filter.mp inside
  exact ⟨⟨e.1.name, e.2.1⟩, e.2.2, ⟨e.1, held, rfl⟩, updated, rfl⟩

section

variable {place : Place X} {openSeq : Nat}

theorem absorbedBy_append (items older : Log X) :
    absorbedBy place openSeq (items ++ older) = absorbedBy place openSeq items ++ absorbedBy place openSeq older :=
  filterMap_append

variable {items : Log X}

theorem filterMap_emitted {β : Type} {f : Item X → Option β} (points : Emitted items)
    (silent : ∀ place openSeq now r, f (.emitted place openSeq now r) = none) (older : Log X) :
    (items ++ older).filterMap f = older.filterMap f := by
  have none : items.filterMap f = [] := by
    refine filterMap_eq_nil_iff.mpr fun item mem => ?_
    obtain ⟨_, _, _, _, rfl⟩ := points item mem
    exact silent _ _ _ _
  rw [filterMap_append, none, nil_append]

theorem absorbedBy_emitted (points : Emitted items) (older : Log X) :
    absorbedBy place openSeq (items ++ older) = absorbedBy place openSeq older :=
  filterMap_emitted points (fun _ _ _ _ => rfl) older

theorem absorbedAt_emitted (points : Emitted items) (older : Log X) :
    absorbedAt place (items ++ older) = absorbedAt place older :=
  filterMap_emitted points (fun _ _ _ _ => rfl) older

theorem absorbedBy_flushed (now : Int64) :
    absorbedBy place openSeq (flushedLog cfg s now log) = absorbedBy place openSeq log :=
  absorbedBy_emitted (emitted_flush cfg s now) log

theorem mem_absorbed_flushed {now : Int64} {r : MetricRecord X} {widened : Bool}
    (mem : .absorbed place openSeq r widened ∈ flushedLog cfg s now log) :
    .absorbed place openSeq r widened ∈ log := by
  rcases mem_append.mp mem with new | old
  · rcases mem_cons.mp new with marker | point
    · cases marker
    · obtain ⟨_, _, _, _, same⟩ := emitted_flush cfg s now _ point
      cases same
  · exact old

theorem window_emitted (points : Emitted items) (older : Log X) :
    window (items ++ older) = items ++ window older := by
  refine takeWhile_append_of_pos fun item mem => ?_
  obtain ⟨_, _, _, _, rfl⟩ := points item mem
  rfl

theorem absorbedBy_other {other : Place X} {q : Nat} {r : MetricRecord X} {widened : Bool}
    (apart : ¬(other = place ∧ q = openSeq)) (older : Log X) :
    absorbedBy place openSeq (.absorbed other q r widened :: older) = absorbedBy place openSeq older :=
  filterMap_cons_none (if_neg apart)

theorem absorbedBy_own (r : MetricRecord X) (widened : Bool) (older : Log X) :
    absorbedBy place openSeq (.absorbed place openSeq r widened :: older) = r :: absorbedBy place openSeq older :=
  filterMap_cons_some (if_pos ⟨rfl, rfl⟩)

theorem emittedAt_append (items older : Log X) :
    emittedAt place (items ++ older) = emittedAt place items ++ emittedAt place older :=
  filterMap_append

theorem emittedAt_own (q : Nat) (now : Int64) (r : MetricRecord X) (older : Log X) :
    emittedAt place (.emitted place q now r :: older) = (q, now, r) :: emittedAt place older :=
  filterMap_cons_some (if_pos rfl)

theorem absorbedBy_fresh (fresh : ∀ p q r widened, .absorbed p q r widened ∈ log → q < openSeq) :
    absorbedBy place openSeq log = [] := by
  refine filterMap_eq_nil_iff.mpr fun item mem => ?_
  cases item with
  | absorbed p q r widened =>
    have below := fresh p q r widened mem
    exact if_neg fun same => by omega
  | _ => rfl

end

theorem Holds.forget {ops : Sketches X} {records : List (MetricRecord X)} {accumulator : Accumulator X}
    (holds : Holds ops records accumulator) : Holds ops records (forget accumulator) := by
  cases accumulator with
  | _ => exact holds

/-- What a series holds of what was absorbed into it. -/
structure Accounts (cfg : Config X) (log : Log X) (place : Place X) (state : SeriesState X) : Prop where
  holds : Holds cfg.sketches (absorbedBy place state.openSeq log) state.accumulator
  tumbling : cfg.temporality = .delta → ∀ total monotonic, state.accumulator = .sum total monotonic →
    state.updatedThisWindow = true ∧ absorbedBy place state.openSeq log = absorbedBy place state.openSeq
      (window log)

/-- What is held of everything absorbed so far. -/
structure Books (cfg : Config X) (log : Log X) (s : Aggregator X) : Prop where
  fresh : ∀ place openSeq r widened, .absorbed place openSeq r widened ∈ log → openSeq < s.nextOpenSeq
  held : ∀ place state, HeldAt s place state → Accounts cfg log place state
  current : ∀ place openSeq r widened, .absorbed place openSeq r widened ∈ window log →
    ∃ state, HeldAt s place state ∧ state.openSeq = openSeq ∧ state.updatedThisWindow = true

theorem Unwidened.tail (unwidened : Unwidened (item :: log)) : Unwidened log :=
  fun place openSeq r widened mem => unwidened place openSeq r widened (mem_cons_of_mem _ mem)

theorem mem_window (mem : item ∈ window log) : item ∈ log := (takeWhile_sublist _).subset mem

theorem window_absorbed (openSeq : Nat) (r : MetricRecord X) (widened : Bool) (log : Log X) :
    window (.absorbed place openSeq r widened :: log) = .absorbed place openSeq r widened :: window log :=
  takeWhile_cons_of_pos rfl

theorem Books.sameGroups (books : Books cfg log s) (groups : s'.groups = s.groups)
    (next : s'.nextOpenSeq = s.nextOpenSeq) : Books cfg log s' where
  fresh := by
    rw [next]
    exact books.fresh
  held place state held := books.held place state ((heldAt_sameGroups groups).mp held)
  current place openSeq r widened mem := by
    obtain ⟨state, held, rest⟩ := books.current place openSeq r widened mem
    exact ⟨state, (heldAt_sameGroups groups).mpr held, rest⟩

section

variable {timestamp : Int64} {name : GroupName X} {key : SeriesKey X} {r : MetricRecord X}
  {place : Place X} {openSeq : Nat} {folded widened : Bool}

theorem Accounts.other {p : Place X} {state : SeriesState X} (accounts : Accounts cfg log p state)
    (apart : p ≠ place) : Accounts cfg (.absorbed place openSeq r widened :: log) p state := by
  refine ⟨?_, ?_⟩
  · rw [absorbedBy_other fun same => apart same.1.symm]
    exact accounts.holds
  · rw [window_absorbed, absorbedBy_other fun same => apart same.1.symm, absorbedBy_other fun same =>
      apart same.1.symm]
    exact accounts.tumbling

theorem Books.absorbed (books : Books cfg log s) (sound : Sound cfg s [])
    (effect : Effect cfg s timestamp name key r (.absorbed place openSeq folded widened) s')
    (unwidened : widened = false) : Books cfg (.absorbed place openSeq r widened :: log) s' := by
  cases effect with
  | @touched _ picked _ _ picks before accumulator held merged after frame =>
    subst unwidened
    have old : before.openSeq < s.nextOpenSeq := by
      obtain ⟨o, mem, -⟩ := held
      exact sound.recent _ mem
    refine ⟨?_, ?_, ?_⟩
    · intro p q r' w mem
      rw [frame.nextOpenSeq]
      rcases mem_cons.mp mem with new | older
      · cases new
        exact old
      · exact books.fresh p q r' w older
    · intro p state held'
      rcases (after p state).mp held' with ⟨rfl, rfl⟩ | ⟨apart, stays⟩
      · refine ⟨?_, fun delta total monotonic sum => ⟨rfl, ?_⟩⟩
        · show Holds cfg.sketches (absorbedBy _ before.openSeq _) accumulator
          rw [absorbedBy_own]
          exact (books.held _ _ held).holds.merge merged
        · have same : accumulator = .sum total monotonic := sum
          rw [same] at merged
          obtain ⟨before', was⟩ := merge_sum merged
          have windowed := ((books.held _ _ held).tumbling delta _ _ was).2
          show absorbedBy _ before.openSeq _ = absorbedBy _ before.openSeq _
          rw [window_absorbed, absorbedBy_own, absorbedBy_own, windowed]
      · exact (books.held p state stays).other apart
    · intro p q r' w mem
      rcases mem_cons.mp mem with new | older
      · cases new
        exact ⟨_, (after _ _).mpr (.inl ⟨rfl, rfl⟩), rfl, rfl⟩
      · obtain ⟨state, stays, same, updated⟩ := books.current p q r' w older
        by_cases here : p = ⟨name, picked⟩
        · subst here
          rw [sound.heldAt_unique stays held] at same
          exact ⟨_, (after _ _).mpr (.inl ⟨rfl, rfl⟩), same, rfl⟩
        · exact ⟨state, (after _ _).mpr (.inr ⟨here, stays⟩), same, updated⟩
  | opened picks opener accumulator opens vacant merged after there kept windowStart next =>
    have none : ∀ p, absorbedBy p s.nextOpenSeq log = [] := fun p => absorbedBy_fresh books.fresh
    have noneYet : ∀ p, absorbedBy p s.nextOpenSeq (window log) = [] := fun p =>
      absorbedBy_fresh fun p q r w mem => books.fresh p q r w (mem_window mem)
    refine ⟨?_, ?_, ?_⟩
    · intro p q r' w mem
      rw [next]
      rcases mem_cons.mp mem with new | older
      · cases new
        exact Nat.lt_succ_self _
      · exact Nat.lt_succ_of_lt (books.fresh p q r' w older)
    · intro p state held'
      rcases after p state held' with ⟨rfl, rfl⟩ | ⟨apart, stays⟩
      · refine ⟨?_, fun _ _ _ _ => ⟨rfl, ?_⟩⟩
        · show Holds cfg.sketches (absorbedBy _ s.nextOpenSeq _) accumulator
          rw [absorbedBy_own, none]
          exact Holds.opened opens merged
        · show absorbedBy _ s.nextOpenSeq _ = absorbedBy _ s.nextOpenSeq _
          rw [window_absorbed, absorbedBy_own, absorbedBy_own, none, noneYet]
      · exact (books.held p state stays).other apart
    · intro p q r' w mem
      rcases mem_cons.mp mem with new | older
      · cases new
        exact ⟨_, there, rfl, rfl⟩
      · obtain ⟨state, stays, same, updated⟩ := books.current p q r' w older
        exact ⟨state, kept p state stays updated, same, updated⟩

theorem Books.flushed (books : Books cfg log s) (now : Int64) :
    Books cfg (flushedLog cfg s now log) (s.flush cfg now).2 := by
  refine ⟨fun p q r w mem => books.fresh p q r w (mem_absorbed_flushed mem), ?_, ?_⟩
  · intro p kept held
    obtain ⟨state, before, survives⟩ := flush_heldAt held
    obtain ⟨holds, tumbling⟩ := books.held p state before
    refine ⟨?_, fun delta total monotonic sum => ?_⟩
    · rw [absorbedBy_flushed]
      rcases flushSeries_survives survives with ⟨-, -, kind, -, rfl⟩ | ⟨-, rfl⟩
      · exact holds.forget
      · exact holds
    · exfalso
      rcases flushSeries_survives survives with ⟨-, -, kind, retained, rfl⟩ | ⟨idle, rfl⟩
      · have own := sum
        cases was : state.accumulator with
        | sum t m =>
          rw [was] at retained
          obtain ⟨cumulative, -⟩ := Option.ite_none_right_eq_some.mp retained
          rw [delta] at cumulative
          cases cumulative
        | _ =>
          rw [was] at own
          cases own
      · have updated := (tumbling delta total monotonic sum).1
        rw [idle] at updated
        cases updated
  · intro p q r w mem
    cases mem

end

theorem Trace.books (trace : Trace cfg log s) (unwidened : Unwidened log) : Books cfg log s := by
  induction trace with
  | start =>
    refine ⟨?_, ?_, ?_⟩
    · intro p q r w mem
      cases mem
    · rintro p state ⟨o, mem, -⟩
      cases mem
    · intro p q r w mem
      cases mem
  | quiet before groups windowStart next sound ih => exact (ih unwidened).sameGroups groups next
  | absorbed before sound effect ih =>
    exact (ih unwidened.tail).absorbed before.sound effect (unwidened _ _ _ _ mem_cons_self)
  | flushed before now sound ih =>
    refine (ih ?_).flushed now
    exact fun p q r w mem => unwidened p q r w (mem_append_right _ mem)

/-- A histogram has the layout of these records, and in each bucket their total. -/
def IsTotal (records : List (MetricRecord X)) (h : Histogram) : Prop :=
  (∀ r ∈ records, ∃ g, r.kind = .histogram g ∧ g.buckets.map Prod.fst = h.buckets.map Prod.fst) ∧
    ∀ i, bucketCount i h.buckets = (records.map (bucketAt i)).sum

/-- The buckets of every series' records add up to counts that fit. -/
def Fits (log : Log X) : Prop := ∀ place openSeq i,
  ((absorbedBy place openSeq log).map (bucketAt i)).sum < 2 ^ 64

/-- What an item says of those before it. A point holds all that was absorbed since its series was
opened, which under delta temporality is all that its window absorbed at its place. A flush emits one
point for each series that its window absorbed into: a sum where a sum was absorbed, and a histogram
where a histogram was. -/
def Item.Right (cfg : Config X) (older : Log X) : Item X → Prop
  | .absorbed .. => True
  | .emitted place openSeq _ point =>
    (∀ sum, point.kind = .sum sum → IsSum cfg.sketches (absorbedBy place openSeq older) sum.value ∧
      (cfg.temporality = .delta → absorbedBy place openSeq older = absorbedAt place (window older))) ∧
    ∀ h, point.kind = .histogram h → IsTotal (absorbedBy place openSeq older) h
  | .flushed now => ∀ place openSeq r widened, .absorbed place openSeq r widened ∈ window older →
    ∃ point, emittedAt place (window older) = [(openSeq, now, point)] ∧
      (∀ s, r.kind = .sum s → ∃ sum, point.kind = .sum sum) ∧
      ∀ g, r.kind = .histogram g → ∃ h, point.kind = .histogram h

theorem suffix_append_cases {α : Type} {item : α} {older new old : List α} (suffix : item :: older <:+ new ++ old) :
    item :: older <:+ old ∨ ∃ part, item :: part <:+ new ∧ older = part ++ old := by
  induction new with
  | nil => exact .inl suffix
  | cons a new ih =>
    rcases suffix_cons_iff.mp suffix with whole | part
    · obtain ⟨rfl, rfl⟩ := cons.inj whole
      exact .inr ⟨new, suffix_refl _, rfl⟩
    · rcases ih part with old | ⟨part, inside, same⟩
      · exact .inl old
      · exact .inr ⟨part, inside.trans (suffix_cons a new), same⟩

section

variable {now : Int64} {place : Place X} {state : SeriesState X}

theorem Books.absorbedAt_window (books : Books cfg log s) (sound : Sound cfg s []) (held : HeldAt s place state) :
    absorbedAt place (window log) = absorbedBy place state.openSeq (window log) := by
  refine filterMap_congr fun item mem => ?_
  cases item with
  | absorbed p q r widened =>
    show (if p = place then some r else none) = if p = place ∧ q = state.openSeq then some r else none
    by_cases here : p = place
    · subst here
      obtain ⟨other, there, rfl, -⟩ := books.current p q r widened mem
      rw [sound.heldAt_unique there held, if_pos rfl, if_pos ⟨rfl, rfl⟩]
    · rw [if_neg here, if_neg fun both => here both.1]
  | _ => rfl

theorem Books.point_right (books : Books cfg log s) (sound : Sound cfg s []) (fits : Fits log)
    (held : HeldAt s place state) {part : Log X} (points : Emitted part) :
    (Item.emitted place state.openSeq now (pointOf cfg now place.key state)).Right cfg (part ++ log) := by
  obtain ⟨holds, tumbling⟩ := books.held place state held
  refine ⟨?_, ?_⟩
  · intro sum kind
    rw [absorbedBy_emitted points, window_emitted points, absorbedAt_emitted points]
    cases own : state.accumulator with
    | sum total monotonic =>
      have same : state.accumulator.intoKind cfg.temporality = .sum sum := kind
      rw [own] at same
      obtain rfl := MetricKind.sum.inj same
      rw [own] at holds
      refine ⟨holds, fun delta => ?_⟩
      rw [books.absorbedAt_window sound held]
      exact (tumbling delta total monotonic own).2
    | _ =>
      simp only [pointOf, own] at kind
      cases kind
  · intro h kind
    rw [absorbedBy_emitted points]
    cases own : state.accumulator with
    | histogram g =>
      have same : state.accumulator.intoKind cfg.temporality = .histogram h := kind
      rw [own] at same
      obtain rfl := MetricKind.histogram.inj same
      rw [own] at holds
      refine ⟨holds.layout, fun i => ?_⟩
      have below := fits place state.openSeq i
      rw [holds.counts i]
      omega
    | _ =>
      simp only [pointOf, own] at kind
      cases kind

theorem emittedAt_flush (sound : Sound cfg s []) (held : HeldAt s place state)
    (updated : state.updatedThisWindow = true) : emittedAt place (emittedItems now (s.flush cfg now).1) =
      [(state.openSeq, now, pointOf cfg now place.key state)] := by
  obtain ⟨group, key⟩ := place
  obtain ⟨o, mem, rfl⟩ := held
  have distinct : (s.held.map fun e => (e.1.name, e.2.1)).Nodup := by
    refine Trays.entries_distinct ?_
    have names := sound.distinct
    rw [labels, map_map] at names
    exact names
  obtain ⟨before, after, split⟩ := append_of_mem mem
  rw [split, map_append] at distinct
  -- no other series is at this place
  have nowhere :
      ∀ part : List (Entry (Origin X) X),
        (o.name, key) ∉ part.map (fun e => (e.1.name, e.2.1)) →
      emittedAt ⟨o.name, key⟩ ((part.filter fun e => e.2.2.updatedThisWindow).map fun e =>
        .emitted ⟨e.1.name, e.2.1⟩ e.2.2.openSeq now (pointOf cfg now e.2.1 e.2.2)) = [] := by
    intro part absent
    rw [emittedAt, filterMap_map]
    refine filterMap_eq_nil_iff.mpr fun e inside => if_neg fun same => absent ?_
    obtain ⟨sameGroup, sameKey⟩ := Place.mk.inj same
    exact mem_map.mpr ⟨e, (mem_filter.mp inside).1, by rw [sameGroup, sameKey]⟩
  obtain ⟨-, rest, apart⟩ := nodup_append'.mp distinct
  have left := nowhere before fun inside => apart inside mem_cons_self
  have right := nowhere after (nodup_cons.mp rest).1
  rw [emittedItems_flush, split, filter_append, filter_cons_of_pos (by exact updated), map_append]
  rw [emittedAt_append, left]
  exact (emittedAt_own _ _ _ _).trans (congrArg _ right)

end

theorem Fits.older {items : Log X} (fits : Fits (items ++ log)) : Fits log := by
  intro place openSeq i
  have total := fits place openSeq i
  rw [absorbedBy_append, map_append, sum_append] at total
  omega

theorem Trace.unemitted (trace : Trace cfg log s) (place : Place X) : emittedAt place (window log) = [] := by
  induction trace with
  | start => rfl
  | quiet _ _ _ _ _ ih => exact ih
  | absorbed _ _ _ ih => exact ih
  | flushed => rfl

theorem Trace.right (trace : Trace cfg log s) (unwidened : Unwidened log) (fits : Fits log)
    {older : Log X} (suffix : item :: older <:+ log) : item.Right cfg older := by
  induction trace with
  | start => cases suffix_nil.mp suffix
  | quiet _ _ _ _ _ ih => exact ih unwidened fits suffix
  | @absorbed log _ _ before _ _ _ _ r place openSeq _ widened _ ih =>
    rcases suffix_cons_iff.mp suffix with whole | part
    · obtain ⟨rfl, rfl⟩ := cons.inj whole
      trivial
    · have fits' := @Fits.older _ log [.absorbed place openSeq r widened] fits
      exact ih unwidened.tail fits' part
  | @flushed log s before now _ ih =>
    have points := emitted_flush cfg s now
    have unwidened' : Unwidened log := fun p q r w mem => unwidened p q r w (mem_append_right _ mem)
    have fits' := fits.older
    have books := before.books unwidened'
    rcases suffix_append_cases suffix with old | ⟨part, inside, rfl⟩
    · exact ih unwidened' fits' old
    rcases suffix_cons_iff.mp inside with whole | point
    · obtain ⟨rfl, rfl⟩ := cons.inj whole
      intro place openSeq r widened mem
      rw [window_emitted points] at mem ⊢
      rcases mem_append.mp mem with emitted | recent
      · obtain ⟨_, _, _, _, same⟩ := points _ emitted
        cases same
      · obtain ⟨state, held, rfl, updated⟩ := books.current place openSeq r widened recent
        have inside : r ∈ absorbedBy place state.openSeq log :=
          mem_filterMap.mpr ⟨_, mem_window recent, if_pos ⟨rfl, rfl⟩⟩
        obtain ⟨sums, histograms⟩ := (books.held place state held).holds.form inside
        refine ⟨pointOf cfg now place.key state, ?_, fun s kind => ?_, fun g kind => ?_⟩
        · rw [emittedAt_append, emittedAt_flush before.sound held updated, before.unemitted]
          rfl
        · obtain ⟨total, monotonic, own⟩ := sums s kind
          exact ⟨_, congrArg (Accumulator.intoKind cfg.temporality) own⟩
        · obtain ⟨h, own⟩ := histograms g kind
          exact ⟨_, congrArg (Accumulator.intoKind cfg.temporality) own⟩
    · have others : Emitted part := fun item mem =>
        points item (point.subset (mem_cons_of_mem _ mem))
      obtain ⟨place, state, held, -, rfl⟩ := mem_emittedItems (point.subset mem_cons_self)
      exact books.point_right before.sound fits' held others

def Fate.isPassed : Fate X → Bool
  | .passed _ => true
  | _ => false

section

variable {resource : Arc (Resource X)} {gi : Option Nat} {event : Event X} {scanFields : Bool}

/-- Every record has one fate, and those that pass stay in their order. -/
theorem records_fates (cfg : Config X) (resource : Arc (Resource X)) (event : Event X) (scanFields : Bool)
    (records : List (MetricRecord X)) (gi : Option Nat) (s : Aggregator X) :
    let processed := Aggregator.records cfg resource event scanFields records gi s
    processed.fates.map Prod.fst = records ∧
      processed.left = (processed.fates.filter fun f => f.2.isPassed).map Prod.fst := by
  induction records generalizing gi s with
  | nil => exact ⟨rfl, rfl⟩
  | cons r records ih =>
    obtain ⟨all, left⟩ := ih (s.record cfg resource event scanFields gi r).group
      (s.record cfg resource event scanFields gi r).state
    refine ⟨congrArg (r :: ·) all, ?_⟩
    simp only [Aggregator.records]
    cases fate : (s.record cfg resource event scanFields gi r).fate with
    | passed reason => rw [filter_cons_of_pos rfl, map_cons, ← left]
    | dropped | absorbed place openSeq folded widened => rw [filter_cons_of_neg (by simp [Fate.isPassed]), ← left]

/-- A record is absorbed in its event's group, at its own key or its overflow key. -/
theorem Ready.absorbed_place (ready : Ready cfg s resource gi) (records : List (MetricRecord X))
    {r : MetricRecord X} {place : Place X} {openSeq : Nat} {folded widened : Bool}
    (absorbed : (r, Fate.absorbed place openSeq folded widened) ∈
      (Aggregator.records cfg resource event scanFields records gi s).fates) :
    place.group = s.target resource ∧ Picks (seriesKey event scanFields r) place.key folded := by
  induction records generalizing gi s with
  | nil => cases absorbed
  | cons first records ih =>
    obtain ⟨ready', scope, effect⟩ := ready.record event scanFields first
    rcases mem_cons.mp absorbed with own | later
    · obtain ⟨rfl, fate⟩ := Prod.mk.inj own
      rw [← fate] at effect
      cases effect with
      | touched picks | opened picks => exact ⟨rfl, picks⟩
    · have rest := ih ready' later
      rw [target, scope] at rest
      exact rest

end

/-- In a run where no addition widens a type and no bucket passes the largest count, each record of an
event is absorbed at one place, left on the event in its order, or dropped; each point holds exactly
what its series took in; and what a window took in is in the points of its own flush. -/
theorem increments_conserved (reach : Reach cfg log s) (unwidened : Unwidened log) (fits : Fits log) :
    (∀ resource event, Alive s resource →
      let processed := s.process cfg resource event
      processed.fates.map Prod.fst = event.metrics ∧
      processed.left = (processed.fates.filter fun f => f.2.isPassed).map Prod.fst ∧
      ∀ r place openSeq folded widened, (r, Fate.absorbed place openSeq folded widened) ∈ processed.fates →
        place.group = s.target resource ∧ Picks (seriesKey event (s.scansFields event) r) place.key folded) ∧
    ∀ item older, item :: older <:+ log → item.Right cfg older := by
  obtain ⟨trace, within⟩ := reach.trace
  refine ⟨fun resource event alive => ?_, fun item older suffix => trace.right unwidened fits suffix⟩
  have ready : Ready cfg s resource none := ⟨trace.sound, within, alive, fun i member => by cases member⟩
  unfold process
  split
  · refine ⟨by simp [comp_def], by simp [filter_map, Fate.isPassed, comp_def], ?_⟩
    intro r place openSeq folded widened member
    obtain ⟨_, _, same⟩ := mem_map.mp member
    cases same
  · obtain ⟨all, left⟩ := records_fates cfg resource event (s.scansFields event) event.metrics none s
    exact ⟨all, left, fun r place openSeq folded widened member => ready.absorbed_place _ member⟩

/-- A record that was absorbed is a sum, and widened nothing. -/
def Item.isPlainSum : Item X → Bool
  | .absorbed _ _ r widened => !widened && (sumValue r).isSome
  | _ => true

theorem plainSums (sums : log.all Item.isPlainSum = true) : Unwidened log ∧ Fits log := by
  rw [all_eq_true] at sums
  refine ⟨fun place openSeq r widened mem => ?_, fun place openSeq i => ?_⟩
  · have sum := sums _ mem
    simp only [Item.isPlainSum, and_eq_true, not_eq_true'] at sum
    exact sum.1
  · have zero : ∀ n ∈ (absorbedBy place openSeq log).map (bucketAt i), n = 0 := by
      intro n mem
      obtain ⟨r, inside, rfl⟩ := mem_map.mp mem
      obtain ⟨item, here, taken⟩ := mem_filterMap.mp inside
      have sum := sums item here
      cases item with
      | absorbed p q r' widened =>
        obtain ⟨-, ⟨⟩⟩ := Option.ite_none_right_eq_some.mp taken
        simp only [Item.isPlainSum] at sum
        cases kind : r.kind with
        | histogram h => simp [sumValue, kind] at sum
        | _ => simp [bucketAt, kind]
      | _ => cases taken
    rw [sum_eq_zero zero]
    decide

theorem increments_conserved_sample :
    let windows := [(sampleEvent 15 [("a", 5), ("c", 1)], 20), (sampleEvent 5 [("a", 3), ("b", 2), ("a", 4)], 10)]
    let log := (rounds (.sample .delta) Arc.sample windows).1
    let point := Item.emitted ⟨(Arc.sample.value, none), ⟨"a", none, AttrMap.empty⟩⟩ 0 10
      ⟨"a", none, none, 0, [], 0, .sum ⟨.i64 7, .delta, true⟩⟩
    log.drop 6 = point :: log.drop 7 ∧ point.Right (.sample .delta) (log.drop 7) := by
  intro windows log point
  have emitted : log.drop 6 = point :: log.drop 7 := rfl
  have sums : Unwidened log ∧ Fits log := plainSums (by decide +kernel)
  have suffix := drop_suffix 6 log
  exact ⟨emitted, (increments_conserved (reach_rounds (.sample .delta) Arc.sample windows).1 sums.1 sums.2).2
    _ _ suffix⟩

end Logit.Aggregate
