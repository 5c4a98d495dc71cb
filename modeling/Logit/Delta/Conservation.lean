import Logit.Delta.Steps

namespace Logit.Delta

open CumulativeToDelta Telescope List Option Bool Point

variable {X : Externals} {cfg : Settings X} {k : Key X} {log : Log X}

/-- A point that the differences after it are counted from. -/
def Verdict.opens : Verdict → Bool
  | .skippedInitial | .first | .resetDecrease | .resetRestarted | .droppedLayout => true
  | _ => false

/-- A run of accepted points with no reset and no layout drop after its first, and the deltas emitted
for it, newest first. -/
structure Segment (X : Externals) where
  first : MetricKind X
  last : MetricKind X
  deltas : List (MetricKind X)

/-- The segment a series is in. -/
def segment (k : Key X) : Log X → Option (Segment X)
  | [] => none
  | e :: earlier =>
    if e.key = some k then
      if e.verdict.opens then some ⟨e.kind, e.kind, []⟩
      else if e.verdict = .converted then
        (segment k earlier).map fun seg =>
          ⟨seg.first, e.kind, (e.emitted.map MetricRecord.kind).toList ++ seg.deltas⟩
      else segment k earlier
    else segment k earlier

/-- The deltas of a segment come to its last point less its first, cell by cell, with exponential
buckets brought to the last point's scale. -/
def Segment.Sums (seg : Segment X) : Prop := rescaling.total (scaleOf seg.last) (seg.deltas.map measured) +
    rescaling.lower (scaleOf seg.last) (measured seg.first) = amount seg.last

/-- The points of a series count exactly, and each can be differenced from the last accepted one. -/
def Steady (k : Key X) : Log X → Prop
  | [] => True
  | e :: earlier => Steady k earlier ∧ (e.key = some k → Countable e.kind ∧
      ∀ last ∈ lastAccepted k earlier, Comparable last.kind e.kind)

instance decideSteady (k : Key X) : (log : Log X) → Decidable (Steady k log)
  | [] => inferInstanceAs (Decidable True)
  | e :: earlier =>
    have := decideSteady k earlier
    inferInstanceAs (Decidable (_ ∧ (e.key = some k → Countable e.kind ∧
      ∀ last ∈ lastAccepted k earlier, Comparable last.kind e.kind)))

/-- What a verdict takes after an accepted point: the series is not begun anew, a count fell or the start
is a later one where it was reset, and the layout changed where the point was dropped for it. -/
def Due (l e : Entry X) : Verdict → Prop
  | .first | .skippedInitial => False
  | .resetDecrease => ∃ cell, amount e.kind cell < rescaling.lower (scaleOf e.kind) (measured l.kind) cell
  | .resetRestarted => restarted e.start l.ts e.ts = true
  | .droppedLayout => Relaid l.kind e.kind
  | _ => True

/-- What becomes of a point, given the last accepted one of its series. Counts are read as the
unsigned numbers they are, so a difference that is exact has not wrapped. -/
structure Judged (last : Option (Entry X)) (e : Entry X) : Prop where
  accepted : ∀ l, last = some l → (e.verdict.accepted = true ↔ l.ts < e.ts)
  removed : ∀ l, last = some l → e.ts ≤ l.ts → e.emitted = none
  due : ∀ l, last = some l → Due l e e.verdict
  whole : e.verdict = .resetDecrease ∨ e.verdict = .resetRestarted →
    ∃ out, e.emitted = some out ∧ measured out.kind = measured e.kind
  delta : e.verdict = .converted → ∃ l out, last = some l ∧ e.emitted = some out ∧
    scaleOf out.kind = scaleOf e.kind ∧ scaleOf e.kind ≤ scaleOf l.kind ∧
    amount out.kind + rescaling.lower (scaleOf e.kind) (measured l.kind) = amount e.kind

def Judgements (k : Key X) : Log X → Prop
  | [] => True
  | e :: earlier => Judgements k earlier ∧ (e.key = some k → Judged (lastAccepted k earlier) e)

theorem Verdict.accepted_iff (v : Verdict) : v.accepted = true ↔ v.opens = true ∨ v = .converted := by
  cases v <;> simp [Verdict.accepted, Verdict.opens]

/-- The deltas are above the last point's scale, and telescope. -/
structure Segment.Telescopes (seg : Segment X) : Prop where
  above : ∀ d ∈ seg.deltas.map measured, scaleOf seg.last ≤ d.level
  first : scaleOf seg.last ≤ scaleOf seg.first
  sums : seg.Sums

theorem Segment.Telescopes.opened (point : MetricKind X) : Segment.Telescopes ⟨point, point, []⟩ where
  above d mem := by simp at mem
  first := le_rfl
  sums := by
    have own := rescaling.lower_self (measured point)
    simpa [Segment.Sums, measured] using own

theorem Segment.Telescopes.extend {seg : Segment X} (telescopes : seg.Telescopes)
    {point out : MetricKind X} (level : scaleOf out = scaleOf point) (down : scaleOf point ≤ scaleOf seg.last)
    (step : amount out + rescaling.lower (scaleOf point) (measured seg.last) = amount point) :
    Segment.Telescopes ⟨seg.first, point, out :: seg.deltas⟩ where
  above d mem := by
    rw [map_cons, mem_cons] at mem
    rcases mem with rfl | earlier
    · exact level.ge
    · exact down.trans (telescopes.above d earlier)
  first := down.trans telescopes.first
  sums := @Rescaling.telescope _ _ rescaling _ (measured seg.last) (measured point) (measured out) _
    telescopes.sums telescopes.above telescopes.first down level step

/-- When each point is judged rightly, a series has a segment as soon as it has an accepted point, and
the segment telescopes. -/
theorem segment_telescopes (judged : Judgements k log) : (lastAccepted k log = none ∧ segment k log = none) ∨
    ∃ l seg, lastAccepted k log = some l ∧ segment k log = some seg ∧ seg.last = l.kind ∧ seg.Telescopes := by
  induction log with
  | nil => exact .inl ⟨rfl, rfl⟩
  | cons e earlier ih =>
    obtain ⟨before, own⟩ := judged
    by_cases mine : e.key = some k
    · by_cases opens : e.verdict.opens = true
      · right
        have accepted := (e.verdict.accepted_iff).mpr (.inl opens)
        exact ⟨e, ⟨e.kind, e.kind, []⟩, lastAccepted_new earlier mine accepted,
          by simp [segment, mine, opens], rfl, .opened e.kind⟩
      · by_cases converted : e.verdict = .converted
        · right
          have accepted := (e.verdict.accepted_iff).mpr (.inr converted)
          obtain ⟨l, out, last, emitted, level, down, step⟩ := (own mine).delta converted
          rcases ih before with ⟨none, _⟩ | ⟨l', seg, last', found, same, telescopes⟩
          · rw [none] at last
            cases last
          · cases last'.symm.trans last
            rw [← same] at down step
            exact ⟨e, ⟨seg.first, e.kind, out.kind :: seg.deltas⟩, lastAccepted_new earlier mine accepted,
              by simp [segment, mine, converted, Verdict.opens, found, emitted], rfl,
              telescopes.extend level down step⟩
        · have refused : e.verdict.accepted = false := by
            rw [← not_eq_true, e.verdict.accepted_iff]
            tauto
          have same : segment k (e :: earlier) = segment k earlier := by simp [segment, opens, converted]
          rw [lastAccepted_skip earlier (.inr refused), same]
          exact ih before
    · have same : segment k (e :: earlier) = segment k earlier := by simp [segment, mine]
      rw [lastAccepted_skip earlier (.inl mine), same]
      exact ih before

variable {l : Entry X} {s : CumulativeToDelta X} {p : Point X}

theorem Steady.countable (steady : Steady k log) (last : lastAccepted k log = some l) : Countable l.kind := by
  obtain ⟨mem, own, _⟩ := lastAccepted_some last
  clear last
  induction log with
  | nil => cases mem
  | cons e earlier ih =>
    rcases mem_cons.mp mem with rfl | before
    · exact (steady.2 own).1
    · exact ih steady.1 before

theorem Countable.finiteSum {point : MetricKind X} (countable : Countable point) : finiteSum point = true := by
  cases point with
  | sum s =>
    obtain ⟨value, _, _⟩ := s
    cases value with
    | f64 v => simp [Countable, exactInt] at countable
    | _ => rfl
  | _ => rfl

theorem skipped_removed (s : CumulativeToDelta X) (p : Point X) (late : p.ts ≤ l.ts) :
    Judged (some l) (p.entry cfg (skipped s p.ts l.ts)) where
  accepted l' same := by
    cases same
    have refused := skipped_refused s p.ts l.ts
    have order := Int64.not_lt.mpr late
    simp [entry, refused, order]
  removed l' _ _ := rfl
  due l' _ := by
    simp only [entry, skipped]
    split <;> trivial
  whole reset := by
    have refused := skipped_refused s p.ts l.ts
    rcases reset with verdict | verdict <;>
      simp [show (skipped s p.ts l.ts).verdict = _ from verdict, Verdict.accepted] at refused
  delta converted := by
    have refused := skipped_refused s p.ts l.ts
    simp [show (skipped s p.ts l.ts).verdict = _ from converted, Verdict.accepted] at refused

theorem Judged.later {l e : Entry X} (later : l.ts < e.ts) (accepted : e.verdict.accepted = true)
    (due : Due l e e.verdict) (whole : e.verdict = .resetDecrease ∨ e.verdict = .resetRestarted →
      ∃ out, e.emitted = some out ∧ measured out.kind = measured e.kind)
    (delta : e.verdict = .converted → ∃ out, e.emitted = some out ∧
      scaleOf out.kind = scaleOf e.kind ∧ scaleOf e.kind ≤ scaleOf l.kind ∧
      amount out.kind + rescaling.lower (scaleOf e.kind) (measured l.kind) = amount e.kind) :
    Judged (some l) e where
  accepted l' same := by
    cases same
    simp [accepted, later]
  removed l' same late := by
    cases same
    exact absurd late (Int64.not_le.mpr later)
  due l' same := by
    cases same
    exact due
  whole := whole
  delta converted := by
    obtain ⟨out, rest⟩ := delta converted
    exact ⟨l, out, rfl, rest⟩

theorem judged_tracked (follows : Follows cfg log s) {kind : Kind} {slot : Nat} {series : Series X}
    (found : p.kind cfg = some kind) (here : s.series.get slot = some series)
    (key : series.key = p.key kind) (now : Int64) (countable : Countable p.record.kind)
    (before : ∀ l, lastAccepted (p.key kind) log = some l → Countable l.kind ∧ Comparable l.kind p.record.kind) :
    Judged (lastAccepted (p.key kind) log)
      (p.entry cfg (s.convertTracked cfg kind slot series now p)) := by
  obtain ⟨l, last, _, ts, records, holds⟩ := follows.recorded slot series here
  rw [key] at last holds
  have own := Kind.of_holds found
  rw [last]
  obtain ⟨countable', comparable⟩ := before l last
  have aligned := align_amount cfg.floats records holds own countable' comparable
  rcases @convertTracked_cases X cfg s kind slot series now p with
    ⟨late, done⟩ | ⟨later, reset, _, emitted⟩ | ⟨later, relaid, done⟩ | ⟨later, fell, kept, done⟩
  · rw [done, ts]
    exact skipped_removed s p (ts ▸ late)
  · apply Judged.later (ts ▸ later)
    · rcases reset with ⟨_, verdict⟩ | ⟨_, verdict⟩ <;> simp [entry, verdict, Verdict.accepted]
    · rcases reset with ⟨fell, verdict⟩ | ⟨again, verdict⟩
      · rw [show (p.entry cfg _).verdict = _ from verdict]
        exact exists_cell_of_fell records holds own countable' countable comparable (and_eq_true_iff.mp fell).2
      · rw [show (p.entry cfg _).verdict = _ from verdict]
        rw [ts] at again
        exact again
    · intro _
      exact ⟨_, emitted, emitFull_amount _⟩
    · intro converted
      rcases reset with ⟨_, verdict⟩ | ⟨_, verdict⟩ <;> simp [entry, verdict] at converted
  · rw [done]
    apply Judged.later (ts ▸ later) rfl
    · exact aligned.2.1 relaid
    · simp [entry]
    · simp [entry]
  · have sums : cfg.signed kind = true → kind = .nonMonotonicSum := by
      intro signed
      simp only [Settings.signed, and_eq_true, decide_eq_true_eq] at signed
      exact signed.1
    simp only [Settings.fell, kept] at fell
    have exact := difference_amount records holds own countable' countable comparable sums kept fell
    rw [done]
    apply Judged.later (ts ▸ later) rfl
    · trivial
    · simp [entry]
    · intro _
      exact ⟨_, rfl, exact.1, aligned.1 kept, exact.2⟩

/-- A series that is not tracked has no accepted point, unless something was evicted. -/
theorem none_accepted (follows : Follows cfg log s) (fresh : Untracked k s) (kept : s.trail = []) :
    lastAccepted k log = none := by
  cases last : lastAccepted k log with
  | none => rfl
  | some l =>
    rcases follows.covered k l last with ⟨i, a, here, key⟩ | gone
    · exact absurd key (fresh i a here)
    · rw [kept] at gone
      cases gone

theorem Judged.unseen {e : Entry X} (begun : e.verdict.accepted = false ∨ e.verdict = .first ∨
    e.verdict = .skippedInitial) : Judged none e where
  accepted l absent := by cases absent
  removed l absent := by cases absent
  due l absent := by cases absent
  whole reset := by rcases reset with verdict | verdict <;> simp [verdict, Verdict.accepted] at begun
  delta converted := by simp [converted, Verdict.accepted] at begun

theorem judged_untracked (key : Key X) (now : Int64) (p : Point X) :
    Judged none (p.entry cfg (s.convertUntracked cfg key now p)) := by
  have begun : ∀ (t : CumulativeToDelta X) emit, (t.begin cfg key now p emit).verdict = .first ∨
      (t.begin cfg key now p emit).verdict = .skippedInitial := by
    intro t emit
    rcases (@begin_cases X cfg t key now p emit).2 with ⟨_, verdict, _⟩ | ⟨_, verdict, _⟩
    · exact .inl verdict
    · exact .inr verdict
  apply Judged.unseen
  rcases @convertUntracked_cases X cfg s key now p with
    ⟨last, seq, _, _, _, done⟩ | ⟨last, seq, _, _, _, done⟩ | ⟨_, _, done⟩ | ⟨_, emit, done⟩
  · rw [done]
    exact .inl (skipped_refused s p.ts last)
  · rw [done]
    exact .inr (begun _ _)
  · rw [done]
    exact .inr (begun _ _)
  · rw [done]
    exact .inr (begun _ _)

theorem judged_convert (follows : Follows cfg log s) (kept : (s.convert cfg p).state.trail = [])
    (own : (p.entry cfg (s.convert cfg p)).key = some k) (countable : Countable p.record.kind)
    (before : ∀ l, lastAccepted k log = some l → Countable l.kind ∧ Comparable l.kind p.record.kind) :
    Judged (lastAccepted k log) (p.entry cfg (s.convert cfg p)) := by
  have read := (Follows.stable cfg log).readNow p.clock follows
  rcases convert_cases follows p with ⟨absent, _⟩ | ⟨broken, _⟩ | ⟨kind, found, _, _, fresh, done⟩ |
    ⟨kind, slot, series, found, _, here, key, done⟩
  · simp [entry, absent] at own
  · rw [countable.finiteSum] at broken
    cases broken
  · simp only [entry, found, map_some, some.injEq] at own
    subst own
    rw [done] at kept ⊢
    have quiet : (s.readNow cfg p.clock).trail = [] := prefix_nil.mp (kept ▸ trail_convertUntracked _ _ p)
    rw [none_accepted read fresh quiet]
    exact judged_untracked _ _ p
  · simp only [entry, found, map_some, some.injEq] at own
    subst own
    rw [done]
    exact judged_tracked read found here key _ countable before

/-- Without evictions every record of a steady series is judged rightly, in every run. -/
theorem judgements_run (inputs : List (Input X)) (kept : (run cfg inputs).state.trail = [])
    (steady : Steady k (run cfg inputs).log) : Judgements k (run cfg inputs).log := by
  induction inputs using reverseRecOn with
  | nil => trivial
  | append_singleton inputs input ih =>
    have quiet := prefix_nil.mp (kept ▸ trail_step cfg inputs input)
    rw [run_append] at kept steady ⊢
    cases input with
    | endBatch => exact ih quiet steady
    | record p =>
      refine ⟨ih quiet steady.1, fun own => ?_⟩
      obtain ⟨countable, comparable⟩ := steady.2 own
      exact judged_convert (Follows.run cfg inputs) kept own countable
        (fun l last => ⟨steady.1.countable last, comparable l last⟩)

theorem stable_series (cfg : Settings X) (series : Slab (Series X) UInt64) :
    Stable cfg fun s => s.trail = [] → s.series = series where
  queue _ _ holds := holds
  now _ _ holds := holds
  evict s slot holds quiet := by
    cases found : s.series.get slot with
    | none =>
      have same : s.evict cfg slot = s := by simp [evict, found]
      rw [same] at quiet ⊢
      exact holds quiet
    | some a =>
      have lost := @Follows.evict_trail X cfg s a slot found
      rw [quiet] at lost
      cases lost

/-- A point at or before the last accepted one is removed, and leaves every series as it is. -/
theorem late_point_removed (follows : Follows cfg log s) {kind : Kind}
    (found : p.kind cfg = some kind) (last : lastAccepted (p.key kind) log = some l)
    (late : p.ts ≤ l.ts) (kept : (s.convert cfg p).state.trail = []) :
    (s.convert cfg p).emitted = none ∧ (s.convert cfg p).verdict.accepted = false ∧
      (s.convert cfg p).state.series = s.series := by
  have read := (Follows.stable cfg log).readNow p.clock follows
  have quiet := (stable_series cfg s.series).readNow p.clock (fun _ => rfl)
  rcases convert_cases follows p with ⟨absent, _⟩ | ⟨_, done⟩ | ⟨kind', found', _, _, fresh, done⟩ |
    ⟨kind', slot, series, found', _, here, key, done⟩
  · rw [found] at absent
    cases absent
  · rw [done]
    exact ⟨rfl, rfl, rfl⟩
  · cases found.symm.trans found'
    rw [done] at kept
    have empty : (s.readNow cfg p.clock).trail = [] := prefix_nil.mp (kept ▸ trail_convertUntracked _ _ p)
    rw [none_accepted read fresh empty] at last
    cases last
  · cases found.symm.trans found'
    rw [done] at kept ⊢
    rw [trail_convertTracked] at kept
    obtain ⟨l', last', _, ts, _⟩ := read.recorded slot series here
    rw [key, last, some.injEq] at last'
    subst last'
    have skip : (s.readNow cfg p.clock).convertTracked cfg kind slot series (s.now.getD p.clock) p =
        skipped (s.readNow cfg p.clock) p.ts series.ts := by simp [convertTracked, ts, late]
    rw [skip]
    exact ⟨rfl, skipped_refused _ _ _, quiet kept⟩

/-- A setting with no room to spare for hashes: all keys collide. -/
def Settings.sample : Settings Externals.plain where
  initial := .auto
  nonMonotonic := .pass
  maxStaleness := 1000
  maxSeries := 8
  started := 10
  hash _ := 0
  floats := ⟨fun a _ => a, fun _ => F64.zero, fun _ _ _ => F64.zero⟩

def Point.sample (name : String) (start ts : Int64) (kind : MetricKind Externals.plain) :
    Point Externals.plain where
  clock := ts
  resource := ⟨AttrMap.empty, 0, none⟩
  scope := none
  ts := ts
  attributes := AttrMap.empty
  record := ⟨name, none, none, start, [], 0, kind⟩

def exponentialSample (scale : Int32) (offset : Int32) (counts : List UInt64) (count : UInt64) :
    MetricKind Externals.plain :=
  .exponentialHistogram
    ⟨scale, 0, F64.zero, (offset, counts), (0, []), .cumulative, count, none, none, none⟩

/-- An exponential histogram that loses scale between its points, beside a sum under the same hash. -/
def conservationSample : List (Input Externals.plain) :=
  [.record (.sample "sizes" 0 20 (exponentialSample 2 5 [1, 2, 3] 6)),
   .record (.sample "requests" 0 20 (.sum ⟨.i64 7, .cumulative, true⟩)),
   .endBatch,
   .record (.sample "sizes" 0 30 (exponentialSample 1 2 [1, 9] 10)),
   .record (.sample "sizes" 0 40 (exponentialSample 0 0 [2, 10] 12))]

end Logit.Delta
