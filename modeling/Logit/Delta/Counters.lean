import Logit.Delta.Conservation

namespace Logit.Delta

open CumulativeToDelta List Option

variable {X : Externals} {cfg : Settings X} {k : Key X} {log : Log X} {s : CumulativeToDelta X}

/-- The integer in a sum, zero for anything else. -/
def countOf : MetricKind X → ℤ
  | .sum s => (exactInt s.value).getD 0
  | _ => 0

/-- A sum that holds a natural number. -/
def Natural (kind : MetricKind X) : Prop := ∃ s n, kind = .sum s ∧ exactInt s.value = some n ∧ 0 ≤ n

/-- A point of a counter: a cumulative monotonic sum that holds a natural number. -/
structure Counter (r : MetricRecord X) : Prop where
  recorded : r.flags &&& flagNoRecordedValue = 0
  cumulative : ∀ s, r.kind = .sum s → s.temporality = .cumulative ∧ s.monotonic = true
  natural : Natural r.kind

theorem Counter.kind {r : MetricRecord X} (counter : Counter r) (nonMonotonic : NonMonotonic) :
    Kind.of r nonMonotonic = some .sum := by
  obtain ⟨s, n, kind, -, -⟩ := counter.natural
  obtain ⟨temporality, monotonic⟩ := counter.cumulative s kind
  simp [Kind.of, counter.recorded, kind, temporality, monotonic]

theorem Natural.finiteSum {kind : MetricKind X} (natural : Natural kind) : finiteSum kind = true := by
  obtain ⟨s, n, rfl, exact, -⟩ := natural
  exact Countable.finiteSum (isSome_iff_exists.mpr ⟨n, exact⟩)

theorem countOf_emitFull (kind : MetricKind X) : countOf (emitFull kind) = countOf kind := by
  cases kind with
  | summary s => by_cases whole : s.sum.isFinite <;> simp [emitFull, setDelta, whole, countOf]
  | _ => rfl

theorem fits_difference {cur : MetricValue} {c p : ℤ} (current : exactInt cur = some c) (below : p ≤ c)
    (nonneg : 0 ≤ p) : Fits cur (c - p) := by
  cases cur with
  | f64 v => cases current
  | i64 v =>
    obtain rfl := some.inj current
    have high := v.toInt_lt
    exact ⟨by omega, by omega⟩
  | u64 v =>
    obtain rfl := some.inj current
    have high := v.toNat_lt
    simp only [Fits, if_pos (Int.sub_nonneg.mpr below)]
    omega
  | bool v =>
    obtain rfl := some.inj current
    have high := v.toNat_lt
    exact ⟨by omega, by omega⟩

/-- What a later point of a counter adds to what came out. -/
def increase (point last : Int64 × MetricKind X) (start : Int64) : ℤ :=
  if countOf point.2 < countOf last.2 ∨ restarted start last.1 point.1 = true then countOf point.2
  else countOf point.2 - countOf last.2

/-- What a point adds after the last one, if there is one. -/
def worth (last : Option (Int64 × MetricKind X)) (point : Int64 × MetricRecord X) : ℤ :=
  last.elim (countOf point.2.kind) fun last => increase (point.1, point.2.kind) last point.2.startTimestamp

theorem increase_tracked {slot : Nat} {series : Series X} (now : Int64) {p : Point X} {l : Entry X}
    (ts : series.ts = l.ts) (records : Records series.base l.kind) (before : Natural l.kind)
    (natural : Natural p.record.kind) (later : l.ts < p.ts) :
    (s.convertTracked cfg .sum slot series now p).verdict.accepted = true ∧
      ((s.convertTracked cfg .sum slot series now p).emitted.map fun r => countOf r.kind) =
        some (increase (p.ts, p.record.kind) (l.ts, l.kind) p.record.startTimestamp) := by
  obtain ⟨prev, n, lastKind, previous, nonneg⟩ := before
  obtain ⟨cur, m, pointKind, current, -⟩ := natural
  rw [lastKind] at records
  have base : series.base = .sum prev.value := by
    generalize series.base = base at records
    cases records
    rfl
  have old : ¬ p.ts ≤ series.ts := by
    rw [ts]
    exact Int64.not_le.mpr later
  have aligned : align cfg.floats series.base p.record.kind = (.sum prev.value, false) := by
    rw [base]
    rfl
  have fell : cfg.fell .sum series.base p.record.kind = decide (m < n) := by
    simp only [Settings.fell, aligned]
    simp only [Settings.signed, pointKind, decreased, valueDelta, below, current, previous]
    by_cases less : m < n <;> simp [less]
  have amounts : countOf p.record.kind = m ∧ countOf l.kind = n := by
    rw [pointKind, lastKind]
    simp [countOf, current, previous]
  unfold increase
  rw [amounts.1, amounts.2, ← ts]
  by_cases whole : m < n ∨ restarted p.record.startTimestamp series.ts p.ts = true
  · have full : (cfg.fell .sum series.base p.record.kind ||
        restarted p.record.startTimestamp series.ts p.ts) = true := by
      rw [fell]
      simpa using whole
    rw [if_pos whole]
    simp only [convertTracked, old, if_false, full, if_true, map_some, countOf_emitFull, amounts.1]
    refine ⟨?_, trivial⟩
    split <;> rfl
  · have apart : (cfg.fell .sum series.base p.record.kind ||
        restarted p.record.startTimestamp series.ts p.ts) = false := by
      rw [fell]
      simpa using whole
    have grown : n ≤ m := by omega
    rw [if_neg whole]
    simp only [convertTracked, old, apart, aligned]
    refine ⟨rfl, ?_⟩
    have exact := @exactInt_signedDelta cfg.floats cur.value prev.value m n current previous
      (fits_difference current grown nonneg)
    have kept : ¬ m < n := by omega
    simp only [pointKind, difference, countOf, valueDelta, below, current, previous, kept]
    simp [exact]

/-- What a series' point is worth, and whether it became the last one, when nothing was evicted. -/
theorem increase_convert (follows : Follows cfg log s) {p : Point X} (keep : cfg.initial = .keep)
    (kept : (s.convert cfg p).state.trail = []) (counter : Counter p.record)
    (last : ∀ l, lastAccepted (p.key .sum) log = some l → Natural l.kind ∧ l.ts < p.ts) :
    (s.convert cfg p).verdict.accepted = true ∧ ((s.convert cfg p).emitted.map fun r => countOf r.kind) =
        some (worth ((lastAccepted (p.key .sum) log).map fun l => (l.ts, l.kind)) (p.ts, p.record)) := by
  have read := (Follows.stable cfg log).readNow p.clock follows
  have sum := counter.kind cfg.nonMonotonic
  rcases convert_cases follows p with ⟨absent, _⟩ | ⟨broken, _⟩ | ⟨kind, found, _, _, fresh, done⟩ |
    ⟨kind, slot, series, found, _, here, key, done⟩
  · cases sum.symm.trans absent
  · rw [counter.natural.finiteSum] at broken
    cases broken
  · obtain rfl := some.inj (sum.symm.trans found)
    rw [done] at kept ⊢
    have quiet : (s.readNow cfg p.clock).trail = [] := prefix_nil.mp (kept ▸ trail_convertUntracked _ _ p)
    rw [none_accepted read fresh quiet]
    simp only [convertUntracked, keep, begin, if_true, map_some, countOf_emitFull]
    exact ⟨rfl, rfl⟩
  · obtain rfl := some.inj (sum.symm.trans found)
    rw [done]
    obtain ⟨l, accepted, _, ts, records, _⟩ := read.recorded slot series here
    rw [key] at accepted
    rw [accepted]
    obtain ⟨before, later⟩ := last l accepted
    exact increase_tracked _ ts records before counter.natural later

/-- A record's series, if it is one of those converted. -/
def Point.series (cfg : Settings X) (p : Point X) : Option (Key X) := (p.kind cfg).map p.key

/-- The points of a series among the records given, in their order. -/
def pointsOf (cfg : Settings X) (k : Key X) (inputs : List (Input X)) : List (Int64 × MetricRecord X) :=
  inputs.filterMap fun
    | .record p => if p.series cfg = some k then some (p.ts, p.record) else none
    | .endBatch => none

def emittedTotal (k : Key X) : Log X → ℤ
  | [] => 0
  | e :: earlier => (if e.key = some k then (e.emitted.map fun r => countOf r.kind).getD 0 else 0) +
      emittedTotal k earlier

/-- What a counter's points come to, the newest first. -/
def convertedTotal : List (Int64 × MetricRecord X) → ℤ
  | [] => 0
  | [p] => countOf p.2.kind
  | p :: last :: older => increase (p.1, p.2.kind) (last.1, last.2.kind) p.2.startTimestamp +
      convertedTotal (last :: older)

/-- The points of a counter, the newest first, each later than the one before. -/
def Counts (points : List (Int64 × MetricRecord X)) : Prop :=
  (∀ p ∈ points, Counter p.2) ∧ points.Pairwise fun later earlier => earlier.1 < later.1

theorem convertedTotal_cons (p : Int64 × MetricRecord X) (older : List (Int64 × MetricRecord X)) :
    convertedTotal (p :: older) = worth (older.head?.map fun q => (q.1, q.2.kind)) p + convertedTotal older := by
  cases older with
  | nil => exact (add_zero _).symm
  | cons last older => rfl

theorem pointsOf_append (cfg : Settings X) (k : Key X) (inputs more : List (Input X)) :
    pointsOf cfg k (inputs ++ more) = pointsOf cfg k inputs ++ pointsOf cfg k more :=
  filterMap_append

/-- A run without evictions that starts each series with its whole value: what comes out of a counter's
points, and the last of them. -/
theorem counter_run (keep : cfg.initial = .keep) (inputs : List (Input X))
    (kept : (run cfg inputs).state.trail = []) (counts : Counts (pointsOf cfg k inputs).reverse) :
    emittedTotal k (run cfg inputs).log = convertedTotal (pointsOf cfg k inputs).reverse ∧
      ((lastAccepted k (run cfg inputs).log).map fun e => (e.ts, e.kind)) =
        (pointsOf cfg k inputs).reverse.head?.map fun p => (p.1, p.2.kind) := by
  induction inputs using reverseRecOn with
  | nil => exact ⟨rfl, rfl⟩
  | append_singleton inputs input ih =>
    have quiet := prefix_nil.mp (kept ▸ trail_step cfg inputs input)
    rw [pointsOf_append, reverse_append] at counts ⊢
    rw [run_append] at kept ⊢
    cases input with
    | endBatch => exact ih quiet counts
    | record p =>
      by_cases own : p.series cfg = some k
      · have new : pointsOf cfg k [.record p] = [(p.ts, p.record)] := filterMap_cons_some (if_pos own)
        rw [new] at counts ⊢
        obtain ⟨counters, increasing⟩ := counts
        obtain ⟨counter, others⟩ := forall_mem_cons.mp counters
        obtain ⟨later, rest⟩ := pairwise_cons.mp increasing
        obtain ⟨total, last⟩ := ih quiet ⟨others, rest⟩
        have key : k = p.key .sum := by
          rw [Point.series, Point.kind, counter.kind] at own
          exact (some.inj own).symm
        subst key
        have before : ∀ l, lastAccepted (p.key .sum) (run cfg inputs).log = some l →
            Natural l.kind ∧ l.ts < p.ts := by
          intro l accepted
          rw [accepted] at last
          obtain ⟨q, first, same⟩ := map_eq_some_iff.mp last.symm
          obtain ⟨ts, kind⟩ := Prod.mk.inj same
          have mem := mem_of_head? first
          rw [← ts, ← kind]
          exact ⟨(others q mem).natural, later q mem⟩
        obtain ⟨accepted, out⟩ := increase_convert (Follows.run cfg inputs) keep kept counter before
        refine ⟨?_, ?_⟩
        · have mine : (p.entry cfg ((run cfg inputs).state.convert cfg p)).key = some (p.key .sum) := own
          show (if _ then _ else _) + emittedTotal _ (run cfg inputs).log = _
          rw [if_pos mine, total]
          show (Option.map _ ((run cfg inputs).state.convert cfg p).emitted).getD 0 + _ = _
          rw [out, last]
          exact (convertedTotal_cons _ _).symm
        · show (lastAccepted _ (_ :: (run cfg inputs).log)).map _ = _
          rw [lastAccepted_new _ own accepted]
          rfl
      · have none : pointsOf cfg k [.record p] = [] := filterMap_cons_none (if_neg own)
        rw [none] at counts ⊢
        obtain ⟨total, last⟩ := ih quiet counts
        have other : (p.entry cfg ((run cfg inputs).state.convert cfg p)).key ≠ some k := own
        refine ⟨?_, ?_⟩
        · show (if _ then _ else _) + emittedTotal k (run cfg inputs).log = _
          rw [if_neg other, zero_add]
          exact total
        · show (lastAccepted k (_ :: (run cfg inputs).log)).map _ = _
          rw [lastAccepted_skip _ (.inl other)]
          exact last

end Logit.Delta
