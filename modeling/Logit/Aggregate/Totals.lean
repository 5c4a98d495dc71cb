import Logit.Aggregate.Series

namespace Logit.Aggregate

open Delta ByteCodec List Bool UInt64
open Prod (fst snd)

variable {X : Externals} {ops : Sketches X} {cfg : Config X}

theorem tryI64_toInt {d : Int} {v : Int64} (fits : tryI64 d = some v) : v.toInt = d := by
  obtain ⟨⟨low, high⟩, ⟨⟩⟩ := Option.ite_none_right_eq_some.mp fits
  exact Int64.toInt_ofInt_of_le low high

theorem tryU64_toNat {d : Int} {v : UInt64} (fits : tryU64 d = some v) : (v.toNat : Int) = d := by
  obtain ⟨⟨low, high⟩, ⟨⟩⟩ := Option.ite_none_right_eq_some.mp fits
  have small : d.toNat < 2 ^ 64 := by omega
  rw [toNat_ofNat_of_lt' small]
  omega

theorem sameType_trans {a b c : MetricValue} (left : sameType c a = true) (right : sameType c b = true) :
    sameType a b = true := by cases c <;> cases a <;> cases left <;> cases b <;> first | rfl | cases right

/-- An addition that keeps the type of both sides is exact on integers. -/
theorem checkedAdd_exact {a b : MetricValue} (unwidened : (checkedAdd ops a b).2 = false) :
    exactInt (checkedAdd ops a b).1 = (exactInt a).bind fun x => (exactInt b).map (x + ·) := by
  simp only [checkedAdd, or_eq_false_iff, not_eq_false'] at unwidened ⊢
  obtain ⟨left, right⟩ := unwidened
  have same := sameType_trans left right
  cases a with
  | f64 x => rfl
  | i64 x =>
    cases b with
    | i64 y =>
      rw [checkedAddRaw] at left ⊢
      cases sum : tryI64 (x.toInt + y.toInt) with
      | none =>
        rw [sum] at left
        cases left
      | some v =>
        show some v.toInt = some (x.toInt + y.toInt)
        rw [tryI64_toInt sum]
    | _ => cases same
  | u64 x =>
    cases b with
    | u64 y =>
      rw [checkedAddRaw] at left ⊢
      cases sum : tryU64 (x.toNat + y.toNat) with
      | none =>
        rw [sum] at left
        cases left
      | some v =>
        show some (v.toNat : Int) = some ((x.toNat : Int) + y.toNat)
        rw [tryU64_toNat sum]
    | _ => cases same
  | bool x =>
    cases b with
    | bool y => cases left
    | _ => cases same

def sumValue (r : MetricRecord X) : Option MetricValue :=
  match r.kind with
  | .sum s => some s.value
  | _ => none

/-- Values added up as they came, the newest first. -/
def runningSum (ops : Sketches X) : List MetricValue → Option MetricValue
  | [] => none
  | v :: older => some (match runningSum ops older with
    | none => v
    | some total => checkedAddRaw ops total v)

/-- The sum of integers, or `none` when one of the values is a double. -/
def intTotal : List MetricValue → Option Int
  | [] => some 0
  | v :: older => (exactInt v).bind fun n => (intTotal older).map (n + ·)

/-- A value is the sum of what these records hold, the newest first: added up as they came, and
exact if they are integers. -/
def IsSum (ops : Sketches X) (records : List (MetricRecord X)) (total : MetricValue) : Prop :=
  ∃ values, records.map sumValue = values.map some ∧ runningSum ops values = some total ∧
    exactInt total = intTotal values

variable {r : MetricRecord X} {records : List (MetricRecord X)}

theorem IsSum.first {v : MetricValue} (value : sumValue r = some v) : IsSum ops [r] v := by
  refine ⟨[v], by simp [value], rfl, ?_⟩
  rw [intTotal, intTotal]
  cases exactInt v with
  | none => rfl
  | some n => simp

theorem IsSum.add {total v : MetricValue} (sum : IsSum ops records total) (value : sumValue r = some v)
    (unwidened : (checkedAdd ops total v).2 = false) : IsSum ops (r :: records) (checkedAdd ops total v).1 := by
  obtain ⟨values, own, running, exact⟩ := sum
  refine ⟨v :: values, by simp [value, own], ?_, ?_⟩
  · simp only [runningSum, running]
    rfl
  · rw [checkedAdd_exact unwidened, exact, intTotal]
    cases intTotal values with
    | none => cases exactInt v <;> rfl
    | some t =>
      cases exactInt v with
      | none => rfl
      | some n => simp [Int.add_comm]

def bucketCount (i : Nat) (buckets : List Bucket) : Nat := (buckets[i]?.map fun b => b.2.toNat).getD 0

def bucketAt (i : Nat) (r : MetricRecord X) : Nat :=
  match r.kind with
  | .histogram h => bucketCount i h.buckets
  | _ => 0

/-- A histogram has the layout of these records, and in each bucket their total, up to the largest
count. -/
structure CappedTotal (records : List (MetricRecord X)) (h : Histogram) : Prop where
  layout : ∀ r ∈ records, ∃ g, r.kind = .histogram g ∧ g.buckets.map fst = h.buckets.map fst
  counts : ∀ i, bucketCount i h.buckets = min (2 ^ 64 - 1) (records.map (bucketAt i)).sum

theorem bucketCount_add {a b : List Bucket} (same : a.map fst = b.map fst) (i : Nat) :
    bucketCount i (addBuckets a b) = min (2 ^ 64 - 1) (bucketCount i a + bucketCount i b) := by
  have lengths : a.length = b.length := by
    have sizes := congrArg length same
    rwa [length_map, length_map] at sizes
  unfold bucketCount addBuckets
  rw [getElem?_zipWith]
  by_cases inside : i < a.length
  · rw [getElem?_eq_getElem inside, getElem?_eq_getElem (lengths ▸ inside)]
    exact saturatingAdd_toNat ..
  · rw [getElem?_eq_none (by omega), getElem?_eq_none (by omega)]
    rfl

theorem addBuckets_layout {a b : List Bucket} (same : a.map fst = b.map fst) :
    (addBuckets a b).map fst = a.map fst := by
  induction a generalizing b with
  | nil => rfl
  | cons x a ih =>
    cases b with
    | nil => cases same
    | cons y b => exact congrArg (x.1 :: ·) (ih (cons.inj same).2)

theorem CappedTotal.first {g : Histogram} (kind : r.kind = .histogram g) (t : Temporality) (zero : Option F64) :
    CappedTotal [r] (mergeHistogram ops ⟨g.buckets.map fun b => (b.1, 0), t, zero, none, none⟩ g) := by
  have layout : (g.buckets.map fun b => (b.1, (0 : UInt64))).map fst = g.buckets.map fst := by
    rw [map_map]
    rfl
  refine ⟨?_, fun i => ?_⟩
  · intro r' mem
    obtain rfl := mem_singleton.mp mem
    exact ⟨g, kind, (layout.symm.trans (addBuckets_layout layout).symm)⟩
  · have empty : bucketCount i (g.buckets.map fun b => (b.1, 0)) = 0 := by
      unfold bucketCount
      rw [getElem?_map]
      cases g.buckets[i]? <;> rfl
    have own : [r].map (bucketAt i) = [bucketCount i g.buckets] := by simp [bucketAt, kind]
    rw [own, mergeHistogram, bucketCount_add layout, empty]
    simp

theorem CappedTotal.add {h g : Histogram} (total : CappedTotal records h) (kind : r.kind = .histogram g)
    (same : bucketBoundsMatch h.buckets g.buckets = true) :
    CappedTotal (r :: records) (mergeHistogram ops h g) := by
  have layout : h.buckets.map fst = g.buckets.map fst := by simpa [bucketBoundsMatch] using same
  have kept := addBuckets_layout layout
  refine ⟨?_, fun i => ?_⟩
  · intro r' mem
    rcases mem_cons.mp mem with rfl | old
    · exact ⟨g, kind, layout.symm.trans kept.symm⟩
    · obtain ⟨g', kind', layout'⟩ := total.layout r' old
      exact ⟨g', kind', layout'.trans kept.symm⟩
  · have own : bucketAt i r = bucketCount i g.buckets := by simp [bucketAt, kind]
    rw [mergeHistogram, bucketCount_add layout, total.counts i, map_cons, sum_cons]
    omega

/-- Whether records of a kind are added up. -/
def totalled : MetricKind X → Bool
  | .sum _ | .histogram _ => true
  | _ => false

def Accumulator.isTotal : Accumulator X → Bool
  | .sum .. | .histogram _ => true
  | _ => false

theorem unionMembers_not_total (cap : Nat) (held incoming : List Bytes) :
    (unionMembers ops cap held incoming).isTotal = false := by
  induction incoming generalizing held with
  | nil => rfl
  | cons m rest ih =>
    rw [unionMembers]
    split
    · exact ih held
    · split
      · rfl
      · exact ih _

/-- What a series holds of the records absorbed into it, the newest first. Sketches, sets and gauges
are not kept as totals, and no record that is added up goes into one. -/
def Holds (ops : Sketches X) (records : List (MetricRecord X)) : Accumulator X → Prop
  | .sum total _ => IsSum ops records total
  | .histogram h => CappedTotal records h
  | _ => ∀ r ∈ records, totalled r.kind = false

theorem holds_iff_plain {accumulator : Accumulator X} (plain : accumulator.isTotal = false) :
    Holds ops records accumulator ↔ ∀ r ∈ records, totalled r.kind = false := by
  cases accumulator with
  | sum | histogram => cases plain
  | _ => exact Iff.rfl

/-- A sum is held in a sum, and a histogram in a histogram. -/
theorem Holds.form {accumulator : Accumulator X} (holds : Holds ops records accumulator) (mem : r ∈ records) :
    (∀ s, r.kind = .sum s → ∃ total monotonic, accumulator = .sum total monotonic) ∧
      ∀ g, r.kind = .histogram g → ∃ h, accumulator = .histogram h := by
  cases accumulator with
  | sum total monotonic =>
    refine ⟨fun _ _ => ⟨_, _, rfl⟩, fun g kind => ?_⟩
    obtain ⟨values, own, -⟩ := holds
    have some := mem_map_of_mem (f := sumValue) mem
    simp [own, sumValue, kind] at some
  | histogram h =>
    refine ⟨fun s kind => ?_, fun _ _ => ⟨_, rfl⟩⟩
    obtain ⟨g, other, -⟩ := holds.layout r mem
    cases kind.symm.trans other
  | _ =>
    have plain := holds r mem
    constructor <;> intro _ kind <;> rw [kind] at plain <;> cases plain

variable {timestamp : Int64}

theorem merge_kinds {kind : MetricKind X} {held accumulator : Accumulator X} {wasVacant widened : Bool}
    (merged : merge cfg timestamp wasVacant held kind = .accumulated accumulator widened) :
    (∃ s, kind = .sum s) ∨ (∃ g, kind = .histogram g) ∨
      totalled kind = false ∧ held.isTotal = false ∧ accumulator.isTotal = false := by
  cases kind with
  | sum s => exact .inl ⟨s, rfl⟩
  | histogram g => exact .inr (.inl ⟨g, rfl⟩)
  | gauge v =>
    cases held with
    | gauge value at_ =>
      simp only [merge] at merged
      split at merged <;> (cases merged; exact .inr (.inr ⟨rfl, rfl, rfl⟩))
    | _ => cases merged
  | gaugeDelta d =>
    cases held with
    | gauge value at_ =>
      obtain ⟨rfl, -⟩ := Merged.accumulated.inj merged
      exact .inr (.inr ⟨rfl, rfl, rfl⟩)
    | _ => cases merged
  | distribution incoming | set incoming => cases held <;> cases merged <;> exact .inr (.inr ⟨rfl, rfl, rfl⟩)
  | samples incoming =>
    cases held with
    | distribution sketch =>
      cases merged
      exact .inr (.inr ⟨rfl, rfl, rfl⟩)
    | samples s =>
      simp only [merge] at merged
      split at merged <;> (cases merged; exact .inr (.inr ⟨rfl, rfl, rfl⟩))
    | _ => cases merged
  | setMembers incoming =>
    cases held with
    | set hll =>
      cases merged
      exact .inr (.inr ⟨rfl, rfl, rfl⟩)
    | setMembers members =>
      obtain ⟨rfl, -⟩ := Merged.accumulated.inj merged
      exact .inr (.inr ⟨rfl, rfl, unionMembers_not_total ..⟩)
    | _ => cases merged
  | exponentialHistogram e | summary s => cases merged

theorem Holds.merge {held accumulator : Accumulator X} (holds : Holds cfg.sketches records held)
    (merged : Aggregate.merge cfg timestamp false held r.kind = .accumulated accumulator false) :
    Holds cfg.sketches (r :: records) accumulator := by
  rcases merge_kinds merged with ⟨s, kind⟩ | ⟨g, kind⟩ | ⟨own, was, now⟩
  · rw [kind] at merged
    cases held with
    | sum total monotonic =>
      obtain ⟨rfl, unwidened⟩ := Merged.accumulated.inj merged
      exact IsSum.add holds (by simp [sumValue, kind]) unwidened
    | _ => cases merged
  · rw [kind] at merged
    cases held with
    | histogram h =>
      simp only [Aggregate.merge] at merged
      split at merged
      · rename_i same
        obtain ⟨rfl, -⟩ := Merged.accumulated.inj merged
        exact CappedTotal.add holds kind same
      · cases merged
    | _ => cases merged
  · exact (holds_iff_plain now).mpr (forall_mem_cons.mpr ⟨own, (holds_iff_plain was).mp holds⟩)

theorem Holds.opened {opener : Opener} {accumulator : Accumulator X}
    (opens : openerFor r.kind cfg.distributions cfg.sets cfg.temporality = some opener)
    (merged : Aggregate.merge cfg timestamp true (opener.open cfg.sketches) r.kind =
      .accumulated accumulator false) :
    Holds cfg.sketches [r] accumulator := by
  rcases merge_kinds merged with ⟨s, kind⟩ | ⟨g, kind⟩ | ⟨own, was, now⟩
  · rw [kind] at merged opens
    obtain ⟨-, ⟨⟩⟩ := Option.ite_none_right_eq_some.mp opens
    obtain ⟨rfl, -⟩ := Merged.accumulated.inj merged
    exact IsSum.first (v := s.value) (by simp [sumValue, kind])
  · rw [kind] at merged opens
    obtain ⟨-, ⟨⟩⟩ := Option.ite_none_right_eq_some.mp opens
    simp only [Aggregate.merge, Opener.open] at merged
    split at merged
    · obtain ⟨rfl, -⟩ := Merged.accumulated.inj merged
      exact CappedTotal.first kind _ _
    · cases merged
  · exact (holds_iff_plain now).mpr (by simpa using own)

theorem merge_sum {kind : MetricKind X} {held : Accumulator X} {total : MetricValue}
    {wasVacant monotonic widened : Bool}
    (merged : merge cfg timestamp wasVacant held kind = .accumulated (.sum total monotonic) widened) :
    ∃ old, held = .sum old monotonic := by
  rcases merge_kinds merged with ⟨s, rfl⟩ | ⟨g, rfl⟩ | ⟨own, was, now⟩
  · cases held with
    | sum old m =>
      obtain ⟨same, -⟩ := Merged.accumulated.inj merged
      obtain ⟨-, rfl⟩ := Accumulator.sum.inj same
      exact ⟨old, rfl⟩
    | _ => cases merged
  · cases held with
    | histogram h =>
      simp only [merge] at merged
      split at merged <;> cases merged
    | _ => cases merged
  · cases now

end Logit.Aggregate
