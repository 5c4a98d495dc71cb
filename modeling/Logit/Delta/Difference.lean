import Logit.Delta.Amount

namespace Logit.Delta

open Buckets Telescope Option Finsupp List

variable {X : Externals} {fl : Floats}

/-- The points a series of this kind holds. -/
inductive Kind.Holds : Kind → MetricKind X → Prop
  | sum (s : Sum) : Holds .sum (.sum s)
  | nonMonotonicSum (s : Sum) : Holds .nonMonotonicSum (.sum s)
  | histogram (h : Histogram) : Holds .histogram (.histogram h)
  | exponentialHistogram (e : ExpHistogram) : Holds .exponentialHistogram (.exponentialHistogram e)
  | summary (s : Summary) : Holds .summary (.summary s)

variable {kind : Kind}

theorem Kind.of_holds {record : MetricRecord X} {nonMonotonic : NonMonotonic}
    (found : Kind.of record nonMonotonic = some kind) : kind.Holds record.kind := by
  unfold Kind.of at found
  split at found
  · cases found
  · split at found <;> rename_i point
    · rw [point]
      split at found
      · cases found
        exact .sum _
      · split at found <;> cases found
        exact .nonMonotonicSum _
    · rw [point]
      split at found <;> cases found
      exact .histogram _
    · rw [point]
      split at found <;> cases found
      exact .exponentialHistogram _
    · rw [point]
      split at found <;> cases found
      exact .summary _
    · cases found

/-- The baseline has the counts of this point, and a zero threshold neither above nor below its own. -/
inductive Records : Baseline → MetricKind X → Prop
  | sum (s : Sum) : Records (.sum s.value) (.sum s)
  | histogram {b : HistogramBase} {h : Histogram} (buckets : b.buckets = h.buckets) :
      Records (.histogram b) (.histogram h)
  | exponential {b : ExponentialBase} {e : ExpHistogram} (scale : b.scale = e.scale)
      (zeroCount : b.zeroCount = e.zeroCount) (positive : b.positive = e.positive)
      (negative : b.negative = e.negative) (count : b.count = e.count)
      (notBelow : b.zeroThreshold.lt e.zeroThreshold = false)
      (notAbove : e.zeroThreshold.lt b.zeroThreshold = false) :
      Records (.exponential b) (.exponentialHistogram e)
  | summary (s : Summary) (sum : Option F64) : Records (.summary s.count sum) (.summary s)

theorem Records.of {point : MetricKind X} (holds : kind.Holds point) : Records (Baseline.of point) point := by
  cases holds with
  | sum s | nonMonotonicSum s => exact .sum s
  | histogram h => exact .histogram rfl
  | exponentialHistogram e => exact .exponential rfl rfl rfl rfl rfl (F64.lt_irrefl _) (F64.lt_irrefl _)
  | summary s => exact .summary s _

theorem Records.rebase {point : MetricKind X} (holds : kind.Holds point) (base : Baseline) :
    Records (base.rebase point) point := by
  cases holds with
  | sum s | nonMonotonicSum s => cases base <;> exact .sum s
  | histogram h => cases base <;> exact .histogram rfl
  | exponentialHistogram e =>
    cases base <;> exact .exponential rfl rfl rfl rfl rfl (F64.lt_irrefl _) (F64.lt_irrefl _)
  | summary s => cases base <;> exact .summary s _

theorem lowerScale_scale {b : ExponentialBase} {scale : Int32} (up : ¬ b.scale < scale) :
    (lowerScale b scale).scale = scale := by
  unfold lowerScale
  split
  · rfl
  · rename_i down
    exact Int32.le_antisymm (Int32.not_lt.mp up) (Int32.not_lt.mp down) |>.symm ▸ rfl

theorem lowerScale_threshold (b : ExponentialBase) (scale : Int32) :
    (lowerScale b scale).zeroThreshold = b.zeroThreshold := by
  unfold lowerScale
  split <;> rfl

theorem raiseThreshold_scale (b : ExponentialBase) (threshold : F64) :
    (raiseThreshold fl b threshold).scale = b.scale := by
  unfold raiseThreshold
  split <;> rfl

/-- After the fold the threshold is neither above nor below the point's. -/
theorem raiseThreshold_level {b : ExponentialBase} {threshold : F64} (kept : threshold.lt b.zeroThreshold = false) :
    (raiseThreshold fl b threshold).zeroThreshold.lt threshold = false ∧
      threshold.lt (raiseThreshold fl b threshold).zeroThreshold = false := by
  unfold raiseThreshold
  split
  · exact ⟨F64.lt_irrefl _, F64.lt_irrefl _⟩
  · rename_i level
    exact ⟨by simpa using level, kept⟩

/-- Equal bounds and as many buckets: the baseline's buckets take the point's counts. -/
theorem bucketsDelta_base {bs cs : List Bucket} (same : bs.length = cs.length)
    (bounds : (bs.zip cs).any (fun pair => pair.1.1.bits != pair.2.1.bits) = false) :
    (bucketsDelta bs cs).1 = cs := by
  induction bs generalizing cs with
  | nil => simpa [bucketsDelta] using (length_eq_zero_iff.mp same.symm).symm
  | cons b bs ih =>
    cases cs with
    | nil => simp at same
    | cons c cs =>
      simp only [zip_cons_cons, any_cons, Bool.or_eq_false_iff, bne_eq_false_iff_eq, bits_eq_iff] at bounds
      have later := ih (by simpa using same) bounds.2
      simp [bucketsDelta, later, bounds.1]

variable {prev cur : MetricKind X} {base : Baseline}

theorem Records.difference (records : Records base prev) (before : kind.Holds prev) (now : kind.Holds cur)
    (kept : (align fl base cur).2 = false) (signed : Bool) :
    Records (difference fl (align fl base cur).1 cur signed).1 cur := by
  cases now with
  | sum s | nonMonotonicSum s =>
    cases before
    cases records
    exact .sum s
  | histogram h =>
    cases before
    cases records with
    | histogram buckets =>
      simp only [align, Bool.or_eq_false_iff, bne_eq_false_iff_eq] at kept
      exact .histogram (bucketsDelta_base kept.1 kept.2)
  | exponentialHistogram e =>
    cases before
    cases records with
    | @exponential b _ =>
      by_cases layout : b.scale < e.scale ∨ e.zeroThreshold.lt b.zeroThreshold = true
      · simp [align, layout] at kept
      · simp only [align, layout, if_false]
        simp only [not_or, Bool.not_eq_true] at layout
        have scale := @raiseThreshold_scale fl (lowerScale b e.scale) e.zeroThreshold
        rw [lowerScale_scale layout.1] at scale
        have level := @raiseThreshold_level fl (lowerScale b e.scale) e.zeroThreshold
          (by rw [lowerScale_threshold]; exact layout.2)
        exact .exponential scale rfl rfl rfl rfl level.1 level.2
  | summary s =>
    cases before
    cases records
    exact .summary s _

/-- A point that counts exactly: an integer sum, or an exponential histogram with a total in range. -/
def Countable : MetricKind X → Prop
  | .sum s => (exactInt s.value).isSome
  | .exponentialHistogram e =>
    e.zeroCount.toNat + sideTotal e.positive + sideTotal e.negative < 2 ^ 64
  | _ => True

/-- Two points that can be differenced exactly: integer sums with a difference in range, or
exponential histograms with one zero threshold and scales less than 64 apart. -/
def Comparable : MetricKind X → MetricKind X → Prop
  | .sum prev, .sum cur =>
    ∀ p ∈ exactInt prev.value, ∀ c ∈ exactInt cur.value, Fits cur.value (c - p)
  | .exponentialHistogram prev, .exponentialHistogram cur =>
    prev.zeroThreshold = cur.zeroThreshold ∧ prev.scale.toInt - cur.scale.toInt < 64
  | _, _ => True

instance (cur : MetricValue) (d : ℤ) : Decidable (Fits cur d) := by
  cases cur <;> (unfold Fits; infer_instance)

instance (point : MetricKind X) : Decidable (Countable point) := by
  cases point <;> (unfold Countable; infer_instance)

instance (prev cur : MetricKind X) : Decidable (Comparable prev cur) := by
  cases prev <;> cases cur <;> (unfold Comparable; infer_instance)

theorem toNat_shift {high low : Int32} (down : low.toInt ≤ high.toInt) (near : high.toInt - low.toInt < 64) :
    (high - low).toUInt32.toNat = (high.toInt - low.toInt).toNat := by
  have exact : (high - low).toInt = high.toInt - low.toInt := by
    rw [Int32.toInt_sub]
    exact Int.bmod_eq_of_le (by omega) (by omega)
  have nonneg : 0 ≤ high - low := by
    rw [Int32.le_iff_toInt_le, exact]
    simpa using down
  rw [Int32.toNat_toUInt32_of_le nonneg, ← exact]
  rfl

theorem downscale_zero (side : ExpSide) : downscale side 0 = side := by
  simp [downscale]

theorem bring_exponential (zero count : UInt64) {positive negative : ExpSide} {shift : ℕ}
    (near : shift < 64) (small : sideTotal positive < 2 ^ 64) (small' : sideTotal negative < 2 ^ 64) :
    exponentialAmount zero (downscale positive shift) (downscale negative shift) count =
      rescaling.bring shift (exponentialAmount zero positive negative count) := by
  have up : Cell.lower shift ∘ Cell.positive = Cell.positive ∘ fun i : ℤ => i >>> shift := rfl
  have down : Cell.lower shift ∘ Cell.negative = Cell.negative ∘ fun i : ℤ => i >>> shift := rfl
  simp only [rescaling, exponentialAmount, map_add, mapDomain.addMonoidHom, AddMonoidHom.coe_mk,
    ZeroHom.coe_mk, mapDomain_single, ← mapDomain_comp, up, down]
  rw [mapDomain_comp, mapDomain_comp, sideRow_downscale near small, sideRow_downscale near small']
  rfl

/-- The bounds of a histogram's buckets changed, or an exponential histogram's scale rose. -/
def Relaid : MetricKind X → MetricKind X → Prop
  | .histogram prev, .histogram cur => prev.buckets.map Prod.fst ≠ cur.buckets.map Prod.fst
  | prev, cur => scaleOf prev < scaleOf cur

variable (fl) in
/-- The aligned baseline holds the previous point, at the point's scale unless that rose. Only a
changed layout cannot be differenced. -/
theorem align_amount (records : Records base prev) (before : kind.Holds prev) (now : kind.Holds cur)
    (countable : Countable prev) (comparable : Comparable prev cur) :
    ((align fl base cur).2 = false → scaleOf cur ≤ scaleOf prev) ∧
      ((align fl base cur).2 = true → Relaid prev cur) ∧
      (align fl base cur).1.amount = rescaling.lower (scaleOf cur) (measured prev) := by
  cases now with
  | exponentialHistogram e =>
    cases before with
    | exponentialHistogram prev =>
    cases records with
    | @exponential b _ scale zeroCount positive negative count notBelow notAbove =>
      obtain ⟨threshold, near⟩ := comparable
      by_cases layout : b.scale < e.scale ∨ e.zeroThreshold.lt b.zeroThreshold = true
      · have up : prev.scale.toInt < e.scale.toInt := by
          rw [← threshold, notAbove, scale, Int32.lt_iff_toInt_lt] at layout
          simpa using layout
        have level : (prev.scale.toInt - e.scale.toInt).toNat = 0 := by omega
        refine ⟨fun kept => by simp [align, layout] at kept, fun _ => up, ?_⟩
        simp [align, layout, Baseline.amount, Rescaling.lower, measured, scaleOf, amount, level,
          rescaling.bring_zero,
          zeroCount, positive, negative, count]
      · have down : e.scale.toInt ≤ prev.scale.toInt := by
          rw [not_or, scale, Int32.not_lt, Int32.le_iff_toInt_le] at layout
          exact layout.1
        have flat : (raiseThreshold fl (lowerScale b e.scale) e.zeroThreshold) = lowerScale b e.scale := by
          simp [raiseThreshold, lowerScale_threshold, ← threshold, notBelow]
        refine ⟨fun _ => down, fun relaid => by simp [align, layout] at relaid, ?_⟩
        simp only [align, layout, if_false, flat, Baseline.amount, Rescaling.lower, measured, scaleOf, amount]
        simp only [Countable] at countable
        rw [← toNat_shift down near, ← bring_exponential _ _ _ (by omega) (by omega)]
        · unfold lowerScale
          split
          · simp [scale, zeroCount, positive, negative, count]
          · rename_i same
            have equal : prev.scale = e.scale := by
              rw [scale, Int32.not_lt] at same
              exact Int32.le_antisymm same (Int32.le_iff_toInt_le.mpr down)
            have none : (prev.scale - e.scale).toUInt32.toNat = 0 := by
              rw [equal, Int32.sub_self]
              rfl
            simp only [none, downscale_zero, zeroCount, positive, negative, count]
        · rw [toNat_shift down near]
          omega
  | histogram h =>
    cases before with
    | histogram prev =>
    cases records with
    | histogram buckets =>
      refine ⟨fun _ => le_rfl, fun relaid same => ?_, ?_⟩
      · simp only [align, buckets, Bool.or_eq_true, bne_iff_ne, List.any_eq_true] at relaid
        rcases relaid with length | ⟨pair, mem, bits⟩
        · exact length (by simpa using congrArg List.length same)
        · obtain ⟨i, here⟩ := mem_iff_getElem?.mp mem
          obtain ⟨old, new⟩ := getElem?_zip_eq_some.mp here
          have bound := congrArg (·[i]?) same
          simp only [getElem?_map, old, new, map_some, some.injEq] at bound
          exact bits (congrArg F64.bits bound)
      · simp [align, scaleOf, Baseline.amount, Rescaling.lower, measured, amount, rescaling.bring_zero, buckets]
  | _ =>
    cases before
    cases records
    simp_all [align, scaleOf, Baseline.amount, Rescaling.lower, measured, amount, rescaling.bring_zero]

theorem single_sub {cell : Cell} {c b : UInt64} (grown : b ≤ c) :
    Finsupp.single cell ((c - b).toNat : ℤ) + Finsupp.single cell (b.toNat : ℤ) =
      Finsupp.single cell (c.toNat : ℤ) := by
  have order : b.toNat ≤ c.toNat := grown
  rw [← single_add, UInt64.toNat_sub_of_le _ _ grown]
  congr 1
  omega

theorem exponentialAmount_delta {zero zero' count count' : UInt64} {positive positive' : ExpSide}
    {negative negative' : ExpSide} (zeros : zero ≤ zero') (counts : count ≤ count')
    (up : sideDecreased positive positive' = false) (down : sideDecreased negative negative' = false) :
    exponentialAmount (zero' - zero) (sideDelta positive positive') (sideDelta negative negative')
        (count' - count) + exponentialAmount zero positive negative count =
      exponentialAmount zero' positive' negative' count' := by
  simp only [exponentialAmount]
  rw [← single_sub zeros, ← single_sub counts, ← sideRow_sideDelta up, ← sideRow_sideDelta down,
    mapDomain_add, mapDomain_add]
  abel

theorem sum_amount {prev cur : Sum} {signed : Bool}
    (countable : (exactInt prev.value).isSome) (countable' : (exactInt cur.value).isSome)
    (comparable : Comparable (X := X) (.sum prev) (.sum cur))
    (grown : (!signed && (valueDelta fl cur.value prev.value).isNone) = false) :
    exactInt (if signed then signedDelta fl cur.value prev.value
      else (valueDelta fl cur.value prev.value).getD cur.value) =
      some ((exactInt cur.value).getD 0 - (exactInt prev.value).getD 0) := by
  obtain ⟨p, previous⟩ := isSome_iff_exists.mp countable
  obtain ⟨c, current⟩ := isSome_iff_exists.mp countable'
  have exact := @exactInt_signedDelta fl _ _ c p current previous (comparable p previous c current)
  rw [current, previous]
  cases signed with
  | true => exact exact
  | false =>
    simp only [valueDelta] at grown ⊢
    split at grown
    · simp at grown
    · rename_i rising
      simpa [rising] using exact

/-- Without a decrease, a difference and what it was taken from come to the point, cell by cell. -/
theorem difference_amount {signed : Bool} (records : Records base prev) (before : kind.Holds prev)
    (now : kind.Holds cur) (countable : Countable prev) (countable' : Countable cur)
    (comparable : Comparable prev cur) (sums : signed = true → kind = .nonMonotonicSum)
    (kept : (align fl base cur).2 = false)
    (grown : (!signed && decreased fl (align fl base cur).1 cur false) = false) :
    scaleOf (difference fl (align fl base cur).1 cur signed).2 = scaleOf cur ∧
      amount (difference fl (align fl base cur).1 cur signed).2 +
        rescaling.lower (scaleOf cur) (measured prev) = amount cur := by
  rw [← (align_amount fl records before now countable comparable).2.2]
  have plain : kind ≠ .nonMonotonicSum → signed = false := fun other =>
    Bool.not_eq_true signed ▸ fun set => other (sums set)
  cases now with
  | sum s | nonMonotonicSum s =>
    cases before
    cases records with
    | sum prev =>
      have exact := sum_amount countable countable' comparable grown
      simp only [align, difference, scaleOf, amount, Baseline.amount, exact, getD_some, true_and]
      rw [← single_add, sub_add_cancel]
  | histogram h =>
    have unsigned := plain (by simp)
    cases before
    cases records with
    | @histogram b _ buckets =>
      simp only [align, Bool.or_eq_false_iff, bne_eq_false_iff_eq] at kept
      simp only [unsigned, align, decreased, Bool.not_false, Bool.true_and, Bool.or_eq_false_iff] at grown
      simp only [align, difference, scaleOf, amount, Baseline.amount, histogramAmount, true_and]
      rw [← mapDomain_add, row_bucketsDelta kept.1 grown.2]
  | exponentialHistogram e =>
    have unsigned := plain (by simp)
    cases before
    cases records with
    | @exponential b _ =>
      by_cases layout : b.scale < e.scale ∨ e.zeroThreshold.lt b.zeroThreshold = true
      · simp [align, layout] at kept
      · simp only [align, layout, if_false, unsigned, decreased, Bool.not_false, Bool.true_and,
          Bool.or_eq_false_iff, decide_eq_false_iff_not, UInt64.not_lt] at grown
        simp only [align, layout, if_false, difference, scaleOf, true_and]
        exact exponentialAmount_delta grown.2.1.1 grown.1 grown.2.1.2 grown.2.2
  | summary s =>
    have unsigned := plain (by simp)
    cases before
    cases records with
    | summary prev sum =>
      simp only [unsigned, align, decreased, Bool.not_false, Bool.true_and, decide_eq_false_iff_not,
        UInt64.not_lt] at grown
      simp only [align, difference, scaleOf, true_and]
      exact single_sub grown

theorem bucketTotal_toNat (buckets : List Bucket) :
    (bucketTotal buckets).toNat = min (2 ^ 64 - 1) (buckets.map fun b => b.2.toNat).sum := by
  have running (start : UInt64) : (buckets.foldl (fun a b => saturatingAdd a b.2) start).toNat =
      min (2 ^ 64 - 1) (start.toNat + (buckets.map fun b => b.2.toNat).sum) := by
    induction buckets generalizing start with
    | nil =>
      have small := start.toNat_lt
      simp
      omega
    | cons b buckets ih =>
      rw [foldl_cons, ih, saturatingAdd_toNat, map_cons, List.sum_cons]
      omega
  simpa [bucketTotal] using running 0

theorem histogramAmount_bucket (buckets : List Bucket) (i : ℕ) :
    histogramAmount buckets (.bucket i) = (buckets.map fun b => b.2.toNat).getD i 0 := by
  rw [histogramAmount, mapDomain_apply fun _ _ => Cell.bucket.inj, row_apply]
  simp

theorem exponentialAmount_apply (zero count : UInt64) (positive negative : ExpSide) (i : ℤ) :
    let amount := exponentialAmount zero positive negative count
    amount .zero = zero.toNat ∧ amount (.positive i) = (sideGet positive i).toNat ∧
      amount (.negative i) = (sideGet negative i).toNat ∧ amount .count = count.toNat := by
  have up := @mapDomain_apply _ _ ℤ _ Cell.positive (fun _ _ => Cell.positive.inj)
  have down := @mapDomain_apply _ _ ℤ _ Cell.negative (fun _ _ => Cell.negative.inj)
  simp [exponentialAmount, up, down, mapDomain_of_notMem_range, sideRow_apply]

theorem sideDecreased_index {base cur : ExpSide} (fell : sideDecreased base cur = true) :
    ∃ j, sideGet cur j < sideGet base j := by
  obtain ⟨⟨c, i⟩, mem, below⟩ := List.any_eq_true.mp fell
  refine ⟨base.1.toInt + i, ?_⟩
  have here := mk_mem_zipIdx_iff_getElem?.mp mem
  have inside : ¬ (i : ℤ) < 0 := by omega
  simpa [sideGet, here, inside] using below

theorem exists_cell_of_decreased {layout : Bool} (whole : ∀ v, base = .sum v → (exactInt v).isSome)
    (countable : Countable cur) (fell : decreased fl base cur layout = true) :
    ∃ cell, amount cur cell < base.amount cell := by
  cases base <;> cases cur <;> simp only [decreased, Bool.false_eq_true] at fell
  case sum.sum prev s =>
    obtain ⟨p, previous⟩ := isSome_iff_exists.mp (whole prev rfl)
    obtain ⟨c, current⟩ := isSome_iff_exists.mp countable
    refine ⟨.value, ?_⟩
    simpa [valueDelta, below, current, previous, amount, Baseline.amount] using fell
  case histogram.histogram b h =>
    have cell : ∃ i, (h.buckets.map fun b => b.2.toNat).getD i 0 < (b.buckets.map fun b => b.2.toNat).getD i 0 := by
      rcases Bool.or_eq_true_iff.mp fell with total | bucket
      · have less := UInt64.lt_iff_toNat_lt.mp (of_decide_eq_true total)
        rw [bucketTotal_toNat, bucketTotal_toNat] at less
        exact exists_lt_of_sum_lt (by omega)
      · obtain ⟨pair, mem, below⟩ := List.any_eq_true.mp (Bool.and_eq_true_iff.mp bucket).2
        obtain ⟨i, here⟩ := mem_iff_getElem?.mp mem
        obtain ⟨old, new⟩ := getElem?_zip_eq_some.mp here
        have less := UInt64.lt_iff_toNat_lt.mp (of_decide_eq_true below)
        exact ⟨i, by simpa [old, new] using less⟩
    obtain ⟨i, below⟩ := cell
    refine ⟨.bucket i, ?_⟩
    rw [amount, Baseline.amount, histogramAmount_bucket, histogramAmount_bucket]
    exact_mod_cast below
  case exponential.exponentialHistogram b e =>
    have now := exponentialAmount_apply e.zeroCount e.count e.positive e.negative
    have old := exponentialAmount_apply b.zeroCount b.count b.positive b.negative
    simp only [amount, Baseline.amount]
    simp only [Bool.or_eq_true, Bool.and_eq_true, decide_eq_true_eq, UInt64.lt_iff_toNat_lt] at fell
    rcases fell with count | ⟨-, (zero | positive) | negative⟩
    · exact ⟨.count, by rw [(now 0).2.2.2, (old 0).2.2.2]; exact_mod_cast count⟩
    · exact ⟨.zero, by rw [(now 0).1, (old 0).1]; exact_mod_cast zero⟩
    · obtain ⟨j, below⟩ := sideDecreased_index positive
      exact ⟨.positive j, by rw [(now j).2.1, (old j).2.1]; exact_mod_cast below⟩
    · obtain ⟨j, below⟩ := sideDecreased_index negative
      exact ⟨.negative j, by rw [(now j).2.2.1, (old j).2.2.1]; exact_mod_cast below⟩
  case summary.summary count sum s =>
    have less := UInt64.lt_iff_toNat_lt.mp (of_decide_eq_true fell)
    exact ⟨.count, by simpa [amount, Baseline.amount] using less⟩

/-- A point that fell below the last one counts less than it in some cell. -/
theorem exists_cell_of_fell {layout : Bool} (records : Records base prev) (before : kind.Holds prev)
    (now : kind.Holds cur) (countable : Countable prev) (countable' : Countable cur)
    (comparable : Comparable prev cur)
    (fell : decreased fl (align fl base cur).1 cur layout = true) :
    ∃ cell, amount cur cell < rescaling.lower (scaleOf cur) (measured prev) cell := by
  rw [← (align_amount fl records before now countable comparable).2.2]
  refine exists_cell_of_decreased (fun v sum => ?_) countable' fell
  cases records with
  | sum s =>
    cases before <;> cases now <;> (cases sum; exact countable)
  | exponential =>
    cases before
    cases now
    simp only [align] at sum
    split at sum <;> cases sum
  | histogram | summary =>
    cases before
    cases now
    cases sum

end Logit.Delta
