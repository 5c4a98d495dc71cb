import Logit.Delta.Baseline
import Logit.Lib.Buckets
import Logit.Lib.Telescope

namespace Logit.Delta

open Buckets Telescope List UInt64

variable {X : Externals} {fl : Floats}

/-- What a point counts: a value, a histogram's buckets, an exponential histogram's zero bucket and
its buckets by index, a count. -/
inductive Cell
  | value
  | bucket (i : ℤ)
  | zero
  | positive (i : ℤ)
  | negative (i : ℤ)
  | count
deriving DecidableEq

/-- The cell that holds this one when the scale is lower by `n`. -/
def Cell.lower (n : ℕ) : Cell → Cell
  | .positive i => .positive (i >>> n)
  | .negative i => .negative (i >>> n)
  | cell => cell

/-- An exact amount: an integer for each cell. -/
abbrev Amount := Cell →₀ ℤ

theorem Cell.lower_add (m n : ℕ) (cell : Cell) : cell.lower (m + n) = (cell.lower m).lower n := by
  cases cell <;> simp [Cell.lower, Int.shiftRight_add]

/-- Exponential buckets brought to a lower scale, everything else left as it is. -/
noncomputable def rescaling : Rescaling Amount where
  bring n := Finsupp.mapDomain.addMonoidHom (Cell.lower n)
  bring_zero amount := by
    have same : Cell.lower 0 = id := by
      funext cell
      cases cell <;> simp [Cell.lower]
    simp [Finsupp.mapDomain.addMonoidHom, same]
  bring_add m n amount := by
    have split : Cell.lower (m + n) = Cell.lower n ∘ Cell.lower m := by
      funext cell
      exact Cell.lower_add m n cell
    simp [Finsupp.mapDomain.addMonoidHom, split, Finsupp.mapDomain_comp]

/-- The counts of one side of an exponential histogram, by index. -/
noncomputable def sideRow (side : ExpSide) : ℤ →₀ ℤ := row side.1.toInt (side.2.map UInt64.toNat)

noncomputable def exponentialAmount (zero : UInt64) (positive negative : ExpSide) (count : UInt64) : Amount :=
  Finsupp.single .zero (zero.toNat : ℤ) + (sideRow positive).mapDomain .positive +
    (sideRow negative).mapDomain .negative + Finsupp.single .count (count.toNat : ℤ)

noncomputable def histogramAmount (buckets : List Bucket) : Amount :=
  (row 0 (buckets.map fun b => b.2.toNat)).mapDomain .bucket

/-- The exact amount of a point; a double counts nothing. -/
noncomputable def amount : MetricKind X → Amount
  | .sum s => Finsupp.single .value ((exactInt s.value).getD 0)
  | .histogram h => histogramAmount h.buckets
  | .exponentialHistogram e => exponentialAmount e.zeroCount e.positive e.negative e.count
  | .summary s => Finsupp.single .count (s.count.toNat : ℤ)
  | _ => 0

noncomputable def Baseline.amount : Baseline → Amount
  | .sum v => Finsupp.single .value ((exactInt v).getD 0)
  | .histogram b => histogramAmount b.buckets
  | .exponential b => exponentialAmount b.zeroCount b.positive b.negative b.count
  | .summary count _ => Finsupp.single .count (count.toNat : ℤ)

/-- The scale of an exponential histogram; other kinds have only one. -/
def scaleOf : MetricKind X → ℤ
  | .exponentialHistogram e => e.scale.toInt
  | _ => 0

noncomputable def measured (kind : MetricKind X) : Measured Amount := ⟨scaleOf kind, amount kind⟩

theorem emitFull_amount (kind : MetricKind X) : measured (emitFull kind) = measured kind := by
  cases kind with
  | summary s => by_cases whole : s.sum.isFinite <;> simp [measured, emitFull, setDelta, whole, amount, scaleOf]
  | _ => rfl

/-- The integer `d` is in range of the type its difference is emitted in. -/
def Fits (cur : MetricValue) (d : ℤ) : Prop :=
  match cur with
  | .u64 _ => if 0 ≤ d then d < 2 ^ 64 else -2 ^ 63 ≤ d
  | _ => -2 ^ 63 ≤ d ∧ d < 2 ^ 63

theorem exactInt_u64 {d : ℤ} (nonneg : 0 ≤ d) (small : d < 2 ^ 64) :
    exactInt ((tryU64 d).elim (.f64 (fl.ofInt d)) .u64) = some d := by
  have exact : (ofNat d.toNat).toNat = d.toNat := by
    rw [toNat_ofNat']
    omega
  simp only [tryU64, nonneg, small, and_self, if_true, Option.elim, exactInt, Option.some.injEq]
  omega

theorem exactInt_i64 {d : ℤ} (low : -2 ^ 63 ≤ d) (high : d < 2 ^ 63) :
    exactInt ((tryI64 d).elim (.f64 (fl.ofInt d)) .i64) = some d := by
  have exact := Int64.toInt_ofInt_of_le low high
  simp only [tryI64, low, high, and_self, if_true, Option.elim, exactInt, exact]

theorem exactInt_intDelta {cur : MetricValue} {d : ℤ} (fits : Fits cur d) :
    exactInt (intDelta fl cur d) = some d := by
  cases cur with
  | u64 v =>
    by_cases nonneg : 0 ≤ d
    · simp only [Fits, nonneg] at fits
      simp only [intDelta, nonneg]
      exact exactInt_u64 nonneg fits
    · simp only [Fits, nonneg] at fits
      simp only [intDelta, nonneg]
      exact exactInt_i64 fits (by omega)
  | f64 v | i64 v | bool v => exact exactInt_i64 fits.1 fits.2

theorem exactInt_signedDelta {cur prev : MetricValue} {c p : ℤ} (current : exactInt cur = some c)
    (previous : exactInt prev = some p) (fits : Fits cur (c - p)) :
    exactInt (signedDelta fl cur prev) = some (c - p) := by
  simp only [signedDelta, current, previous]
  exact exactInt_intDelta fits

theorem row_bucketsDelta {bs cs : List Bucket} (same : bs.length = cs.length)
    (grown : (bs.zip cs).any (fun pair => pair.2.2 < pair.1.2) = false) (first : ℤ) :
    row first ((bucketsDelta bs cs).2.map fun b => b.2.toNat) + row first (bs.map fun b => b.2.toNat) =
      row first (cs.map fun b => b.2.toNat) := by
  induction bs generalizing cs first with
  | nil => simp [bucketsDelta]
  | cons b bs ih =>
    cases cs with
    | nil => simp at same
    | cons c cs =>
      simp only [zip_cons_cons, any_cons, Bool.or_eq_false_iff, decide_eq_false_iff_not, UInt64.not_lt] at grown
      have later := ih (by simpa using same) grown.2 (first + 1)
      have exact : (c.2 - b.2).toNat + b.2.toNat = c.2.toNat := by
        rw [UInt64.toNat_sub_of_le _ _ grown.1]
        exact Nat.sub_add_cancel grown.1
      simp only [bucketsDelta, map_cons, row_cons]
      rw [← later, ← exact, Nat.cast_add, Finsupp.single_add]
      abel

theorem sideRow_apply (side : ExpSide) (j : ℤ) : sideRow side j = ((sideGet side j).toNat : ℤ) := by
  rw [sideRow, row_apply, sideGet]
  by_cases before : j < side.1.toInt
  · simp [before]
  · simp only [before]
    rw [getD_eq_getElem?_getD, getD_eq_getElem?_getD, getElem?_map]
    cases side.2[(j - side.1.toInt).toNat]? <;> rfl

variable {base cur : ExpSide}

/-- No bucket of the baseline holds more than the point's, at any index. -/
theorem sideGet_le (grown : sideDecreased base cur = false) (j : ℤ) : sideGet base j ≤ sideGet cur j := by
  by_cases before : j < base.1.toInt
  · simp [sideGet, before]
  · by_cases inside : (j - base.1.toInt).toNat < base.2.length
    · simp only [sideDecreased, any_eq_false] at grown
      have mem := mk_mem_zipIdx_iff_getElem?.mpr (getElem?_eq_getElem inside)
      have bound := grown _ mem
      have place : base.1.toInt + ((j - base.1.toInt).toNat) = j := by omega
      rw [place] at bound
      simpa [sideGet, before, getElem?_eq_getElem inside] using bound
    · have outside : base.2[(j - base.1.toInt).toNat]? = none := getElem?_eq_none (by omega)
      simp [sideGet, outside]

theorem sideGet_sideDelta (grown : sideDecreased base cur = false) (j : ℤ) :
    sideGet (sideDelta base cur) j = sideGet cur j - sideGet base j := by
  have bound := sideGet_le grown j
  by_cases before : j < cur.1.toInt
  · simp only [sideGet, sideDelta, before, if_true] at bound ⊢
    by_cases early : j < base.1.toInt
    · simp [early]
    · rw [UInt64.le_zero_iff.mp bound]
      rfl
  · have place : cur.1.toInt + ((j - cur.1.toInt).toNat) = j := by omega
    simp only [sideGet, sideDelta, before, if_false, getD_eq_getElem?_getD, getElem?_map,
      getElem?_zipIdx] at bound ⊢
    cases found : cur.2[(j - cur.1.toInt).toNat]? with
    | none =>
      simp only [found] at bound ⊢
      rw [UInt64.le_zero_iff.mp bound]
      rfl
    | some c => simp only [Option.map_some, Option.getD_some, Nat.zero_add, place]

theorem sideRow_sideDelta (grown : sideDecreased base cur = false) :
    sideRow (sideDelta base cur) + sideRow base = sideRow cur := by
  ext j
  have bound := sideGet_le grown j
  rw [Finsupp.add_apply, sideRow_apply, sideRow_apply, sideRow_apply, sideGet_sideDelta grown,
    UInt64.toNat_sub_of_le _ _ bound]
  have order : (sideGet base j).toNat ≤ (sideGet cur j).toNat := bound
  omega

def sideTotal (side : ExpSide) : ℕ := (side.2.map UInt64.toNat).sum

theorem toNat_modify {cs : List UInt64} {c : UInt64} (small : (cs.map toNat).sum + c.toNat < 2 ^ 64)
    (i : ℕ) : (cs.modify i (· + c)).map toNat = (cs.map toNat).modify i (· + c.toNat) := by
  induction cs generalizing i with
  | nil => simp
  | cons d ds ih =>
    simp only [map_cons, sum_cons] at small
    cases i with
    | zero =>
      have exact : (d + c).toNat = d.toNat + c.toNat := by
        rw [UInt64.toNat_add]
        omega
      simp [exact]
    | succ i =>
      have later := ih (by omega) i
      simpa using later

variable {shift : ℕ}

theorem row_spill {offset first : ℤ} (buckets : List (UInt64 × ℕ)) (counts : List UInt64)
    (inside : ∀ b ∈ buckets, first ≤ shr (offset + b.2) shift ∧ shr (offset + b.2) shift < first + counts.length)
    (small : (counts.map toNat).sum + (buckets.map fun b => b.1.toNat).sum < 2 ^ 64) :
    row first ((buckets.foldl (spill offset shift first) counts).map toNat) = row first (counts.map toNat) +
        (buckets.map fun b => Finsupp.single (shr (offset + b.2) shift) (b.1.toNat : ℤ)).sum := by
  induction buckets generalizing counts with
  | nil => simp
  | cons b buckets ih =>
    obtain ⟨low, high⟩ := inside b mem_cons_self
    simp only [map_cons, sum_cons] at small
    have here : (shr (offset + b.2) shift - first).toNat < (counts.map toNat).length := by
      rw [length_map]
      omega
    have place : first + ((shr (offset + b.2) shift - first).toNat) = shr (offset + b.2) shift := by omega
    have added : (spill offset shift first counts b).map toNat =
        (counts.map toNat).modify (shr (offset + b.2) shift - first).toNat (· + b.1.toNat) :=
      toNat_modify (by omega) _
    have length : (spill offset shift first counts b).length = counts.length := by simp [spill]
    have later := ih (spill offset shift first counts b) (fun other mem => by
        rw [length]
        exact inside other (mem_cons_of_mem b mem))
      (by rw [added, sum_modify here]; omega)
    rw [foldl_cons, later, added, row_modify here, place, map_cons, sum_cons, add_assoc]

theorem shr_of_lt (small : shift < 64) (i : ℤ) : shr i shift = i >>> shift := by
  rw [shr, Nat.mod_eq_of_lt small]

theorem shiftRight_mono {i j : ℤ} (le : i ≤ j) (n : ℕ) : i >>> n ≤ j >>> n := by
  rw [Int.shiftRight_eq_div_pow, Int.shiftRight_eq_div_pow]
  exact Int.ediv_le_ediv (by positivity) le

theorem toInt_shiftRight (offset : Int32) (n : ℕ) :
    (Int32.ofInt (offset.toInt >>> n)).toInt = offset.toInt >>> n := by
  have low := Int32.le_toInt offset
  have high := Int32.toInt_lt offset
  have unit : (1 : ℤ) ≤ 2 ^ n := one_le_pow₀ (by norm_num)
  have quotient : offset.toInt >>> n = offset.toInt / 2 ^ n := by
    rw [Int.shiftRight_eq_div_pow]
    norm_cast
  apply Int32.toInt_ofInt_of_le
  · rw [quotient]
    exact (Int.le_ediv_iff_mul_le (by omega)).mpr (by nlinarith)
  · rw [quotient]
    exact (Int.ediv_lt_iff_lt_mul (by omega)).mpr (by nlinarith)

/-- Downscaling moves each bucket to its coarser index and loses nothing. -/
theorem sideRow_downscale {side : ExpSide} (near : shift < 64) (small : sideTotal side < 2 ^ 64) :
    sideRow (downscale side shift) = (sideRow side).mapDomain (fun i : ℤ => i >>> shift) := by
  obtain ⟨offset, counts⟩ := side
  by_cases trivial : shift = 0 ∨ counts = []
  · rcases trivial with rfl | rfl
    · have same : (fun i : ℤ => i >>> (0 : ℕ)) = id := by
        funext i
        exact Int.shiftRight_zero i
      rw [same]
      simp [downscale]
    · simp [downscale, sideRow]
  · have inside : ∀ b ∈ counts.zipIdx, shr offset.toInt shift ≤ shr (offset.toInt + b.2) shift ∧
        shr (offset.toInt + b.2) shift < shr offset.toInt shift +
          (replicate (shr (offset.toInt + counts.length - 1) shift -
            shr offset.toInt shift + 1).toNat (0 : UInt64)).length := by
      intro b mem
      have bound := snd_lt_of_mem_zipIdx mem
      simp only [shr_of_lt near, length_replicate]
      have low := shiftRight_mono (i := offset.toInt) (j := offset.toInt + b.2) (by omega) shift
      have high := shiftRight_mono (i := offset.toInt + b.2) (j := offset.toInt + counts.length - 1)
        (by omega) shift
      omega
    have spilled := row_spill counts.zipIdx _ inside (by
      have fst : counts.zipIdx.map (fun b => b.1.toNat) = counts.map toNat := by
        rw [← zipIdx_map_fst 0 counts, map_map, zipIdx_map_fst]
        rfl
      rw [fst]
      simpa [sideTotal] using small)
    have shifted := toInt_shiftRight offset shift
    rw [← shr_of_lt near] at shifted
    simp only [downscale, trivial, if_false, sideRow, shifted]
    rw [spilled, mapDomain_row]
    simp [row_replicate, zipIdx_map, shr_of_lt near, Function.comp_def]

end Logit.Delta
