import Logit.Delta.Key

namespace Logit

namespace Delta

variable {X : Externals}

/-- The arithmetic on doubles that the transform uses: a difference, the double an integer rounds to,
and the upper bound of an exponential bucket from its scale, its side's offset and its position. -/
structure Floats where
  sub : F64 → F64 → F64
  ofInt : Int → F64
  bucketUpper : Int32 → Int32 → Nat → F64

/-- What a cumulative non-monotonic `Sum` does. -/
inductive NonMonotonic
  | pass | difference | resetOnDecrease
deriving DecidableEq

def flagNoRecordedValue : UInt32 := 1

def Kind.of (record : MetricRecord X) (nonMonotonic : NonMonotonic) : Option Kind :=
  if record.flags &&& flagNoRecordedValue ≠ 0 then none
  else
    match record.kind with
    | .sum s =>
      if s.temporality = .cumulative ∧ s.monotonic then some .sum
      else if s.temporality = .cumulative ∧ nonMonotonic ≠ .pass then some .nonMonotonicSum
      else none
    | .histogram h => if h.temporality = .cumulative then some .histogram else none
    | .exponentialHistogram e =>
      if e.temporality = .cumulative then some .exponentialHistogram else none
    | .summary s => if s.temporality = .cumulative then some .summary else none
    | _ => none

/-- One side of an exponential histogram: an offset and the counts from that index on. -/
abbrev ExpSide := Int32 × List UInt64

structure HistogramBase where
  buckets : List Bucket
  sum : Option F64
  min : Option F64
  max : Option F64

structure ExponentialBase where
  scale : Int32
  zeroCount : UInt64
  zeroThreshold : F64
  positive : ExpSide
  negative : ExpSide
  count : UInt64
  sum : Option F64
  min : Option F64
  max : Option F64

/-- The previous point, as far as the next difference needs it. -/
inductive Baseline
  | sum (value : MetricValue)
  | histogram (base : HistogramBase)
  | exponential (base : ExponentialBase)
  | summary (count : UInt64) (sum : Option F64)

def finite (v : Option F64) : Option F64 := v.filter F64.isFinite

namespace Baseline

def of : MetricKind X → Baseline
  | .sum s => .sum s.value
  | .histogram h => .histogram ⟨h.buckets, finite h.sum, h.min, h.max⟩
  | .exponentialHistogram e =>
    .exponential ⟨e.scale, e.zeroCount, e.zeroThreshold, e.positive, e.negative, e.count, finite e.sum,
      e.min, e.max⟩
  | .summary s => .summary s.count (finite (some s.sum))
  -- Unreachable: only a converted kind has a baseline.
  | _ => .summary 0 none

/-- A point's sum, or the last finite one when it has none. -/
def keepSum (old new : Option F64) : Option F64 := (finite new).or old

def rebase : Baseline → MetricKind X → Baseline
  | .sum _, .sum s => .sum s.value
  | .histogram b, .histogram h => .histogram ⟨h.buckets, keepSum b.sum h.sum, h.min, h.max⟩
  | .exponential b, .exponentialHistogram e =>
    .exponential ⟨e.scale, e.zeroCount, e.zeroThreshold, e.positive, e.negative, e.count,
      keepSum b.sum e.sum, e.min, e.max⟩
  | .summary _ old, .summary s => .summary s.count (keepSum old (some s.sum))
  | _, kind => of kind

end Baseline

def setDelta : MetricKind X → MetricKind X
  | .sum s => .sum { s with temporality := .delta }
  | .histogram h => .histogram { h with temporality := .delta }
  | .exponentialHistogram e => .exponentialHistogram { e with temporality := .delta }
  | .summary s => .summary { s with temporality := .delta }
  -- Unreachable: only a converted kind is set delta.
  | kind => kind

/-- A first or reset point: its whole value, as a delta, with no non-finite sum. -/
def emitFull (kind : MetricKind X) : MetricKind X :=
  match setDelta kind with
  | .histogram h => .histogram { h with sum := finite h.sum }
  | .exponentialHistogram e => .exponentialHistogram { e with sum := finite e.sum }
  | .summary s => if s.sum.isFinite then .summary s else .summary { s with sum := F64.nan }
  | other => other

def isFinite : MetricValue → Bool
  | .f64 v => v.isFinite
  | _ => true

/-- A value as an exact integer, or `none` for a double. -/
def exactInt : MetricValue → Option Int
  | .i64 v => some v.toInt
  | .u64 v => some v.toNat
  | .bool v => some v.toNat
  | .f64 _ => none

variable (fl : Floats)

def asF64 : MetricValue → F64
  | .f64 v => v
  | .i64 v => fl.ofInt v.toInt
  | .u64 v => fl.ofInt v.toNat
  | .bool v => fl.ofInt v.toNat

def tryU64 (d : Int) : Option UInt64 := if 0 ≤ d ∧ d < 2 ^ 64 then some (UInt64.ofNat d.toNat) else none

def tryI64 (d : Int) : Option Int64 := if -2 ^ 63 ≤ d ∧ d < 2 ^ 63 then some (Int64.ofInt d) else none

/-- The integer `d` in the type of the current value where it fits, else as a double. -/
def intDelta (cur : MetricValue) (d : Int) : MetricValue :=
  match cur with
  | .u64 _ =>
    if 0 ≤ d then (tryU64 d).elim (.f64 (fl.ofInt d)) .u64
    else (tryI64 d).elim (.f64 (fl.ofInt d)) .i64
  | _ => (tryI64 d).elim (.f64 (fl.ofInt d)) .i64

def signedDelta (cur prev : MetricValue) : MetricValue :=
  match exactInt cur, exactInt prev with
  | some c, some p => intDelta fl cur (c - p)
  | _, _ => .f64 (fl.sub (asF64 fl cur) (asF64 fl prev))

def below (cur prev : MetricValue) : Bool :=
  match exactInt cur, exactInt prev with
  | some c, some p => c < p
  | _, _ => (asF64 fl cur).lt (asF64 fl prev)

def valueDelta (cur prev : MetricValue) : Option MetricValue :=
  if below fl cur prev then none else some (signedDelta fl cur prev)

variable (side : ExpSide)

/-- The count at absolute index `idx` of a side, zero outside it. -/
def sideGet (idx : Int) : UInt64 :=
  if idx < side.1.toInt then 0 else side.2.getD (idx - side.1.toInt).toNat 0

/-- Whether some bucket of `base` holds more than `cur`'s bucket at the same index. -/
def sideDecreased (base cur : ExpSide) : Bool := base.2.zipIdx.any fun b => sideGet cur (base.1.toInt + b.2) < b.1

/-- The arithmetic shift of a 64-bit integer, which reads six bits of its shift. -/
def shr (i : Int) (shift : Nat) : Int := i >>> (shift % 64)

/-- One bucket of a side added into the counts of the coarser one. -/
def spill (offset : Int) (shift : Nat) (first : Int) (counts : List UInt64) (b : UInt64 × Nat) : List UInt64 :=
  counts.modify (shr (offset + b.2) shift - first).toNat (· + b.1)

/-- The side at a scale lower by `shift`. -/
def downscale (shift : Nat) : ExpSide :=
  if shift = 0 ∨ side.2 = [] then side
  else
    let offset := side.1.toInt
    let first := shr offset shift
    let last := shr (offset + side.2.length - 1) shift
    let counts := List.replicate (last - first + 1).toNat 0
    (Int32.ofInt first, side.2.zipIdx.foldl (spill offset shift first) counts)

/-- Empties the leading buckets whose upper bound is not above the threshold into one count. -/
def foldFrom (upper : Nat → F64) (threshold : F64) : Nat → List UInt64 → UInt64 × List UInt64
  | _, [] => (0, [])
  | i, c :: cs =>
    if threshold.lt (upper i) then (0, c :: cs)
    else
      let later := foldFrom upper threshold (i + 1) cs
      (c + later.1, 0 :: later.2)

def foldBelow (scale : Int32) (threshold : F64) : UInt64 × ExpSide :=
  let folded := foldFrom (fl.bucketUpper scale side.1) threshold 0 side.2
  (folded.1, (side.1, folded.2))

def lowerScale (b : ExponentialBase) (scale : Int32) : ExponentialBase :=
  if scale < b.scale then
    let shift := (b.scale - scale).toUInt32.toNat
    { b with scale := scale, positive := downscale b.positive shift, negative := downscale b.negative shift }
  else b

def raiseThreshold (b : ExponentialBase) (threshold : F64) : ExponentialBase :=
  if b.zeroThreshold.lt threshold then
    let positive := foldBelow fl b.positive b.scale threshold
    let negative := foldBelow fl b.negative b.scale threshold
    { b with zeroCount := b.zeroCount + positive.1 + negative.1, zeroThreshold := threshold,
             positive := positive.2, negative := negative.2 }
  else b

/-- Brings an exponential baseline to the point's scale and zero threshold where that loses nothing,
and says whether the point's layout differs in a way that cannot be differenced. -/
def align : Baseline → MetricKind X → Baseline × Bool
  | .histogram b, .histogram h =>
    (.histogram b, b.buckets.length != h.buckets.length ||
      (b.buckets.zip h.buckets).any fun pair => pair.1.1.bits != pair.2.1.bits)
  | .exponential b, .exponentialHistogram e =>
    if b.scale < e.scale ∨ e.zeroThreshold.lt b.zeroThreshold then (.exponential b, true)
    else (.exponential (raiseThreshold fl (lowerScale b e.scale) e.zeroThreshold), false)
  | base, _ => (base, false)

def bucketTotal (buckets : List Bucket) : UInt64 := buckets.foldl (fun a b => saturatingAdd a b.2) 0

/-- Whether the point holds less than the baseline anywhere. Buckets are compared only when they
are aligned. -/
def decreased : Baseline → MetricKind X → Bool → Bool
  | .sum prev, .sum s, _ => (valueDelta fl s.value prev).isNone
  | .histogram b, .histogram h, layout =>
    bucketTotal h.buckets < bucketTotal b.buckets ||
      (!layout && (b.buckets.zip h.buckets).any fun pair => pair.2.2 < pair.1.2)
  | .exponential b, .exponentialHistogram e, layout =>
    e.count < b.count || (!layout && (e.zeroCount < b.zeroCount ||
      sideDecreased b.positive e.positive || sideDecreased b.negative e.negative))
  | .summary count _, .summary s, _ => s.count < count
  | _, _, _ => false

def intervalMin (cur prev : Option F64) : Option F64 :=
  match cur, prev with
  | some c, some p => if c.lt p then some c else none
  | _, _ => none

def intervalMax (cur prev : Option F64) : Option F64 :=
  match cur, prev with
  | some c, some p => if p.lt c then some c else none
  | _, _ => none

def sumDelta (cur prev : Option F64) : Option F64 :=
  match finite cur, prev with
  | some c, some p => some (fl.sub c p)
  | _, _ => none

/-- The baseline's buckets and the point's, after the point's become the difference. -/
def bucketsDelta : List Bucket → List Bucket → List Bucket × List Bucket
  | b :: bs, c :: cs =>
    let later := bucketsDelta bs cs
    ((b.1, c.2) :: later.1, (c.1, c.2 - b.2) :: later.2)
  | bs, cs => (bs, cs)

/-- The difference of a side of the point from the baseline's, at the point's own indices. -/
def sideDelta (cur : ExpSide) : ExpSide :=
  (cur.1, cur.2.zipIdx.map fun c => c.1 - sideGet side (cur.1.toInt + c.2))

/-- The baseline after the point, and the point's difference from the baseline before it. -/
def difference : Baseline → MetricKind X → Bool → Baseline × MetricKind X
  | .sum prev, .sum s, signed =>
    let delta := if signed then signedDelta fl s.value prev
      -- The caller ruled a decrease out.
      else (valueDelta fl s.value prev).getD s.value
    (.sum s.value, .sum { s with value := delta, temporality := .delta })
  | .histogram b, .histogram h, _ =>
    let buckets := bucketsDelta b.buckets h.buckets
    (.histogram ⟨buckets.1, (finite h.sum).or b.sum, h.min, h.max⟩,
      .histogram ⟨buckets.2, .delta, sumDelta fl h.sum b.sum, intervalMin h.min b.min, intervalMax h.max b.max⟩)
  | .exponential b, .exponentialHistogram e, _ =>
    (.exponential { b with positive := e.positive, negative := e.negative, zeroCount := e.zeroCount,
                           count := e.count, sum := (finite e.sum).or b.sum, min := e.min,
                           max := e.max },
      .exponentialHistogram
        { e with positive := sideDelta b.positive e.positive, negative := sideDelta b.negative e.negative,
                 zeroCount := e.zeroCount - b.zeroCount, count := e.count - b.count,
                 sum := sumDelta fl e.sum b.sum, min := intervalMin e.min b.min,
                 max := intervalMax e.max b.max, temporality := .delta })
  | .summary count sum, .summary s, _ =>
    (.summary s.count ((finite (some s.sum)).or sum),
      .summary { s with count := s.count - count, temporality := .delta,
                        sum := (sumDelta fl (some s.sum) sum).getD F64.nan })
  -- Unreachable: a series' baseline matches its kind.
  | base, kind, _ => (base, kind)

end Delta

end Logit
