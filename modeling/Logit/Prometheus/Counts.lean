import Logit.Core.Event

namespace Logit

namespace F64

def infinity : F64 := ⟨0x7ff0000000000000⟩

def negInfinity : F64 := ⟨0xfff0000000000000⟩

/-- The place of a double in the total order, where the negative zero is below the positive one. -/
def totalPlace (x : F64) : Int := if x.bits < 0x8000000000000000 then x.magnitude.toNat else -x.magnitude.toNat - 1

end F64

namespace Prometheus

/-- One bucket more: the running count, and one entry for each distinct bound so far. -/
def accumulate : UInt64 × List Bucket → Bucket → UInt64 × List Bucket
  | (running, out), (bound, count) =>
    let running := saturatingAdd running count
    match out.getLast? with
    | some last => if last.1.eq bound then (running, out.dropLast ++ [(bound, running)]) else
      (running, out ++ [(bound, running)])
    | none => (running, [(bound, running)])

/-- A histogram's counts as cumulative ones, one entry for each distinct bound with `+Inf` last, and the
total. A NaN bound has no entry. -/
def cumulativeCounts (buckets : List Bucket) : List Bucket × UInt64 :=
  let sorted := (buckets.filter fun b => !b.1.isNan).insertionSort fun a b => a.1.totalPlace ≤ b.1.totalPlace
  let total := buckets.foldl (fun acc b => saturatingAdd acc b.2) 0
  let out := (sorted.foldl accumulate (0, [])).2
  match out.getLast? with
  | some last =>
    if last.1.eq .infinity then (out.dropLast ++ [(last.1, total)], total) else (out ++ [(.infinity, total)], total)
  | none => ([(.infinity, total)], total)

end Prometheus

end Logit
