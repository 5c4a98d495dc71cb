import Mathlib.Data.Nat.Bitwise

namespace Logit.Collectd

open Option Nat Int64 UInt64

/-- One second in ticks of 2⁻³⁰ seconds. -/
def cdtimeOneSecond : Nat := 1 <<< 30

/-- The result of a product, a sum or a shift, `none` where 64 bits do not hold it. -/
def u64 (n : Nat) : Option Nat := if n < 2 ^ 64 then some n else none

def saturating (n : Nat) : Nat := min n (2 ^ 64 - 1)

/-- Ticks since the epoch as nanoseconds, the whole seconds and the ticks after them apart. -/
def cdtimeToNanos (cdtime : UInt64) : Option Int64 := do
  let seconds := cdtime.toNat >>> 30
  let ticks := cdtime.toNat &&& (cdtimeOneSecond - 1)
  let subNanos := (← u64 ((← u64 (ticks * 1000000000)) + cdtimeOneSecond / 2)) >>> 30
  let nanos := saturating (saturating (seconds * 1000000000) + subNanos)
  pure (if nanos < 2 ^ 63 then .ofNat nanos else .maxValue)

/-- Nanoseconds since the epoch as ticks; an instant that is not after it has none. -/
def nanosToCdtime (ns : Int64) : Option UInt64 := do
  if ns ≤ 0 then return 0
  let ns := ns.toUInt64.toNat
  let seconds := ns / 1000000000
  let remainder := ns % 1000000000
  let ticks := (← u64 ((← u64 (remainder <<< 30)) + 500000000)) / 1000000000
  pure (.ofNat (saturating (saturating (seconds * cdtimeOneSecond) + ticks)))

/-- The nanoseconds nearest to so many ticks, a half rounded up. -/
def nearestNanos (cdtime : UInt64) : Nat := (cdtime.toNat * 1000000000 + 2 ^ 29) / 2 ^ 30

/-- The ticks nearest to so many nanoseconds, none before the epoch. -/
def nearestTicks (ns : Int64) : Nat := (ns.toInt.toNat * 2 ^ 30 + 500000000) / 1000000000

theorem u64_of_lt {n : Nat} (fits : n < 2 ^ 64) : u64 n = some n := if_pos fits

theorem cdtimeToNanos_spec (cdtime : UInt64) :
    ∃ ns, cdtimeToNanos cdtime = some ns ∧ ns.toInt = min (nearestNanos cdtime) (2 ^ 63 - 1) := by
  have bound := cdtime.toNat_lt
  have second : cdtimeOneSecond = 2 ^ 30 := rfl
  have nanos : saturating (saturating (cdtime.toNat / 2 ^ 30 * 1000000000) +
      (cdtime.toNat % 2 ^ 30 * 1000000000 + 2 ^ 30 / 2) / 2 ^ 30) = nearestNanos cdtime := by
    simp only [saturating, nearestNanos]
    omega
  simp only [cdtimeToNanos, second, and_two_pow_sub_one_eq_mod, shiftRight_eq_div_pow, bind_eq_bind]
  rw [u64_of_lt (by omega), bind_some, u64_of_lt (by omega), bind_some]
  refine ⟨_, rfl, ?_⟩
  split
  · rw [toInt_ofNat_of_lt ‹_›]
    omega
  · rw [toInt_maxValue]
    omega

theorem nanosToCdtime_spec (ns : Int64) :
    ∃ cdtime, nanosToCdtime ns = some cdtime ∧ cdtime.toNat = nearestTicks ns := by
  have high := toInt_lt ns
  have order : ns ≤ 0 ↔ ns.toInt ≤ 0 := le_iff_toInt_le
  rw [nanosToCdtime, nearestTicks]
  by_cases early : ns ≤ 0
  · have before := order.mp early
    rw [if_pos early]
    refine ⟨0, rfl, ?_⟩
    rw [UInt64.toNat_zero]
    omega
  · have cast : ns.toUInt64.toNat = ns.toInt.toNat := by
      have same : ns.toUInt64.toNat = ns.toBitVec.toNat := rfl
      have value : ns.toInt = _ := BitVec.toInt_eq_toNat_cond ns.toBitVec
      rw [order] at early
      split at value <;> omega
    have ticks : saturating (saturating (ns.toInt.toNat / 1000000000 * 2 ^ 30) +
        (ns.toInt.toNat % 1000000000 * 2 ^ 30 + 500000000) / 1000000000) =
          (ns.toInt.toNat * 2 ^ 30 + 500000000) / 1000000000 := by
      simp only [saturating]
      omega
    have second : cdtimeOneSecond = 2 ^ 30 := rfl
    simp only [if_neg early, cast, second, shiftLeft_eq, bind_eq_bind]
    rw [u64_of_lt (by omega), bind_some, u64_of_lt (by omega), bind_some, ticks]
    exact ⟨_, rfl, toNat_ofNat_of_lt' (by rw [UInt64.size]; omega)⟩

/-- A tick is shorter than a nanosecond, so the nearest one tells the nanosecond. -/
theorem cdtimeToNanos_nearestTicks {ns : Int64} {cdtime : UInt64} (after : 0 ≤ ns.toInt)
    (ticks : cdtime.toNat = nearestTicks ns) : cdtimeToNanos cdtime = some ns := by
  have high := toInt_lt ns
  obtain ⟨back, run, value⟩ := cdtimeToNanos_spec cdtime
  rw [nearestNanos, ticks, nearestTicks] at value
  rw [run, toInt_inj.mp (by omega : back.toInt = ns.toInt)]

/-- Neither conversion overflows, and each gives the nearest value and keeps the order of instants. An instant after
the epoch survives its ticks; ticks survive their nanoseconds up to one tick, and from then on unchanged. -/
theorem cdtime_conversions (ns later : Int64) (cdtime next : UInt64) :
    (∃ c, nanosToCdtime ns = some c ∧ c.toNat = nearestTicks ns ∧ (0 < ns → cdtimeToNanos c = some ns) ∧
      (ns ≤ later → ∃ d, nanosToCdtime later = some d ∧ c ≤ d)) ∧
    ∃ n, cdtimeToNanos cdtime = some n ∧ n.toInt = min (nearestNanos cdtime) (2 ^ 63 - 1) ∧
      (nearestNanos cdtime < 2 ^ 63 → ∃ c, nanosToCdtime n = some c ∧ c.toNat ≤ cdtime.toNat + 1 ∧
        cdtime.toNat ≤ c.toNat + 1 ∧ cdtimeToNanos c = some n) ∧
      (cdtime ≤ next → ∃ m, cdtimeToNanos next = some m ∧ n ≤ m) := by
  constructor
  · obtain ⟨c, run, ticks⟩ := nanosToCdtime_spec ns
    obtain ⟨d, rerun, ticks'⟩ := nanosToCdtime_spec later
    refine ⟨c, run, ticks, ?_, ?_⟩
    · intro after
      have positive : 0 < ns.toInt := lt_iff_toInt_lt.mp after
      exact cdtimeToNanos_nearestTicks (by omega) ticks
    · intro order
      rw [le_iff_toInt_le] at order
      rw [nearestTicks] at ticks ticks'
      exact ⟨d, rerun, le_iff_toNat_le.mpr (by omega)⟩
  · obtain ⟨n, run, value⟩ := cdtimeToNanos_spec cdtime
    obtain ⟨m, rerun, value'⟩ := cdtimeToNanos_spec next
    obtain ⟨c, back, ticks⟩ := nanosToCdtime_spec n
    have moved := ticks
    rw [nearestTicks] at moved
    refine ⟨n, run, value, ?_, ?_⟩
    · intro fits
      rw [nearestNanos] at value fits
      exact ⟨c, back, by omega, by omega, cdtimeToNanos_nearestTicks (by omega) ticks⟩
    · intro order
      rw [le_iff_toNat_le] at order
      rw [nearestNanos] at value value'
      exact ⟨m, rerun, le_iff_toInt_le.mpr (by omega)⟩

end Logit.Collectd
