import Logit.Aggregate.Series

namespace Logit.Aggregate

variable {X : Externals}

/-- One metric name's count: its held series, overflow series excluded, and the records past the limit
since the last flush. -/
structure NameCount where
  series : Nat
  folded : Nat
deriving DecidableEq

/-- The `max_series` bound and the `max_series_per_metric` limit, as counts of what is held. -/
structure SeriesBudget (X : Externals) where
  held : Nat
  idle : Nat
  max : Nat
  perName : Option Nat
  names : AList (fun _ : X.Symbol => NameCount)

/-- The answer for a record that would open a series. -/
inductive Admission
  | opened
  | evictIdle
  | refused
  | overflow
deriving DecidableEq

namespace SeriesBudget

variable (b : SeriesBudget X)

def count (name : X.Symbol) : NameCount := (b.names.lookup name).getD ⟨0, 0⟩

def admitSlot : Admission × SeriesBudget X :=
  if b.held < b.max then (.opened, { b with held := b.held + 1 })
  else if 0 < b.idle then (.evictIdle, { b with held := b.held + 1 })
  else (.refused, b)

def countSeries (name : X.Symbol) : SeriesBudget X :=
  { b with names := b.names.insert name { b.count name with series := (b.count name).series + 1 } }

/-- Decides whether a record may open a series, and counts the slot when it may. -/
def admitKey (key : SeriesKey X) : Admission × SeriesBudget X :=
  match b.perName with
  | none => b.admitSlot
  | some limit =>
    if isOverflow key then b.admitSlot
    else if (b.names.lookup key.name).isSome ∧ limit ≤ (b.count key.name).series then
      let count := b.count key.name
      let folded := { count with folded := Nat.min (2 ^ 32 - 1) (count.folded + 1) }
      (.overflow, { b with names := b.names.insert key.name folded })
    else
      let slot := b.admitSlot
      (slot.1, if slot.1 = .refused then slot.2 else slot.2.countSeries key.name)

/-- Frees the slot of an idle series evicted to make room. -/
def release (name : X.Symbol) (overflow : Bool) : SeriesBudget X :=
  let freed := { b with held := b.held - 1, idle := b.idle - 1 }
  if overflow then freed
  else match b.names.lookup name with
    | none => freed
    | some count => { freed with names := b.names.insert name { count with series := count.series - 1 } }

/-- Resets every count to the series a flush keeps. -/
def reset (survivors : List (SeriesKey X)) : SeriesBudget X :=
  let fresh := { b with held := survivors.length, idle := survivors.length }
  match b.perName with
  | none => fresh
  | some _ => (survivors.filter fun k => !isOverflow k).foldl (fun b k => b.countSeries k.name)
      { fresh with names := ∅ }

end SeriesBudget

/-- The order in which an eviction takes held series, from the first evicted: an ordinary series before
an overflow series, then the most idle, then the newest. -/
abbrev EvictionRank := Bool ×ₗ (ℕᵒᵈ ×ₗ ℕᵒᵈ)

namespace EvictionRank

def make (overflow : Bool) (idleWindows openSeq : Nat) : EvictionRank :=
  toLex (overflow, toLex (OrderDual.toDual idleWindows, OrderDual.toDual openSeq))

def isOverflow (rank : EvictionRank) : Bool := (ofLex rank).1

end EvictionRank

end Logit.Aggregate
