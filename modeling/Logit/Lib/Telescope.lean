import Mathlib

namespace Telescope

open List

variable {A : Type*} [AddCommGroup A]

/-- A way to bring an amount to a coarser level, one level at a time: additive, and composing. -/
structure Rescaling (A : Type*) [AddCommGroup A] where
  bring : ℕ → A →+ A
  bring_zero : ∀ a, bring 0 a = a
  bring_add : ∀ m n a, bring (m + n) a = bring n (bring m a)

/-- An amount measured at a level; a lower level is a coarser one. -/
structure Measured (A : Type*) where
  level : ℤ
  amount : A

namespace Rescaling

variable (R : Rescaling A) (level : ℤ)

/-- A measured amount at a level not above its own. -/
def lower (m : Measured A) : A := R.bring (m.level - level).toNat m.amount

/-- What amounts measured at several levels come to at one level below them all. -/
def total (ms : List (Measured A)) : A := (ms.map (R.lower level)).sum

@[simp] theorem lower_self (m : Measured A) : R.lower m.level m = m.amount := by
  simp [lower, R.bring_zero]

@[simp] theorem total_nil : R.total level [] = 0 := rfl

@[simp] theorem total_cons (m : Measured A) (ms : List (Measured A)) :
    R.total level (m :: ms) = R.lower level m + R.total level ms := rfl

theorem bring_lower {m : Measured A} {high low : ℤ} (above : high ≤ m.level) (down : low ≤ high) :
    R.bring (high - low).toNat (R.lower high m) = R.lower low m := by
  have split : (m.level - low).toNat = (m.level - high).toNat + (high - low).toNat := by omega
  rw [lower, lower, split, R.bring_add]

theorem bring_total {ms : List (Measured A)} {high low : ℤ} (above : ∀ m ∈ ms, high ≤ m.level)
    (down : low ≤ high) : R.bring (high - low).toNat (R.total high ms) = R.total low ms := by
  induction ms with
  | nil => simp
  | cons m ms ih =>
    have first := R.bring_lower (above m mem_cons_self) down
    have others := ih (fun other mem => above other (mem_cons_of_mem m mem))
    rw [total_cons, total_cons, map_add, first, others]

/-- Differences telescope: if they sum to the last amount less the first, they still do after one more
difference, taken from the last amount brought to the new level. -/
theorem telescope {first last next delta : Measured A} {deltas : List (Measured A)}
    (sum : R.total last.level deltas + R.lower last.level first = last.amount)
    (above : ∀ d ∈ deltas, last.level ≤ d.level) (start : last.level ≤ first.level)
    (down : next.level ≤ last.level) (same : delta.level = next.level)
    (step : delta.amount + R.lower next.level last = next.amount) :
    R.total next.level (delta :: deltas) + R.lower next.level first = next.amount := by
  have before : R.total next.level deltas + R.lower next.level first = R.lower next.level last := by
    rw [← R.bring_total above down, ← R.bring_lower start down, ← map_add, sum]
    rfl
  have own : R.lower next.level delta = delta.amount := by rw [← same, lower_self]
  rw [total_cons, own, add_assoc, before, step]

end Rescaling

end Telescope
