import Mathlib

namespace LongestRun

variable {β : Type}

/-- A length that was found to fit, with what it gave. -/
structure Best (fits : Nat → Option β) where
  fit : Nat
  value : β
  pos : 0 < fit
  fits_eq : fits fit = some value

variable {fits : Nat → Option β}

/-- Doubles the probed length while it fits. A length that does not fit is the new bound, which ends the loop. -/
def double (length : Nat) (best : Best fits) (bound probe : Nat) (grows : 0 < probe) : Best fits × Nat :=
  if inside : probe < bound ∧ best.fit < length then
    match found : fits (min probe length) with
    | some value => double length ⟨min probe length, value, by omega, found⟩ bound (probe * 2) (by omega)
    | none => double length best (min probe length) probe grows
  else (best, bound)
termination_by bound - probe

/-- Halves the gap between the length that fits and the bound. -/
def bisect (best : Best fits) (bound : Nat) : Best fits :=
  if apart : 1 < bound - best.fit then
    match found : fits (best.fit + (bound - best.fit) / 2) with
    | some value => bisect ⟨best.fit + (bound - best.fit) / 2, value, by omega, found⟩ bound
    | none => bisect best (best.fit + (bound - best.fit) / 2)
  else best
termination_by bound - best.fit

/-- The search from one length that fits: double, then bisect. -/
def longest (length : Nat) (first : Best fits) (bound : Nat) : Best fits :=
  let doubled := double length first bound 2 Nat.two_pos
  bisect doubled.1 doubled.2

/-- Past a length that does not fit, none does. -/
def Closed (fits : Nat → Option β) (length : Nat) : Prop :=
  ∀ m n, 0 < m → m ≤ n → n ≤ length → fits m = none → fits n = none

/-- The longest length that fits is between the best and the bound, which does not fit or is past the end. -/
structure Bracket (length : Nat) (best : Best fits) (bound : Nat) : Prop where
  inside : best.fit ≤ length
  below : best.fit < bound
  bounded : bound ≤ length + 1
  fails : bound ≤ length → fits bound = none

variable {length bound : Nat} {best : Best fits}

theorem Best.lt_of_none (closed : Closed fits length) {n : Nat} (pos : 0 < n) (inside : best.fit ≤ length)
    (fails : fits n = none) : best.fit < n := by
  by_contra below
  have none := closed n best.fit pos (by omega) inside fails
  rw [best.fits_eq] at none
  cases none

theorem double_bracket (closed : Closed fits length) {probe : Nat} (grows : 0 < probe)
    (bracket : Bracket length best bound) :
    Bracket length (double length best bound probe grows).1 (double length best bound probe grows).2 := by
  fun_induction double length best bound probe grows with
  | case1 best bound probe grows inside value found ih =>
    refine ih ⟨Nat.min_le_right _ _, ?_, bracket.bounded, bracket.fails⟩
    show min probe length < bound
    omega
  | case2 best bound probe grows inside found ih =>
    exact ih ⟨bracket.inside, best.lt_of_none closed (by omega) bracket.inside found, by omega, fun _ => found⟩
  | case3 => exact bracket

theorem bisect_longest (closed : Closed fits length) (bracket : Bracket length best bound) :
    (bisect best bound).fit ≤ length ∧ ∀ n, (bisect best bound).fit < n → n ≤ length → fits n = none := by
  obtain ⟨inside, below, bounded, fails⟩ := bracket
  fun_induction bisect best bound with
  | case1 best bound apart value found ih => exact ih (by simp only; omega) (by simp only; omega) bounded fails
  | case2 best bound apart found ih => exact ih inside (by omega) (by omega) fun _ => found
  | case3 best bound apart =>
    refine ⟨inside, fun n longer short => closed bound n (by omega) (by omega) short (fails (by omega))⟩

/-- The search ends at the longest length that fits. -/
theorem longest_longest (closed : Closed fits length) (bracket : Bracket length best bound) :
    (longest length best bound).fit ≤ length ∧
      ∀ n, (longest length best bound).fit < n → n ≤ length → fits n = none :=
  bisect_longest closed (double_bracket closed Nat.two_pos bracket)

end LongestRun
