import Logit.Lib.Decimal

namespace Logit.Time

open List Nat
open Decimal (byte isDigit value)

/-- Why a decimal is refused. -/
inductive DecimalError where
  | invalid
  | overflow

def i64Max : Nat := 2 ^ 63 - 1

def digit (c : UInt8) : Nat := c.toNat - 48

/-- Each digit of the fraction is worth a tenth of the place before it; below one unit only zeros pass. -/
def addFrac : List UInt8 → Nat → Nat → Except DecimalError Nat
  | [], _, out => .ok out
  | c :: frac, place, out =>
    if place = 1 then
      if digit c ≠ 0 then .error .invalid else addFrac frac place out
    else
      let d := digit c * (place / 10)
      if d ≤ i64Max ∧ out + d ≤ i64Max then addFrac frac (place / 10) (out + d) else .error .overflow

/-- The text before the first point and the text after it. -/
def splitOnce : List UInt8 → List UInt8 × List UInt8
  | [] => ([], [])
  | b :: s => if b = byte '.' then ([], s) else (b :: (splitOnce s).1, (splitOnce s).2)

def parseDecimalNanos (s : List UInt8) (scale : Nat) : Except DecimalError Nat :=
  let (whole, frac) := splitOnce s
  if whole.isEmpty || !whole.all isDigit then .error .invalid
  else if !frac.all isDigit then .error .invalid
  else if value whole ≤ i64Max ∧ value whole * scale ≤ i64Max then addFrac frac scale (value whole * scale)
  else .error .overflow

/-- The number that the digits after a point stand for. -/
def fraction : List UInt8 → ℚ
  | [] => 0
  | c :: frac => (digit c + fraction frac) / 10

/-- Digits, and digits after a point if there is one. -/
structure Spells (s whole frac : List UInt8) : Prop where
  some : whole ≠ []
  digits : ∀ b ∈ whole ++ frac, isDigit b = true
  shape : s = whole ∧ frac = [] ∨ s = whole ++ byte '.' :: frac

/-- What is made of an exact number of units. -/
def Outcome (x : ℚ) : Except DecimalError Nat → Prop
  | .ok n => x = n ∧ n ≤ i64Max
  | .error .overflow => i64Max < x
  | .error .invalid => ∀ n : Nat, x ≠ n

theorem Outcome.over {x : ℚ} {n : Nat} (above : i64Max < n) (reached : (n : ℚ) ≤ x) :
    Outcome x (.error .overflow) := by
  have above' : (i64Max : ℚ) < n := by exact_mod_cast above
  exact above'.trans_le reached

theorem fraction_range {frac : List UInt8} (digits : ∀ b ∈ frac, isDigit b = true) :
    0 ≤ fraction frac ∧ fraction frac < 1 := by
  induction frac with
  | nil => simp [fraction]
  | cons c frac ih =>
    obtain ⟨first, others⟩ := forall_mem_cons.mp digits
    obtain ⟨low, high⟩ := ih others
    have small : digit c ≤ 9 := by
      simp only [isDigit, Bool.and_eq_true, decide_eq_true_eq] at first
      exact sub_le_of_le_add first.2
    have small' : (digit c : ℚ) ≤ 9 := by exact_mod_cast small
    rw [fraction]
    constructor <;> linarith

theorem addFrac_one {frac : List UInt8} (digits : ∀ b ∈ frac, isDigit b = true) (out : Nat) :
    addFrac frac 1 out = if fraction frac = 0 then .ok out else .error .invalid := by
  induction frac with
  | nil => rfl
  | cons c frac ih =>
    obtain ⟨_, others⟩ := forall_mem_cons.mp digits
    have low := (fraction_range others).1
    rw [addFrac, if_pos rfl, fraction, ih others]
    by_cases zero : digit c = 0
    · simp [zero]
    · have positive : (0 : ℚ) < digit c := by exact_mod_cast pos_of_ne_zero zero
      rw [if_pos zero, if_neg (by linarith)]

-- the place goes down with the digits: those left are worth their fraction at it
theorem addFrac_outcome {frac : List UInt8} (digits : ∀ b ∈ frac, isDigit b = true) {out : Nat}
    (fits : out ≤ i64Max) (j : Nat) : Outcome (out + fraction frac * 10 ^ j) (addFrac frac (10 ^ j) out) := by
  induction j generalizing frac out with
  | zero =>
    obtain ⟨low, high⟩ := fraction_range digits
    rw [pow_zero, pow_zero, addFrac_one digits]
    split
    · rename_i zero
      exact ⟨by simp [zero], fits⟩
    · rename_i proper
      intro n whole
      have least : out < n + 1 := by
        have least' : (out : ℚ) < n + 1 := by linarith
        exact_mod_cast least'
      have most : n < out + 1 := by
        have most' : (n : ℚ) < out + 1 := by linarith
        exact_mod_cast most'
      rw [show n = out by omega] at whole
      exact proper (by linarith)
  | succ j ih =>
    cases frac with
    | nil => exact ⟨by simp [fraction], fits⟩
    | cons c frac =>
      obtain ⟨_, others⟩ := forall_mem_cons.mp digits
      have rest : (0 : ℚ) ≤ fraction frac * 10 ^ j := mul_nonneg (fraction_range others).1 (by positivity)
      have place : 10 ^ (j + 1) / 10 = 10 ^ j := by rw [pow_succ, Nat.mul_div_cancel _ (by omega)]
      have worth : (out : ℚ) + fraction (c :: frac) * 10 ^ (j + 1) =
          (out + digit c * 10 ^ j : Nat) + fraction frac * 10 ^ j := by
        rw [fraction]
        push_cast
        ring
      rw [addFrac, if_neg (by simp), place, worth]
      dsimp only
      split
      · rename_i bound
        exact ih others bound.2
      · have above : i64Max < out + digit c * 10 ^ j := by omega
        exact .over above (by linarith)

theorem splitOnce_iff {s whole frac : List UInt8} (plain : ∀ b ∈ whole, b ≠ byte '.') :
    splitOnce s = (whole, frac) ↔ s = whole ∧ frac = [] ∨ s = whole ++ byte '.' :: frac := by
  induction s generalizing whole with
  | nil => cases whole <;> simp [splitOnce]
  | cons b s ih =>
    cases whole with
    | nil => by_cases point : b = byte '.' <;> simp [splitOnce, point]
    | cons first whole =>
      obtain ⟨other, plain⟩ := forall_mem_cons.mp plain
      have rest := ih plain
      by_cases same : b = first
      · subst same
        simp only [splitOnce, if_neg other, Prod.mk.injEq, cons.injEq, true_and, cons_append]
        rw [← rest, Prod.ext_iff]
      · by_cases point : b = byte '.' <;> simp [splitOnce, point, same, Ne.symm other]

/-- A string that spells a number gets what its exact number of units gets; any other is invalid. -/
theorem parseDecimalNanos_exact (s : List UInt8) (k : Nat) : (∀ whole frac, Spells s whole frac →
      Outcome ((value whole + fraction frac) * 10 ^ k) (parseDecimalNanos s (10 ^ k))) ∧
    ((∀ whole frac, ¬ Spells s whole frac) → parseDecimalNanos s (10 ^ k) = .error .invalid) := by
  have plain {whole : List UInt8} (digits : ∀ b ∈ whole, isDigit b = true) : ∀ b ∈ whole, b ≠ byte '.' := by
    intro b member point
    have digit := digits b member
    rw [point] at digit
    cases digit
  constructor
  · intro whole frac spells
    obtain ⟨first, second⟩ := forall_mem_append.mp spells.digits
    rw [parseDecimalNanos, (splitOnce_iff (plain first)).mpr spells.shape]
    dsimp only
    rw [if_neg (by simpa [spells.some] using first), if_neg (by simpa using second), add_mul]
    have rest : 0 ≤ fraction frac * 10 ^ k := mul_nonneg (fraction_range second).1 (by positivity)
    split
    · rename_i bound
      have outcome := addFrac_outcome second bound.2 k
      push_cast at outcome
      exact outcome
    · have above : i64Max < value whole * 10 ^ k := by
        have unit := Nat.le_mul_of_pos_right (value whole) (pow_pos (n := k) (show 0 < 10 by omega))
        omega
      exact .over above (by push_cast; linarith)
  · intro none
    rw [parseDecimalNanos]
    dsimp only
    split
    · rfl
    · rename_i first
      split
      · rfl
      · rename_i second
        simp only [Bool.or_eq_true, List.isEmpty_iff, Bool.not_eq_true', not_or, Bool.not_eq_false, all_eq_true]
          at first second
        refine absurd ⟨first.1, forall_mem_append.mpr ⟨first.2, second⟩, ?_⟩ (none _ _)
        exact (splitOnce_iff (plain first.2)).mp rfl

end Logit.Time
