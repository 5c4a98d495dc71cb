import Mathlib

namespace Buckets

open Finsupp List

/-- Counts at consecutive indices from `first` on, as a finitely supported function of the index. -/
noncomputable def row (first : ℤ) : List ℕ → ℤ →₀ ℤ
  | [] => 0
  | c :: cs => Finsupp.single first (c : ℤ) + row (first + 1) cs

variable (first : ℤ)

@[simp] theorem row_nil : row first [] = 0 := rfl

@[simp] theorem row_cons (c : ℕ) (cs : List ℕ) :
    row first (c :: cs) = Finsupp.single first (c : ℤ) + row (first + 1) cs := rfl

/-- The count of one index: zero outside the row. -/
theorem row_apply (cs : List ℕ) (j : ℤ) :
    row first cs j = if j < first then 0 else (cs.getD (j - first).toNat 0 : ℤ) := by
  induction cs generalizing first with
  | nil => simp
  | cons c cs ih =>
    rw [row_cons, Finsupp.add_apply, ih, Finsupp.single_apply]
    rcases lt_trichotomy j first with before | rfl | after
    · have other : first ≠ j := by omega
      have earlier : j < first + 1 := by omega
      simp [before, other, earlier]
    · simp
    · have other : first ≠ j := by omega
      have kept : ¬ j < first := by omega
      have later : ¬ j < first + 1 := by omega
      have place : (j - first).toNat = (j - (first + 1)).toNat + 1 := by omega
      simp [other, kept, later, place]

/-- A row as the sum of its buckets, each at its place after a map of the indices. -/
theorem mapDomain_row {ι : Type*} (f : ℤ → ι) (first : ℤ) (cs : List ℕ) : (row first cs).mapDomain f =
      (cs.zipIdx.map fun b => Finsupp.single (f (first + b.2)) (b.1 : ℤ)).sum := by
  have shifted : ∀ n : ℕ, (row (first + n) cs).mapDomain f =
      ((cs.zipIdx n).map fun b => Finsupp.single (f (first + b.2)) (b.1 : ℤ)).sum := by
    induction cs with
    | nil => simp
    | cons c cs ih =>
      intro n
      have later := ih (n + 1)
      push_cast at later
      rw [row_cons, mapDomain_add, mapDomain_single, zipIdx_cons, map_cons, List.sum_cons, ← later, add_assoc first]
  simpa using shifted 0

theorem row_replicate (n : ℕ) : row first (replicate n 0) = 0 := by
  induction n generalizing first with
  | zero => rfl
  | succ n ih => simp [replicate_succ, ih]

/-- Adding to one bucket of the row adds at that bucket's index. -/
theorem row_modify {cs : List ℕ} {i : ℕ} (inside : i < cs.length) (first : ℤ) (c : ℕ) :
    row first (cs.modify i (· + c)) = row first cs + Finsupp.single (first + i) (c : ℤ) := by
  induction cs generalizing first i with
  | nil => simp at inside
  | cons d ds ih =>
    cases i with
    | zero =>
      simp only [modify_zero_cons, row_cons, Nat.cast_add, single_add]
      abel_nf
    | succ i =>
      have later := ih (i := i) (by simpa using inside) (first + 1)
      have place : first + 1 + i = first + ((i + 1 : ℕ) : ℤ) := by push_cast; ring
      rw [modify_succ_cons, row_cons, later, row_cons, place, add_assoc]

theorem sum_modify {cs : List ℕ} {i : ℕ} (inside : i < cs.length) (c : ℕ) :
    (cs.modify i (· + c)).sum = cs.sum + c := by
  induction cs generalizing i with
  | nil => simp at inside
  | cons d ds ih =>
    cases i with
    | zero => simp; omega
    | succ i =>
      have later := ih (i := i) (by simpa using inside)
      simp [later]
      omega

/-- Of two rows, the one with the smaller total holds less somewhere. -/
theorem exists_lt_of_sum_lt {as bs : List ℕ} (less : bs.sum < as.sum) : ∃ i, bs.getD i 0 < as.getD i 0 := by
  induction as generalizing bs with
  | nil => simp at less
  | cons a as ih =>
    by_cases first : bs.getD 0 0 < a
    · exact ⟨0, by simpa using first⟩
    · obtain ⟨i, below⟩ := @ih bs.tail (by cases bs <;> simp at less first ⊢ <;> omega)
      exact ⟨i + 1, by cases bs <;> simpa using below⟩

end Buckets
