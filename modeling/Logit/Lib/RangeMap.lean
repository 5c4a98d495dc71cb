import Mathlib

namespace RangeMap

open List

variable {α : Type*} [LinearOrder α]

/-- The points of a list of ranges, each from its start up to its end. -/
def points (ranges : List (α × α)) : Set α := {o | ∃ range ∈ ranges, range.1 ≤ o ∧ o < range.2}

@[simp]
theorem points_nil : points ([] : List (α × α)) = ∅ := by
  simp [points]

@[simp]
theorem points_cons (range : α × α) (ranges : List (α × α)) :
    points (range :: ranges) = Set.Ico range.1 range.2 ∪ points ranges := by
  ext o
  simp [points]

/-- An ordered map from the starts of ranges to their ends. -/
abbrev Ordered (ranges : List (α × α)) : Prop := ranges.Pairwise (·.1 < ·.1)

/-- Enters a range: one that starts where an entry does lengthens it. -/
def extend (start stop : α) : List (α × α) → List (α × α)
  | [] => [(start, stop)]
  | range :: ranges =>
    if start < range.1 then (start, stop) :: range :: ranges
    else if start = range.1 then (range.1, max range.2 stop) :: ranges
    else range :: extend start stop ranges

theorem points_extend (start stop : α) (ranges : List (α × α)) :
    points (extend start stop ranges) = points ranges ∪ Set.Ico start stop := by
  induction ranges with
  | nil => simp [extend]
  | cons range ranges ih =>
    by_cases before : start < range.1
    · rw [extend, if_pos before, points_cons, Set.union_comm]
    · by_cases same : start = range.1
      · have longer : Set.Ico range.1 (max range.2 stop) = Set.Ico range.1 range.2 ∪ Set.Ico range.1 stop := by
          ext o
          simp only [Set.mem_Ico, lt_max_iff, Set.mem_union]
          tauto
        rw [extend, if_neg before, if_pos same, points_cons, points_cons, same, longer, Set.union_right_comm]
      · rw [extend, if_neg before, if_neg same, points_cons, points_cons, ih, Set.union_assoc]

variable {ranges : List (α × α)}

theorem start_of_mem_extend {start stop : α} {entry : α × α} (mem : entry ∈ extend start stop ranges) :
    entry.1 = start ∨ ∃ range ∈ ranges, entry.1 = range.1 := by
  induction ranges with
  | nil =>
    left
    rw [extend, mem_singleton] at mem
    rw [mem]
  | cons range ranges ih =>
    rw [extend] at mem
    split at mem
    · rcases mem_cons.mp mem with new | old
      · left
        rw [new]
      · exact .inr ⟨entry, old, rfl⟩
    · split at mem
      · rcases mem_cons.mp mem with new | old
        · right
          refine ⟨range, mem_cons_self, ?_⟩
          rw [new]
        · exact .inr ⟨entry, mem_cons_of_mem _ old, rfl⟩
      · rcases mem_cons.mp mem with first | later
        · right
          refine ⟨range, mem_cons_self, ?_⟩
          rw [first]
        · rcases ih later with new | ⟨kept, held, same⟩
          · exact .inl new
          · exact .inr ⟨kept, mem_cons_of_mem _ held, same⟩

theorem Ordered.extend {start stop : α} (ordered : Ordered ranges) : Ordered (extend start stop ranges) := by
  induction ranges with
  | nil => exact pairwise_singleton _ _
  | cons range ranges ih =>
    obtain ⟨first, rest⟩ := pairwise_cons.mp ordered
    rw [RangeMap.extend]
    split
    case isTrue before =>
      refine pairwise_cons.mpr ⟨?_, ordered⟩
      intro entry mem
      rcases mem_cons.mp mem with same | later
      · rw [same]
        exact before
      · exact before.trans (first entry later)
    case isFalse notBefore =>
      split
      case isTrue same => exact pairwise_cons.mpr ⟨fun entry later => first entry later, rest⟩
      case isFalse other =>
        refine pairwise_cons.mpr ⟨?_, ih rest⟩
        intro entry mem
        rcases start_of_mem_extend mem with new | ⟨kept, held, same⟩
        · rw [new]
          exact lt_of_le_of_ne (not_lt.mp notBefore) (Ne.symm other)
        · rw [same]
          exact first kept held

/-- Moves a frontier across the ranges that start at or below it. -/
def absorb (frontier : α) : List (α × α) → α × List (α × α)
  | [] => (frontier, [])
  | range :: ranges =>
    if frontier < range.1 then (frontier, range :: ranges) else absorb (max frontier range.2) ranges

/-- What lies below the frontier or in a range stays so: a range that starts below the frontier
reaches no further than the frontier moves. -/
theorem points_absorb (frontier : α) (ranges : List (α × α)) :
    Set.Iio (absorb frontier ranges).1 ∪ points (absorb frontier ranges).2 = Set.Iio frontier ∪ points ranges := by
  induction ranges generalizing frontier with
  | nil => rfl
  | cons range ranges ih =>
    by_cases apart : frontier < range.1
    · rw [absorb, if_pos apart]
    · have reach : Set.Iio (max frontier range.2) = Set.Iio frontier ∪ Set.Ico range.1 range.2 := by
        ext o
        have touching := not_lt.mp apart
        simp only [Set.mem_Iio, lt_max_iff]
        refine or_congr_right' fun above => ?_
        have beyond := touching.trans (not_lt.mp above)
        exact ⟨fun below => ⟨beyond, below⟩, fun inside => inside.2⟩
      rw [absorb, if_neg apart, ih, points_cons, reach, Set.union_assoc]

theorem Ordered.absorb_gap (ordered : Ordered ranges) (frontier : α) :
    ∀ range ∈ (absorb frontier ranges).2, (absorb frontier ranges).1 < range.1 := by
  induction ranges generalizing frontier with
  | nil => simp [absorb]
  | cons range ranges ih =>
    obtain ⟨first, rest⟩ := pairwise_cons.mp ordered
    rw [absorb]
    split
    case isTrue apart =>
      intro entry mem
      rcases mem_cons.mp mem with same | later
      · rw [same]
        exact apart
      · exact apart.trans (first entry later)
    case isFalse => exact ih rest _

theorem absorb_suffix (frontier : α) (ranges : List (α × α)) : (absorb frontier ranges).2 <:+ ranges := by
  induction ranges generalizing frontier with
  | nil => exact suffix_refl _
  | cons range ranges ih =>
    rw [absorb]
    split
    · exact suffix_refl _
    · exact (ih _).trans (suffix_cons _ _)

/-- Forgets every point at or past a bound. -/
def below (bound : α) (ranges : List (α × α)) : List (α × α) :=
  (ranges.filter (·.1 < bound)).map fun range => (range.1, min range.2 bound)

theorem points_below (bound : α) (ranges : List (α × α)) :
    points (below bound ranges) = points ranges ∩ Set.Iio bound := by
  ext o
  simp only [points, below, mem_map, mem_filter, decide_eq_true_eq]
  constructor
  · rintro ⟨_, ⟨range, ⟨mem, _⟩, rfl⟩, from_, upTo⟩
    obtain ⟨inside, under⟩ := lt_min_iff.mp upTo
    exact ⟨⟨range, mem, from_, inside⟩, under⟩
  · rintro ⟨⟨range, mem, from_, inside⟩, under⟩
    exact ⟨_, ⟨range, ⟨mem, from_.trans_lt under⟩, rfl⟩, from_, lt_min inside under⟩

theorem Ordered.below (ordered : Ordered ranges) (bound : α) : Ordered (below bound ranges) :=
  pairwise_map.mpr (ordered.filter _)

/-- Consecutive ranges that lead from one point to another. -/
inductive Tiles : α → α → List (α × α) → Prop
  | nil (a : α) : Tiles a a []
  | cons {a b c : α} {ranges : List (α × α)} : a ≤ b → Tiles b c ranges → Tiles a c ((a, b) :: ranges)

namespace Tiles

variable {a b c : α} {ranges : List (α × α)}

variable (tiles : Tiles a b ranges)
include tiles

theorem le : a ≤ b := by
  induction tiles with
  | nil => exact le_rfl
  | cons forward _ ih => exact forward.trans ih

theorem snoc (forward : b ≤ c) : Tiles a c (ranges ++ [(b, c)]) := by
  induction tiles with
  | nil => exact .cons forward (.nil c)
  | cons first _ ih => exact .cons first (ih forward)

theorem points_eq : points ranges = Set.Ico a b := by
  induction tiles with
  | nil => simp
  | cons forward rest ih => rw [points_cons, ih, Set.Ico_union_Ico_eq_Ico forward rest.le]

theorem start_le : ∀ range ∈ ranges, a ≤ range.1 := by
  induction tiles with
  | nil => simp
  | cons forward _ ih =>
    intro range mem
    rcases mem_cons.mp mem with first | later
    · rw [first]
    · exact forward.trans (ih range later)

theorem pairwise : ranges.Pairwise fun first second => first.2 ≤ second.1 := by
  induction tiles with
  | nil => exact List.Pairwise.nil
  | cons _ rest ih => exact pairwise_cons.mpr ⟨rest.start_le, ih⟩

theorem unique {i j : Nat} {first second : α × α} (one : ranges[i]? = some first)
    (other : ranges[j]? = some second) {o : α} (inFirst : o ∈ Set.Ico first.1 first.2)
    (inSecond : o ∈ Set.Ico second.1 second.2) : i = j := by
  obtain ⟨bound, rfl⟩ := List.getElem?_eq_some_iff.mp one
  obtain ⟨limit, rfl⟩ := List.getElem?_eq_some_iff.mp other
  have apart := pairwise_iff_getElem.mp tiles.pairwise
  rcases Nat.lt_trichotomy i j with before | same | after
  · exact absurd inFirst.2 (not_lt.mpr ((apart i j bound limit before).trans inSecond.1))
  · exact same
  · exact absurd inSecond.2 (not_lt.mpr ((apart j i limit bound after).trans inFirst.1))

end Tiles

end RangeMap
