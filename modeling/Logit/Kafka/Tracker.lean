import Logit.Lib.RangeMap

namespace Logit.Kafka.Consumer

open RangeMap Set List

/-- One partition's commit candidate, and the done ranges above it. -/
structure Tracker where
  candidate : Int
  done : List (Int × Int)
  /-- The offset the last successful commit carried, if any. -/
  committed : Option Int
  ordered : Ordered done
  apart : ∀ range ∈ done, candidate < range.1

namespace Tracker

def new (position : Int) (committed : Option Int) : Tracker := ⟨position, [], committed, List.Pairwise.nil, by simp⟩

/-- Marks a range done and moves the candidate across every contiguous done range. -/
def mark (t : Tracker) (range : Int × Int) : Tracker :=
  if range.2 ≤ range.1 ∨ range.2 ≤ t.candidate then t
  else
    let moved := absorb t.candidate (extend range.1 range.2 t.done)
    { candidate := moved.1
      done := moved.2
      committed := t.committed
      ordered := t.ordered.extend.sublist (absorb_suffix _ _).sublist
      apart := t.ordered.extend.absorb_gap t.candidate }

variable (t : Tracker)

theorem apart_below (position : Int) : ∀ range ∈ below position t.done, min t.candidate position < range.1 := by
  intro range mem
  obtain ⟨old, held, rfl⟩ := mem_map.mp mem
  exact (min_le_left _ _).trans_lt (t.apart old (mem_filter.mp held).1)

/-- Moves the candidate down to a position it is above, and forgets what was done from there on. -/
def reset (t : Tracker) (position : Int) : Tracker where
  candidate := min t.candidate position
  done := below position t.done
  committed := t.committed
  ordered := t.ordered.below position
  apart := t.apart_below position

def commit (t : Tracker) (offset : Int) : Tracker := { t with committed := some offset }

def offsets (t : Tracker) : Set Int := Set.Iio t.candidate ∪ points t.done

theorem isLeast_candidate : IsLeast t.offsetsᶜ t.candidate := by
  constructor
  · rintro (below | ⟨range, mem, first, -⟩)
    · exact lt_irrefl _ (mem_Iio.mp below)
    · exact not_lt.mpr first (t.apart range mem)
  · intro o undone
    exact not_lt.mp fun below => undone (.inl below)

@[simp]
theorem offsets_new (position : Int) (committed : Option Int) :
    (new position committed).offsets = Set.Iio position := by simp [new, offsets]

theorem offsets_mark (range : Int × Int) : (t.mark range).offsets = t.offsets ∪ Set.Ico range.1 range.2 := by
  unfold mark
  split
  case isTrue nothing =>
    refine (union_eq_left.mpr ?_).symm
    rintro o ⟨first, last⟩
    left
    rw [mem_Iio]
    omega
  case isFalse =>
    dsimp only [offsets]
    rw [points_absorb, points_extend, union_assoc]

theorem offsets_reset (position : Int) : (t.reset position).offsets = t.offsets ∩ Set.Iio position := by
  have lowered :
      Set.Iio (min t.candidate position) = Set.Iio t.candidate ∩ Set.Iio position := Set.Iio_inter_Iio.symm
  simp only [offsets, reset, points_below, lowered, union_inter_distrib_right]

end Tracker

end Logit.Kafka.Consumer
