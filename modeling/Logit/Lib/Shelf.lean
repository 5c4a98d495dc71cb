import Mathlib

namespace Logit.Shelf

open List Function

variable {ι α : Type*} [DecidableEq ι]

/-- What the places of a row hold, in the order of the row. -/
def listing (row : List ι) (held : ι → Option α) : List α := row.filterMap held

/-- Empties a place. -/
def clear (held : ι → Option α) (place : ι) : ι → Option α := Function.update held place none

/-- Moves what one place holds to another, over what that one held. -/
def move (held : ι → Option α) (source target : ι) : ι → Option α :=
  Function.update (Function.update held target (held source)) source none

section

variable {held other : ι → Option α} {source target place : ι}

@[simp] theorem clear_same : clear held place place = none := update_self ..

theorem clear_of_ne {p : ι} (different : p ≠ place) : clear held place p = held p :=
  update_of_ne different ..

@[simp] theorem move_source : move held source target source = none := update_self ..

theorem move_target (different : target ≠ source) : move held source target target = held source := by
  rw [move, update_of_ne different, update_self]

theorem move_of_ne {p : ι} (notSource : p ≠ source) (notTarget : p ≠ target) :
    move held source target p = held p := by rw [move, update_of_ne notSource, update_of_ne notTarget]

end

omit [DecidableEq ι] in
theorem listing_append (row more : List ι) (held : ι → Option α) :
    listing (row ++ more) held = listing row held ++ listing more held :=
  filterMap_append

variable {row : List ι}

omit [DecidableEq ι] in
theorem listing_congr {held other : ι → Option α} (same : ∀ place ∈ row, other place = held place) :
    listing row other = listing row held :=
  filterMap_congr same

omit [DecidableEq ι] in
theorem listing_empty {held : ι → Option α} (empty : ∀ place ∈ row, held place = none) : listing row held = [] :=
  filterMap_eq_nil_iff.mpr empty

omit [DecidableEq ι] in
theorem length_listing {held : ι → Option α} (full : ∀ place ∈ row, (held place).isSome) :
    (listing row held).length = row.length := by
  induction row with
  | nil => rfl
  | cons place row ih =>
    obtain ⟨x, here⟩ := Option.isSome_iff_exists.mp (full place mem_cons_self)
    have rest := ih fun p mem => full p (mem_cons_of_mem _ mem)
    simp only [listing, filterMap_cons_some here, length_cons] at rest ⊢
    omega

omit [DecidableEq ι] in
/-- What is listed changes as each thing does. -/
theorem listing_map (row : List ι) (held : ι → Option α) (change : α → α) :
    listing row (fun place => (held place).map change) = (listing row held).map change := by
  simp [listing, map_filterMap]

/-- Moving a thing one place forward, to an empty place, changes nothing in the listing. -/
theorem listing_move {before after : List ι} {source target : ι} {held : ι → Option α}
    (distinct : (before ++ target :: source :: after).Nodup) (vacant : held target = none) :
    listing (before ++ target :: source :: after) (move held source target) =
      listing (before ++ target :: source :: after) held := by
  obtain ⟨-, rest, apart⟩ := nodup_append.mp distinct
  simp only [nodup_cons, mem_cons, not_or] at rest
  obtain ⟨⟨different, notAfter⟩, notLater, -⟩ := rest
  have front : listing before (move held source target) = listing before held := by
    refine listing_congr fun p mem => move_of_ne ?_ ?_
    · exact apart p mem source (by simp)
    · exact apart p mem target (by simp)
  have back : listing after (move held source target) = listing after held := by
    refine listing_congr fun p mem => move_of_ne ?_ ?_
    · rintro rfl
      exact notLater mem
    · rintro rfl
      exact notAfter mem
  have pair : listing [target, source] (move held source target) = listing [target, source] held := by
    simp [listing, filterMap_cons, filterMap_nil, move_target different, move_source, vacant]
  have split : before ++ target :: source :: after = before ++ ([target, source] ++ after) := rfl
  rw [split, listing_append, listing_append, listing_append, listing_append, front, pair, back]

/-- Emptying the first place of a row drops at most the first thing listed. -/
theorem listing_clear_head {place : ι} {held : ι → Option α} (distinct : (place :: row).Nodup) :
    listing (place :: row) (clear held place) =
      (listing (place :: row) held).drop (if (held place).isSome then 1 else 0) := by
  have rest : listing row (clear held place) = listing row held := by
    refine listing_congr fun p mem => clear_of_ne ?_
    rintro rfl
    exact (nodup_cons.mp distinct).1 mem
  rw [listing, filterMap_cons_none clear_same]
  rcases Option.eq_none_or_eq_some (held place) with empty | ⟨x, full⟩
  · rw [listing, filterMap_cons_none empty, empty]
    exact rest
  · rw [listing, filterMap_cons_some full, full]
    exact rest

end Logit.Shelf
