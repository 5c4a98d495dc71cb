import Mathlib

namespace Logit

open List Nat Option

/-- A growable set of numbers, kept as the bits of words of `w` bits. -/
structure WordSet (w : Nat) where
  words : List (BitVec w)

namespace WordSet

variable {w : Nat}

def empty : WordSet w := ⟨[]⟩

variable (words : List (BitVec w))

/-- The words, extended by zeros to more than `n` of them. -/
def grow (n : Nat) : List (BitVec w) :=
  if words.length ≤ n then words ++ List.replicate (n + 1 - words.length) 0 else words

def set (s : WordSet w) (index : Nat) : WordSet w :=
  ⟨(grow s.words (index / w)).modify (index / w) (· ||| BitVec.twoPow w (index % w))⟩

def get (s : WordSet w) (index : Nat) : Bool :=
  match s.words[index / w]? with
  | some word => word.getLsbD (index % w)
  | none => false

def any (s : WordSet w) : Bool := s.words.any (· != 0)

@[simp] theorem get_empty (index : Nat) : (empty : WordSet w).get index = false := rfl

@[simp] theorem any_empty : (empty : WordSet w).any = false := rfl

theorem grow_get (n index : Nat) :
    (⟨grow words n⟩ : WordSet w).get index = (⟨words⟩ : WordSet w).get index := by
  unfold grow
  split
  · by_cases inside : index / w < words.length
    · simp [get, getElem?_append_left inside]
    · have outside : words[index / w]? = none := getElem?_eq_none (by omega)
      simp only [get, getElem?_append_right (Nat.le_of_not_lt inside), outside]
      by_cases short : index / w - words.length < n + 1 - words.length
      · simp [short]
      · simp [short]
  · rfl

theorem length_grow (n : Nat) : n < (grow words n).length := by
  unfold grow
  split
  · rw [length_append, length_replicate]
    omega
  · omega

/-- A set has the number put into it and those it had. -/
theorem get_set (wide : 0 < w) (s : WordSet w) (index other : Nat) :
    (s.set index).get other = (decide (other = index) || s.get other) := by
  rw [show s.get other = (⟨grow s.words (index / w)⟩ : WordSet w).get other from
    (grow_get s.words (index / w) other).symm]
  have room := length_grow s.words (index / w)
  simp only [get, set, getElem?_modify]
  by_cases same : index / w = other / w
  · rw [← same, getElem?_eq_getElem room]
    have bits : other = index ↔ other % w = index % w := by
      constructor
      · rintro rfl
        rfl
      · intro rest
        have here := div_add_mod other w
        have there := div_add_mod index w
        rw [← same] at here
        omega
    have low := mod_lt index wide
    simp only [if_true, Option.map_eq_map, map_some, BitVec.getLsbD_or, BitVec.getLsbD_twoPow, bits,
      low, eq_comm (a := index % w)]
    exact Bool.or_comm ..
  · have different : other ≠ index := by
      rintro rfl
      exact same rfl
    simp [same, different]

theorem any_iff (wide : 0 < w) (s : WordSet w) : s.any = true ↔ ∃ index, s.get index = true := by
  constructor
  · intro found
    obtain ⟨word, mem, nonzero⟩ := any_eq_true.mp found
    obtain ⟨i, bound, rfl⟩ := getElem_of_mem mem
    have bit : ∃ j, (s.words[i]).getLsbD j = true := by
      by_contra none
      push Not at none
      refine bne_iff_ne.mp nonzero (BitVec.eq_of_getLsbD_eq fun j _ => ?_)
      simpa using none j
    obtain ⟨j, set⟩ := bit
    have low : j < w := by
      by_contra high
      rw [BitVec.getLsbD_of_ge _ _ (by omega)] at set
      cases set
    refine ⟨w * i + j, ?_⟩
    have quotient : (w * i + j) / w = i := by rw [mul_add_div wide, div_eq_of_lt low, add_zero]
    have rest : (w * i + j) % w = j := by rw [mul_add_mod, mod_eq_of_lt low]
    simp [get, quotient, rest, getElem?_eq_getElem bound, set]
  · rintro ⟨index, found⟩
    rcases eq_none_or_eq_some s.words[index / w]? with outside | ⟨word, inside⟩
    · simp [get, outside] at found
    · simp only [get, inside] at found
      refine any_eq_true.mpr ⟨word, mem_of_getElem? inside, bne_iff_ne.mpr ?_⟩
      rintro rfl
      simp at found

end WordSet

end Logit
