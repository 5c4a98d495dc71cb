import Mathlib

/-- Entries that are stored one after another over numbered segments: the segment each went to, and
the contents it takes there. -/
structure SegmentedLog (α β : Type) where
  segment : α → Nat
  contents : α → List β
  nonempty : ∀ a, 0 < (contents a).length

namespace SegmentedLog

open List

variable {α β : Type} (L : SegmentedLog α β)

/-- What a log leaves in a segment. -/
def content (log : List α) (s : Nat) : List β := (log.filter fun a => L.segment a = s).flatMap L.contents

/-- The position `offset` of segment `s` is where the log's entry `i` starts, or would start: every
entry before it lies there or in an earlier segment, and none after it in an earlier one. -/
structure At (log : List α) (s offset i : Nat) : Prop where
  bound : i ≤ log.length
  before : ∀ a ∈ log.take i, L.segment a ≤ s
  after : ∀ a ∈ log.drop i, s ≤ L.segment a
  offset : offset = (L.content (log.take i) s).length

variable {L} {log : List α} {s t offset i j : Nat} {a : α}

@[simp] theorem content_nil (s : Nat) : L.content [] s = [] := rfl

theorem content_append (log more : List α) (s : Nat) :
    L.content (log ++ more) s = L.content log s ++ L.content more s := by
  rw [content, filter_append, flatMap_append, content, content]

theorem content_cons_here (here : L.segment a = s) (others : List α) :
    L.content (a :: others) s = L.contents a ++ L.content others s := by
  rw [content, filter_cons_of_pos (by simpa using here), flatMap_cons, content]

theorem content_cons_elsewhere (elsewhere : L.segment a ≠ s) (others : List α) :
    L.content (a :: others) s = L.content others s := by
  rw [content, filter_cons_of_neg (by simpa using elsewhere), content]

theorem content_eq_nil (elsewhere : ∀ a ∈ log, L.segment a ≠ s) : L.content log s = [] := by
  have none : (log.filter fun a => L.segment a = s) = [] := by simpa [filter_eq_nil_iff] using elsewhere
  rw [content, none, flatMap_nil]

theorem not_mem_of_content_eq_nil (empty : L.content log s = []) : ∀ a ∈ log, L.segment a ≠ s := by
  intro a mem here
  rw [content, flatMap_eq_nil_iff] at empty
  have none := empty a (mem_filter.mpr ⟨mem, by simpa using here⟩)
  have some := L.nonempty a
  rw [none] at some
  exact absurd some (by simp)

theorem content_split (log : List α) (s i : Nat) :
    L.content log s = L.content (log.take i) s ++ L.content (log.drop i) s := by
  rw [← content_append, take_append_drop]

namespace At

theorem le_content (here : L.At log s offset i) : offset ≤ (L.content log s).length := by
  rw [here.offset, content_split log s i, length_append]
  omega

/-- What a segment holds from a position on. -/
theorem drop_content (here : L.At log s offset i) : (L.content log s).drop offset = L.content (log.drop i) s := by
  rw [content_split log s i, drop_left' here.offset.symm]

theorem drop_of_getElem? (found : log[i]? = some a) : log.drop i = a :: log.drop (i + 1) := by
  obtain ⟨bound, rfl⟩ := List.getElem?_eq_some_iff.mp found
  exact drop_eq_getElem_cons bound

theorem take_of_getElem? (found : log[i]? = some a) : log.take (i + 1) = log.take i ++ [a] := by
  obtain ⟨bound, rfl⟩ := List.getElem?_eq_some_iff.mp found
  rw [take_succ_eq_append_getElem bound]

variable (here : L.At log s offset i)
include here

/-- From the start of an entry in its own segment to the start of the next. -/
theorem next (found : log[i]? = some a) (inside : L.segment a = s) :
    L.At log s (offset + (L.contents a).length) (i + 1) := by
  have bound := (List.getElem?_eq_some_iff.mp found).1
  refine ⟨bound, ?_, ?_, ?_⟩
  · intro b mem
    rw [take_of_getElem? found, mem_append, mem_singleton] at mem
    rcases mem with old | rfl
    · exact here.before b old
    · exact le_of_eq inside
  · intro b mem
    refine here.after b ?_
    rw [drop_of_getElem? found]
    exact mem_cons_of_mem _ mem
  · rw [take_of_getElem? found, content_append, length_append, ← here.offset,
      content_cons_here inside, content_nil, append_nil]

/-- A position holds what its entry left there. -/
theorem drop_content_next (found : log[i]? = some a) (inside : L.segment a = s) :
    (L.content log s).drop offset = L.contents a ++ L.content (log.drop (i + 1)) s := by
  rw [here.drop_content, drop_of_getElem? found, content_cons_here inside]

/-- The end of a segment is also the start of any later one that no entry comes before. -/
theorem roll (later : s < t) (after : ∀ a ∈ log.drop i, t ≤ L.segment a) : L.At log t 0 i := by
  refine ⟨here.bound, fun a mem => le_trans (here.before a mem) later.le, after, ?_⟩
  have elsewhere : ∀ a ∈ log.take i, L.segment a ≠ t := by
    intro a mem same
    have old := here.before a mem
    omega
  rw [content_eq_nil elsewhere, length_nil]

/-- Past all that a segment holds, every entry to come lies in a later one. -/
theorem later_of_end (full : (L.content log s).length ≤ offset) : ∀ a ∈ log.drop i, s < L.segment a := by
  have none : L.content (log.drop i) s = [] := by rw [← here.drop_content, drop_eq_nil_of_le full]
  intro a mem
  have elsewhere := not_mem_of_content_eq_nil none a mem
  have after := here.after a mem
  omega

/-- A position is the start of one entry only. -/
theorem unique (there : L.At log s offset j) : i = j := by
  have ordered {i j : Nat} (here : L.At log s offset i) (there : L.At log s offset j) (le : i ≤ j) : i = j := by
    by_contra different
    have bound := there.bound
    obtain ⟨a, found⟩ : ∃ a, log[i]? = some a := ⟨_, getElem?_eq_getElem (by omega)⟩
    have within : a ∈ log.take j := by
      obtain ⟨small, rfl⟩ := List.getElem?_eq_some_iff.mp found
      rw [mem_take_iff_getElem]
      exact ⟨i, by omega, rfl⟩
    have beyond : a ∈ log.drop i := by
      rw [drop_of_getElem? found]
      exact mem_cons_self
    have inside := le_antisymm (there.before a within) (here.after a beyond)
    have longer : (L.content (log.take (i + 1)) s).length ≤ (L.content (log.take j) s).length := by
      rw [content_split (log.take j) s (i + 1), take_take, Nat.min_eq_left (by omega), length_append]
      omega
    have step := (here.next found inside).offset
    have some := L.nonempty a
    have same := there.offset
    omega
  rcases Nat.le_total i j with le | le
  · exact ordered here there le
  · exact (ordered there here le).symm

theorem append (later : s ≤ L.segment a) : L.At (log ++ [a]) s offset i := by
  have same : (log ++ [a]).take i = log.take i := take_append_of_le_length here.bound
  refine ⟨by rw [length_append]; have := here.bound; omega, ?_, ?_, ?_⟩
  · rw [same]
    exact here.before
  · rw [drop_append_of_le_length here.bound]
    intro b mem
    rcases mem_append.mp mem with old | new
    · exact here.after b old
    · rw [mem_singleton.mp new]
      exact later
  · rw [same]
    exact here.offset

/-- A position whose segment holds more is where some entry of that segment starts. -/
theorem exists_of_lt (more : offset < (L.content log s).length) (ordered : (log.map L.segment).Pairwise (· ≤ ·)) :
    ∃ a, log[i]? = some a ∧ L.segment a = s := by
  by_cases bound : i < log.length
  · refine ⟨log[i], getElem?_eq_getElem bound, ?_⟩
    by_contra elsewhere
    have found := getElem?_eq_getElem bound
    have after : s ≤ L.segment log[i] := here.after _ (by
      rw [drop_of_getElem? found]
      exact mem_cons_self)
    have none : L.content (log.drop i) s = [] := by
      refine content_eq_nil fun b mem => ?_
      have rest : ((log.drop i).map L.segment).Pairwise (· ≤ ·) := by
        rw [map_drop]
        exact ordered.sublist (drop_sublist i _)
      rw [drop_of_getElem? found] at mem rest
      rcases mem_cons.mp mem with rfl | later
      · exact elsewhere
      · have least := (pairwise_cons.mp rest).1 _ (mem_map_of_mem later)
        omega
    have long := congrArg length here.drop_content
    rw [none, length_drop, length_nil] at long
    omega
  · have none : log.drop i = [] := drop_eq_nil_of_le (by omega)
    have rest := congrArg length here.drop_content
    rw [none, content_nil, length_drop, length_nil] at rest
    omega

end At

end SegmentedLog
