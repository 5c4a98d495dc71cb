import Mathlib

namespace MergeJoin

open List

variable {α β : Type} [LinearOrder α]

/-- One step of the merge: the entries before the first of the other side, then `rest`. -/
def mergeInto (rest : List (α × β) → List (α × β)) (x : α × β) : List (α × β) → List (α × β)
  | [] => x :: rest []
  | y :: others =>
    if x.1 < y.1 then x :: rest (y :: others)
    else if x.1 = y.1 then y :: rest others
    else y :: mergeInto rest x others

/-- Two sides in the order of their keys, the second one's value winning on an equal key. -/
def merge : List (α × β) → List (α × β) → List (α × β)
  | [], others => others
  | x :: entries, others => mergeInto (merge entries) x others

theorem mergeInto_front {rest : List (α × β) → List (α × β)} {x : α × β} {others : List (α × β)}
    (above : ∀ e ∈ others, x.1 < e.1) : mergeInto rest x others = x :: rest others := by
  cases others with
  | nil => rfl
  | cons y others => exact if_pos (above y mem_cons_self)

theorem merge_nil {entries : List (α × β)} : merge entries [] = entries := by
  induction entries with
  | nil => rfl
  | cons x entries ih => exact congrArg (x :: ·) ih

theorem mem_mergeInto {rest : List (α × β) → List (α × β)} {entries : List (α × β)}
    (inner : ∀ others, ∀ e ∈ rest others, e ∈ entries ∨ e ∈ others) {x : α × β} {others : List (α × β)} :
    ∀ e ∈ mergeInto rest x others, e ∈ x :: entries ∨ e ∈ others := by
  have keep : ∀ {e : α × β} {those more : List (α × β)}, (e ∈ entries ∨ e ∈ those) → (∀ e ∈ those, e ∈ more) →
      e ∈ x :: entries ∨ e ∈ more := by
    intro e those more mem all
    rcases mem with left | right
    · exact .inl (mem_cons_of_mem _ left)
    · exact .inr (all e right)
  induction others with
  | nil =>
    intro e mem
    rcases mem_cons.mp mem with rfl | later
    · exact .inl mem_cons_self
    · exact keep (inner [] e later) (by simp)
  | cons y others ih =>
    intro e mem
    rw [mergeInto] at mem
    split at mem
    · rcases mem_cons.mp mem with rfl | later
      · exact .inl mem_cons_self
      · exact keep (inner _ e later) (by simp)
    · split at mem
      · rcases mem_cons.mp mem with rfl | later
        · exact .inr mem_cons_self
        · exact keep (inner _ e later) (by simp +contextual)
      · rcases mem_cons.mp mem with rfl | later
        · exact .inr mem_cons_self
        · exact (ih e later).imp_right (mem_cons_of_mem _)

theorem mem_merge {entries others : List (α × β)} : ∀ e ∈ merge entries others, e ∈ entries ∨ e ∈ others := by
  induction entries generalizing others with
  | nil => exact fun e mem => .inr mem
  | cons x entries ih => exact mem_mergeInto fun others => @ih others

theorem merge_sorted {entries others : List (α × β)}
    (left : entries.Pairwise fun a b => a.1 < b.1) (right : others.Pairwise fun a b => a.1 < b.1) :
    (merge entries others).Pairwise fun a b => a.1 < b.1 := by
  induction entries generalizing others with
  | nil => exact right
  | cons x entries ih =>
    obtain ⟨above, left⟩ := pairwise_cons.mp left
    show (mergeInto (merge entries) x others).Pairwise _
    -- what is merged later is above both fronts
    have after : ∀ {k : α} {those : List (α × β)}, (∀ e ∈ entries, k < e.1) → (∀ e ∈ those, k < e.1) →
        ∀ e ∈ merge entries those, k < e.1 := by
      intro k those low high e mem
      rcases mem_merge e mem with old | new
      · exact low e old
      · exact high e new
    induction others with
    | nil => exact pairwise_cons.mpr ⟨after above (by simp), ih left right⟩
    | cons y others inner =>
      obtain ⟨beyond, right'⟩ := pairwise_cons.mp right
      rw [mergeInto]
      split
      · rename_i below
        refine pairwise_cons.mpr ⟨after above ?_, ih left right⟩
        exact forall_mem_cons.mpr ⟨below, fun e mem => below.trans (beyond e mem)⟩
      · split
        · rename_i same
          exact pairwise_cons.mpr ⟨after (fun e mem => same ▸ above e mem) beyond, ih left right'⟩
        · rename_i notBelow other
          have below := lt_of_le_of_ne (not_lt.mp notBelow) (Ne.symm other)
          refine pairwise_cons.mpr ⟨?_, inner right'⟩
          intro e mem
          rcases mem_mergeInto (fun _ => mem_merge) e mem with old | new
          · rcases mem_cons.mp old with rfl | later
            · exact below
            · exact below.trans (above e later)
          · exact beyond e new

end MergeJoin
