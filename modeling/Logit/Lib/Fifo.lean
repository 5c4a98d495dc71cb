import Mathlib

/-- A queue by its history: everything that was put in, and how much of it was taken out. -/
structure Fifo (α : Type) where
  items : List α
  taken : Nat

namespace Fifo

open List

variable {α β : Type}

/-- What is seen at a queue's ends. A look is at the item that `n` others come before. -/
inductive Act (α β : Type)
  | put (a : α)
  | take (b : β)
  | look (n : Nat) (b : β)

def Act.putItem : Act α β → Option α
  | .put a => some a
  | _ => none

def Act.taken : Act α β → Option β
  | .take b => some b
  | _ => none

def puts (acts : List (Act α β)) : List α := acts.filterMap Act.putItem

def takes (acts : List (Act α β)) : List β := acts.filterMap Act.taken

variable (value : α → β)

inductive Step : Fifo α → Act α β → Fifo α → Prop
  | put {items : List α} {taken : Nat} (a : α) : Step ⟨items, taken⟩ (.put a) ⟨items ++ [a], taken⟩
  | take {items : List α} {taken : Nat} {a : α} :
      items[taken]? = some a → Step ⟨items, taken⟩ (.take (value a)) ⟨items, taken + 1⟩
  | look {q : Fifo α} {n : Nat} {a : α} :
      q.items[q.taken + n]? = some a → Step q (.look n (value a)) q

inductive Run : Fifo α → List (Act α β) → Fifo α → Prop
  | start (q : Fifo α) : Run q [] q
  | next {q q' q'' : Fifo α} {act : Act α β} {acts : List (Act α β)} :
      Step value q act q' → Run q' acts q'' → Run q (act :: acts) q''

variable {value} {q q' q'' : Fifo α} {act : Act α β} {acts more : List (Act α β)}

theorem Run.append (first : Run value q acts q') (second : Run value q' more q'') :
    Run value q (acts ++ more) q'' := by
  induction first with
  | start => exact second
  | next step _ ih => exact .next step (ih second)

theorem Run.single (step : Step value q act q') : Run value q [act] q' := .next step (.start q')

theorem Run.split (run : Run value q (acts ++ more) q'') : ∃ q', Run value q acts q' ∧ Run value q' more q'' := by
  induction acts generalizing q with
  | nil => exact ⟨q, .start q, run⟩
  | cons act acts ih =>
    cases run with
    | next step rest =>
      obtain ⟨q', first, second⟩ := ih rest
      exact ⟨q', .next step first, second⟩

theorem Step.items (step : Step value q act q') : q'.items = q.items ++ puts [act] := by
  cases step with
  | put => rfl
  | take | look => exact (append_nil _).symm

theorem Step.taken (step : Step value q act q') : q'.taken = q.taken + (takes [act]).length := by
  cases step <;> rfl

theorem Run.items (run : Run value q acts q') : q'.items = q.items ++ puts acts := by
  induction run with
  | start q => exact (append_nil _).symm
  | @next q q' q'' act acts step _ ih =>
    have first := step.items
    have split : puts (act :: acts) = puts [act] ++ puts acts := by
      rw [puts, puts, puts, ← filterMap_append, singleton_append]
    rw [ih, first, split, append_assoc]

theorem takes_cons (act : Act α β) (acts : List (Act α β)) : takes (act :: acts) = takes [act] ++ takes acts := by
  rw [takes, takes, takes, ← filterMap_append, singleton_append]

theorem Run.taken (run : Run value q acts q') : q'.taken = q.taken + (takes acts).length := by
  induction run with
  | start q => rfl
  | @next q q' q'' act acts step _ ih => rw [ih, step.taken, takes_cons act acts, length_append, Nat.add_assoc]

/-- What a run takes is what the queue held past its start, in order. -/
theorem Run.takes (run : Run value q acts q') : takes acts <+: (q'.items.drop q.taken).map value := by
  induction run with
  | start q => exact nil_prefix
  | @next q q' q'' act acts step rest ih =>
    have grown : q''.items = q.items ++ (puts [act] ++ puts acts) := by rw [rest.items, step.items, append_assoc]
    cases step with
    | put a => exact ih
    | look found => exact ih
    | @take items taken a found =>
      obtain ⟨bound, rfl⟩ := List.getElem?_eq_some_iff.mp found
      have inside : taken < q''.items.length := by
        rw [grown, List.length_append]
        exact Nat.lt_add_right _ bound
      have same : q''.items[taken] = items[taken] := by
        simp only [grown]
        exact getElem_append_left bound
      rw [drop_eq_getElem_cons inside, map_cons, same]
      exact (prefix_cons_inj _).mpr ih

/-- A look sees the item that `n` others come before, of those put in and not taken. -/
theorem Run.look {n : Nat} {b : β} (run : Run value q (acts ++ .look n b :: more) q') :
    ((q.items ++ puts acts)[q.taken + (Fifo.takes acts).length + n]?).map value = some b := by
  obtain ⟨middle, before, after⟩ := run.split
  cases after with
  | next step _ =>
    cases step with
    | look found =>
      rw [before.items, before.taken] at found
      rw [found]
      rfl

end Fifo
