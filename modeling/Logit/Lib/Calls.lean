import Mathlib

/-- What one poll of a call did to what the calls share, and what is left of the call if it has to
wait. -/
structure Polled (Q C E : Type) where
  shared : Q
  effects : List E
  left : Option C

/-- A call as it was made, what is left of it while it waits, and what it did. -/
structure CallTask (C E : Type) where
  made : C
  left : Option C
  effects : List E

/-- Tasks that make their calls one after the other, each task its own. -/
structure Calls (Q C E : Type) where
  shared : Q
  tasks : Nat → Option (CallTask C E)
  log : List (Nat × E)

namespace Calls

open Function

variable {Q C E : Type}

/-- A task makes a call, or its waiting call is polled again. -/
inductive Event (C : Type)
  | call (task : Nat) (c : C)
  | wake (task : Nat)

def start (shared : Q) : Calls Q C E := ⟨shared, fun _ => none, []⟩

def advance (poll : Q → C → Polled Q C E) (s : Calls Q C E) (task : Nat) (made c : C)
    (before : List E) : Calls Q C E :=
  let p := poll s.shared c
  { shared := p.shared
    tasks := Function.update s.tasks task (some ⟨made, p.left, before ++ p.effects⟩)
    log := s.log ++ p.effects.map fun e => (task, e) }

/-- A task whose call still waits makes no other. -/
def step (poll : Q → C → Polled Q C E) (s : Calls Q C E) : Event C → Option (Calls Q C E)
  | .call task c =>
    match s.tasks task with
    | some ⟨_, some _, _⟩ => none
    | some ⟨_, none, _⟩ => some (s.advance poll task c c [])
    | none => some (s.advance poll task c c [])
  | .wake task =>
    match s.tasks task with
    | some ⟨made, some c, effects⟩ => some (s.advance poll task made c effects)
    | some ⟨_, none, _⟩ => none
    | none => none

def run (poll : Q → C → Polled Q C E) (s : Calls Q C E) : List (Event C) → Option (Calls Q C E)
  | [] => some s
  | e :: events => (s.step poll e).bind fun s' => s'.run poll events

variable {poll : Q → C → Polled Q C E}

/-- A step polls a call that was just made, or one that waits. -/
theorem step_cases {s s' : Calls Q C E} {e : Event C} (stepped : s.step poll e = some s') :
    ∃ task made c before, s' = s.advance poll task made c before ∧
      (made = c ∧ before = [] ∨ s.tasks task = some ⟨made, some c, before⟩) := by
  cases e with
  | call task c =>
    simp only [step] at stepped
    split at stepped <;> cases stepped <;> exact ⟨task, c, c, [], rfl, .inl ⟨rfl, rfl⟩⟩
  | wake task =>
    simp only [step] at stepped
    split at stepped <;> cases stepped
    rename_i waiting
    exact ⟨task, _, _, _, rfl, .inr waiting⟩

/-- What every poll keeps of what is shared, every step keeps. -/
theorem step_keeps {inv : Q → Prop} (keeps : ∀ q c, inv q → inv (poll q c).shared)
    {s s' : Calls Q C E} (holds : inv s.shared) {e : Event C} (stepped : s.step poll e = some s') :
    inv s'.shared := by
  obtain ⟨task, made, c, before, rfl, _⟩ := step_cases stepped
  exact keeps _ _ holds

section Related

variable (R : C → C → Prop)

structure TaskRelated (a b : CallTask C E) : Prop where
  made : R a.made b.made
  left : Option.Rel R a.left b.left
  effects : a.effects = b.effects

inductive EventRelated : Event C → Event C → Prop
  | call {c d : C} (task : Nat) : R c d → EventRelated (.call task c) (.call task d)
  | wake (task : Nat) : EventRelated (.wake task) (.wake task)

/-- Two states with the same shared part and the same log, whose tasks' calls are related. -/
structure Related (s s' : Calls Q C E) : Prop where
  shared : s.shared = s'.shared
  log : s.log = s'.log
  tasks : ∀ task, Option.Rel (TaskRelated R) (s.tasks task) (s'.tasks task)

variable {R}

/-- Two calls that one poll cannot tell apart. -/
structure PollRelated (R : C → C → Prop) (p p' : Polled Q C E) : Prop where
  shared : p.shared = p'.shared
  effects : p.effects = p'.effects
  left : Option.Rel R p.left p'.left

variable {s s' : Calls Q C E}

theorem advance_related (related : Related R s s') {c d made made' : C} {before : List E} (task : Nat)
    (made_related : R made made') (same : PollRelated R (poll s.shared c) (poll s'.shared d)) :
    Related R (s.advance poll task made c before) (s'.advance poll task made' d before) := by
  refine ⟨same.shared, ?_, fun other => ?_⟩
  · simp [advance, related.log, same.effects]
  · by_cases here : other = task
    · subst here
      simp only [advance, update_self]
      exact .some ⟨made_related, same.left, by rw [same.effects]⟩
    · simp only [advance, update_of_ne here]
      exact related.tasks other

theorem step_related {inv : Q → Prop} (same : ∀ q c d, inv q → R c d → PollRelated R (poll q c) (poll q d))
    (holds : inv s.shared) (related : Related R s s') {e e' : Event C} (events : EventRelated R e e') :
    Option.Rel (Related R) (s.step poll e) (s'.step poll e') := by
  cases events with
  | @call c d task calls =>
    have polled : PollRelated R (poll s.shared c) (poll s'.shared d) := related.shared ▸ same _ _ _ holds calls
    have other := related.tasks task
    simp only [step]
    generalize s.tasks task = t, s'.tasks task = t' at other
    cases other with
    | none => exact .some (advance_related related task calls polled)
    | @some t t' both =>
      obtain ⟨made, left, effects⟩ := t
      obtain ⟨made', left', effects'⟩ := t'
      cases both.left with
      | none => exact .some (advance_related related task calls polled)
      | some _ => exact .none
  | wake task =>
    have other := related.tasks task
    simp only [step]
    generalize s.tasks task = t, s'.tasks task = t' at other
    cases other with
    | none => exact .none
    | @some t t' both =>
      obtain ⟨made, left, effects⟩ := t
      obtain ⟨made', left', effects'⟩ := t'
      obtain rfl := both.effects
      cases both.left with
      | none => exact .none
      | some calls => exact .some (advance_related related task both.made (related.shared ▸ same _ _ _ holds calls))

/-- Calls that no poll can tell apart can be put for each other anywhere in a run. -/
theorem run_related (inv : Q → Prop) (keeps : ∀ q c, inv q → inv (poll q c).shared)
    (same : ∀ q c d, inv q → R c d → PollRelated R (poll q c) (poll q d)) (holds : inv s.shared)
    (related : Related R s s') {events events' : List (Event C)}
    (replaced : List.Forall₂ (EventRelated R) events events') :
    Option.Rel (Related R) (s.run poll events) (s'.run poll events') := by
  induction replaced generalizing s s' with
  | nil => exact .some related
  | @cons e e' events events' first rest ih =>
    have stepped := step_related same holds related first
    have kept : ∀ s₁, s.step poll e = some s₁ → inv s₁.shared := fun _ next => step_keeps keeps holds next
    simp only [run]
    generalize s.step poll e = t, s'.step poll e' = t' at stepped kept
    cases stepped with
    | none => exact .none
    | some both => exact ih (kept _ rfl) both

end Related

/-- What holds of a call as it is made, and is kept by each poll of what is left of it, holds of
every task. -/
theorem run_tasks (inv : Q → Prop) (keeps : ∀ q c, inv q → inv (poll q c).shared)
    (follows : C → List E → Option C → Prop) (fresh : ∀ c, follows c [] (some c))
    (polls : ∀ q made before c, inv q → follows made before (some c) →
      follows made (before ++ (poll q c).effects) (poll q c).left) {s s' : Calls Q C E} (holds : inv s.shared)
    (before : ∀ task t, s.tasks task = some t → follows t.made t.effects t.left)
    {events : List (Event C)} (ran : s.run poll events = some s') :
    ∀ task t, s'.tasks task = some t → follows t.made t.effects t.left := by
  induction events generalizing s with
  | nil =>
    cases ran
    exact before
  | cons e events ih =>
    obtain ⟨s₁, stepped, rest⟩ := Option.bind_eq_some_iff.mp ran
    refine ih (step_keeps keeps holds stepped) (fun other t found => ?_) rest
    obtain ⟨task, made, c, effects, rfl, origin⟩ := step_cases stepped
    by_cases same : other = task
    · subst same
      simp only [advance, update_self] at found
      cases found
      refine polls _ _ _ _ holds ?_
      rcases origin with ⟨rfl, rfl⟩ | waiting
      · exact fresh made
      · exact before other _ waiting
    · simp only [advance, update_of_ne same] at found
      exact before other t found

end Calls
