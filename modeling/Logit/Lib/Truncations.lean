import Mathlib

namespace Truncations

open List Option

variable {κ α : Type*} [LinearOrder α]

section

variable [LinearOrder κ]

/-- The incarnation of a position that a period saw, in a log cut short at the end of some periods:
how many cuts before that period were at or below the position, and so gave it a new content. -/
def incarnation (history : List (κ × α)) (period : κ) (o : α) : Nat :=
  history.countP fun cut => cut.1 < period ∧ cut.2 ≤ o

theorem incarnation_mono {early late : κ} (before : early ≤ late) (history : List (κ × α)) (o : α) :
    incarnation history early o ≤ incarnation history late o :=
  countP_mono_left fun cut _ seen => by
    simp only [decide_eq_true_eq] at seen ⊢
    exact ⟨seen.1.trans_le before, seen.2⟩

/-- A position keeps its content from one period to a later one exactly when no cut between them is
at or below it. -/
theorem incarnation_eq_iff {early late : κ} (before : early ≤ late) (history : List (κ × α)) (o : α) :
    incarnation history early o = incarnation history late o ↔
      ∀ cut ∈ history, early ≤ cut.1 → cut.1 < late → o < cut.2 := by
  induction history with
  | nil => simp [incarnation]
  | cons cut history ih =>
    have fewer := incarnation_mono before history o
    simp only [incarnation, countP_cons, forall_mem_cons, decide_eq_true_eq] at ih fewer ⊢
    refine Iff.trans ?_ (and_congr_right fun _ => ih)
    by_cases reached : cut.2 ≤ o
    · rcases lt_or_ge cut.1 early with first | first
      · have then_ := first.trans_le before
        simp [first, then_]
      · rcases lt_or_ge cut.1 late with then_ | then_
        · simp only [not_lt.mpr first, then_, reached, and_self, false_and, if_true, if_false]
          constructor
          · intro same
            omega
          · rintro ⟨kept, -⟩
            exact absurd (kept first trivial) (not_lt.mpr reached)
        · simp [not_lt.mpr first, not_lt.mpr then_]
    · have above := not_le.mp reached
      simp [reached, above]

/-- A cut changes no incarnation that an earlier period saw. -/
theorem incarnation_snoc_of_le {period ended : κ} (before : period ≤ ended) (history : List (κ × α))
    (at_ o : α) : incarnation (history ++ [(ended, at_)]) period o = incarnation history period o := by
  simp [incarnation, not_lt.mpr before]

theorem incarnation_snoc {period ended : κ} (after : ended < period) (history : List (κ × α)) (at_ o : α) :
    incarnation (history ++ [(ended, at_)]) period o = incarnation history period o + if at_ ≤ o then 1 else 0 := by
  simp [incarnation, after]

/-- Once every cut is in the past, later periods see the same contents. -/
theorem incarnation_of_past {history : List (κ × α)} {now period : κ} (past : ∀ cut ∈ history, cut.1 < now)
    (after : now ≤ period) (o : α) : incarnation history period o = incarnation history now o := by
  refine ((incarnation_eq_iff after history o).mpr ?_).symm
  intro cut mem later
  exact absurd (past cut mem) (not_lt.mpr later)

end

/-- Records a cut in a list that keeps, of the cuts so far, those that nothing later was at or
below. -/
def push (ended : κ) (at_ : α) (stack : List (κ × α)) : List (κ × α) :=
  ((stack.map fun cut => (cut.1, min cut.2 at_)).filter fun cut => cut.2 ≠ at_) ++ [(ended, at_)]

/-- The cuts that are kept rise with the period they ended. -/
abbrev Rising (stack : List (κ × α)) : Prop := stack.Pairwise (·.2 < ·.2)

variable {at_ : α} {cut : κ × α} {stack : List (κ × α)}

theorem push_of_low (low : cut.2 < at_) (ended : κ) (stack : List (κ × α)) :
    push ended at_ (cut :: stack) = cut :: push ended at_ stack := by simp [push, min_eq_left low.le, low.ne]

theorem push_of_all_high (high : ∀ cut ∈ stack, at_ ≤ cut.2) (ended : κ) :
    push ended at_ stack = [(ended, at_)] := by
  have none_left : (stack.map fun cut => (cut.1, min cut.2 at_)).filter (fun cut => cut.2 ≠ at_) = [] := by
    rw [filter_eq_nil_iff]
    intro entry mem
    obtain ⟨cut, held, rfl⟩ := mem_map.mp mem
    simp [min_eq_right (high cut held)]
  rw [push, none_left, nil_append]

theorem mem_push {ended : κ} {entry : κ × α} (mem : entry ∈ push ended at_ stack) :
    entry.1 = ended ∨ ∃ cut ∈ stack, cut.1 = entry.1 := by
  rcases mem_append.mp mem with kept | last
  · obtain ⟨cut, held, rfl⟩ := mem_map.mp (mem_filter.mp kept).1
    exact .inr ⟨cut, held, rfl⟩
  · left
    rw [mem_singleton.mp last]

theorem Rising.all_high (rising : Rising (cut :: stack)) (high : at_ ≤ cut.2) :
    ∀ entry ∈ cut :: stack, at_ ≤ entry.2 := by
  intro entry mem
  rcases mem_cons.mp mem with same | later
  · rw [same]
    exact high
  · exact high.trans ((pairwise_cons.mp rising).1 entry later).le

theorem Rising.push (rising : Rising stack) (ended : κ) (at_ : α) : Rising (push ended at_ stack) := by
  induction stack with
  | nil => exact pairwise_singleton _ _
  | cons cut stack ih =>
    obtain ⟨first, rest⟩ := pairwise_cons.mp rising
    by_cases low : cut.2 < at_
    · rw [push_of_low low]
      refine pairwise_cons.mpr ⟨?_, ih rest⟩
      intro entry mem
      rcases mem_append.mp mem with kept | last
      · obtain ⟨old, held, rfl⟩ := mem_map.mp (mem_filter.mp kept).1
        exact lt_min (first old held) low
      · rw [mem_singleton.mp last]
        exact low
    · rw [push_of_all_high (rising.all_high (not_lt.mp low))]
      exact pairwise_singleton _ _

variable [LinearOrder κ]

/-- The lowest cut at the end of a period or since. -/
def lowest (stack : List (κ × α)) (period : κ) : Option α := (stack.find? fun cut => period ≤ cut.1).map Prod.snd

/-- The kept cuts answer, for every period, the lowest of the new cut and those before it. -/
theorem lt_lowest_push (rising : Rising stack) {ended period : κ} (before : period ≤ ended) (at_ o : α) :
    (∀ low ∈ lowest (push ended at_ stack) period, o < low) ↔ (∀ low ∈ lowest stack period, o < low) ∧ o < at_ := by
  induction stack with
  | nil => simp [push, lowest, before]
  | cons cut stack ih =>
    obtain ⟨first, rest⟩ := pairwise_cons.mp rising
    by_cases low : cut.2 < at_
    · rw [push_of_low low]
      by_cases since : period ≤ cut.1
      · simp only [lowest, find?_cons, since, decide_true, map_some, mem_some_iff, forall_eq']
        exact ⟨fun under => ⟨under, under.trans low⟩, And.left⟩
      · simpa only [lowest, find?_cons, since, decide_false] using ih rest
    · have all_high := rising.all_high (not_lt.mp low)
      have only : lowest [(ended, at_)] period = some at_ := by simp [lowest, before]
      rw [push_of_all_high all_high, only]
      simp only [mem_some_iff, forall_eq']
      refine ⟨fun under => ⟨?_, under⟩, And.right⟩
      intro kept found
      obtain ⟨entry, held, rfl⟩ := map_eq_some_iff.mp found
      exact under.trans_le (all_high entry (mem_of_find?_eq_some held))

/-- A list of cuts that answers, for every period, the lowest of a history's cuts since. -/
structure Keeps (history stack : List (κ × α)) : Prop where
  kept : ∀ cut ∈ stack, ∃ old ∈ history, old.1 = cut.1
  rising : Rising stack
  lowest : ∀ period o, (∀ low ∈ lowest stack period, o < low) ↔ ∀ cut ∈ history, period ≤ cut.1 → o < cut.2

theorem Keeps.nil : Keeps ([] : List (κ × α)) [] := ⟨by simp, List.Pairwise.nil, by simp [Truncations.lowest]⟩

theorem Keeps.push {history stack : List (κ × α)} (keeps : Keeps history stack) {ended : κ}
    (past : ∀ cut ∈ history, cut.1 < ended) (at_ : α) :
    Keeps (history ++ [(ended, at_)]) (push ended at_ stack) := by
  have known : ∀ cut ∈ Truncations.push ended at_ stack, ∃ old ∈ history ++ [(ended, at_)], old.1 = cut.1 := by
    intro cut mem
    rcases mem_push mem with new | ⟨held, inside, same⟩
    · exact ⟨_, mem_append_right _ (mem_singleton_self _), new.symm⟩
    · obtain ⟨old, recorded, sameOld⟩ := keeps.kept held inside
      exact ⟨old, mem_append_left _ recorded, sameOld.trans same⟩
  refine ⟨known, keeps.rising.push ended at_, ?_⟩
  intro period o
  rw [forall_mem_append, forall_mem_singleton]
  by_cases before : period ≤ ended
  · rw [lt_lowest_push keeps.rising before, keeps.lowest period o]
    exact and_congr_right fun _ => ⟨fun under _ => under, fun under => under before⟩
  · have later : ∀ cut ∈ history ++ [(ended, at_)], ¬ period ≤ cut.1 := by
      intro cut mem
      rcases mem_append.mp mem with old | last
      · exact fun since => before (since.trans (past cut old).le)
      · rw [mem_singleton.mp last]
        exact before
    have nothing : Truncations.lowest (Truncations.push ended at_ stack) period = none := by
      rw [Truncations.lowest, map_eq_none_iff, find?_eq_none]
      intro cut mem
      obtain ⟨old, recorded, same⟩ := known cut mem
      rw [decide_eq_true_eq, ← same]
      exact later old recorded
    rw [nothing]
    refine iff_of_true (by simp) ⟨?_, fun since => absurd since before⟩
    intro cut mem since
    exact absurd since (later cut (mem_append_left _ mem))

/-- A period that a cut ended or followed has a lowest cut since. -/
theorem Keeps.exists_lowest {history stack : List (κ × α)} (keeps : Keeps history stack) {period : κ}
    (mem : cut ∈ history) (since : period ≤ cut.1) : ∃ low, Truncations.lowest stack period = some low ∧
      ∀ o, o < low ↔ ∀ cut ∈ history, period ≤ cut.1 → o < cut.2 := by
  cases found : Truncations.lowest stack period with
  | none =>
    have spec := keeps.lowest period cut.2
    rw [found] at spec
    exact absurd (spec.mp (by simp) cut mem since) (lt_irrefl _)
  | some low =>
    refine ⟨low, rfl, ?_⟩
    intro o
    have spec := keeps.lowest period o
    rw [found] at spec
    simpa using spec

end Truncations
