import Logit.Lib.Truncations

namespace Truncations

open List

variable {κ α : Type*} [LinearOrder κ] [LinearOrder α]

/-- A stretch of a log: the period it was read in, and the positions from its start to its end. -/
structure Stretch (κ α : Type*) where
  period : κ
  start : α
  stop : α

variable {history : List (κ × α)} {now : κ} {floor position : α} {stretches : List (Stretch κ α)}

/-- Whether a stretch holds a given incarnation of a position. -/
def Stretch.Holds (history : List (κ × α)) (stretch : Stretch κ α) (o : α) (n : Nat) : Prop :=
  stretch.start ≤ o ∧ o < stretch.stop ∧ incarnation history stretch.period o = n

theorem Stretch.holds_snoc {stretch : Stretch κ α} (seen : stretch.period ≤ now) {at_ o : α} {n : Nat} :
    stretch.Holds (history ++ [(now, at_)]) o n ↔ stretch.Holds history o n := by
  rw [Holds, Holds, incarnation_snoc_of_le seen]

/-- What a cursor has read of a log that is now and then cut short below it: every stretch began
where the cursor stood, so that none holds what another does. -/
structure Sweep (history : List (κ × α)) (now : κ) (floor position : α) (stretches : List (Stretch κ α)) :
    Prop where
  past : ∀ cut ∈ history, cut.1 < now
  seen : ∀ stretch ∈ stretches, stretch.period ≤ now
  floor_le : floor ≤ position
  above : ∀ stretch ∈ stretches, floor ≤ stretch.start
  behind : ∀ stretch ∈ stretches, ∀ o, stretch.Holds history o (incarnation history now o) → o < position
  disjoint : stretches.Pairwise fun one other =>
    ∀ o n, one.Holds history o n → ¬ other.Holds history o n
  /-- The stretches up to one hold everything from the floor to its end that is still there. -/
  reaches : ∀ before stretch after, stretches = before ++ stretch :: after → ∀ o, floor ≤ o →
    o < stretch.stop → incarnation history stretch.period o = incarnation history now o →
    ∃ held ∈ before ++ [stretch], held.Holds history o (incarnation history now o)

/-- Everything from the floor to the cursor is in some stretch. -/
def Gapless (history : List (κ × α)) (now : κ) (floor position : α) (stretches : List (Stretch κ α)) : Prop :=
  ∀ o, floor ≤ o → o < position → ∃ held ∈ stretches, held.Holds history o (incarnation history now o)

theorem Sweep.start (now : κ) (position : α) : Sweep [] now position position [] :=
  ⟨by simp, by simp, le_rfl, by simp, by simp, List.Pairwise.nil, by simp⟩

theorem Gapless.start (now : κ) (position : α) : Gapless [] now position position [] :=
  fun _ above below => absurd (above.trans_lt below) (lt_irrefl _)

theorem Sweep.read (sweep : Sweep history now floor position stretches)
    (gapless : Gapless history now floor position stretches) {next : α} (forward : position ≤ next) :
    Sweep history now floor next (stretches ++ [⟨now, position, next⟩]) ∧
      Gapless history now floor next (stretches ++ [⟨now, position, next⟩]) := by
  have covered : ∀ o, floor ≤ o → o < next → ∃ held ∈ stretches ++ [⟨now, position, next⟩],
      held.Holds history o (incarnation history now o) := by
    intro o above below
    rcases lt_or_ge o position with old | new
    · obtain ⟨held, mem, holds⟩ := gapless o above old
      exact ⟨held, mem_append_left _ mem, holds⟩
    · exact ⟨_, mem_append_right _ (mem_singleton_self _), new, below, rfl⟩
  refine ⟨⟨sweep.past, ?_, sweep.floor_le.trans forward, ?_, ?_, ?_, ?_⟩, covered⟩
  · rw [forall_mem_append, forall_mem_singleton]
    exact ⟨sweep.seen, le_rfl⟩
  · rw [forall_mem_append, forall_mem_singleton]
    exact ⟨sweep.above, sweep.floor_le⟩
  · rw [forall_mem_append, forall_mem_singleton]
    exact ⟨fun stretch mem o holds => (sweep.behind stretch mem o holds).trans_le forward,
      fun o holds => holds.2.1⟩
  · refine pairwise_append.mpr ⟨sweep.disjoint, pairwise_singleton _ _, ?_⟩
    intro stretch mem new last o n holds
    rw [mem_singleton.mp last]
    rintro ⟨from_, -, same⟩
    rw [← same] at holds
    exact absurd (sweep.behind stretch mem o holds) (not_lt.mpr from_)
  · intro before stretch after split o above below current
    rcases eq_nil_or_concat after with rfl | ⟨inner, last, rfl⟩
    · rw [← split]
      have last : stretch = ⟨now, position, next⟩ := by
        have ends := congrArg getLast? split
        simpa using ends.symm
      rw [last] at below
      exact covered o above below
    · rw [concat_eq_append, ← cons_append, ← append_assoc] at split
      exact sweep.reaches before stretch inner (append_inj_left' split rfl) o above below current

/-- What is still there after a cut is what was there before it, below the cut. -/
theorem current_snoc (past : ∀ cut ∈ history, cut.1 < now) {period later : κ} (seen : period ≤ now)
    (after : now < later) (at_ o : α) :
    incarnation (history ++ [(now, at_)]) period o = incarnation (history ++ [(now, at_)]) later o ↔
      incarnation history period o = incarnation history now o ∧ o < at_ := by
  have fewer := incarnation_mono seen history o
  rw [incarnation_snoc_of_le seen, incarnation_snoc after, incarnation_of_past past after.le]
  by_cases reached : at_ ≤ o
  · simp only [reached, if_true, not_lt.mpr reached, and_false, iff_false]
    omega
  · simp [reached, not_le.mp reached]

variable {later : κ}

theorem Stretch.holds_current_snoc (past : ∀ cut ∈ history, cut.1 < now) {stretch : Stretch κ α}
    (seen : stretch.period ≤ now) (after : now < later) (at_ o : α) :
    stretch.Holds (history ++ [(now, at_)]) o (incarnation (history ++ [(now, at_)]) later o) ↔
      stretch.Holds history o (incarnation history now o) ∧ o < at_ := by
  rw [Holds, Holds, current_snoc past seen after, and_assoc, and_assoc]

/-- The log is cut short, and the cursor moves down to where it ends if it was above. -/
theorem Sweep.cut (sweep : Sweep history now floor position stretches) (after : now < later) (at_ : α) :
    Sweep (history ++ [(now, at_)]) later (min floor at_) (min position at_) stretches := by
  have lower : ∀ o, min floor at_ ≤ o → o < at_ → floor ≤ o := by
    intro o above below
    rcases min_le_iff.mp above with old | new
    · exact old
    · exact absurd below (not_lt.mpr new)
  refine ⟨?_, fun stretch mem => (sweep.seen stretch mem).trans after.le, ?_, ?_, ?_, ?_, ?_⟩
  · rw [forall_mem_append, forall_mem_singleton]
    exact ⟨fun cut mem => (sweep.past cut mem).trans after, after⟩
  · exact min_le_min_right at_ sweep.floor_le
  · exact fun stretch mem => (min_le_left _ _).trans (sweep.above stretch mem)
  · intro stretch mem o holds
    rw [Stretch.holds_current_snoc sweep.past (sweep.seen stretch mem) after] at holds
    exact lt_min (sweep.behind stretch mem o holds.1) holds.2
  · refine sweep.disjoint.imp_of_mem ?_
    intro one other first second apart o n
    rw [Stretch.holds_snoc (sweep.seen one first), Stretch.holds_snoc (sweep.seen other second)]
    exact apart o n
  · intro before stretch rest split o above below current
    have mem : stretch ∈ stretches := by simp [split]
    obtain ⟨same, under⟩ := (current_snoc sweep.past (sweep.seen stretch mem) after at_ o).mp current
    obtain ⟨held, among, holds⟩ := sweep.reaches before stretch rest split o (lower o above under) below same
    have known : held ∈ stretches := by
      rw [split, append_cons]
      exact mem_append_left _ among
    exact ⟨held, among, (Stretch.holds_current_snoc sweep.past (sweep.seen held known) after at_ o).mpr
      ⟨holds, under⟩⟩

theorem Gapless.cut (gapless : Gapless history now floor position stretches)
    (sweep : Sweep history now floor position stretches) (after : now < later) (at_ : α) :
    Gapless (history ++ [(now, at_)]) later (min floor at_) (min position at_) stretches := by
  intro o above below
  obtain ⟨reached, under⟩ := lt_min_iff.mp below
  have above : floor ≤ o := by
    rcases min_le_iff.mp above with old | new
    · exact old
    · exact absurd under (not_lt.mpr new)
  obtain ⟨held, mem, holds⟩ := gapless o above reached
  exact ⟨held, mem, (Stretch.holds_current_snoc sweep.past (sweep.seen held mem) after at_ o).mpr
    ⟨holds, under⟩⟩

/-- A stretch that was read last may be forgotten, and read again by someone else. -/
theorem Sweep.forget {last : List (Stretch κ α)} (sweep : Sweep history now floor position (stretches ++ last)) :
    Sweep history now floor position stretches := by
  refine ⟨sweep.past, fun stretch mem => sweep.seen stretch (mem_append_left _ mem), sweep.floor_le,
    fun stretch mem => sweep.above stretch (mem_append_left _ mem),
    fun stretch mem => sweep.behind stretch (mem_append_left _ mem),
    (pairwise_append.mp sweep.disjoint).1, ?_⟩
  intro before stretch after split
  exact sweep.reaches before stretch (after ++ last) (by rw [split, append_assoc, cons_append])

/-- Two stretches that hold one incarnation of a position are the same one. -/
theorem Sweep.unique (sweep : Sweep history now floor position stretches) {i j : Nat}
    {one other : Stretch κ α} (first : stretches[i]? = some one) (second : stretches[j]? = some other) {o : α}
    {n : Nat} (holds : one.Holds history o n) (also : other.Holds history o n) : i = j := by
  obtain ⟨bound, rfl⟩ := List.getElem?_eq_some_iff.mp first
  obtain ⟨limit, rfl⟩ := List.getElem?_eq_some_iff.mp second
  have apart := pairwise_iff_getElem.mp sweep.disjoint
  rcases Nat.lt_trichotomy i j with before | same | after
  · exact absurd also (apart i j bound limit before o n holds)
  · exact same
  · exact absurd holds (apart j i limit bound after o n also)

end Truncations
