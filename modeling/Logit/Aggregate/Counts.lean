import Logit.Aggregate.Budget

namespace Logit.Aggregate

open AList SeriesBudget List Option

variable {X : Externals} {b : SeriesBudget X} {keys : List (SeriesKey X)} {idle : Nat}

def named (n : X.Symbol) (keys : List (SeriesKey X)) : Nat :=
  keys.countP fun k => decide (k.name = n) && !isOverflow k

theorem named_cons (n : X.Symbol) (k : SeriesKey X) (keys : List (SeriesKey X)) :
    named n (k :: keys) = named n keys + if k.name = n ∧ isOverflow k = false then 1 else 0 := by
  rw [named, countP_cons]
  simp [named]

/-- The counts of a budget, for series with these keys, so many of them idle. -/
structure Counts (b : SeriesBudget X) (keys : List (SeriesKey X)) (idle : Nat) : Prop where
  held : b.held = keys.length
  idle : b.idle = idle
  names : ∀ limit, b.perName = some limit → ∀ n, (b.count n).series = named n keys ∧ named n keys ≤ max 1 limit
  unnamed : b.perName = none → b.names = ∅

theorem Counts.perm {keys' : List (SeriesKey X)} (counts : Counts b keys idle) (same : keys.Perm keys') :
    Counts b keys' idle where
  held := counts.held.trans same.length_eq
  idle := counts.idle
  names limit limited n := by
    have own : named n keys' = named n keys := (same.countP_eq _).symm
    rw [own]
    exact counts.names limit limited n
  unnamed := counts.unnamed

/-- One more series, when its name is not counted or is under its limit. -/
theorem Counts.slot (counts : Counts b keys idle) (key : SeriesKey X)
    (uncounted : ∀ limit, b.perName = some limit → isOverflow key = true) :
    Counts { b with held := b.held + 1 } (key :: keys) idle where
  held := congrArg (· + 1) counts.held
  idle := counts.idle
  names limit limited n := by
    have overflow := uncounted limit limited
    rw [named_cons, if_neg (by simp [overflow])]
    exact counts.names limit limited n
  unnamed := counts.unnamed

theorem count_countSeries (b : SeriesBudget X) (name n : X.Symbol) :
    ((b.countSeries name).count n).series = (b.count n).series + if name = n then 1 else 0 := by
  by_cases same : name = n
  · subst same
    simp [countSeries, SeriesBudget.count]
  · simp [countSeries, SeriesBudget.count, lookup_insert_ne (Ne.symm same), same]

theorem Counts.slotNamed {limit : Nat} (counts : Counts b keys idle) {key : SeriesKey X}
    (limited : b.perName = some limit) (ordinary : isOverflow key = false)
    (under : (b.count key.name).series < max 1 limit) :
    Counts (countSeries { b with held := b.held + 1 } key.name) (key :: keys) idle where
  held := congrArg (· + 1) counts.held
  idle := counts.idle
  names l same n := by
    obtain rfl := some.inj (limited.symm.trans same)
    obtain ⟨own, bound⟩ := counts.names limit limited n
    have counted := count_countSeries { b with held := b.held + 1 } key.name n
    rw [counted, named_cons]
    show (b.count n).series + _ = _ ∧ _
    by_cases here : key.name = n
    · subst here
      simp only [ordinary, and_self, if_true]
      omega
    · simp only [here, false_and, if_false]
      omega
  unnamed none := by rw [limited] at none; cases none

def Admitted (b : SeriesBudget X) (keys : List (SeriesKey X)) (idle : Nat) (key : SeriesKey X) :
    Admission × SeriesBudget X → Prop
  | (.opened, b') => Counts b' (key :: keys) idle ∧ b'.held ≤ b.max
  | (.evictIdle, b') => Counts b' (key :: keys) idle ∧ b'.held = b.max + 1 ∧ 0 < idle
  | (.refused, b') => b' = b
  | (.overflow, b') => Counts b' keys idle ∧ b'.held = b.held ∧ isOverflow key = false

theorem admitKey_limits (b : SeriesBudget X) (key : SeriesKey X) :
    (b.admitKey key).2.max = b.max ∧ (b.admitKey key).2.perName = b.perName := by
  have slot : b.admitSlot.2.max = b.max ∧ b.admitSlot.2.perName = b.perName := by
    unfold admitSlot
    repeat' split
    all_goals exact ⟨rfl, rfl⟩
  unfold admitKey
  split
  · exact slot
  · split
    · exact slot
    · split
      · exact ⟨rfl, rfl⟩
      · simp only
        split
        · exact slot
        · exact slot

theorem admitKey_spec (counts : Counts b keys idle) (within : b.held ≤ b.max) (key : SeriesKey X) :
    Admitted b keys idle key (b.admitKey key) := by
  -- a slot that the limit of a name does not count
  have slot : (∀ limit, b.perName = some limit → isOverflow key = true) → Admitted b keys idle key b.admitSlot := by
    intro uncounted
    have taken := counts.slot key uncounted
    unfold admitSlot
    split
    · rename_i room
      exact ⟨taken, room⟩
    · split
      · rename_i full some
        exact ⟨taken, by show b.held + 1 = _; omega, counts.idle ▸ some⟩
      · rfl
  unfold admitKey
  split
  · rename_i none
    exact slot fun limit limited => by rw [none] at limited; cases limited
  · rename_i limit limited
    split
    · rename_i overflow
      exact slot fun _ _ => overflow
    · rename_i overflow
      have ordinary : isOverflow key = false := Bool.not_eq_true _ ▸ overflow
      split
      · refine ⟨⟨counts.held, counts.idle, fun l same n => ?_, fun none => ?_⟩, rfl, ordinary⟩
        · obtain ⟨own, bound⟩ := counts.names l same n
          refine ⟨?_, bound⟩
          rw [← own]
          by_cases here : key.name = n
          · subst here
            simp [SeriesBudget.count]
          · simp [SeriesBudget.count, lookup_insert_ne (Ne.symm here)]
        · rw [show b.perName = _ from none] at limited
          cases limited
      · rename_i open_
        -- a name without an entry may open its first series under any limit
        have under : (b.count key.name).series < max 1 limit := by
          rcases entry : b.names.lookup key.name with _ | count
          · simp [SeriesBudget.count, entry]
          · exact lt_of_lt_of_le (by simpa [entry] using open_) (Nat.le_max_right 1 limit)
        have taken := counts.slotNamed limited ordinary under
        unfold admitSlot
        split
        · rename_i room
          exact ⟨taken, room⟩
        · split
          · rename_i full some
            exact ⟨taken, by show b.held + 1 = _; omega, counts.idle ▸ some⟩
          · rfl

theorem release_limits (b : SeriesBudget X) (name : X.Symbol) (overflow : Bool) :
    (b.release name overflow).max = b.max ∧ (b.release name overflow).perName = b.perName ∧
      (b.release name overflow).held = b.held - 1 := by
  unfold release
  repeat' split
  all_goals exact ⟨rfl, rfl, rfl⟩

theorem release_spec {key : SeriesKey X} (counts : Counts b (key :: keys) (idle + 1)) :
    Counts (b.release key.name (isOverflow key)) keys idle := by
  have held : b.held = keys.length + 1 := counts.held
  have freed := counts.idle
  unfold release
  cases overflow : isOverflow key with
  | true =>
    refine ⟨by show b.held - 1 = _; omega, by show b.idle - 1 = _; omega, fun limit limited n => ?_, counts.unnamed⟩
    obtain ⟨own, bound⟩ := counts.names limit limited n
    rw [named_cons, if_neg (by simp [overflow])] at own bound
    exact ⟨own, bound⟩
  | false =>
    simp only [Bool.false_eq_true, if_false]
    cases entry : b.names.lookup key.name with
    | none =>
      refine ⟨by show b.held - 1 = _; omega, by show b.idle - 1 = _; omega, fun limit limited n => ?_,
        counts.unnamed⟩
      -- The name of a counted series has an entry.
      have own := (counts.names limit limited key.name).1
      rw [named_cons, if_pos ⟨rfl, overflow⟩] at own
      simp [SeriesBudget.count, entry] at own
    | some count =>
      refine ⟨by show b.held - 1 = _; omega, by show b.idle - 1 = _; omega, fun limit limited n => ?_,
        fun none => ?_⟩
      · obtain ⟨own, bound⟩ := counts.names limit limited n
        rw [named_cons] at own bound
        by_cases here : key.name = n
        · subst here
          simp only [overflow, and_self, if_true] at own bound
          have series : (b.count key.name).series = count.series := by simp [SeriesBudget.count, entry]
          refine ⟨?_, by omega⟩
          simp only [SeriesBudget.count, lookup_insert, getD_some]
          omega
        · simp only [here, false_and, if_false, Nat.add_zero] at own bound
          refine ⟨?_, bound⟩
          rw [← own]
          simp [SeriesBudget.count, lookup_insert_ne (Ne.symm here)]
      · have untouched := counts.unnamed none
        rw [untouched] at entry
        cases entry

theorem count_foldl (kept : List (SeriesKey X)) (b : SeriesBudget X) (n : X.Symbol) :
    ((kept.foldl (fun b k => b.countSeries k.name) b).count n).series =
      (b.count n).series + kept.countP fun k => decide (k.name = n) := by
  induction kept generalizing b with
  | nil => rfl
  | cons k kept ih =>
    rw [foldl_cons, ih, count_countSeries, countP_cons]
    simp only [decide_eq_true_eq]
    omega

theorem foldl_countSeries (kept : List (SeriesKey X)) (b : SeriesBudget X) :
    let c := kept.foldl (fun b k => b.countSeries k.name) b
    c.held = b.held ∧ c.idle = b.idle ∧ c.max = b.max ∧ c.perName = b.perName := by
  induction kept generalizing b with
  | nil => exact ⟨rfl, rfl, rfl, rfl⟩
  | cons k kept ih => exact ih (b.countSeries k.name)

theorem reset_spec {kept : List (SeriesKey X)} (counts : Counts b keys idle) (fewer : kept.Subperm keys) :
    Counts (b.reset kept) kept kept.length ∧ (b.reset kept).max = b.max ∧ (b.reset kept).perName = b.perName := by
  unfold reset
  split
  · rename_i absent
    exact ⟨⟨rfl, rfl, fun l limited => (by rw [absent] at limited; cases limited), counts.unnamed⟩, rfl, rfl⟩
  · rename_i l present
    obtain ⟨held, own, max, perName⟩ := foldl_countSeries (kept.filter fun k => !isOverflow k)
      { b with held := kept.length, idle := kept.length, names := ∅ }
    refine ⟨⟨held, own, fun l' limited n => ?_, fun none => ?_⟩, max, perName⟩
    · obtain ⟨-, bound⟩ := counts.names l' (perName.symm.trans limited) n
      refine ⟨?_, (fewer.countP_le _).trans bound⟩
      rw [count_foldl, countP_filter]
      simp [SeriesBudget.count, named]
    · rw [perName, show b.perName = _ from present] at none
      cases none

end Logit.Aggregate
