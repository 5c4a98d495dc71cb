import Logit.Delta.Convert
import Logit.Delta.Difference

namespace Logit.Delta

variable {X : Externals} {cfg : Settings X}

/-- The point became its series' last one. -/
def Verdict.accepted : Verdict → Bool
  | .skippedInitial | .first | .resetDecrease | .resetRestarted | .droppedLayout | .converted => true
  | .passed | .droppedNonFinite | .skippedDuplicate | .skippedOutOfOrder => false

/-- The last accepted point of a series. -/
def lastAccepted (k : Key X) (log : Log X) : Option (Entry X) :=
  log.find? fun e => decide (e.key = some k) && e.verdict.accepted

variable {k : Key X} {e : Entry X} (log : Log X)

theorem lastAccepted_skip (other : e.key ≠ some k ∨ e.verdict.accepted = false) :
    lastAccepted k (e :: log) = lastAccepted k log := by
  rw [lastAccepted, List.find?_cons_of_neg]
  · rfl
  · rcases other with different | refused
    · simp [different]
    · simp [refused]

theorem lastAccepted_new (own : e.key = some k) (accepted : e.verdict.accepted = true) :
    lastAccepted k (e :: log) = some e := by
  rw [lastAccepted]
  simp [own, accepted]

theorem lastAccepted_other {k k' : Key X} (own : e.key = some k) (other : k' ≠ k) :
    lastAccepted k' (e :: log) = lastAccepted k' log := by
  apply lastAccepted_skip
  left
  rw [own]
  simpa using Ne.symm other

theorem lastAccepted_some {log : Log X} (found : lastAccepted k log = some e) :
    e ∈ log ∧ e.key = some k ∧ e.verdict.accepted = true := by
  have passed := List.find?_some found
  simp only [Bool.and_eq_true, decide_eq_true_eq] at passed
  exact ⟨List.mem_of_find?_eq_some found, passed.1, passed.2⟩

namespace CumulativeToDelta

/-- A fact about the state that evictions keep, and that does not read the queue or the clock. -/
structure Stable (cfg : Settings X) (fact : CumulativeToDelta X → Prop) : Prop where
  queue : ∀ s queue, fact s → fact { s with queue := queue }
  now : ∀ s now, fact s → fact { s with now := now }
  evict : ∀ s slot, fact s → fact (s.evict cfg slot)

variable {fact : CumulativeToDelta X → Prop} {s : CumulativeToDelta X}

theorem Stable.evictIdle (stable : Stable cfg fact) (now : Int64) (queue : List (Nat × Nat))
    (holds : fact s) : fact (evictIdle cfg now queue s) := by
  induction queue generalizing s with
  | nil => exact stable.queue s [] holds
  | cons entry queue ih =>
    unfold CumulativeToDelta.evictIdle
    split
    · split
      · split
        · exact stable.queue s _ holds
        · exact ih (stable.evict s entry.2 holds)
      · exact ih holds
    · exact ih holds

theorem Stable.readNow (stable : Stable cfg fact) (clock : Int64) (holds : fact s) :
    fact (s.readNow cfg clock) := by
  unfold CumulativeToDelta.readNow
  split
  · exact holds
  · exact stable.evictIdle clock _ (stable.now s (some clock) holds)

theorem Stable.evictLeast (stable : Stable cfg fact) (queue : List (Nat × Nat)) (holds : fact s) :
    fact (evictLeast cfg queue s) := by
  induction queue generalizing s with
  | nil => exact stable.queue s [] holds
  | cons entry queue ih =>
    unfold CumulativeToDelta.evictLeast
    split
    · exact stable.queue _ queue (stable.evict s entry.2 holds)
    · exact ih holds

theorem get_evict (slot i : Nat) : (s.evict cfg slot).series.get i = if i = slot then none else s.series.get i := by
  have removed : (s.series.remove Series.hash slot).get i = if i = slot then none else s.series.get i :=
    Slab.get_remove slot i
  unfold evict
  split
  · rename_i empty
    by_cases same : i = slot
    · simp [same, empty]
    · simp [same]
  · split
    · exact removed
    · exact removed

variable (slot : Nat)

theorem trail_evict : ∃ lost, (s.evict cfg slot).trail = s.trail ++ lost := by
  unfold evict
  split
  · exact ⟨[], by simp⟩
  · split
    · exact ⟨_, rfl⟩
    · exact ⟨_, by simp only [remember, List.append_assoc]; rfl⟩

/-- A key that no slot holds. -/
def Untracked (k : Key X) (s : CumulativeToDelta X) : Prop := ∀ i a, s.series.get i = some a → a.key ≠ k

theorem stable_untracked (cfg : Settings X) (k : Key X) : Stable cfg (Untracked k) where
  queue _ _ holds := holds
  now _ _ holds := holds
  evict s slot holds := by
    intro i a found
    rw [get_evict] at found
    split at found
    · cases found
    · exact holds i a found

theorem touch_series (now : Int64) : (s.touch slot now).series =
      s.series.update slot fun series => { series with seq := s.nextSeq + 1, touched := now } := by
  unfold touch
  dsimp only
  split <;> rfl

@[simp] theorem touch_trail (now : Int64) : (s.touch slot now).trail = s.trail := by
  unfold touch
  dsimp only
  split <;> rfl

@[simp] theorem touch_evicted (now : Int64) : (s.touch slot now).evicted = s.evicted := by
  unfold touch
  dsimp only
  split <;> rfl

@[simp] theorem settle_trail (base : Baseline) (start ts now : Int64) :
    (s.settle slot base start ts now).trail = s.trail := by simp [settle]

@[simp] theorem settle_evicted (base : Baseline) (start ts now : Int64) :
    (s.settle slot base start ts now).evicted = s.evicted := by simp [settle]

/-- After a point is settled its slot holds it under the same key, and no other slot has changed. -/
theorem get_settle {slot : Nat} {series : Series X} (found : s.series.get slot = some series)
    (base : Baseline) (start ts now : Int64) (i : Nat) : (s.settle slot base start ts now).series.get i =
      if i = slot then some { series with base := base, start := start, ts := ts,
                                          seq := s.nextSeq + 1, touched := now }
      else s.series.get i := by
  rw [settle, touch_series, Slab.get_update, Slab.get_update]
  by_cases same : i = slot
  · simp [same, found]
  · simp [same]

/-- The state before a series is placed: one series less when there are too many. -/
def room (cfg : Settings X) (s : CumulativeToDelta X) : CumulativeToDelta X :=
  if cfg.maxSeries ≤ s.series.live then evictLeast cfg s.queue s else s

theorem Stable.room (stable : Stable cfg fact) (holds : fact s) : fact (s.room cfg) := by
  unfold CumulativeToDelta.room
  split
  · exact stable.evictLeast _ holds
  · exact holds

variable (series : Series X)

theorem insert_series (now : Int64) : (s.insert cfg series now).series =
      ((s.room cfg).series.insert Series.hash series).update (s.room cfg).series.vacancy fun placed =>
        { placed with seq := (s.room cfg).nextSeq + 1, touched := now } := by
  rw [insert, touch_series]
  rfl

@[simp] theorem insert_trail (now : Int64) : (s.insert cfg series now).trail = (s.room cfg).trail := by
  simp [insert, room]

@[simp] theorem insert_evicted (now : Int64) : (s.insert cfg series now).evicted = (s.room cfg).evicted := by
  simp [insert, room]

theorem get_insert {room : CumulativeToDelta X} (sound : room.series.Sound Series.hash Series.key)
    (place : s.room cfg = room) (series : Series X) (now : Int64) (i : Nat) :
    (s.insert cfg series now).series.get i =
      if i = room.series.vacancy then some { series with seq := room.nextSeq + 1, touched := now }
      else room.series.get i := by
  rw [insert_series, place, Slab.get_update, Slab.get_insert sound]
  by_cases same : i = room.series.vacancy
  · simp [same]
  · simp [same]

end CumulativeToDelta

/-- The tracked series are those of a log: each holds its last accepted point, and a series that is not
tracked any more was evicted. -/
structure Follows (cfg : Settings X) (log : Log X) (s : CumulativeToDelta X) : Prop where
  sound : s.series.Sound Series.hash Series.key
  hashed : ∀ i a, s.series.get i = some a → a.hash = cfg.hash a.key
  recorded : ∀ i a, s.series.get i = some a → ∃ e, lastAccepted a.key log = some e ∧
    a.start = e.start ∧ a.ts = e.ts ∧ Records a.base e.kind ∧ a.key.kind.Holds e.kind
  covered : ∀ k e, lastAccepted k log = some e →
    (∃ i a, s.series.get i = some a ∧ a.key = k) ∨ Loss.evicted k ∈ s.trail

namespace Follows

open CumulativeToDelta Option

variable {log : Log X} {s : CumulativeToDelta X}

theorem evict_sound (sound : s.series.Sound Series.hash Series.key) (slot : Nat) :
    (s.evict cfg slot).series.Sound Series.hash Series.key := by
  unfold CumulativeToDelta.evict
  split
  · exact sound
  · split
    · exact sound.remove slot
    · exact sound.remove slot

variable {series : Series X} {e : Entry X}

theorem evict_trail {slot : Nat} (found : s.series.get slot = some series) :
    Loss.evicted series.key ∈ (s.evict cfg slot).trail := by
  simp only [CumulativeToDelta.evict, found]
  split <;> simp [remember]

theorem stable (cfg : Settings X) (log : Log X) : Stable cfg (Follows cfg log) where
  queue _ _ holds := { holds with }
  now _ _ holds := { holds with }
  evict s slot holds := by
    have kept : ∀ i a, (s.evict cfg slot).series.get i = some a → s.series.get i = some a := by
      intro i a found
      rw [get_evict] at found
      split at found
      · cases found
      · exact found
    refine ⟨evict_sound holds.sound slot, fun i a found => holds.hashed i a (kept i a found),
      fun i a found => holds.recorded i a (kept i a found), ?_⟩
    intro k e last
    obtain ⟨lost, trail⟩ := @trail_evict X cfg s slot
    rcases holds.covered k e last with ⟨i, a, found, key⟩ | earlier
    · by_cases same : i = slot
      · right
        subst same key
        exact evict_trail found
      · left
        exact ⟨i, a, by rw [get_evict, if_neg same, found], key⟩
    · right
      rw [trail]
      exact List.mem_append_left _ earlier

theorem skip (follows : Follows cfg log s) (refused : e.verdict.accepted = false) : Follows cfg (e :: log) s where
  sound := follows.sound
  hashed := follows.hashed
  recorded i a found := by
    rw [lastAccepted_skip log (.inr refused)]
    exact follows.recorded i a found
  covered k last := by
    rw [lastAccepted_skip log (.inr refused)]
    exact follows.covered k last

theorem last_cases {e last : Entry X} {k k' : Key X} (own : e.key = some k)
    (accepted : e.verdict.accepted = true) (found : lastAccepted k' (e :: log) = some last) :
    (k' = k ∧ last = e) ∨ (k' ≠ k ∧ lastAccepted k' log = some last) := by
  by_cases same : k' = k
  · left
    rw [same, lastAccepted_new log own accepted, some.injEq] at found
    exact ⟨same, found.symm⟩
  · right
    rw [lastAccepted_other log own same] at found
    exact ⟨same, found⟩

theorem settle (follows : Follows cfg log s) {slot : Nat} (found : s.series.get slot = some series)
    (own : e.key = some series.key) (accepted : e.verdict.accepted = true) {base : Baseline}
    (records : Records base e.kind) (holds : series.key.kind.Holds e.kind) (now : Int64) :
    Follows cfg (e :: log) (s.settle slot base e.start e.ts now) := by
  have inside := get_settle found base e.start e.ts now
  refine ⟨?_, ?_, ?_, ?_⟩
  · rw [CumulativeToDelta.settle, touch_series]
    apply Slab.Sound.update
    · exact follows.sound.update slot (fun a _ => by rfl) (fun a _ => by rfl)
    · intro a _
      rfl
    · intro a _
      rfl
  · intro i a here
    rw [inside] at here
    split at here
    · cases here
      exact follows.hashed slot series found
    · exact follows.hashed i a here
  · intro i a here
    rw [inside] at here
    split at here
    · cases here
      exact ⟨e, lastAccepted_new log own accepted, rfl, rfl, records, holds⟩
    · rename_i other
      have different : a.key ≠ series.key := fun same =>
        other (follows.sound.distinct i slot a series here found same)
      rw [lastAccepted_other log own different]
      exact follows.recorded i a here
  · intro k last new
    rw [settle_trail]
    have tracked : ∀ k', (∃ i a, s.series.get i = some a ∧ a.key = k') →
        ∃ i a, (s.settle slot base e.start e.ts now).series.get i = some a ∧ a.key = k' := by
      rintro k' ⟨i, a, here, key⟩
      by_cases same : i = slot
      · subst same
        cases found.symm.trans here
        exact ⟨i, _, (inside i).trans (if_pos rfl), key⟩
      · exact ⟨i, a, by rw [inside, if_neg same, here], key⟩
    rcases last_cases own accepted new with ⟨rfl, _⟩ | ⟨_, old⟩
    · exact .inl (tracked _ ⟨slot, series, found, rfl⟩)
    · rcases follows.covered k last old with here | gone
      · exact .inl (tracked _ here)
      · exact .inr gone

theorem insert (follows : Follows cfg log s) (fresh : Untracked series.key s) (own : e.key = some series.key)
    (accepted : e.verdict.accepted = true) (start : series.start = e.start) (ts : series.ts = e.ts)
    (records : Records series.base e.kind) (holds : series.key.kind.Holds e.kind)
    (hashed : series.hash = cfg.hash series.key) (now : Int64) :
    Follows cfg (e :: log) (s.insert cfg series now) := by
  have roomy := (stable cfg log).room follows
  have vacant := (stable_untracked cfg series.key).room fresh
  have inside := get_insert roomy.sound rfl series now
  refine ⟨?_, ?_, ?_, ?_⟩
  · rw [insert_series]
    apply Slab.Sound.update
    · exact roomy.sound.insert vacant
    · intro a _
      rfl
    · intro a _
      rfl
  · intro i a here
    rw [inside] at here
    split at here
    · cases here
      exact hashed
    · exact roomy.hashed i a here
  · intro i a here
    rw [inside] at here
    split at here
    · cases here
      exact ⟨e, lastAccepted_new log own accepted, start, ts, records, holds⟩
    · rw [lastAccepted_other log own (vacant i a here)]
      exact roomy.recorded i a here
  · intro k last new
    rw [insert_trail]
    rcases last_cases own accepted new with ⟨rfl, _⟩ | ⟨_, old⟩
    · exact .inl ⟨_, _, (inside _).trans (if_pos rfl), rfl⟩
    · rcases roomy.covered k last old with ⟨i, a, here, key⟩ | gone
      · have other : i ≠ (s.room cfg).series.vacancy := by
          rintro rfl
          rw [Slab.get_vacancy roomy.sound] at here
          cases here
        exact .inl ⟨i, a, by rw [inside, if_neg other, here], key⟩
      · exact .inr gone

end Follows

end Logit.Delta
