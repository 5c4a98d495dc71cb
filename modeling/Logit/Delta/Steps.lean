import Logit.Delta.Tracking

namespace Logit.Delta

open CumulativeToDelta List Bool

variable {X : Externals} {cfg : Settings X} {log : Log X} {s : CumulativeToDelta X}

/-- What can become of a record: it passes or is dropped before any series is looked at, it is a point
of a series that is not tracked, or it is a point of a tracked one. -/
theorem convert_cases (follows : Follows cfg log s) (p : Point X) :
    let read := s.readNow cfg p.clock
    (p.kind cfg = none ∧ s.convert cfg p = ⟨s, .passed, some p.record⟩) ∨
    (finiteSum p.record.kind = false ∧ s.convert cfg p = ⟨s, .droppedNonFinite, none⟩) ∨
    (∃ kind, p.kind cfg = some kind ∧ finiteSum p.record.kind = true ∧ read.find cfg (p.key kind) = none ∧
      Untracked (p.key kind) read ∧
      s.convert cfg p = read.convertUntracked cfg (p.key kind) (s.now.getD p.clock) p) ∨
    ∃ kind slot series, p.kind cfg = some kind ∧ read.find cfg (p.key kind) = some slot ∧
      read.series.get slot = some series ∧ series.key = p.key kind ∧
      s.convert cfg p = read.convertTracked cfg kind slot series (s.now.getD p.clock) p := by
  have read := (Follows.stable cfg log).readNow p.clock follows
  cases found : p.kind cfg with
  | none =>
    left
    exact ⟨rfl, by simp [convert, found]⟩
  | some kind =>
    by_cases whole : finiteSum p.record.kind = true
    · right
      right
      have equal : ∀ a : Series X, a.key.eq (p.key kind) = true ↔ a.key = p.key kind :=
        fun a => Key.eq_iff
      cases place : (s.readNow cfg p.clock).find cfg (p.key kind) with
      | none =>
        left
        refine ⟨kind, rfl, whole, place, ?_, by simp [convert, found, whole, place]⟩
        intro i a here
        apply Slab.find_eq_none read.sound equal _ place here
        intro j b there same
        rw [read.hashed j b there, same]
      | some slot =>
        right
        obtain ⟨series, here, key⟩ := Slab.find_eq_some equal place
        exact ⟨kind, slot, series, rfl, place, here, key, by simp [convert, found, whole, place, here]⟩
    · right
      left
      rw [not_eq_true] at whole
      exact ⟨whole, by simp [convert, found, whole]⟩

theorem convertTracked_cases (kind : Kind) (slot : Nat) (series : Series X) (now : Int64) (p : Point X) :
    let done := s.convertTracked cfg kind slot series now p
    let aligned := align cfg.floats series.base p.record.kind
    let next := difference cfg.floats aligned.1 p.record.kind (cfg.signed kind)
    let rebased := s.settle slot (aligned.1.rebase p.record.kind) p.record.startTimestamp p.ts now
    (p.ts ≤ series.ts ∧ done = skipped s p.ts series.ts) ∨
    (series.ts < p.ts ∧ ((cfg.fell kind series.base p.record.kind = true ∧ done.verdict = .resetDecrease) ∨
        (restarted p.record.startTimestamp series.ts p.ts = true ∧ done.verdict = .resetRestarted)) ∧
      done.state = rebased ∧ done.emitted = some { p.record with kind := emitFull p.record.kind }) ∨
    (series.ts < p.ts ∧ aligned.2 = true ∧ done = ⟨rebased, .droppedLayout, none⟩) ∨
    (series.ts < p.ts ∧ cfg.fell kind series.base p.record.kind = false ∧ aligned.2 = false ∧
      done = ⟨s.settle slot next.1 p.record.startTimestamp p.ts now, .converted,
        some { p.record with kind := next.2, startTimestamp := series.ts }⟩) := by
  by_cases old : p.ts ≤ series.ts
  · left
    exact ⟨old, by simp [convertTracked, old]⟩
  · right
    have later := Int64.not_le.mp old
    by_cases fell : cfg.fell kind series.base p.record.kind = true
    · left
      exact ⟨later, by simp [convertTracked, old, fell]⟩
    · rw [not_eq_true] at fell
      by_cases again : restarted p.record.startTimestamp series.ts p.ts = true
      · left
        exact ⟨later, by simp [convertTracked, old, again]⟩
      · right
        cases layout : (align cfg.floats series.base p.record.kind).2 with
        | true =>
          left
          exact ⟨later, rfl, by simp [convertTracked, old, fell, again, layout]⟩
        | false =>
          right
          exact ⟨later, fell, rfl, by simp [convertTracked, old, fell, again, layout]⟩

variable (key : Key X) (now : Int64) (p : Point X)

theorem convertUntracked_cases :
    let done := s.convertUntracked cfg key now p
    let memory := s.evicted.lookup (cfg.hash key)
    (∃ last seq, cfg.initial = .auto ∧ memory = some (last, seq) ∧ p.ts ≤ last ∧ done = skipped s p.ts last) ∨
    (∃ last seq, cfg.initial = .auto ∧ memory = some (last, seq) ∧ last < p.ts ∧
      done = { s with evicted := s.evicted.erase (cfg.hash key) }.begin cfg key now p
        (restarted p.record.startTimestamp last p.ts)) ∨
    (cfg.initial = .auto ∧ memory = none ∧
      done = s.begin cfg key now p (cfg.passesAuto p.record.startTimestamp p.ts)) ∨
    (cfg.initial ≠ .auto ∧ ∃ emit, done = s.begin cfg key now p emit) := by
  cases initial : cfg.initial with
  | auto =>
    cases memory : s.evicted.lookup (cfg.hash key) with
    | none => simp [convertUntracked, initial, memory]
    | some record =>
      obtain ⟨last, seq⟩ := record
      by_cases old : p.ts ≤ last
      · left
        exact ⟨last, seq, rfl, rfl, old, by simp [convertUntracked, initial, memory, old]⟩
      · right
        left
        exact ⟨last, seq, rfl, rfl, Int64.not_le.mp old, by simp [convertUntracked, initial, memory, old]⟩
  | keep | drop => simp [convertUntracked, initial]

def newSeries (cfg : Settings X) (key : Key X) (now : Int64) (p : Point X) : Series X :=
  ⟨key, cfg.hash key, p.record.startTimestamp, p.ts, .of p.record.kind, 0, now⟩

theorem begin_cases (emit : Bool) :
    let done := s.begin cfg key now p emit
    done.state = s.insert cfg (newSeries cfg key now p) now ∧
      ((emit = true ∧ done.verdict = .first ∧
        done.emitted = some { p.record with kind := emitFull p.record.kind }) ∨
      (emit = false ∧ done.verdict = .skippedInitial ∧ done.emitted = none)) := by
  cases emit <;> simp [begin, newSeries]

theorem skipped_refused (s : CumulativeToDelta X) (ts last : Int64) :
    (skipped s ts last).verdict.accepted = false := by
  unfold skipped
  split <;> rfl

theorem stable_trail (cfg : Settings X) (trail : List (Loss X)) : Stable cfg fun s => trail <+: s.trail where
  queue _ _ holds := holds
  now _ _ holds := holds
  evict s slot holds := by
    obtain ⟨lost, more⟩ := @trail_evict X cfg s slot
    rw [more]
    exact holds.trans (prefix_append _ _)

theorem trail_readNow (clock : Int64) : s.trail <+: (s.readNow cfg clock).trail :=
  (stable_trail cfg s.trail).readNow clock (prefix_refl _)

theorem trail_begin (emit : Bool) : s.trail <+: (s.begin cfg key now p emit).state.trail := by
  rw [(begin_cases key now p emit).1, insert_trail]
  exact (stable_trail cfg s.trail).room (prefix_refl _)

theorem trail_convertUntracked :
    s.trail <+: (s.convertUntracked cfg key now p).state.trail := by
  rcases @convertUntracked_cases X cfg s key now p with
    ⟨last, seq, _, _, _, done⟩ | ⟨last, seq, _, _, _, done⟩ | ⟨_, _, done⟩ | ⟨_, emit, done⟩
  · rw [done]
    exact prefix_refl _
  · rw [done]
    exact @trail_begin X cfg { s with evicted := s.evicted.erase (cfg.hash key) } key now p _
  · rw [done]
    exact trail_begin key now p _
  · rw [done]
    exact trail_begin key now p emit

theorem trail_convertTracked (kind : Kind) (slot : Nat) (series : Series X) (now : Int64) (p : Point X) :
    (s.convertTracked cfg kind slot series now p).state.trail = s.trail := by
  rcases @convertTracked_cases X cfg s kind slot series now p with
    ⟨_, done⟩ | ⟨_, _, state, _⟩ | ⟨_, _, done⟩ | ⟨_, _, _, done⟩
  · rw [done]
    rfl
  · rw [state, settle_trail]
  · rw [done, settle_trail]
  · rw [done, settle_trail]

theorem trail_convert (follows : Follows cfg log s) (p : Point X) : s.trail <+: (s.convert cfg p).state.trail := by
  have read := @trail_readNow X cfg s p.clock
  rcases convert_cases follows p with ⟨_, done⟩ | ⟨_, done⟩ | ⟨kind, _, _, _, _, done⟩ |
    ⟨kind, slot, series, _, _, _, _, done⟩
  · rw [done]
  · rw [done]
  · rw [done]
    exact read.trans (trail_convertUntracked _ _ p)
  · rw [done, trail_convertTracked]
    exact read

theorem run_append (cfg : Settings X) (inputs : List (Input X)) (input : Input X) :
    run cfg (inputs ++ [input]) = (run cfg inputs).step cfg input := by
  rw [run, foldl_append]
  rfl

namespace Follows

variable {kind : Kind} {p : Point X}

section

variable (follows : Follows cfg log s)
include follows

theorem begin (found : p.kind cfg = some kind) (fresh : Untracked (p.key kind) s)
    (now : Int64) (emit : Bool) : Follows cfg (p.entry cfg (s.begin cfg (p.key kind) now p emit) :: log)
      (s.begin cfg (p.key kind) now p emit).state := by
  obtain ⟨state, outcome⟩ := @begin_cases X cfg s (p.key kind) now p emit
  rw [state]
  have holds := Kind.of_holds found
  apply follows.insert
  · exact fresh
  · simp [Point.entry, found, newSeries]
  · rcases outcome with ⟨_, verdict, _⟩ | ⟨_, verdict, _⟩ <;> simp [Point.entry, verdict, Verdict.accepted]
  · rfl
  · rfl
  · exact Records.of holds
  · exact holds
  · rfl

theorem forget (evicted : Evicted) : Follows cfg log { s with evicted := evicted } := { follows with }

theorem convertUntracked (found : p.kind cfg = some kind)
    (fresh : Untracked (p.key kind) s) (now : Int64) :
    Follows cfg (p.entry cfg (s.convertUntracked cfg (p.key kind) now p) :: log)
      (s.convertUntracked cfg (p.key kind) now p).state := by
  rcases @convertUntracked_cases X cfg s (p.key kind) now p with
    ⟨last, seq, _, _, _, done⟩ | ⟨last, seq, _, _, _, done⟩ | ⟨_, _, done⟩ | ⟨_, emit, done⟩
  · rw [done]
    exact follows.skip (skipped_refused s p.ts last)
  · rw [done]
    exact (follows.forget (s.evicted.erase (cfg.hash (p.key kind)))).begin found fresh now _
  · rw [done]
    exact follows.begin found fresh now _
  · rw [done]
    exact follows.begin found fresh now emit

theorem convertTracked {slot : Nat} {series : Series X} (found : p.kind cfg = some kind)
    (here : s.series.get slot = some series) (key : series.key = p.key kind) (now : Int64) :
    Follows cfg (p.entry cfg (s.convertTracked cfg kind slot series now p) :: log)
      (s.convertTracked cfg kind slot series now p).state := by
  have holds : series.key.kind.Holds p.record.kind := by
    rw [key]
    exact Kind.of_holds found
  have own : ∀ done, (p.entry cfg done).key = some series.key := by
    intro done
    simp [Point.entry, found, key]
  obtain ⟨last, _, _, _, records, before⟩ := follows.recorded slot series here
  rcases @convertTracked_cases X cfg s kind slot series now p with
    ⟨_, done⟩ | ⟨_, reset, state, _⟩ | ⟨_, _, done⟩ | ⟨_, _, kept, done⟩
  · rw [done]
    exact follows.skip (skipped_refused s p.ts series.ts)
  · rw [state]
    apply follows.settle (e := p.entry cfg _) here (own _) _ (Records.rebase holds _) holds
    rcases reset with ⟨_, verdict⟩ | ⟨_, verdict⟩ <;> simp [Point.entry, verdict, Verdict.accepted]
  · rw [done]
    exact follows.settle (e := p.entry cfg _) here (own _) rfl (Records.rebase holds _) holds now
  · rw [done]
    exact follows.settle (e := p.entry cfg _) here (own _) rfl (records.difference before holds kept _) holds now

theorem convert (p : Point X) : Follows cfg (p.entry cfg (s.convert cfg p) :: log) (s.convert cfg p).state := by
  have read := (stable cfg log).readNow p.clock follows
  rcases convert_cases follows p with ⟨_, done⟩ | ⟨_, done⟩ | ⟨kind, found, _, _, fresh, done⟩ |
    ⟨kind, slot, series, found, _, here, key, done⟩
  · rw [done]
    exact follows.skip rfl
  · rw [done]
    exact follows.skip rfl
  · rw [done]
    exact read.convertUntracked found fresh _
  · rw [done]
    exact read.convertTracked found here key _

end

theorem new : Follows cfg [] (.new : CumulativeToDelta X) where
  sound := Slab.sound_empty
  hashed i a found := by simp [CumulativeToDelta.new, Slab.empty, Slab.get] at found
  recorded i a found := by simp [CumulativeToDelta.new, Slab.empty, Slab.get] at found
  covered k e last := by simp [lastAccepted] at last

theorem run (cfg : Settings X) (inputs : List (Input X)) :
    Follows cfg (run cfg inputs).log (run cfg inputs).state := by
  induction inputs using List.reverseRecOn with
  | nil => exact new
  | append_singleton inputs input ih =>
    rw [run_append]
    cases input with
    | record p => exact ih.convert p
    | endBatch => exact (stable cfg _).now _ none ih

end Follows

theorem trail_step (cfg : Settings X) (inputs : List (Input X)) (input : Input X) :
    (run cfg inputs).state.trail <+: (run cfg (inputs ++ [input])).state.trail := by
  rw [run_append]
  cases input with
  | record p => exact trail_convert (Follows.run cfg inputs) p
  | endBatch => exact prefix_refl _

theorem trail_run (cfg : Settings X) (inputs rest : List (Input X)) :
    (run cfg inputs).state.trail <+: (run cfg (inputs ++ rest)).state.trail := by
  induction rest using reverseRecOn with
  | nil => rw [append_nil]
  | append_singleton rest input ih =>
    rw [← append_assoc]
    exact ih.trans (trail_step cfg (inputs ++ rest) input)

end Logit.Delta
