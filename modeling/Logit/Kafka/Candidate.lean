import Logit.Kafka.Consumer

namespace Logit.Kafka.Consumer

open Truncations List Nat Set State

variable {X : Externals} {input : KafkaInput X}

/-- The offsets of a range as an epoch read them. -/
abbrev stretch (epoch : Nat) (range : Int × Int) : Stretch Nat Int := ⟨epoch, range.1, range.2⟩

namespace Part

variable {p : Part} {history : List (Nat × Int)}

theorem accept_eq (p : Part) (epoch : Nat) (range : Int × Int) :
    ∃ tracker, p.accept epoch range = { p with tracker := tracker } := by
  unfold accept
  split
  · exact ⟨_, rfl⟩
  · split
    · split
      · exact ⟨_, rfl⟩
      · exact ⟨p.tracker, rfl⟩
    · exact ⟨p.tracker, rfl⟩

variable {epoch : Nat}

/-- A range fetched in an epoch of this assignment adds exactly the offsets that lie below every
reset since that epoch. -/
theorem offsets_accept (keeps : Keeps history p.resets) (past : ∀ cut ∈ history, cut.1 < p.epoch)
    (own : p.firstEpoch ≤ epoch) (ended : epoch = p.epoch ∨ ∃ cut ∈ history, epoch ≤ cut.1) (range : Int × Int) :
    (p.accept epoch range).tracker.offsets = p.tracker.offsets ∪
      {o | o ∈ Set.Ico range.1 range.2 ∧ ∀ cut ∈ history, epoch ≤ cut.1 → o < cut.2} := by
  by_cases same : epoch = p.epoch
  · have all : {o | o ∈ Set.Ico range.1 range.2 ∧ ∀ cut ∈ history, epoch ≤ cut.1 → o < cut.2} =
        Set.Ico range.1 range.2 := by
      ext o
      refine and_iff_left ?_
      intro cut mem since
      exact absurd (past cut mem) (not_lt.mpr (same ▸ since))
    rw [accept, if_pos same, all]
    exact Tracker.offsets_mark _ _
  · obtain ⟨cut, mem, since⟩ := ended.resolve_left same
    have before := since.trans_lt (past cut mem)
    obtain ⟨low, found, spec⟩ := keeps.exists_lowest mem since
    have below : {o | o ∈ Set.Ico range.1 range.2 ∧ ∀ cut ∈ history, epoch ≤ cut.1 → o < cut.2} =
        Set.Ico range.1 (min range.2 low) := by
      ext o
      simp only [mem_ofPred_eq, mem_Ico, ← spec o, lt_min_iff, and_assoc]
    rw [accept, if_neg same, if_pos ⟨own, before⟩, found, below]
    exact Tracker.offsets_mark _ _

/-- An offset below every reset since an epoch names the record that it named then. -/
theorem current_iff (past : ∀ cut ∈ history, cut.1 < p.epoch) (seen : epoch ≤ p.epoch) (o : Int) :
    incarnation history epoch o = incarnation history p.epoch o ↔ ∀ cut ∈ history, epoch ≤ cut.1 → o < cut.2 := by
  rw [incarnation_eq_iff seen]
  exact ⟨fun kept cut mem since => kept cut mem since (past cut mem),
    fun kept cut mem since _ => kept cut mem since⟩

theorem accept_of_earlier (first : p.firstEpoch ≤ p.epoch) (earlier : epoch < p.firstEpoch) (range : Int × Int) :
    p.accept epoch range = p := by
  have other : epoch ≠ p.epoch := by omega
  have outside : ¬ (p.firstEpoch ≤ epoch ∧ epoch < p.epoch) := by omega
  rw [accept, if_neg other, if_neg outside]

/-- What a step of a delivery marks, if anything. -/
def marks (p : Part) (epoch : Nat) (range : Option (Int × Int)) : Part := range.elim p (p.accept epoch)

theorem marks_eq (p : Part) (epoch : Nat) (range : Option (Int × Int)) :
    ∃ tracker, p.marks epoch range = { p with tracker := tracker } := by
  cases range with
  | none => exact ⟨p.tracker, rfl⟩
  | some range => exact p.accept_eq epoch range

theorem mem_offsets_marks (keeps : Keeps history p.resets) (past : ∀ cut ∈ history, cut.1 < p.epoch)
    (own : p.firstEpoch ≤ epoch) (seen : epoch ≤ p.epoch)
    (ended : epoch = p.epoch ∨ ∃ cut ∈ history, epoch ≤ cut.1) (range : Option (Int × Int)) (o : Int) :
    o ∈ (p.marks epoch range).tracker.offsets ↔ o ∈ p.tracker.offsets ∨
      ∃ r ∈ range, (stretch epoch r).Holds history o (incarnation history p.epoch o) := by
  cases range with
  | none => simp [marks]
  | some range =>
    simp only [Option.mem_some_iff, exists_eq_left']
    rw [marks, Option.elim, offsets_accept keeps past own ended, mem_union, mem_ofPred_eq, mem_Ico,
      Stretch.Holds, current_iff past seen, and_assoc]

end Part

variable (s : State X)

theorem State.markAccepted_eq (epoch : Nat) (range : Option (Int × Int)) :
    s.markAccepted epoch range = { s with part := s.part.map (·.marks epoch range) } := by
  cases range with
  | none =>
    obtain ⟨part⟩ := s
    cases part <;> rfl
  | some range => rfl

/-- Whether an entry settled a given incarnation of an offset: it was skipped, or lies in a cut that
was marked accepted. -/
def Taken.Settles (history : List (Nat × Int)) : Taken X → Int → Nat → Prop
  | .skipped epoch span, o, n => (stretch epoch span).Holds history o n
  | .handed run, o, n => ∃ i cut, i < run.marked ∧ run.cuts[i]? = some cut ∧
      (stretch run.epoch cut.range).Holds history o n

def Taken.stretch : Taken X → Stretch Nat Int
  | .skipped epoch span => Consumer.stretch epoch span
  | .handed run => Consumer.stretch run.epoch run.fetched.span

theorem Taken.settles_current_snoc {history : List (Nat × Int)} {now later : Nat}
    (past : ∀ cut ∈ history, cut.1 < now) {entry : Taken X} (seen : entry.stretch.period ≤ now)
    (after : now < later) (at_ o : Int) :
    entry.Settles (history ++ [(now, at_)]) o (incarnation (history ++ [(now, at_)]) later o) ↔
      entry.Settles history o (incarnation history now o) ∧ o < at_ := by
  cases entry with
  | skipped epoch span => exact Stretch.holds_current_snoc past seen after at_ o
  | handed run =>
    have each : ∀ range, (Consumer.stretch run.epoch range).Holds (history ++ [(now, at_)]) o
        (incarnation (history ++ [(now, at_)]) later o) ↔
          (Consumer.stretch run.epoch range).Holds history o (incarnation history now o) ∧ o < at_ := by
      intro range
      have within : (Consumer.stretch run.epoch range).period ≤ now := seen
      exact Stretch.holds_current_snoc past within after at_ o
    simp [Settles, each, ← and_assoc]

namespace State

/-- The least offset that an assignment is answerable for: its start, or a reset below it. -/
def floor : Int := s.history.foldl (fun low cut => min low cut.2) s.start

/-- Whether the record that an offset names now was accepted or skipped. -/
def Settled (o : Int) (n : Nat) : Prop := ∃ entry ∈ s.taken, entry.Settles s.history o n

/-- Everything that an assignment fetched or skipped, the buffered run last. -/
def stretches (part : Part) : List (Stretch Nat Int) :=
  s.taken.map Taken.stretch ++ part.buffer.toList.map fun fetched => stretch fetched.epoch fetched.span

end State

/-- A delivery sends the cuts of what it fetched in order, and has sent every batch of a cut that it
marks accepted. -/
structure Run.Faithful (input : KafkaInput X) (run : Run X) : Prop where
  decoded : ∃ decoder, run.cuts = input.decode decoder run.fetched
  marked : ∀ i < run.marked, ∀ cut, run.cuts[i]? = some cut → ∀ j < cut.batches.length, (i, j) ∈ run.accepted
  sending : ∀ j < run.sent, (run.marked, j) ∈ run.accepted

theorem Run.Faithful.begin (decoder : Record → Decoded X) (fetched : Fetched) :
    (Run.begin input decoder fetched).Faithful input :=
  ⟨⟨decoder, rfl⟩, by simp [Run.begin], by simp [Run.begin]⟩

theorem Run.Faithful.advance {run : Run X} (faithful : run.Faithful input) (sent : Sent) :
    (run.advance sent).1.Faithful input := by
  obtain ⟨decoded, marked, sending⟩ := faithful
  unfold Run.advance
  split
  case isTrue => exact ⟨decoded, marked, sending⟩
  case isFalse =>
    split
    case h_1 => exact ⟨decoded, marked, sending⟩
    case h_2 cut here =>
      split
      case isTrue unsent =>
        cases sent with
        | accepted =>
          refine ⟨decoded, fun i before cut at_ j inside => ?_, fun j before => ?_⟩
          · exact mem_append_left _ (marked i before cut at_ j inside)
          · rcases Nat.lt_succ_iff_lt_or_eq.mp before with old | rfl
            · exact mem_append_left _ (sending j old)
            · exact mem_append_right _ (mem_singleton_self _)
        | refused => exact ⟨decoded, marked, sending⟩
        | timedOut drained => cases drained <;> exact ⟨decoded, marked, sending⟩
      case isFalse all =>
        refine ⟨decoded, fun i before other at_ j inside => ?_, by simp⟩
        rcases Nat.lt_succ_iff_lt_or_eq.mp before with old | rfl
        · exact marked i old other at_ j inside
        · rw [here] at at_
          cases at_
          exact sending j (by omega)

/-- What an assigned partition keeps at every step. -/
structure Sound (input : KafkaInput X) (s : State X) (part : Part) : Prop where
  sweep : Sweep s.history part.epoch s.floor part.position.next (s.stretches part)
  gapless : s.fetching = true → Gapless s.history part.epoch s.floor part.position.next (s.stretches part)
  current : part.epoch < s.nextEpoch
  first : part.firstEpoch ≤ part.epoch
  own : ∀ read ∈ s.stretches part, part.firstEpoch ≤ read.period
  ended : ∀ read ∈ s.stretches part, read.period = part.epoch ∨ ∃ cut ∈ s.history, read.period ≤ cut.1
  keeps : Keeps s.history part.resets
  settled : ∀ o, o ∈ part.tracker.offsets ↔ o < s.floor ∨ s.Settled o (incarnation s.history part.epoch o)
  runs : ∀ run, .handed run ∈ s.taken → run.Faithful input
  unresolved : ∀ timestamp, part.position = .start timestamp → s.taken = [] ∧ s.history = [] ∧ part.buffer = none
  ranged : ∀ offset, part.position = .outOfRange offset → part.buffer = none
  late : ∀ run ∈ s.late, run.epoch < part.firstEpoch

namespace Sound

variable {s : State X} {part : Part}

theorem fresh {offset : Int} (here : part.position.next = offset) (tracker : part.tracker.offsets = Set.Iio offset)
    (buffer : part.buffer = none) (noneTaken : s.taken = []) (noResets : s.history = [])
    (start : s.start = offset) (keeps : Keeps [] part.resets) (current : part.epoch < s.nextEpoch)
    (first : part.firstEpoch ≤ part.epoch) (late : ∀ run ∈ s.late, run.epoch < part.firstEpoch) :
    Sound input s part := by
  have floor : s.floor = offset := by simp [State.floor, noResets, start]
  have nothing : s.stretches part = [] := by simp [State.stretches, noneTaken, buffer]
  constructor
  case sweep =>
    rw [nothing, noResets, floor, here]
    exact Sweep.start part.epoch offset
  case gapless =>
    intro _
    rw [nothing, noResets, floor, here]
    exact Gapless.start part.epoch offset
  case current => exact current
  case first => exact first
  case own => simp [nothing]
  case ended => simp [nothing]
  case keeps =>
    rw [noResets]
    exact keeps
  case settled =>
    intro o
    simp [tracker, floor, State.Settled, noneTaken]
  case runs => simp [noneTaken]
  case unresolved => exact fun _ _ => ⟨noneTaken, noResets, buffer⟩
  case ranged => exact fun _ _ => buffer
  case late => exact late

theorem otherEpoch (sound : Sound input s part) : Sound input { s with nextEpoch := s.nextEpoch + 1 } part :=
  { sound with current := lt_succ_of_lt sound.current }

theorem committed (sound : Sound input s part) (tracker : Tracker) (same : tracker.offsets = part.tracker.offsets) :
    Sound input { s with part := some { part with tracker := tracker } } { part with tracker := tracker } :=
  { sound with settled := by rw [same]; exact sound.settled }

theorem move (sound : Sound input s part) {position : Position} (same : position.next = part.position.next)
    (resolved : ∀ timestamp, position ≠ .start timestamp)
    (ranged : ∀ offset, position = .outOfRange offset → part.buffer = none) :
    Sound input { s with part := some { part with position := position } } { part with position := position } :=
  { sound with
    sweep := by rw [same]; exact sound.sweep
    gapless := by rw [same]; exact sound.gapless
    unresolved := fun timestamp start => absurd start (resolved timestamp)
    ranged := ranged }

variable {taken : List (Taken X)} {late : List (Run X)} {whole : Option Part} {tracker : Tracker}
  {buffer : Option Fetched}

variable (sound : Sound input s part)
include sound

/-- The partition reads on to a position, past a stretch that is skipped or buffered. -/
theorem read {to_ : Int} (fetching : s.fetching = true) (forward : part.position.next ≤ to_)
    (longer : { s with taken, part := whole }.stretches { part with position := .at_ to_, tracker, buffer } =
      s.stretches part ++ [⟨part.epoch, part.position.next, to_⟩]) (settled : ∀ o, o ∈ tracker.offsets ↔
      o < s.floor ∨ { s with taken, part := whole }.Settled o (incarnation s.history part.epoch o))
    (runs : ∀ run, .handed run ∈ taken → .handed run ∈ s.taken) :
    Sound input { s with taken, part := whole } { part with position := .at_ to_, tracker, buffer } := by
  obtain ⟨sweep, gapless⟩ := sound.sweep.read (sound.gapless fetching) forward
  rw [← longer] at sweep gapless
  exact { sound with
    sweep := sweep
    gapless := fun _ => gapless
    own := by
      rw [longer, forall_mem_append, forall_mem_singleton]
      exact ⟨sound.own, sound.first⟩
    ended := by
      rw [longer, forall_mem_append, forall_mem_singleton]
      exact ⟨sound.ended, .inl rfl⟩
    settled := settled
    runs := fun run mem => sound.runs run (runs run mem)
    unresolved := by simp
    ranged := by simp }

theorem skip (fetching : s.fetching = true) {from_ to_ : Int} (here : part.position.next = from_)
    (forward : from_ ≤ to_) (empty : part.buffer = none) : Sound input (s.skip part from_ to_)
      { part with tracker := part.tracker.mark (from_, to_), position := .at_ to_ } := by
  refine sound.read fetching (here ▸ forward) ?_ ?_ ?_
  · simp [State.stretches, empty, here, Taken.stretch]
  · intro o
    rw [Tracker.offsets_mark, mem_union, sound.settled o, or_assoc]
    simp [State.Settled, Taken.Settles, Stretch.Holds]
  · simp

theorem seen_of_taken {entry : Taken X} (mem : entry ∈ s.taken) : entry.stretch.period ≤ part.epoch :=
  sound.sweep.seen _ (mem_append_left _ (mem_map_of_mem mem))

theorem reset (position : Int) : Sound input (s.reset part position)
      { part.reset position s.nextEpoch with position := .at_ (min part.position.next position) } := by
  have floor : (s.reset part position).floor = min s.floor position := by simp [State.floor, State.reset]
  have kept := sound.sweep.seen
  constructor
  case sweep =>
    rw [floor]
    exact sound.sweep.cut sound.current position
  case gapless =>
    intro fetching
    rw [floor]
    exact (sound.gapless fetching).cut sound.sweep sound.current position
  case current => exact lt_succ_self _
  case first => exact sound.first.trans sound.current.le
  case own => exact sound.own
  case ended =>
    intro read mem
    right
    exact ⟨_, mem_append_right _ (mem_singleton_self _), kept read mem⟩
  case keeps => exact sound.keeps.push sound.sweep.past position
  case settled =>
    intro o
    have lowered : o < min s.floor position ↔ o < s.floor ∧ o < position := lt_min_iff
    have still : (s.reset part position).Settled o (incarnation (s.reset part position).history s.nextEpoch o) ↔
        s.Settled o (incarnation s.history part.epoch o) ∧ o < position := by
      simp only [State.Settled]
      rw [← exists_and_right]
      refine exists_congr fun entry => ?_
      rw [and_assoc]
      refine and_congr_right fun mem => ?_
      exact Taken.settles_current_snoc sound.sweep.past (sound.seen_of_taken mem) sound.current position o
    change o ∈ (part.tracker.reset position).offsets ↔ o < (s.reset part position).floor ∨
      (s.reset part position).Settled o (incarnation (s.reset part position).history s.nextEpoch o)
    rw [Tracker.offsets_reset, mem_inter_iff, mem_Iio, sound.settled o, floor, still, lowered, or_and_right]
  case runs => exact sound.runs
  case unresolved =>
    intro timestamp start
    cases start
  case ranged =>
    intro offset out
    cases out
  case late => exact sound.late

/-- A step that fetches nothing: what the assignment went past stays, and the tracker follows what
is settled of it. -/
theorem same
    (stretches : { s with taken, late, part := whole }.stretches { part with tracker, buffer } = s.stretches part)
    (settled : ∀ o, o ∈ tracker.offsets ↔
      o < s.floor ∨ { s with taken, late, part := whole }.Settled o (incarnation s.history part.epoch o))
    (runs : ∀ run, .handed run ∈ taken → run.Faithful input) (emptied : part.buffer = none → buffer = none)
    (none : s.taken = [] → part.buffer = none → taken = []) (earlier : ∀ run ∈ late, run.epoch < part.firstEpoch) :
    Sound input { s with taken, late, part := whole } { part with tracker, buffer } :=
  { sound with
    sweep := stretches ▸ sound.sweep
    gapless := stretches ▸ sound.gapless
    own := stretches ▸ sound.own
    ended := stretches ▸ sound.ended
    settled := settled
    runs := runs
    unresolved := fun timestamp unknown =>
      have before := sound.unresolved timestamp unknown
      ⟨none before.1 before.2.2, before.2.1, emptied before.2.2⟩
    ranged := fun offset out => emptied (sound.ranged offset out)
    late := earlier }

theorem take {fetched : Fetched} (decoder : Record → Decoded X) (full : part.buffer = some fetched) :
    Sound input { s with
      part := some { part with buffer := none }
      taken := s.taken ++ [.handed (Run.begin input decoder fetched)] } { part with buffer := none } := by
  refine sound.same ?_ ?_ ?_ (fun _ => rfl) ?_ sound.late
  · simp [State.stretches, full, Taken.stretch, Run.begin, Run.epoch]
  · intro o
    rw [sound.settled o]
    simp [State.Settled, Taken.Settles, Run.begin]
  · intro run mem
    rcases mem_append.mp mem with old | new
    · exact sound.runs run old
    · cases mem_singleton.mp new
      exact .begin decoder fetched
  · intro _ empty
    rw [full] at empty
    cases empty

theorem stopFetching : Sound input { s with part := some { part with buffer := none }, fetching := false }
      { part with buffer := none } := by
  have fewer : ∀ read ∈ s.taken.map Taken.stretch ++ [], read ∈ s.stretches part := by
    intro read mem
    rw [append_nil] at mem
    exact mem_append_left _ mem
  have sweep : Sweep s.history part.epoch s.floor part.position.next (s.taken.map Taken.stretch ++ []) := by
    rw [append_nil]
    exact sound.sweep.forget
  exact { sound with
    sweep := sweep
    gapless := by simp
    own := fun read mem => sound.own read (fewer read mem)
    ended := fun read mem => sound.ended read (fewer read mem)
    unresolved := fun timestamp start =>
      ⟨(sound.unresolved timestamp start).1, (sound.unresolved timestamp start).2.1, rfl⟩
    ranged := fun _ _ => rfl }

end Sound

namespace Run

variable (run : Run X) (sent : Sent)

/-- A step of a delivery keeps what was fetched and how it was cut, and marks at most the next cut. -/
theorem advance_spec : (run.advance sent).1.fetched = run.fetched ∧ (run.advance sent).1.cuts = run.cuts ∧
    ((run.advance sent).2 = none ∧ (run.advance sent).1.marked = run.marked ∨
      ∃ cut, run.cuts[run.marked]? = some cut ∧ (run.advance sent).2 = some cut.range ∧
        (run.advance sent).1.marked = run.marked + 1) := by
  unfold advance
  split
  · exact ⟨rfl, rfl, .inl ⟨rfl, rfl⟩⟩
  · split
    case h_1 => exact ⟨rfl, rfl, .inl ⟨rfl, rfl⟩⟩
    case h_2 cut next =>
      split
      · split <;> exact ⟨rfl, rfl, .inl ⟨rfl, rfl⟩⟩
      · exact ⟨rfl, rfl, .inr ⟨cut, next, rfl, rfl⟩⟩

end Run

/-- What a step of a delivery settles: the range that it marks accepted. -/
theorem Taken.settles_advance (run : Run X) (sent : Sent) {history : List (Nat × Int)} {o : Int} {n : Nat} :
    (Taken.handed (run.advance sent).1).Settles history o n ↔ (Taken.handed run).Settles history o n ∨
      ∃ range ∈ (run.advance sent).2, (Consumer.stretch run.epoch range).Holds history o n := by
  obtain ⟨fetched, cuts, unmarked | ⟨cut, here, range, marked⟩⟩ := run.advance_spec sent
  · simp [Settles, Run.epoch, fetched, cuts, unmarked]
  · simp only [Settles, Run.epoch, fetched, cuts, range, marked, Option.mem_some_iff, exists_eq_left']
    constructor
    · rintro ⟨i, found, before, at_, holds⟩
      rcases Nat.lt_succ_iff_lt_or_eq.mp before with old | rfl
      · exact .inl ⟨i, found, old, at_, holds⟩
      · rw [here] at at_
        cases at_
        exact .inr holds
    · rintro (⟨i, found, before, at_, holds⟩ | holds)
      · exact ⟨i, found, lt_succ_of_lt before, at_, holds⟩
      · exact ⟨run.marked, cut, lt_succ_self _, here, holds⟩

theorem exists_mem_set_iff {α : Type*} {l : List α} {i : Nat} {old new : α} (here : l[i]? = some old)
    {p : α → Prop} {q : Prop} (grows : p new ↔ p old ∨ q) : (∃ x ∈ l.set i new, p x) ↔ (∃ x ∈ l, p x) ∨ q := by
  constructor
  · rintro ⟨x, mem, holds⟩
    rcases mem_or_eq_of_mem_set mem with kept | rfl
    · exact .inl ⟨x, kept, holds⟩
    · exact (grows.mp holds).imp_left fun before => ⟨old, mem_of_getElem? here, before⟩
  · have present := mem_set (List.getElem?_eq_some_iff.mp here).1 new
    rintro (⟨x, mem, holds⟩ | added)
    · obtain ⟨j, at_⟩ := mem_iff_getElem?.mp mem
      by_cases same : i = j
      · subst same
        rw [here] at at_
        cases at_
        exact ⟨new, present, grows.mpr (.inl holds)⟩
      · refine ⟨x, mem_iff_getElem?.mpr ⟨j, ?_⟩, holds⟩
        rwa [getElem?_set_ne same]
    · exact ⟨new, present, grows.mpr (.inr added)⟩

namespace Sound

variable {s : State X} {part : Part}

theorem deliver (sound : Sound input s part) {i : Nat} {run : Run X} (handed : s.taken[i]? = some (.handed run))
    (sent : Sent) {whole : Option Part} :
    Sound input { s with taken := s.taken.set i (.handed (run.advance sent).1), part := whole }
      (part.marks run.epoch (run.advance sent).2) := by
  have mem := mem_of_getElem? handed
  have known : (Taken.handed run).stretch ∈ s.stretches part := mem_append_left _ (mem_map_of_mem mem)
  have stretches :
      (s.taken.set i (.handed (run.advance sent).1)).map Taken.stretch = s.taken.map Taken.stretch := by
    have unchanged : (Taken.handed (run.advance sent).1).stretch = (Taken.handed run).stretch := by
      simp [Taken.stretch, Run.epoch, (run.advance_spec sent).1]
    have here : (s.taken.map Taken.stretch)[i]? = some (Taken.handed run).stretch := by
      rw [getElem?_map, handed, Option.map_some]
    obtain ⟨bound, value⟩ := List.getElem?_eq_some_iff.mp here
    rw [map_set, unchanged, ← value, set_getElem_self]
  have own : part.firstEpoch ≤ run.epoch := sound.own _ known
  have added := Part.mem_offsets_marks sound.keeps sound.sweep.past own (sound.sweep.seen _ known)
    (sound.ended _ known) (run.advance sent).2
  obtain ⟨tracker, changed⟩ := part.marks_eq run.epoch (run.advance sent).2
  rw [changed] at added ⊢
  refine sound.same ?_ (fun o => ?_) (fun other among => ?_) id (fun none_ _ => ?_) sound.late
  · simp [State.stretches, stretches]
  · rw [added o, sound.settled o, or_assoc]
    exact or_congr_right (exists_mem_set_iff handed (Taken.settles_advance run sent)).symm
  · rcases mem_or_eq_of_mem_set among with old | new
    · exact sound.runs other old
    · cases new
      exact (sound.runs run mem).advance sent
  · rw [none_, set_nil]

end Sound

/-- What holds of every state of a partition. -/
structure Ok (input : KafkaInput X) (s : State X) : Prop where
  late : ∀ run ∈ s.late, run.epoch < s.nextEpoch
  idle : s.part = none → s.taken = []
  sound : ∀ part, s.part = some part → Sound input s part

namespace Ok

variable {s t : State X}

theorem retire (ok : Ok input s) : ∀ run ∈ s.retire, run.epoch < s.nextEpoch := by
  intro run mem
  rcases mem_append.mp mem with old | new
  · exact ok.late run old
  · obtain ⟨entry, held, isRun⟩ := mem_filterMap.mp new
    cases assigned : s.part with
    | none =>
      rw [ok.idle assigned] at held
      cases held
    | some part =>
      have sound := ok.sound part assigned
      cases entry with
      | skipped epoch span => cases isRun
      | handed handed =>
        cases isRun
        exact (sound.seen_of_taken held).trans_lt sound.current

variable {part : Part}

theorem some_part (assigned : s.part = some part) (late : ∀ run ∈ s.late, run.epoch < s.nextEpoch)
    (sound : Sound input s part) : Ok input s := by
  refine ⟨late, fun none_ => ?_, fun other same => ?_⟩
  · rw [assigned] at none_
    cases none_
  · rw [assigned] at same
    cases same
    exact sound

variable (ok : Ok input s)
include ok

theorem install (committed : Option Int) (timestamp : Int) : Ok input (s.install committed timestamp) := by
  have late : ∀ run ∈ s.retire, run.epoch < s.nextEpoch + 1 :=
    fun run mem => lt_succ_of_lt (ok.retire run mem)
  cases committed with
  | some offset | none =>
    exact some_part rfl late (.fresh rfl (Tracker.offsets_new _ _) rfl rfl rfl rfl .nil (lt_succ_self _) le_rfl
      ok.retire)

theorem resolveStart {timestamp : Int} (offset : Int) (assigned : s.part = some part)
    (unknown : part.position = .start timestamp) : Ok input (s.resolveStart part offset) := by
  have sound := ok.sound part assigned
  obtain ⟨noneTaken, noResets, buffer⟩ := sound.unresolved timestamp unknown
  have keeps := sound.keeps
  rw [noResets] at keeps
  exact some_part rfl ok.late
    (.fresh rfl (Tracker.offsets_new _ _) buffer noneTaken noResets rfl keeps sound.current
    sound.first sound.late)

theorem resolveRange {from_ : Int} (start stop : Int) (assigned : s.part = some part)
    (fetching : s.fetching = true) (here : part.position = .outOfRange from_) :
    Ok input (s.resolveRange part from_ start stop) := by
  have sound := ok.sound part assigned
  have empty := sound.ranged from_ here
  have next : part.position.next = from_ := by rw [here]; rfl
  unfold State.resolveRange
  split
  case isTrue behind => exact some_part rfl ok.late (sound.skip fetching next behind.le empty)
  case isFalse =>
    split
    case isTrue => exact some_part rfl (fun run mem => lt_succ_of_lt (ok.late run mem)) (sound.reset stop)
    case isFalse => exact some_part rfl ok.late (sound.move next.symm (by simp) (by simp))

theorem answer {from_ : Int} (read : Read from_) (assigned : s.part = some part) (fetching : s.fetching = true)
    (here : part.position = .at_ from_) (empty : part.buffer = none) : Ok input (s.answer part read) := by
  have sound := ok.sound part assigned
  have next : part.position.next = from_ := congrArg Position.next here
  unfold State.answer
  split
  case isTrue => exact some_part rfl ok.late (sound.skip fetching next read.forward empty)
  case isFalse =>
    refine some_part rfl ok.late (sound.read fetching (next ▸ read.forward) ?_ sound.settled fun _ mem => mem)
    simp [State.stretches, empty, next]

theorem deliver {i : Nat} {run : Run X} (handed : s.taken[i]? = some (.handed run)) (sent : Sent) :
    Ok input ({ s with taken := s.taken.set i (.handed (run.advance sent).1) }.markAccepted run.epoch
      (run.advance sent).2) := by
  rw [markAccepted_eq]
  rcases Option.eq_none_or_eq_some s.part with idle | ⟨part, assigned⟩
  · rw [ok.idle idle] at handed
    cases handed
  · exact some_part (by rw [assigned]; rfl) ok.late ((ok.sound part assigned).deliver handed sent)

theorem deliverLate {i : Nat} {run : Run X} (late : s.late[i]? = some run) (sent : Sent) :
    Ok input ({ s with late := s.late.set i (run.advance sent).1 }.markAccepted run.epoch
      (run.advance sent).2) := by
  have runs : ∀ {bound}, (∀ other ∈ s.late, other.epoch < bound) →
      ∀ other ∈ s.late.set i (run.advance sent).1, other.epoch < bound := by
    intro bound below other mem
    rcases mem_or_eq_of_mem_set mem with old | rfl
    · exact below other old
    · rw [Run.epoch, (run.advance_spec sent).1]
      exact below run (mem_of_getElem? late)
  rw [markAccepted_eq]
  refine ⟨runs ok.late, fun none_ => ok.idle (Option.map_eq_none_iff.mp none_), fun next same => ?_⟩
  obtain ⟨part, assigned, rfl⟩ := Option.map_eq_some_iff.mp same
  have sound := ok.sound part assigned
  have unmoved : part.marks run.epoch (run.advance sent).2 = part := by
    cases (run.advance sent).2 with
    | none => rfl
    | some range => exact Part.accept_of_earlier sound.first (sound.late run (mem_of_getElem? late)) range
  rw [unmoved]
  exact { sound with late := runs sound.late }

theorem step (step : Step input s t) : Ok input t := by
  cases step with
  | install committed timestamp => exact ok.install committed timestamp
  | clear => exact ⟨ok.retire, fun _ => rfl, by simp [State.clear]⟩
  | otherEpoch =>
    exact ⟨fun run mem => lt_succ_of_lt (ok.late run mem), ok.idle,
      fun part assigned => (ok.sound part assigned).otherEpoch⟩
  | resolveStart offset assigned _ unknown => exact ok.resolveStart offset assigned unknown
  | answer read assigned fetching here empty => exact ok.answer read assigned fetching here empty
  | outOfRange assigned _ here empty =>
    have sound := ok.sound _ assigned
    exact some_part rfl ok.late (sound.move (congrArg Position.next here).symm (by simp) fun _ _ => empty)
  | resolveRange start stop assigned fetching here => exact ok.resolveRange start stop assigned fetching here
  | reset position assigned _ =>
    exact some_part rfl (fun run mem => lt_succ_of_lt (ok.late run mem))
      ((ok.sound _ assigned).reset position)
  | take decoder assigned full => exact some_part rfl ok.late ((ok.sound _ assigned).take decoder full)
  | stopFetching assigned => exact some_part rfl ok.late (ok.sound _ assigned).stopFetching
  | deliver sent handed => exact ok.deliver handed sent
  | deliverLate sent late => exact ok.deliverLate late sent
  | committed offset assigned => exact some_part rfl ok.late ((ok.sound _ assigned).committed _ rfl)

end Ok

theorem Reach.ok {s : State X} (reach : Reach input s) : Ok input s := by
  induction reach with
  | start => exact ⟨by simp [initial], fun _ => rfl, by simp [initial]⟩
  | next _ step ih => exact ih.step step

namespace Sound

variable {s : State X} {part : Part} {run : Run X} {o : Int} {n : Nat} {entry : Taken X}

variable (sound : Sound input s part)
include sound

theorem tiles (handed : .handed run ∈ s.taken) :
    RangeMap.Tiles run.fetched.span.1 run.fetched.span.2 (run.cuts.map (·.range)) := by
  obtain ⟨decoder, cuts⟩ := (sound.runs run handed).decoded
  rw [cuts]
  exact input.decode_tiles run.fetched

theorem holds_span (handed : .handed run ∈ s.taken) {i : Nat} {cut : Cut X} (here : run.cuts[i]? = some cut)
    (holds : (stretch run.epoch cut.range).Holds s.history o n) :
    (Taken.handed run).stretch.Holds s.history o n := by
  obtain ⟨first, last, same⟩ := holds
  have inside : o ∈ RangeMap.points (run.cuts.map (·.range)) :=
    ⟨cut.range, mem_map_of_mem (mem_of_getElem? here), first, last⟩
  rw [(sound.tiles handed).points_eq] at inside
  exact ⟨inside.1, inside.2, same⟩

theorem floor_le (taken : entry ∈ s.taken) (holds : entry.stretch.Holds s.history o n) : s.floor ≤ o :=
  (sound.sweep.above _ (mem_append_left _ (mem_map_of_mem taken))).trans holds.1

/-- Only the entry that holds an incarnation of an offset settles it. -/
theorem stretch_of_settles (taken : entry ∈ s.taken) (settles : entry.Settles s.history o n) :
    entry.stretch.Holds s.history o n := by
  cases entry with
  | skipped epoch span => exact settles
  | handed run =>
    obtain ⟨i, cut, _, here, holds⟩ := settles
    exact sound.holds_span taken here holds

/-- What a cut covers is not settled before the cut is marked accepted. -/
theorem not_settled (handed : .handed run ∈ s.taken) {i : Nat} {cut : Cut X} (here : run.cuts[i]? = some cut)
    (unmarked : run.marked ≤ i) (holds : (stretch run.epoch cut.range).Holds s.history o n) :
    ¬ s.Settled o n := by
  rintro ⟨entry, taken, settles⟩
  obtain ⟨a, atA⟩ := mem_iff_getElem?.mp handed
  obtain ⟨b, atB⟩ := mem_iff_getElem?.mp taken
  have stretchAt : ∀ {k : Nat} {x : Taken X}, s.taken[k]? = some x → (s.stretches part)[k]? = some x.stretch := by
    intro k x found
    rw [State.stretches, getElem?_append_left, getElem?_map, found, Option.map_some]
    rw [length_map]
    exact (List.getElem?_eq_some_iff.mp found).1
  have same := sound.sweep.unique (stretchAt atA) (stretchAt atB) (sound.holds_span handed here holds)
    (sound.stretch_of_settles taken settles)
  subst same
  rw [atA] at atB
  cases atB
  obtain ⟨j, other, marked, at_, also⟩ := settles
  have tiles := sound.tiles handed
  have cutAt : ∀ {k : Nat} {c : Cut X}, run.cuts[k]? = some c → (run.cuts.map (·.range))[k]? = some c.range := by
    intro k c found
    rw [getElem?_map, found, Option.map_some]
  have one := tiles.unique (cutAt here) (cutAt at_) ⟨holds.1, holds.2.1⟩ ⟨also.1, also.2.1⟩
  omega

theorem candidate_le (above : s.floor ≤ o) (open_ : ¬ s.Settled o (incarnation s.history part.epoch o)) :
    part.tracker.candidate ≤ o := by
  refine part.tracker.isLeast_candidate.2 fun done => ?_
  rcases (sound.settled o).mp done with below | settled
  · exact absurd below (not_lt.mpr above)
  · exact open_ settled

theorem isLeast :
    IsLeast {o | s.floor ≤ o ∧ ¬ s.Settled o (incarnation s.history part.epoch o)} part.tracker.candidate := by
  have undone := part.tracker.isLeast_candidate.1
  rw [mem_compl_iff, sound.settled, not_or] at undone
  exact ⟨⟨not_lt.mp undone.1, undone.2⟩, fun o least => sound.candidate_le least.1 least.2⟩

/-- An entry whose cuts are all accepted settles everything that it holds. -/
theorem settles_of_holds (all : ∀ run, .handed run ∈ s.taken → run.marked = run.cuts.length)
    (taken : entry ∈ s.taken) (holds : entry.stretch.Holds s.history o n) : entry.Settles s.history o n := by
  cases entry with
  | skipped epoch span => exact holds
  | handed run =>
    obtain ⟨first, last, same⟩ := holds
    have inside : o ∈ Set.Ico run.fetched.span.1 run.fetched.span.2 := ⟨first, last⟩
    rw [← (sound.tiles taken).points_eq] at inside
    obtain ⟨range, mem, from_, upTo⟩ := inside
    obtain ⟨cut, among, rfl⟩ := mem_map.mp mem
    obtain ⟨i, here⟩ := mem_iff_getElem?.mp among
    have bound := (List.getElem?_eq_some_iff.mp here).1
    exact ⟨i, cut, by rw [all run taken]; exact bound, here, from_, upTo, same⟩

/-- Once every cut is accepted, the candidate has reached the end of every run, or a reset since it. -/
theorem reached (all : ∀ run, .handed run ∈ s.taken → run.marked = run.cuts.length)
    (handed : .handed run ∈ s.taken) :
    run.fetched.span.2 ≤ part.tracker.candidate ∨
      ∃ cut ∈ s.history, run.epoch ≤ cut.1 ∧ cut.2 ≤ part.tracker.candidate := by
  by_contra short
  rw [not_or, not_le] at short
  obtain ⟨before, noReset⟩ := short
  have known := sound.seen_of_taken handed
  have current : incarnation s.history run.epoch part.tracker.candidate =
      incarnation s.history part.epoch part.tracker.candidate := by
    refine (Part.current_iff sound.sweep.past known _).mpr fun cut mem since => ?_
    exact not_le.mp fun reset => noReset ⟨cut, mem, since, reset⟩
  obtain ⟨earlier, later, split⟩ := append_of_mem handed
  have order : s.stretches part = earlier.map Taken.stretch ++ (Taken.handed run).stretch ::
      (later.map Taken.stretch ++ part.buffer.toList.map fun fetched => stretch fetched.epoch fetched.span) := by
    simp [State.stretches, split]
  obtain ⟨held, among, holds⟩ :=
    sound.sweep.reaches _ _ _ order part.tracker.candidate sound.isLeast.1.1 before current
  have entry : ∃ entry ∈ s.taken, entry.stretch = held := by
    rcases mem_append.mp among with old | last
    · obtain ⟨entry, mem, same⟩ := mem_map.mp old
      exact ⟨entry, by simp [split, mem], same⟩
    · exact ⟨_, handed, (mem_singleton.mp last).symm⟩
  obtain ⟨entry, taken, rfl⟩ := entry
  exact sound.isLeast.1.2 ⟨entry, taken, sound.settles_of_holds all taken holds⟩

end Sound

/-- The commit candidate of an assigned partition. It never passes an offset whose present record is
in a cut with a batch that no consumer accepted; it is the least offset from the start, or from a
reset below it, whose present record is neither accepted nor skipped; and it reaches the end of every
run, or a reset since, once every cut is accepted. The cuts of a run tile its span and carry the
events of the records they cover, a range of an old epoch adds the offsets below every reset since,
and a range of an earlier assignment adds none. -/
theorem candidate_refines {s : State X} (reach : Reach input s) {part : Part} (assigned : s.part = some part) :
    (∀ run, .handed run ∈ s.taken → ∀ i cut, run.cuts[i]? = some cut →
      ∀ batch < cut.batches.length, (i, batch) ∉ run.accepted → ∀ o ∈ Set.Ico cut.range.1 cut.range.2,
      incarnation s.history run.epoch o = incarnation s.history part.epoch o → part.tracker.candidate ≤ o) ∧
    IsLeast {o | s.floor ≤ o ∧ ¬ s.Settled o (incarnation s.history part.epoch o)} part.tracker.candidate ∧
    ((∀ run, .handed run ∈ s.taken → run.marked = run.cuts.length) → ∀ run, .handed run ∈ s.taken →
      run.fetched.span.2 ≤ part.tracker.candidate ∨
        ∃ cut ∈ s.history, run.epoch ≤ cut.1 ∧ cut.2 ≤ part.tracker.candidate) ∧
    (∀ run, .handed run ∈ s.taken → RangeMap.Tiles run.fetched.span.1 run.fetched.span.2 (run.cuts.map (·.range)) ∧
        ∃ decoder, ∀ cut ∈ run.cuts, KafkaInput.Carries decoder run.fetched cut) ∧
    (∀ run, .handed run ∈ s.taken → ∀ range, (part.accept run.epoch range).tracker.offsets = part.tracker.offsets ∪
        {o | o ∈ Set.Ico range.1 range.2 ∧ ∀ cut ∈ s.history, run.epoch ≤ cut.1 → o < cut.2}) ∧
    ∀ run ∈ s.late, ∀ range, part.accept run.epoch range = part := by
  have sound := reach.ok.sound part assigned
  refine ⟨?_, sound.isLeast, fun all run handed => sound.reached all handed, ?_, ?_, ?_⟩
  · intro run handed i cut here batch inside unsent o covers current
    have unmarked : run.marked ≤ i := by
      by_contra marked
      exact unsent ((sound.runs run handed).marked i (not_le.mp marked) cut here batch inside)
    have holds : (stretch run.epoch cut.range).Holds s.history o (incarnation s.history part.epoch o) :=
      ⟨covers.1, covers.2, current⟩
    exact sound.candidate_le (sound.floor_le handed (sound.holds_span handed here holds))
      (sound.not_settled handed here unmarked holds)
  · intro run handed
    obtain ⟨decoder, cuts⟩ := (sound.runs run handed).decoded
    refine ⟨sound.tiles handed, decoder, ?_⟩
    rw [cuts]
    exact input.decode_carries run.fetched
  · intro run handed range
    have known : (Taken.handed run).stretch ∈ s.stretches part := mem_append_left _ (mem_map_of_mem handed)
    have own := sound.own _ known
    exact Part.offsets_accept sound.keeps sound.sweep.past own (sound.ended _ known) range
  · intro run late range
    exact Part.accept_of_earlier sound.first (sound.late run late) range

def KafkaInput.sample : KafkaInput Externals.plain := ⟨1, 1, fun _ _ => true, fun _ _ => true⟩

def Record.sample (offset : Int) : Record := ⟨offset, 0, .createTime, none, some [0], []⟩

/-- An answer with records at offsets 5 and 7 that reads up to offset 9. -/
def Read.sample : Read 5 where
  records := [Record.sample 5, Record.sample 7]
  position := 9
  inside := by simp [Record.sample]
  increasing := by simp [Record.sample]
  forward := by decide

/-- The run of the sample answer, with the first of its two cuts marked accepted. -/
def Run.sample : Run Externals.plain :=
  let fetched : Fetched := ⟨1, Read.sample.records, (5, 9), Read.sample.inside, Read.sample.increasing, by decide⟩
  let run := Run.begin KafkaInput.sample (fun _ => .batches [EventBatch.sample]) fetched
  ((run.advance .accepted).1.advance .accepted).1

theorem reach_sample : ∃ s part, Reach KafkaInput.sample s ∧ s.part = some part ∧
    .handed Run.sample ∈ s.taken ∧ part.tracker.candidate = 6 ∧ part.epoch = 1 ∧ s.history = [] := by
  have installed : Reach KafkaInput.sample _ := Reach.start.next (.install _ (some 5) 0)
  have answered := installed.next (.answer Read.sample rfl rfl rfl rfl)
  have handed := answered.next (.take (fun _ => .batches [EventBatch.sample]) rfl rfl)
  have sent := handed.next (.deliver (i := 0) .accepted rfl)
  have marked := sent.next (.deliver (i := 0) .accepted rfl)
  exact ⟨_, _, marked, rfl, mem_singleton_self _, rfl, rfl, rfl⟩

theorem candidate_refines_half_accepted : ∃ s part, Reach KafkaInput.sample s ∧ s.part = some part ∧
    part.tracker.candidate = 6 ∧ part.tracker.candidate ≤ 7 ∧
    IsLeast {o | s.floor ≤ o ∧ ¬ s.Settled o (incarnation s.history part.epoch o)} 6 := by
  obtain ⟨s, part, reach, assigned, handed, candidate, epoch, history⟩ := reach_sample
  obtain ⟨undelivered, least, -⟩ := candidate_refines reach assigned
  have current : incarnation s.history Run.sample.epoch 7 = incarnation s.history part.epoch 7 := by
    rw [epoch]
    rfl
  have behind := undelivered Run.sample handed 1 ⟨(6, 9), [EventBatch.sample]⟩ rfl 0 zero_lt_one (by decide) 7
    ⟨by decide, by decide⟩ current
  exact ⟨s, part, reach, assigned, candidate, behind, candidate ▸ least⟩

end Logit.Kafka.Consumer
