import Logit.Kafka.Settling

namespace Logit.Kafka

open StopAndWait List Producer Option

variable {R : Type}

/-- One producer with the one pending batch the facade keeps at a time, and its trace. -/
structure Session (R : Type) where
  producer : Producer
  pending : Option (Pending R)
  trace : Trace R

def Session.start : Session R := ⟨.new, none, []⟩

def Session.parts (st : Session R) : Parts R := (st.pending.map Pending.parts).getD []

inductive Op (R : Type)
  | prepare (input : MetadataInput) (draw : Nat) (records : List R)
  | send (input : SendInput)
  | dropAmbiguous
  | abandon

/-- One call. A batch is prepared only once the one before is let go of. -/
def Session.step (cfg : ProducerConfig) (view : View R) (st : Session R) : Op R → Session R
  | .prepare input draw records =>
    match st.pending with
    | some _ => st
    | none =>
      match st.producer.prepare cfg view input draw records with
      | (producer, .ok pending) => { st with producer := producer, pending := some pending }
      | (producer, .error _) => { st with producer := producer }
  | .send input =>
    match st.pending with
    | none => st
    | some pending =>
      let sent := st.producer.send cfg input pending
      ⟨sent.producer, some sent.pending, st.trace ++ sent.notes⟩
  | .dropAmbiguous =>
    match st.pending with
    | none => st
    | some pending =>
      let (producer, left, _, notes) := st.producer.dropAmbiguous cfg pending
      ⟨producer, some left, st.trace ++ notes⟩
  | .abandon =>
    match st.pending with
    | none => st
    | some pending =>
      let (producer, notes) := st.producer.abandon cfg pending
      ⟨producer, none, st.trace ++ notes⟩

def Session.run (cfg : ProducerConfig) (view : View R) (st : Session R) (ops : List (Op R)) :
    Session R :=
  ops.foldl (Session.step cfg view) st

def Note.identity? : Note R → Option Identity
  | .numbered _ identity _ _ => some identity
  | .wire _ stamp _ _ => stamp.map Prod.fst
  | .gap identity => some identity

/-- The broker answers `InitProducerId` with a producer id that is not in use. -/
def FreshIds (st : Session R) : Op R → Prop
  | .send input => ∀ identity, input.init = .ok identity → ∀ note ∈ st.trace, ∀ i, note.identity? = some i →
      i.producerId ≠ identity.producerId
  | _ => True

/-- An attempt's batches fit the sequence ring, and none encodes behind one of its partition that does
not. -/
def Encodable (st : Session R) : Op R → Prop
  | .send input => EncodesInOrder input.encode st.parts ∧
      ∀ part ∈ st.parts, part.isUnsettled = true → part.records.length < ring
  | _ => True

/-- What holds between an identity and the trace while no new identity is due: nothing was given up, the
next numbers are known, and what waits is what is numbered and unsettled. -/
structure Tidy (s : Producer) (identity : Identity) (parts : Parts R) (trace : Trace R) : Prop where
  isOpen : .gap identity ∉ trace
  next : ∀ p, (s.nextSequence p).toInt = (lengths (numberedOf (channelOf p identity trace)) % ring : Nat)
  waiting : ∀ p, Waiting (channelOf p identity trace) (((mine p parts).filter s.numbered).map Part.batch)
  uniform : Uniform s.numbered parts true ∨ Uniform s.numbered parts false

/-- The identity in use, while no new one is due. -/
structure Current (s : Producer) (identity : Identity) : Prop where
  known : s.identity = some identity
  quiet : s.bumpDue = false
  fresh : s.reinitDue = false

structure Good (s : Producer) (parts : Parts R) (trace : Trace R) : Prop where
  legal : ∀ p identity, Legal inRing (channelOf p identity trace)
  stamped : ∀ p records outcome, .wire p none records outcome ∉ trace
  behind : ∀ note ∈ trace, ∀ i, note.identity? = some i →
    ∃ identity, s.identity = some identity ∧ (i.producerId = identity.producerId → i.epoch ≤ identity.epoch)
  generations : ∀ part ∈ parts, ∀ seq, part.sequence = some seq → seq.1 ≤ s.generation
  tidy : ∀ identity, Current s identity → Tidy s identity parts trace

/-- Everything about identity and numbers. -/
def Producer.line (s : Producer) : Option Identity × Nat × (Int → Int32) × Bool × Bool :=
  (s.identity, s.generation, s.nextSequence, s.bumpDue, s.reinitDue)

variable {s s' : Producer} {parts : Parts R} {trace : Trace R}

theorem Keeps.numbered (keeps : Keeps s s') : s'.numbered (R := R) = s.numbered := by
  funext part
  unfold Producer.numbered
  rw [keeps.generation]

theorem Keeps.of_line (same : s'.line = s.line) : Keeps s s' := by
  simp only [line, Prod.mk.injEq] at same
  obtain ⟨identity, generation, next, bump, reinit⟩ := same
  exact ⟨identity, generation, next, bump.symm.trans, reinit.symm.trans⟩

theorem Keeps.current (keeps : Keeps s s') {identity : Identity} (current : Current s' identity) :
    Current s identity :=
  ⟨keeps.identity.symm.trans current.known, keeps.quiet current.quiet, keeps.fresh current.fresh⟩

theorem channelOf_unseen {identity : Identity} (unseen : ∀ note ∈ trace, note.identity? ≠ some identity)
    (p : Int) : channelOf p identity trace = [] := by
  refine filterMap_eq_nil_iff.mpr fun note mem => ?_
  have other := unseen note mem
  cases note with
  | numbered q i base records | gap i =>
    have ne : i ≠ identity := fun same => other (by rw [same]; rfl)
    simp [channel, ne]
  | wire q stamp records outcome =>
    cases stamp with
    | none => rfl
    | some stamp =>
      have ne : stamp.1 ≠ identity := fun same => other (by rw [← same]; rfl)
      simp [channel, ne]

theorem Good.grow {parts' : Parts R} {notes : Trace R} (good : Good s parts trace)
    (same : s'.identity = s.identity)
    (own : ∀ note ∈ notes, ∃ identity, s.identity = some identity ∧ note.identity? = some identity)
    (legal : ∀ p identity, s.identity = some identity →
      Legal inRing (channelOf p identity trace ++ channelOf p identity notes))
    (generations : ∀ part ∈ parts', ∀ seq, part.sequence = some seq → seq.1 ≤ s'.generation)
    (tidy : ∀ identity, Current s' identity → Tidy s' identity parts' (trace ++ notes)) :
      Good s' parts' (trace ++ notes) where
  legal p i := by
    rw [channelOf_append]
    by_cases current : s.identity = some i
    · exact legal p i current
    · have unseen : ∀ note ∈ notes, note.identity? ≠ some i := by
        intro note mem known
        obtain ⟨identity, isCurrent, its⟩ := own note mem
        exact current (isCurrent.trans (its.symm.trans known))
      rw [channelOf_unseen unseen, append_nil]
      exact good.legal p i
  stamped p records outcome := by
    refine fun mem => (mem_append.mp mem).elim (good.stamped p records outcome) fun new => ?_
    obtain ⟨_, _, its⟩ := own _ new
    cases its
  behind := by
    rw [same]
    refine forall_mem_append.mpr ⟨good.behind, fun note new i known => ?_⟩
    obtain ⟨identity, current, its⟩ := own note new
    obtain rfl := some.inj (its.symm.trans known)
    exact ⟨identity, current, fun _ => le_refl _⟩
  generations := generations
  tidy := tidy

/-- Giving batches up without sending: the trace grows by gaps, and with one a bump is due. -/
theorem Good.giveUp {parts' : Parts R} {notes : Trace R} (good : Good s parts trace)
    (keeps : Keeps s s')
    (gaps : ∀ note ∈ notes, ∃ identity, s.identity = some identity ∧ note = .gap identity)
    (sub : ∀ part' ∈ parts', part'.isUnsettled = true → part' ∈ parts)
    (sequences : ∀ part' ∈ parts', ∀ seq, part'.sequence = some seq → seq.1 ≤ s.generation)
    (still : s'.bumpDue = false → notes = [] ∧
      ∀ p, (mine p parts').filter s.numbered = (mine p parts).filter s.numbered) :
    Good s' parts' (trace ++ notes) := by
  refine good.grow keeps.identity ?_ ?_ (keeps.generation ▸ sequences) ?_
  · intro note mem
    obtain ⟨identity, current, rfl⟩ := gaps note mem
    exact ⟨identity, current, rfl⟩
  · intro p identity _
    refine (good.legal p identity).close _ fun e mem => ?_
    obtain ⟨note, inNotes, made⟩ := mem_filterMap.mp mem
    obtain ⟨i, -, rfl⟩ := gaps note inNotes
    simp only [channel] at made
    split_ifs at made
    exact (some.inj made).symm
  · intro identity current
    obtain ⟨noNotes, sameMine⟩ := still current.quiet
    have tidy := good.tidy identity (keeps.current current)
    rw [noNotes, append_nil]
    refine ⟨tidy.isOpen, ?_, fun p => ?_, ?_⟩
    · rw [keeps.nextSequence]
      exact tidy.next
    · rw [keeps.numbered, sameMine p]
      exact tidy.waiting p
    · rw [keeps.numbered]
      exact tidy.uniform.imp (fun all part mem unsettled => all part (sub part mem unsettled) unsettled)
        fun none part mem unsettled => none part (sub part mem unsettled) unsettled

theorem Good.congr (good : Good s parts trace) (keeps : Keeps s s') : Good s' parts trace := by
  have kept : Good s' parts (trace ++ []) := good.giveUp keeps (by simp) (fun _ mem _ => mem)
    good.generations fun _ => ⟨rfl, fun _ => rfl⟩
  rwa [append_nil] at kept

theorem line_topicMissing (s : Producer) : s.topicMissing.1.line = s.line := by
  unfold topicMissing
  split_ifs <;> rfl

theorem line_applyMetadata (s : Producer) (answer : MetadataAnswer) : (s.applyMetadata answer).1.line = s.line := by
  cases answer with
  | failed fault => rfl
  | noTopic => rfl
  | topicError code =>
    unfold applyMetadata
    dsimp only
    split_ifs
    · exact line_topicMissing _
    · rfl
    · rfl
  | topic brokers partitions =>
    unfold applyMetadata
    dsimp only
    split_ifs <;> rfl

theorem line_pollMetadata (polls : List MetadataAnswer) (last : MetadataAnswer) :
    ∀ s : Producer, (s.pollMetadata polls last).1.line = s.line := by
  induction polls with
  | nil => exact fun s => line_applyMetadata s last
  | cons answer polls ih =>
    intro s
    have here := line_applyMetadata s answer
    unfold pollMetadata
    dsimp only
    split_ifs
    · exact (ih _).trans here
    · exact here

theorem line_ensureMetadata (s : Producer) (input : MetadataInput) : (s.ensureMetadata input).1.line = s.line := by
  have first := line_applyMetadata s input.first
  unfold ensureMetadata
  dsimp only
  split_ifs
  · rfl
  · exact first
  · exact (line_pollMetadata _ _ _).trans first

/-- A new identity starts its numbers afresh, and no batch has one of them yet. -/
theorem Good.restart {s : Producer} (good : Good s parts trace) (identity : Identity)
    (unseen : ∀ note ∈ trace, note.identity? ≠ some identity)
    (newest : ∀ note ∈ trace, ∀ i, note.identity? = some i → i.producerId = identity.producerId →
      i.epoch ≤ identity.epoch) : Good { s with identity := some identity }.restartSequences parts trace where
  legal := good.legal
  stamped := good.stamped
  behind := fun note mem i known => ⟨identity, rfl, newest note mem i known⟩
  generations := by
    intro part mem seq known
    have before := good.generations part mem seq known
    simp only [restartSequences]
    omega
  tidy := by
    intro identity' current
    obtain rfl := some.inj current.known
    have unnumbered : ∀ part ∈ parts,
        ({ s with identity := some identity }.restartSequences).numbered part = false := by
      intro part mem
      unfold Producer.numbered restartSequences
      cases known : part.sequence with
      | none => rfl
      | some seq =>
        have before := good.generations part mem seq known
        simp only [any_some, decide_eq_false_iff_not]
        omega
    refine ⟨?_, ?_, ?_, .inr fun part mem _ => unnumbered part mem⟩
    · intro mem
      exact unseen _ mem rfl
    · intro p
      rw [channelOf_unseen unseen]
      rfl
    · intro p
      have none : (mine p parts).filter ({ s with identity := some identity }.restartSequences).numbered = [] := by
        refine filter_eq_nil_iff.mpr fun part mem => ?_
        simp [unnumbered part (mem_filter.mp mem).1]
      rw [channelOf_unseen unseen, none]
      rfl

/-- How an attempt gets its identity: not yet, the one there is, one the broker answered, or the next
epoch of the one there is. -/
inductive Identified (s : Producer) (init : Except Sink.Fault Identity) : Producer × Option Sink.Fault → Prop
  | failed {fault : Sink.Fault} : Identified s init (s, some fault)
  | kept {identity : Identity} (current : s.identity = some identity) (quiet : s.bumpDue = false)
      (fresh : s.reinitDue = false) : Identified s init (s, none)
  | answered {identity : Identity} (answer : init = .ok identity) :
      Identified s init ({ s with identity := some identity }.restartSequences, none)
  | bumped {old : Identity} (current : s.identity = some old) :
      Identified s init
        ({ s with identity := some { old with epoch := old.epoch + 1 } }.restartSequences, none)

theorem identified_initProducerId (s : Producer) (init : Except Sink.Fault Identity) :
    Identified s init (s.initProducerId init) := by
  cases init with
  | error fault => exact .failed
  | ok identity => exact .answered rfl

theorem identified_ensureIdentity (s : Producer) (init : Except Sink.Fault Identity) :
    Identified s init (s.ensureIdentity init) := by
  have viaInit := identified_initProducerId s init
  unfold ensureIdentity
  split
  · exact viaInit
  · rename_i identity current
    split_ifs with reinit bump last
    · exact viaInit
    · exact viaInit
    · exact .bumped current
    · exact .kept current (by simpa using bump) (by simpa using reinit)

theorem Good.identify {cfg : ProducerConfig} (idempotent : cfg.idempotent = true)
    {init : Except Sink.Fault Identity} {error : Option Sink.Fault} (good : Good s parts trace)
    (fresh : ∀ identity, init = .ok identity → ∀ note ∈ trace, ∀ i, note.identity? = some i →
      i.producerId ≠ identity.producerId) (identified : s.identify cfg init = (s', error)) :
    Good s' parts trace ∧ (error = none → ∃ identity, Current s' identity) := by
  unfold Producer.identify at identified
  rw [if_pos idempotent] at identified
  have how := identified_ensureIdentity s init
  rw [identified] at how
  cases how with
  | failed => exact ⟨good, by simp⟩
  | kept current quiet same => exact ⟨good, fun _ => ⟨_, current, quiet, same⟩⟩
  | answered answer =>
    have apart := fresh _ answer
    refine ⟨good.restart _ ?_ ?_, fun _ => ⟨_, rfl, rfl, rfl⟩⟩
    · intro note mem same
      exact apart note mem _ same rfl
    · intro note mem i known same
      exact absurd same (apart note mem i known)
  | @bumped old current =>
    have older : ∀ note ∈ trace, ∀ i, note.identity? = some i → i.producerId = old.producerId →
        i.epoch ≤ old.epoch := by
      intro note mem i known
      obtain ⟨identity, isCurrent, bound⟩ := good.behind note mem i known
      obtain rfl := some.inj (current.symm.trans isCurrent)
      exact bound
    refine ⟨good.restart _ ?_ ?_, fun _ => ⟨_, rfl, rfl, rfl⟩⟩
    · intro note mem same
      have bound := older note mem _ same rfl
      dsimp only at bound
      omega
    · intro note mem i known same
      have bound := older note mem i known same
      dsimp only
      omega

end Logit.Kafka
