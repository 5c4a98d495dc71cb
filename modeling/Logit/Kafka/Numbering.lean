import Logit.Kafka.Delivery
import Logit.Kafka.Records

namespace Logit.Kafka

open StopAndWait List Producer Delivered Function Int

variable {R : Type}

/-- A numbered batch: its base sequence and its records. -/
abbrev Batch (R : Type) := Int32 × List R

def ring : Nat := 2 ^ 31

def lengths (batches : List (Batch R)) : Nat := (batches.map fun b => b.2.length).sum

/-- A base sequence follows the batches numbered before it: it counts their records on the ring, from 0. -/
def inRing (before : List (Batch R)) (b : Batch R) : Prop := b.1.toInt = (lengths before % ring : Nat)

@[simp] theorem lengths_append (xs ys : List (Batch R)) : lengths (xs ++ ys) = lengths xs + lengths ys := by
  simp [lengths]

@[simp] theorem lengths_nil : lengths ([] : List (Batch R)) = 0 := rfl

@[simp] theorem lengths_cons (b : Batch R) (bs : List (Batch R)) : lengths (b :: bs) = b.2.length + lengths bs := by
  simp [lengths]

theorem nextSequence_toInt {seq : Int32} {total count : Nat} (here : seq.toInt = (total % ring : Nat))
    (small : count < ring) : (nextSequence seq (Int32.ofNat count)).toInt = ((total + count) % ring : Nat) := by
  have countEq := Int32.toInt_ofNat_of_lt small
  have maxEq : (Int32.maxValue).toInt = 2147483647 := rfl
  have bound : total % ring < ring := Nat.mod_lt _ (by decide)
  have split : (total + count) % ring = (total % ring + count) % ring := by simp
  rw [split]
  generalize total % ring = base at here bound
  unfold ring at small bound ⊢
  have room : (Int32.maxValue - seq).toInt = 2147483647 - base := by
    rw [Int32.toInt_sub, here]
    exact bmod_eq_of_le (by omega) (by omega)
  unfold nextSequence
  split_ifs with wraps
  · rw [Int32.lt_iff_toInt_lt, countEq] at wraps
    have oneEq : (1 : Int32).toInt = 1 := rfl
    have first : (Int32.ofNat count - (Int32.maxValue - seq)).toInt = count - (2147483647 - base) := by
      rw [Int32.toInt_sub, countEq, room]
      exact bmod_eq_of_le (by omega) (by omega)
    rw [Int32.toInt_sub, oneEq, bmod_eq_of_le (by omega) (by omega)]
    omega
  · rw [Int32.lt_iff_toInt_lt, countEq] at wraps
    rw [Int32.toInt_add, countEq, bmod_eq_of_le (by omega) (by omega)]
    omega

/-- Base sequences given one after another from a first one, and the one that comes next. -/
def Chain : Int32 → List (Batch R) → Int32 → Prop
  | first, [], next => next = first
  | first, b :: rest, next =>
    b.1 = first ∧ Chain (nextSequence first (Int32.ofNat b.2.length)) rest next

theorem Chain.inRing {first next : Int32} {batches : List (Batch R)} (chain : Chain first batches next)
    (small : ∀ b ∈ batches, b.2.length < ring) :
    ∀ old : List (Batch R), first.toInt = (lengths old % ring : Nat) →
      (∀ before b after, batches = before ++ b :: after → inRing (old ++ before) b) ∧
        next.toInt = (lengths (old ++ batches) % ring : Nat) := by
  induction batches generalizing first with
  | nil =>
    intro old start
    obtain rfl : next = first := chain
    exact ⟨by simp, by simpa using start⟩
  | cons b rest ih =>
    intro old start
    obtain ⟨base, onward⟩ := chain
    have stepped := nextSequence_toInt start (small b mem_cons_self)
    obtain ⟨later, last⟩ := ih onward (fun b' mem => small b' (mem_cons_of_mem _ mem))
      (old ++ [b]) (by simpa using stepped)
    refine ⟨?_, by simpa using last⟩
    intro before b' after split
    cases before with
    | nil =>
      obtain ⟨rfl, -⟩ := List.cons.inj split
      simpa [Kafka.inRing, base] using start
    | cons b'' before =>
      obtain ⟨rfl, restEq⟩ := List.cons.inj split
      simpa using later before b' after restEq

variable (p : Int) (identity : Identity)

/-- What a note says about the batches of one partition under one identity. -/
def channel : Note R → Option (StopAndWait.Event (Batch R))
  | .numbered q i base records => if q = p ∧ i = identity then some (.numbered (base, records)) else none
  | .wire q (some (i, base)) records outcome =>
    if q = p ∧ i = identity then some (.sent (base, records) outcome.appended) else none
  | .wire _ none _ _ => none
  | .gap i => if i = identity then some .closed else none

def channelOf (trace : Trace R) : List (StopAndWait.Event (Batch R)) :=
  trace.filterMap (channel p identity)

@[simp] theorem channelOf_append (xs ys : Trace R) :
    channelOf p identity (xs ++ ys) = channelOf p identity xs ++ channelOf p identity ys :=
  filterMap_append

@[simp] theorem channelOf_nil : channelOf p identity ([] : Trace R) = [] := rfl

def Part.batch (part : Part R) : Batch R := ((part.sequence.map Prod.snd).getD 0, part.records)

/-- Every unsettled batch has a number of the current identity, or every one has none. -/
abbrev Uniform (numbered : Part R → Bool) (parts : Parts R) (all : Bool) : Prop :=
  ∀ part ∈ parts, part.isUnsettled = true → numbered part = all

/-- The unsettled batches of a partition. -/
def mine (parts : Parts R) : Parts R :=
  parts.filter fun part => part.isUnsettled && part.partition = p

theorem mine_zipIdx (parts : Parts R) (n : Nat) :
    (unsettledOf p (parts.zipIdx n)).map Prod.fst = mine p parts := by
  unfold unsettledOf mine
  induction parts generalizing n with
  | nil => rfl
  | cons part parts ih =>
    rw [zipIdx_cons, filter_cons, filter_cons]
    split_ifs
    · rw [map_cons, ih]
    · exact ih _

/-- Numbering every unsettled batch, when none has a number yet. -/
structure Stamped (s : Producer) (identity : Identity) (s' : Producer) (parts : Parts R)
    (notes : Trace R) : Prop where
  same : s' = { s with nextSequence := s'.nextSequence }
  numbered : Uniform s.numbered parts true
  generations : ∀ part ∈ parts, ∀ seq, part.sequence = some seq → seq.1 ≤ s.generation
  own : ∀ note ∈ notes, ∃ p base records, note = .numbered p identity base records
  events : ∀ p, channelOf p identity notes = ((mine p parts).map Part.batch).map .numbered
  chain : ∀ p, Chain (s.nextSequence p) ((mine p parts).map Part.batch) (s'.nextSequence p)

theorem stamp_unnumbered {cfg : ProducerConfig} (idempotent : cfg.idempotent = true) {s : Producer}
    {identity : Identity} (current : s.identity = some identity) {part : Part R}
    (unnumbered : s.numbered part = false) : s.stamp cfg part = (s.advance part.partition part.records.length,
      { part with sequence := some (s.generation, s.nextSequence part.partition) },
      [.numbered part.partition identity (s.nextSequence part.partition) part.records]) := by
  unfold Producer.stamp
  simp [current, idempotent, unnumbered]

theorem mine_cons_numbered {part : Part R} (unsettled : part.isUnsettled = true) (sequence : Option (Nat × Int32))
    (p : Int) (parts : Parts R) : mine p ({ part with sequence := sequence } :: parts) =
      if part.partition = p then { part with sequence := sequence } :: mine p parts else mine p parts := by
  have still := unsettled
  by_cases here : part.partition = p
  · rw [if_pos here]
    exact filter_cons_of_pos (by rw [Bool.and_eq_true]; exact ⟨still, decide_eq_true here⟩)
  · rw [if_neg here]
    exact filter_cons_of_neg (by simp [here])

theorem stampAll_unnumbered {cfg : ProducerConfig} (idempotent : cfg.idempotent = true)
    {identity : Identity} (parts : Parts R) :
      ∀ s : Producer, s.identity = some identity → Uniform s.numbered parts false →
    (∀ part ∈ parts, ∀ seq, part.sequence = some seq → seq.1 ≤ s.generation) →
    Stamped s identity (s.stampAll cfg parts).1 (s.stampAll cfg parts).2.1 (s.stampAll cfg parts).2.2 := by
  induction parts with
  | nil =>
    intro s _ _ _
    exact ⟨rfl, by simp [stampAll, Uniform], by simp [stampAll], by simp [stampAll], fun _ => rfl, fun _ => rfl⟩
  | cons part parts ih =>
    intro s current unnumbered generations
    obtain ⟨here, later⟩ := forall_mem_cons.mp unnumbered
    obtain ⟨ownGeneration, laterGenerations⟩ := forall_mem_cons.mp generations
    unfold stampAll
    by_cases unsettled : part.isUnsettled = true
    · rw [if_pos unsettled]
      rw [stamp_unnumbered idempotent current (here unsettled)]
      have rest := ih (s.advance part.partition part.records.length) current later laterGenerations
      have stays : ∀ p, p ≠ part.partition →
          (s.advance part.partition part.records.length).nextSequence p = s.nextSequence p :=
        fun p ne => update_of_ne ne _ _
      have moves : (s.advance part.partition part.records.length).nextSequence part.partition =
          nextSequence (s.nextSequence part.partition) (Int32.ofNat part.records.length) :=
        update_self _ _ _
      refine ⟨rest.same, forall_mem_cons.mpr ⟨fun _ => by simp [Producer.numbered], rest.numbered⟩,
        forall_mem_cons.mpr ⟨?_, rest.generations⟩,
        forall_mem_cons.mpr ⟨⟨_, _, _, rfl⟩, rest.own⟩, ?_, ?_⟩
      · rintro seq ⟨⟩
        exact le_refl _
      · intro p
        have later := rest.events p
        rw [mine_cons_numbered unsettled, channelOf_append, later]
        by_cases here : part.partition = p
        · simp [channelOf, channel, here, Part.batch]
        · simp [channelOf, channel, here]
      · intro p
        have later := rest.chain p
        rw [mine_cons_numbered unsettled]
        by_cases here : part.partition = p
        · subst here
          rw [moves] at later
          rw [if_pos rfl]
          exact ⟨rfl, later⟩
        · rw [stays p (Ne.symm here)] at later
          rw [if_neg here]
          exact later
    · rw [if_neg unsettled]
      have rest := ih s current later laterGenerations
      have skip : ∀ p, mine p (part :: (s.stampAll cfg parts).2.1) = mine p (s.stampAll cfg parts).2.1 := by
        intro p
        simp [mine, unsettled]
      refine ⟨rest.same, forall_mem_cons.mpr ⟨fun settled => absurd settled unsettled, rest.numbered⟩,
        forall_mem_cons.mpr ⟨ownGeneration, rest.generations⟩, rest.own, fun p => ?_, fun p => ?_⟩
      · rw [skip]
        exact rest.events p
      · rw [skip]
        exact rest.chain p

theorem stampAll_numbered (cfg : ProducerConfig) (s : Producer) (parts : Parts R)
    (numbered : Uniform s.numbered parts true) : s.stampAll cfg parts = (s, parts, []) := by
  induction parts with
  | nil => rfl
  | cons part parts ih =>
    have rest := ih fun part' mem => numbered part' (mem_cons_of_mem _ mem)
    unfold stampAll
    by_cases unsettled : part.isUnsettled = true
    · have here : s.stamp cfg part = (s, part, []) := by
        unfold Producer.stamp
        have isNumbered := numbered part mem_cons_self unsettled
        cases s.identity <;> simp [isNumbered]
      simp [unsettled, here, rest]
    · simp [if_neg unsettled, rest]

section Wire

variable {cfg : ProducerConfig} {s : Producer} {identity : Identity}

theorem stampOf_numbered (idempotent : cfg.idempotent = true) (current : s.identity = some identity)
    {part : Part R} (numbered : s.numbered part = true) :
    s.stampOf cfg part = some (identity, part.batch.1) := by
  unfold Producer.numbered at numbered
  unfold stampOf Part.batch
  cases sequence : part.sequence with
  | none => simp [sequence] at numbered
  | some seq => simp [idempotent, current]

variable (parts : Parts R)

def batchAt (i : Nat) : Batch R := (parts[i]?.map Part.batch).getD (0, [])

theorem batchAt_of_mem {parts : Parts R} {u : Part R × Nat} (mem : u ∈ parts.zipIdx) :
    batchAt parts u.2 = u.1.batch := by
  rw [batchAt, mem_zipIdx_iff_getElem?.mp mem]
  rfl

/-- What became of a partition's unsettled batches. -/
def fates (delivered : List Delivered) (p : Int) : List (Shipment (Batch R)) :=
  (unsettledOf p parts.zipIdx).map fun u => fateAt (batchAt parts) delivered u.2

theorem batch_fates (delivered : List Delivered) (p : Int) :
    (fates parts delivered p).map Shipment.batch = (mine p parts).map Part.batch := by
  rw [← mine_zipIdx p parts 0, fates, map_map, map_map]
  refine map_congr_left fun u mem => ?_
  exact (fateAt_batch _ _ _).trans (batchAt_of_mem (mem_filter.mp mem).1)

theorem mem_wireNotes_iff {parts : Parts R} {delivered : List Delivered} {note : Note R} :
    note ∈ wireNotes cfg s parts delivered ↔ ∃ d ∈ delivered, d.wire = true ∧ ∃ part, parts[d.index]? = some part ∧
        note = .wire part.partition (s.stampOf cfg part) part.records d.outcome := by
  unfold wireNotes
  rw [mem_flatMap]
  constructor
  · rintro ⟨d, mem, made⟩
    cases went : d.wire with
    | false => simp [went] at made
    | true =>
      simp only [went, if_true, Option.mem_toList, Option.map_eq_some_iff] at made
      obtain ⟨part, place, shape⟩ := made
      exact ⟨d, mem, went, part, place, shape.symm⟩
  · rintro ⟨d, mem, went, part, place, shape⟩
    refine ⟨d, mem, ?_⟩
    simp [went, place, shape]

variable (idempotent : cfg.idempotent = true) (current : s.identity = some identity) (m : Metadata)
  (input : SendInput) (numbered : Uniform s.numbered parts true)
include idempotent current numbered

/-- What a delivered batch leaves on the wire, if its partition is the one asked for. -/
theorem channel_wire (p : Int) {d : Delivered} (mem : d ∈ deliver cfg m input parts) :
    channelOf p identity (wireNotes cfg s parts [d]) =
      if d.partition = p then (fateAt (batchAt parts) (deliver cfg m input parts) d.index).event.toList
        else [] := by
  obtain ⟨part, place, onPartition, unsettled, -⟩ := ready_of_mem_deliver cfg m input parts mem
  have stamp := stampOf_numbered idempotent current (numbered part (mem_of_getElem? place) unsettled)
  rw [fateAt_delivered cfg m input parts mem]
  cases went : d.wire with
  | false => simp [wireNotes, went, shipment, Shipment.event]
  | true =>
    by_cases here : d.partition = p
    · have onP := onPartition.trans here
      simp [wireNotes, went, place, stamp, channelOf, channel, onP, here, shipment, Shipment.event, batchAt,
        Part.batch]
    · have offP : part.partition ≠ p := fun same => here (onPartition.symm.trans same)
      simp [wireNotes, place, stamp, channelOf, channel, offP, here]

/-- What goes on the wire of a partition is what its batches' fates say. -/
theorem channelOf_wireNotes (p : Int) :
    channelOf p identity (wireNotes cfg s parts (deliver cfg m input parts)) =
      (fates parts (deliver cfg m input parts) p).filterMap Shipment.event := by
  obtain ⟨aligned, -⟩ := indices_deliver cfg m input parts p id
  have each := fun d mem => channel_wire parts idempotent current m input numbered p (d := d) mem
  have unready := fun u mem => fateAt_unready cfg m input parts p (u := u) mem
  generalize deliver cfg m input parts = delivered at aligned each unready ⊢
  have left : ∀ ds, (∀ d ∈ ds, d ∈ delivered) → channelOf p identity (wireNotes cfg s parts ds) =
        ((deliveredTo p ds).map index).filterMap fun i =>
          (fateAt (batchAt parts) delivered i).event := by
    intro ds sub
    induction ds with
    | nil => rfl
    | cons d ds ih =>
      have rest := ih fun d' mem => sub d' (mem_cons_of_mem _ mem)
      have split : wireNotes cfg s parts (d :: ds) =
          wireNotes cfg s parts [d] ++ wireNotes cfg s parts ds := by simp [wireNotes]
      rw [split, channelOf_append, each d (sub d mem_cons_self), rest]
      by_cases here : d.partition = p
      · cases found : (fateAt (batchAt parts) delivered d.index).event <;> simp [deliveredTo, here, found]
      · simp [deliveredTo, here]
  have right : (fates parts delivered p).filterMap Shipment.event =
      (((unsettledOf p parts.zipIdx).filter (isReady m input.encode p)).map Prod.snd).filterMap fun i =>
        (fateAt (batchAt parts) delivered i).event := by
    rw [fates, filterMap_map, filterMap_map, filterMap_filter]
    refine filterMap_congr fun u mem => ?_
    by_cases ready : isReady m input.encode p u = true
    · simp [ready]
    · have absent := unready u mem (by simpa using ready)
      simp [Shipment.event, fateAt, absent]
  rw [left delivered fun _ mem => mem, aligned, right]

/-- Everything on the wire goes out under the current identity, with its own number and records. -/
theorem mem_wireNotes {note : Note R}
    (inNotes : note ∈ wireNotes cfg s parts (deliver cfg m input parts)) :
    ∃ part ∈ parts, ∃ outcome, note = .wire part.partition (some (identity, part.batch.1)) part.records
      outcome := by
  obtain ⟨d, mem, -, part, place, rfl⟩ := mem_wireNotes_iff.mp inNotes
  obtain ⟨part', place', -, unsettled, -⟩ := ready_of_mem_deliver cfg m input parts mem
  obtain rfl := Option.some.inj (place.symm.trans place')
  have known := mem_of_getElem? place
  rw [stampOf_numbered idempotent current (numbered part known unsettled)]
  exact ⟨part, known, d.outcome, rfl⟩

end Wire

end Logit.Kafka
