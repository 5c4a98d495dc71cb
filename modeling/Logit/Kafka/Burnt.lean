import Logit.Kafka.Output
import Logit.Kafka.Settling

namespace Logit.Kafka

open List

open Sink (Fault)

variable {R : Type}

def Note.onWire : Note R → List R
  | .wire _ _ records _ => records
  | _ => []

/-- The records a note puts on the wire with an ambiguous outcome. -/
def Note.burnt : Note R → List R
  | .wire _ _ records outcome => if outcome.isAmbiguous then records else []
  | _ => []

theorem Note.burnt_sub (note : Note R) : note.burnt ⊆ note.onWire := by
  intro r burnt
  cases note with
  | wire p stamp records outcome =>
    simp only [Note.burnt] at burnt
    split_ifs at burnt
    · exact burnt
    · simp at burnt
  | numbered p identity base records | gap identity => simp [Note.burnt] at burnt

/-- The order of a trace: nothing burnt is on the wire again. -/
def BurntOnce (earlier later : Note R) : Prop := earlier.burnt.Disjoint later.onWire

variable (cfg : ProducerConfig)

section Sending

variable (cfg : ProducerConfig) (m : Metadata) (input : SendInput) (parts : Parts R)

variable {parts}

theorem disjoint_of_ne (nodup : (parts.flatMap Part.records).Nodup) {i j : Nat} {part part' : Part R}
    (atI : parts[i]? = some part) (atJ : parts[j]? = some part') (ne : i ≠ j) :
    part.records.Disjoint part'.records := by
  have apart := (nodup_flatMap.mp nodup).2
  obtain ⟨boundI, rfl⟩ := List.getElem?_eq_some_iff.mp atI
  obtain ⟨boundJ, rfl⟩ := List.getElem?_eq_some_iff.mp atJ
  rcases Nat.lt_or_gt_of_ne ne with below | above
  · exact pairwise_iff_getElem.mp apart i j boundI boundJ below
  · exact (pairwise_iff_getElem.mp apart j i boundJ boundI above).symm

/-- What goes on the wire in one attempt are batches apart from each other. -/
theorem pairwise_wireNotes (s : Producer) (nodup : (parts.flatMap Part.records).Nodup) :
    (wireNotes cfg s parts (deliver cfg m input parts)).Pairwise fun a b => a.onWire.Disjoint b.onWire := by
  refine pairwise_flatMap.mpr ⟨?_, ?_⟩
  · intro d _
    split_ifs
    · cases parts[d.index]? <;> simp
    · exact List.Pairwise.nil
  · refine (pairwise_map.mp (nodup_deliver cfg m input parts)).imp ?_
    intro d d' ne note inD note' inD'
    have one : note ∈ wireNotes cfg s parts [d] := by simpa [wireNotes] using inD
    have two : note' ∈ wireNotes cfg s parts [d'] := by simpa [wireNotes] using inD'
    obtain ⟨d₁, same, -, part, place, rfl⟩ := mem_wireNotes_iff.mp one
    obtain ⟨d₂, same', -, part', place', rfl⟩ := mem_wireNotes_iff.mp two
    rw [mem_singleton.mp same] at place
    rw [mem_singleton.mp same'] at place'
    exact disjoint_of_ne nodup place place' ne

end Sending

theorem mem_held_unsettled {parts : Parts R} {r : R} :
    r ∈ held .unsettled parts ↔ ∃ part ∈ parts, part.isUnsettled = true ∧ r ∈ part.records := by
  unfold held
  simp only [mem_flatMap, mem_filter, decide_eq_true_eq]
  constructor
  · rintro ⟨part, ⟨mem, place⟩, inPart⟩
    refine ⟨part, mem, ?_, inPart⟩
    unfold Part.isUnsettled
    cases shape : part.state <;> simp [shape] at place ⊢
  · rintro ⟨part, mem, unsettled, inPart⟩
    exact ⟨part, ⟨mem, place_of_unsettled unsettled⟩, inPart⟩

/-- Notes that put only live records on the wire, and none of those that were burnt before. What is left of the
live records holds none that they burnt. -/
structure Spends (live : List R) (notes : Trace R) (left : List R) : Prop where
  wire : ∀ note ∈ notes, note.onWire ⊆ live
  once : notes.Pairwise BurntOnce
  spent : ∀ note ∈ notes, note.burnt.Disjoint left
  sub : left ⊆ live

namespace Spends

variable {live left : List R} {notes later : Trace R}

theorem quiet (silent : ∀ note ∈ notes, note.onWire = []) (live : List R) : Spends live notes live := by
  have none : ∀ note ∈ notes, note.burnt = [] := by
    intro note mem
    have sub := note.burnt_sub
    rw [silent note mem] at sub
    exact eq_nil_of_subset_nil sub
  refine ⟨fun note mem => ?_, pairwise_of_forall_mem_list fun a inA b _ => ?_, fun note mem => ?_,
    fun _ mem => mem⟩
  · simp [silent note mem]
  · simp [BurntOnce, none a inA]
  · simp [none note mem]

theorem append {between : List R} (first : Spends live notes between) (second : Spends between later left) :
    Spends live (notes ++ later) left where
  wire := forall_mem_append.mpr ⟨first.wire, fun note new _ onWire => first.sub (second.wire note new onWire)⟩
  once := pairwise_append.mpr ⟨first.once, second.once, fun a old b new _ burnt onWire =>
    first.spent a old burnt (second.wire b new onWire)⟩
  spent := forall_mem_append.mpr ⟨fun note old _ burnt isLeft => first.spent note old burnt (second.sub isLeft),
    second.spent⟩
  sub := List.Subset.trans second.sub first.sub

theorem widen (spends : Spends live notes left) {more : List R} (wider : live ⊆ more) : Spends more notes left where
  wire note mem _ onWire := wider (spends.wire note mem onWire)
  once := spends.once
  spent := spends.spent
  sub := List.Subset.trans spends.sub wider

theorem frame (spends : Spends live notes left) {others live' left' : List R} (apart : live.Disjoint others)
    (within : ∀ r, r ∈ live' ↔ r ∈ live ∨ r ∈ others) (after : ∀ r, r ∈ left' ↔ r ∈ left ∨ r ∈ others) :
    Spends live' notes left' where
  wire note mem r onWire := (within r).mpr (.inl (spends.wire note mem onWire))
  once := spends.once
  spent note mem r burnt isLeft := by
    rcases (after r).mp isLeft with own | other
    · exact spends.spent note mem burnt own
    · exact apart (spends.wire note mem (note.burnt_sub burnt)) other
  sub r isLeft := (within r).mpr (((after r).mp isLeft).imp_left fun own => spends.sub own)

/-- Traces over records that are apart from each other, one after the other. -/
theorem flatMap {ι : Type} {xs : List ι} {live left : ι → List R} {notes : ι → Trace R}
    (each : ∀ x ∈ xs, Spends (live x) (notes x) (left x))
    (apart : xs.Pairwise fun x y => (live x).Disjoint (live y)) :
    Spends (xs.flatMap live) (xs.flatMap notes) (xs.flatMap left) := by
  induction xs with
  | nil => exact quiet (by simp) _
  | cons x xs ih =>
    obtain ⟨here, there⟩ := forall_mem_cons.mp each
    obtain ⟨own, others⟩ := pairwise_cons.mp apart
    have disjoint : (live x).Disjoint (xs.flatMap live) := by
      intro r isLive mem
      obtain ⟨y, among, isOther⟩ := mem_flatMap.mp mem
      exact own y among isLive isOther
    have first : Spends (live x ++ xs.flatMap live) (notes x) (left x ++ xs.flatMap live) :=
      here.frame disjoint (by simp) (by simp)
    refine first.append ((ih there others).frame (disjoint_of_subset_right here.sub disjoint.symm) ?_ ?_)
    · simp [or_comm]
    · simp [or_comm]

end Spends

/-- What an attempt leaves of batches whose records are all distinct, once the ambiguous ones are let go. -/
structure Careful (before after : Parts R) (notes : Trace R) : Prop where
  nodup : (after.flatMap Part.records).Nodup
  sub : after.flatMap Part.records ⊆ before.flatMap Part.records
  spends : Spends (held .unsettled before) notes (held .unsettled (after.map Part.letGo))

/-- What is live after the ambiguous batches are dropped was live in a batch that is not ambiguous. -/
theorem mem_letGo_live {parts : Parts R} {r : R} (mem : r ∈ held .unsettled (parts.map Part.letGo)) :
    ∃ part ∈ parts, part.isUnsettled = true ∧ part.isAmbiguous = false ∧ r ∈ part.records := by
  obtain ⟨part', inParts, unsettled, inPart⟩ := mem_held_unsettled.mp mem
  obtain ⟨part, wasPart, rfl⟩ := mem_map.mp inParts
  obtain ⟨same, calm⟩ := letGo_unsettled unsettled
  rw [same] at unsettled inPart
  exact ⟨part, wasPart, unsettled, calm, inPart⟩

theorem letGo_live_sub (parts : Parts R) :
    held .unsettled (parts.map Part.letGo) ⊆ held .unsettled parts := by
  intro r mem
  obtain ⟨part, inParts, unsettled, -, inPart⟩ := mem_letGo_live mem
  exact mem_held_unsettled.mpr ⟨part, inParts, unsettled, inPart⟩

theorem Careful.refl {parts : Parts R} (nodup : (parts.flatMap Part.records).Nodup) :
    Careful parts parts [] :=
  ⟨nodup, fun _ mem => mem, by simp, List.Pairwise.nil, by simp, letGo_live_sub parts⟩

theorem stampAll_quiet (parts : Parts R) : ∀ s : Producer,
    ∀ note ∈ (s.stampAll cfg parts).2.2, note.onWire = [] := by
  induction parts with
  | nil =>
    intro s note mem
    simp [Producer.stampAll] at mem
  | cons part parts ih =>
    intro s note mem
    unfold Producer.stampAll at mem
    split_ifs at mem
    · rcases mem_append.mp mem with here | later
      · unfold Producer.stamp at here
        split at here
        · simp at here
        · split_ifs at here
          · simp at here
          · rw [mem_singleton.mp here]
            rfl
      · exact ih _ note later
    · exact ih s note mem

theorem careful_wire (s : Producer) (m : Metadata) (input : SendInput) (parts : Parts R)
    (nodup : (parts.flatMap Part.records).Nodup) (early : Trace R)
    (quiet : ∀ note ∈ early, note.onWire = []) :
    Careful parts (s.applyAll cfg (outcomes cfg m input parts)).parts
      (early ++ wireNotes cfg s parts (deliver cfg m input parts) ++
        (s.applyAll cfg (outcomes cfg m input parts)).notes) := by
  have accounts := accounts_outcomes parts cfg m input s
  have folds := folds_applyAll cfg (outcomes cfg m input parts) s
  have late : ∀ note ∈ (s.applyAll cfg (outcomes cfg m input parts)).notes, note.onWire = [] := by
    intro note mem
    obtain ⟨_, -, rfl⟩ := folds.gaps note mem
    rfl
  have descends : ∀ part' ∈ (s.applyAll cfg (outcomes cfg m input parts)).parts, part'.isUnsettled = true →
      ∃ u ∈ parts.zipIdx, u.1.isUnsettled = true ∧
        Descends (u.1, outcomeOf m input (deliver cfg m input parts) u.2 u.1) part' := by
    intro part' mem isUnsettled
    obtain ⟨pair, inOutcomes, descends⟩ := folds.descends part' mem
    obtain ⟨u, inParts, rfl⟩ := mem_map.mp inOutcomes
    refine ⟨u, inParts, ?_, descends⟩
    cases found : outcomeOf m input (deliver cfg m input parts) u.2 u.1 with
    | none => exact descends.untouched found ▸ isUnsettled
    | some outcome => exact unsettled_of_outcomeOf (by rw [found]; rfl)
  refine ⟨(nodup_append.mp (accounts.whole.nodup nodup)).1, fun r mem => ?_,
    ((Spends.quiet quiet _).append ⟨?_, ?_, ?_, ?_⟩).append (.quiet late _)⟩
  · exact accounts.whole.symm.subset (mem_append_left _ mem)
  · intro note mem r inWire
    obtain ⟨d, inDelivered, -, part, place, rfl⟩ := mem_wireNotes_iff.mp mem
    obtain ⟨part', place', -, isUnsettled, -⟩ := ready_of_mem_deliver cfg m input parts inDelivered
    obtain rfl := Option.some.inj (place.symm.trans place')
    exact mem_held_unsettled.mpr ⟨part, mem_of_getElem? place, isUnsettled, inWire⟩
  · refine (pairwise_wireNotes cfg m input s nodup).imp ?_
    intro a b apart r burnt
    exact apart (a.burnt_sub burnt)
  · intro note mem r burnt isLeft
    obtain ⟨part', inAfter, isUnsettled, calm, inPart⟩ := mem_letGo_live isLeft
    have inWire := note.burnt_sub burnt
    obtain ⟨d, inDelivered, -, part, place, rfl⟩ := mem_wireNotes_iff.mp mem
    obtain ⟨u, inParts, -, origin⟩ := descends part' inAfter isUnsettled
    have atU := mem_zipIdx_iff_getElem?.mp inParts
    -- The two batches share a record, so they are the same.
    have same : d.index = u.2 := by
      by_contra ne
      exact disjoint_of_ne nodup place atU ne inWire (origin.records inPart)
    rw [← same] at atU origin
    simp only [Note.burnt] at burnt
    split_ifs at burnt with isAmbiguous
    · have lost := origin.ambiguous d.outcome (outcomeOf_delivered cfg m input parts inDelivered atU) isAmbiguous
      simp [lost] at calm
    · simp at burnt
  · intro r isLeft
    obtain ⟨part', inAfter, isUnsettled, -, inPart⟩ := mem_letGo_live isLeft
    obtain ⟨u, inParts, wasUnsettled, origin⟩ := descends part' inAfter isUnsettled
    exact mem_held_unsettled.mpr ⟨u.1, mem_of_getElem? (mem_zipIdx_iff_getElem?.mp inParts),
      wasUnsettled, origin.records inPart⟩

end Logit.Kafka
