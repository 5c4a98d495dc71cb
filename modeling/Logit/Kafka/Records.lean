import Logit.Kafka.Producer

namespace Logit.Kafka

open List Producer Logit.Kafka.Part Bool
open Prod (fst snd)

variable {R : Type}

/-- Where a record of a prepared batch can be. -/
inductive Place
  | oversize | unsettled | accepted | rejected | ambiguous | named
deriving DecidableEq

def Place.all : List Place := [.oversize, .unsettled, .accepted, .rejected, .ambiguous, .named]

def PartState.place : PartState → Place
  | .unsettled _ _ => .unsettled
  | .accepted => .accepted
  | .rejected => .rejected
  | .dropped => .ambiguous

def Settlement.place : Settlement → Place
  | .accepted _ => .accepted
  | .rejected _ => .rejected
  | .dropped _ => .named

@[simp] theorem place_unsettled (fault : Sink.Fault) (why : String) :
    (PartState.unsettled fault why).place = .unsettled := rfl

@[simp] theorem place_accepted : PartState.accepted.place = .accepted := rfl

@[simp] theorem place_rejected : PartState.rejected.place = .rejected := rfl

@[simp] theorem place_dropped : PartState.dropped.place = .ambiguous := rfl

/-- The records in the batches at a place. -/
def held (place : Place) (parts : Parts R) : List R :=
  (parts.filter fun part => part.state.place = place).flatMap Part.records

/-- The records in the settlements reported for a place. -/
def reported (place : Place) (settled : List (Settled R)) : List R :=
  (settled.filter fun report => report.settlement.place = place).flatMap Settled.of

/-- What is still to be sent or was accepted of a partition, in the order of the batches. -/
def inOrder (p : Int) (parts : Parts R) : List R := (parts.filter fun part => part.partition = p ∧
    (part.state.place = .unsettled ∨ part.state.place = .accepted)).flatMap Part.records

variable (place : Place) (p : Int) (parts : Parts R)

@[simp] theorem held_nil : held place ([] : Parts R) = [] := rfl

@[simp] theorem held_append (xs ys : Parts R) : held place (xs ++ ys) = held place xs ++ held place ys := by
  simp [held]

variable (part : Part R)

@[simp] theorem held_cons (parts : Parts R) : held place (part :: parts) =
      (if part.state.place = place then part.records else []) ++ held place parts := by
  by_cases here : part.state.place = place <;> simp [held, here]

@[simp] theorem reported_nil : reported place ([] : List (Settled R)) = [] := rfl

@[simp] theorem reported_append (xs ys : List (Settled R)) :
    reported place (xs ++ ys) = reported place xs ++ reported place ys := by simp [reported]

@[simp] theorem reported_cons (report : Settled R) (settled : List (Settled R)) :
    reported place (report :: settled) =
      (if report.settlement.place = place then report.of else []) ++ reported place settled := by
  by_cases here : report.settlement.place = place <;> simp [reported, here]

@[simp] theorem inOrder_nil : inOrder p ([] : Parts R) = [] := rfl

@[simp] theorem inOrder_append (xs ys : Parts R) : inOrder p (xs ++ ys) = inOrder p xs ++ inOrder p ys := by
  simp [inOrder]

@[simp] theorem inOrder_cons (parts : Parts R) : inOrder p (part :: parts) =
      (if part.partition = p ∧ (part.state.place = .unsettled ∨ part.state.place = .accepted)
        then part.records else []) ++ inOrder p parts := by
  by_cases here : part.partition = p ∧ (part.state.place = .unsettled ∨ part.state.place = .accepted) <;>
    simp [inOrder, here]

theorem perm_held : (parts.flatMap Part.records).Perm
      (held .unsettled parts ++ held .accepted parts ++ held .rejected parts ++ held .ambiguous parts) := by
  induction parts with
  | nil => exact List.Perm.refl _
  | cons part parts ih =>
    have grown := ih.append_left part.records
    refine grown.trans ?_
    cases shape : part.state with
    | unsettled fault why => simp [shape]
    | accepted =>
      simp only [held_cons, shape, append_assoc]
      exact perm_append_comm_assoc _ _ _
    | rejected =>
      simp only [held_cons, shape, append_assoc]
      refine (perm_append_comm_assoc _ _ _).trans (List.Perm.append_left _ ?_)
      exact perm_append_comm_assoc _ _ _
    | dropped =>
      simp only [held_cons, shape, append_assoc]
      refine (perm_append_comm_assoc _ _ _).trans (List.Perm.append_left _ ?_)
      refine (perm_append_comm_assoc _ _ _).trans (List.Perm.append_left _ ?_)
      exact perm_append_comm_assoc _ _ _

theorem namedRecords_nodup (recordErrors : List Int) : (namedRecords part recordErrors).Nodup := by
  exact nodup_dedup _

theorem lt_of_mem_namedRecords (recordErrors : List Int) (i : Nat)
    (mem : i ∈ namedRecords part recordErrors) : i < part.records.length := by
  obtain ⟨-, inRange⟩ := mem_filter.mp (mem_dedup.mp mem)
  exact of_decide_eq_true inRange

theorem length_filter_zipIdx (records : List R) (named : List Nat) (nodup : named.Nodup)
    (inRange : ∀ i ∈ named, i < records.length) :
    ((records.zipIdx.filter fun r => named.contains r.2).map fst).length = named.length := by
  have indices : (records.zipIdx.filter fun r => named.contains r.2).map snd =
      (range records.length).filter fun i => named.contains i := by
    have snds : records.zipIdx.map snd = range records.length := by rw [zipIdx_map_snd, range_eq_range']
    rw [← snds, filter_map]
    rfl
  have perm : ((range records.length).filter fun i => named.contains i).Perm named := by
    refine (perm_ext_iff_of_nodup (nodup_range.filter _) nodup).mpr fun i => ?_
    simp only [mem_filter, mem_range, contains_iff_mem]
    exact ⟨fun both => both.2, fun mem => ⟨inRange i mem, mem⟩⟩
  rw [length_map, ← perm.length_eq, ← indices, length_map]

theorem perm_filter_zipIdx (records : List R) (q : Nat → Bool) :
    records.Perm ((records.zipIdx.filter fun r => !q r.2).map fst ++
      (records.zipIdx.filter fun r => q r.2).map fst) := by
  have split := (filter_append_perm (fun r => q r.2) records.zipIdx).map fst
  rw [map_append, zipIdx_map_fst] at split
  exact split.symm.trans perm_append_comm

/-- What the batches become accounts for their records, the reports for what they become, and a count
for what is let go as ambiguous. -/
structure Accounts (before after : Parts R) (settled : List (Settled R)) (lost : Nat) : Prop where
  whole : (before.flatMap Part.records).Perm (after.flatMap Part.records ++ reported .named settled)
  counts : ∀ report ∈ settled, report.records = report.of.length
  settles : ∀ place ∈ [Place.accepted, .rejected],
    (held place after).Perm (held place before ++ reported place settled)
  ambiguous : (held .ambiguous after).length = (held .ambiguous before).length + lost
  order : ∀ p, (inOrder p after).Sublist (inOrder p before)

theorem accounts_keep (s : Producer) (part : Part R) :
    Accounts [part] (s.keep part).parts (s.keep part).settled 0 := by
  constructor <;> simp [keep]

variable {part : Part R}

theorem place_of_unsettled (unsettled : part.isUnsettled = true) : part.state.place = .unsettled := by
  unfold isUnsettled at unsettled
  split at unsettled
  · rename_i shape
    rw [shape]
    rfl
  · exact absurd unsettled false_ne_true

theorem accounts_unsettle (s : Producer) (unsettled : part.isUnsettled = true) (fault : Sink.Fault)
    (why : String) : Accounts [part] (s.keep (part.unsettle fault why)).parts [] 0 := by
  have place := place_of_unsettled unsettled
  constructor <;> simp [keep, unsettle, place]

variable (cfg : ProducerConfig) (s : Producer)

theorem accounts_reject (unsettled : part.isUnsettled = true) (code : Int) (why : String) :
    Accounts [part] (s.reject cfg part code why).parts (s.reject cfg part code why).settled 0 := by
  have place := place_of_unsettled unsettled
  constructor <;> simp [reject, place, Settlement.place]

/-- One outcome accounts for its batch, whatever the broker answered. -/
theorem accounts_apply (unsettled : part.isUnsettled = true) (outcome : Outcome) :
    Accounts [part] (s.apply cfg part outcome).parts (s.apply cfg part outcome).settled 0 := by
  have place := place_of_unsettled unsettled
  cases outcome with
  | unanswered fault why => exact accounts_unsettle _ unsettled _ _
  | answered code baseOffset recordErrors why version =>
    simp only [apply]
    split
    · constructor <;> simp [place, Settlement.place]
    · exact accounts_unsettle _ unsettled _ _
    · exact accounts_unsettle _ unsettled _ _
    · exact accounts_unsettle _ unsettled _ _
    · exact accounts_unsettle _ unsettled _ _
    · split_ifs with halves
      · constructor <;> simp [place, Part.new, unsettle]
        intro p
        split_ifs <;> simp
      · exact accounts_reject _ _ unsettled _ _
    · have whole := perm_filter_zipIdx part.records fun i => (namedRecords part recordErrors).contains i
      have count := length_filter_zipIdx part.records _ (namedRecords_nodup part recordErrors)
        (lt_of_mem_namedRecords part recordErrors)
      split_ifs with names none nothing
      · exact accounts_reject _ _ unsettled _ _
      · rw [isEmpty_iff.mp nothing] at whole
        constructor
        · simpa [Settlement.place] using whole
        · simpa using count.symm
        all_goals simp [place, Settlement.place]
      · constructor
        · simpa [Settlement.place, Part.new, unsettle] using whole
        · simpa using count.symm
        · simp [place, Settlement.place, unsettle]
        · simp [place, unsettle]
        · intro p
          have rest : ((part.records.zipIdx.filter
              fun r => !(namedRecords part recordErrors).contains r.2).map fst).Sublist
              (part.records.zipIdx.map fst) := filter_sublist.map _
          by_cases same : part.partition = p
          · simpa [same, place, Part.new, unsettle] using rest
          · simp [same, Part.new, unsettle]
      · exact accounts_reject _ _ unsettled _ _
    · exact accounts_reject _ _ unsettled _ _

theorem perm_interchange (a b c d : List R) : ((a ++ b) ++ (c ++ d)).Perm ((a ++ c) ++ (b ++ d)) := by
  simp only [append_assoc]
  exact List.Perm.append_left _ (perm_append_comm_assoc _ _ _)

section

variable {settled settled' : List (Settled R)} {lost lost' : Nat}

theorem counts_append (first : ∀ report ∈ settled, report.records = report.of.length)
    (second : ∀ report ∈ settled', report.records = report.of.length) :
    ∀ report ∈ settled ++ settled', report.records = report.of.length :=
  forall_mem_append.mpr ⟨first, second⟩

theorem Accounts.append {before after before' after' : Parts R} (first : Accounts before after settled lost)
    (second : Accounts before' after' settled' lost') :
    Accounts (before ++ before') (after ++ after') (settled ++ settled') (lost + lost') where
  whole := by
    simp only [flatMap_append, reported_append]
    exact (first.whole.append second.whole).trans (perm_interchange _ _ _ _)
  counts := counts_append first.counts second.counts
  settles := by
    intro place mem
    simp only [held_append, reported_append]
    exact ((first.settles place mem).append (second.settles place mem)).trans (perm_interchange _ _ _ _)
  ambiguous := by
    simp only [held_append, length_append, first.ambiguous, second.ambiguous]
    omega
  order := by
    intro p
    rw [inOrder_append, inOrder_append]
    exact (first.order p).append (second.order p)

theorem Accounts.trans {first second third : Parts R} (early : Accounts first second settled lost)
    (late : Accounts second third settled' lost') :
    Accounts first third (settled ++ settled') (lost + lost') where
  whole := by
    rw [reported_append]
    refine early.whole.trans ((late.whole.append_right _).trans ?_)
    rw [append_assoc]
    exact List.Perm.append_left _ perm_append_comm
  counts := counts_append early.counts late.counts
  settles := by
    intro place mem
    rw [reported_append, ← append_assoc]
    exact (late.settles place mem).trans ((early.settles place mem).append_right _)
  ambiguous := by rw [late.ambiguous, early.ambiguous, Nat.add_assoc]
  order := fun p => (late.order p).trans (early.order p)

end

theorem Accounts.refl : Accounts parts parts [] 0 := by
  constructor <;> simp

/-- Every outcome folded in, in the order of the batches: the list is rebuilt batch by batch. -/
theorem accounts_applyAll (outcomes : List (Answered R)) :
    ∀ s : Producer, (∀ pair ∈ outcomes, pair.2.isSome → pair.1.isUnsettled = true) →
      Accounts (outcomes.map fst) (s.applyAll cfg outcomes).parts (s.applyAll cfg outcomes).settled 0 := by
  induction outcomes with
  | nil =>
    intro s _
    exact Accounts.refl []
  | cons pair rest ih =>
    intro s unsettled
    obtain ⟨part, outcome⟩ := pair
    have later : ∀ pair ∈ rest, pair.2.isSome → pair.1.isUnsettled = true :=
      fun pair mem => unsettled pair (mem_cons_of_mem _ mem)
    cases outcome with
    | none => exact (accounts_keep s part).append (ih _ later)
    | some outcome => exact (accounts_apply cfg s (unsettled _ mem_cons_self rfl) outcome).append (ih _ later)

theorem stampAll_bare (parts : Parts R) : ∀ s : Producer,
    (s.stampAll cfg parts).2.1.map (fun part => { part with sequence := none }) =
      parts.map fun part => { part with sequence := none } := by
  induction parts with
  | nil =>
    intro s
    rfl
  | cons part parts ih =>
    intro s
    unfold stampAll
    split_ifs with unsettled
    · have here : { (s.stamp cfg part).2.1 with sequence := none } = { part with sequence := none } := by
        unfold stamp
        split
        · rfl
        · split_ifs <;> rfl
      simp [map_cons, here, ih]
    · simp [ih]

theorem held_bare (parts : Parts R) :
    held place (parts.map fun part => { part with sequence := none }) = held place parts := by
  unfold held
  rw [filter_map, flatMap_map]
  rfl

theorem inOrder_bare (parts : Parts R) :
    inOrder p (parts.map fun part => { part with sequence := none }) = inOrder p parts := by
  unfold inOrder
  rw [filter_map, flatMap_map]
  rfl

theorem records_bare : (parts.map fun part => { part with sequence := none }).flatMap Part.records =
      parts.flatMap Part.records := by rw [flatMap_map]

theorem held_stampAll (parts : Parts R) : held place (s.stampAll cfg parts).2.1 = held place parts := by
  rw [← held_bare place (s.stampAll cfg parts).2.1, stampAll_bare, held_bare]

theorem records_stampAll (parts : Parts R) :
    (s.stampAll cfg parts).2.1.flatMap Part.records = parts.flatMap Part.records := by
  rw [← records_bare (s.stampAll cfg parts).2.1, stampAll_bare, records_bare]

theorem accounts_stampAll (parts : Parts R) : Accounts parts (s.stampAll cfg parts).2.1 [] 0 := by
  constructor
  · simp [records_stampAll]
  · simp
  · simp [held_stampAll]
  · rw [held_stampAll, Nat.add_zero]
  · intro p
    rw [← inOrder_bare p (s.stampAll cfg parts).2.1, stampAll_bare, inOrder_bare]

theorem unsettled_of_outcomeOf {m : Metadata} {input : SendInput} {delivered : List Delivered} {index : Nat}
    (answered : (outcomeOf m input delivered index part).isSome) : part.isUnsettled = true := by
  unfold outcomeOf plan at answered
  by_cases unsettled : part.isUnsettled = true
  · exact unsettled
  · simp [unsettled] at answered

section

variable (m : Metadata) (input : SendInput)

theorem unsettled_outcomes : ∀ pair ∈ outcomes cfg m input parts, pair.2.isSome → pair.1.isUnsettled = true := by
  intro pair mem answered
  obtain ⟨u, -, rfl⟩ := mem_map.mp mem
  exact unsettled_of_outcomeOf answered

theorem map_fst_outcomes : (outcomes cfg m input parts).map fst = parts := by
  rw [map_map]
  exact zipIdx_map_fst 0 parts

theorem accounts_outcomes (s : Producer) : Accounts parts (s.applyAll cfg (outcomes cfg m input parts)).parts
    (s.applyAll cfg (outcomes cfg m input parts)).settled 0 := by
  have applied := accounts_applyAll cfg _ s (unsettled_outcomes parts cfg m input)
  rwa [map_fst_outcomes] at applied

end

theorem accounts_sendParts (s : Producer) (m : Metadata) (input : SendInput) (pending : Pending R) :
    Accounts pending.parts (s.sendParts cfg m input pending).pending.parts
      (s.sendParts cfg m input pending).settled 0 :=
  show Accounts _ _ ([] ++ _) (0 + 0) from
    (accounts_stampAll cfg s pending.parts).trans (accounts_outcomes _ cfg m input _)

/-- One attempt at the unsettled batches accounts for the batches it was given. -/
theorem accounts_send (s : Producer) (input : SendInput) (pending : Pending R) :
    Accounts pending.parts (s.send cfg input pending).pending.parts (s.send cfg input pending).settled 0 := by
  have attempt := send_attempt cfg s input pending
  generalize s.send cfg input pending = sent at attempt ⊢
  cases attempt with
  | idle | unidentified | unplaced => exact Accounts.refl _
  | sent => exact accounts_sendParts cfg _ _ input pending

def Part.letGo (part : Part R) : Part R := if part.isAmbiguous then { part with state := .dropped } else part

theorem place_of_ambiguous (ambiguous : part.isAmbiguous = true) : part.state.place = .unsettled := by
  unfold isAmbiguous at ambiguous
  split at ambiguous
  · rename_i shape
    rw [shape]
    rfl
  · exact absurd ambiguous false_ne_true

theorem letGo_records (part : Part R) : part.letGo.records = part.records := by
  unfold letGo
  split_ifs <;> rfl

theorem letGo_unsettled (unsettled : part.letGo.isUnsettled = true) :
    part.letGo = part ∧ part.isAmbiguous = false := by
  unfold letGo at unsettled ⊢
  by_cases lost : part.isAmbiguous = true
  · simp [lost, isUnsettled] at unsettled
  · exact ⟨by simp [lost], by simpa using lost⟩

theorem letGo_sequence (part : Part R) : part.letGo.sequence = part.sequence := by
  unfold letGo
  split_ifs <;> rfl

theorem records_letGo : (parts.map letGo).flatMap Part.records = parts.flatMap Part.records := by
  rw [flatMap_map]
  simp [letGo_records]

theorem held_letGo (unsettled : place ≠ .unsettled) (ambiguous : place ≠ .ambiguous) (parts : Parts R) :
    held place (parts.map letGo) = held place parts := by
  induction parts with
  | nil => rfl
  | cons part parts ih =>
    rw [map_cons, held_cons, ih]
    by_cases lost : part.isAmbiguous = true
    · simp [letGo, lost, place_of_ambiguous lost, unsettled.symm, ambiguous.symm]
    · simp [letGo, lost]

theorem lost_letGo : (held .ambiguous (parts.map letGo)).length = (held .ambiguous parts).length +
      ((parts.filter isAmbiguous).map fun part => part.records.length).sum := by
  induction parts with
  | nil => rfl
  | cons part parts ih =>
    rw [map_cons, held_cons, held_cons, length_append, length_append]
    by_cases lost : part.isAmbiguous = true
    · simp only [letGo, lost, if_true, place_dropped, place_of_ambiguous lost, reduceCtorEq, if_false,
        length_nil, filter_cons_of_pos, map_cons, sum_cons]
      omega
    · simp only [letGo, lost, if_false, false_eq_true, not_false_eq_true, filter_cons_of_neg]
      omega

theorem inOrder_letGo (parts : Parts R) : (inOrder p (parts.map letGo)).Sublist (inOrder p parts) := by
  induction parts with
  | nil => exact List.Sublist.refl _
  | cons part parts ih =>
    rw [map_cons, inOrder_cons, inOrder_cons]
    refine List.Sublist.append ?_ ih
    by_cases lost : part.isAmbiguous = true
    · simp [letGo, lost]
    · simp [letGo, lost]

theorem accounts_letGo : Accounts parts (parts.map letGo) []
    ((parts.filter isAmbiguous).map fun part => part.records.length).sum := by
  constructor
  · simp [records_letGo]
  · simp
  · simp [held_letGo]
  · exact lost_letGo parts
  · exact fun p => inOrder_letGo p parts

section Prepared

variable (cfg : ProducerConfig) (view : View R)

theorem flatten_cutRecords (records : List R) : ∀ (current : List R) (size : Nat),
    (cutRecords cfg view current size records).flatten = current ++ records := by
  induction records with
  | nil =>
    intro current size
    unfold cutRecords
    split_ifs with empty
    · simp [isEmpty_iff.mp empty]
    · simp
  | cons r rest ih =>
    intro current size
    unfold cutRecords
    dsimp only
    split_ifs
    · simp [ih]
    · simp [ih]

variable (group : Int × List R)

/-- The batches cut from one partition's records. -/
def cutGroup : Parts R :=
  (cutRecords cfg view [] batchOverhead group.2).map fun records => Part.new group.1 records false

theorem records_cutGroup : (cutGroup cfg view group).flatMap Part.records = group.2 := by
  have whole := flatten_cutRecords cfg view group.2 [] batchOverhead
  unfold cutGroup
  rw [flatMap_map]
  simpa [Part.new] using whole

theorem unsettled_cutGroup (part : Part R) (mem : part ∈ cutGroup cfg view group) :
    part.state.place = .unsettled ∧ part.partition = group.1 := by
  obtain ⟨records, -, rfl⟩ := mem_map.mp mem
  exact ⟨rfl, rfl⟩

theorem held_of_unsettled (parts : Parts R) (unsettled : ∀ part ∈ parts, part.state.place = .unsettled)
    (place : Place) (settled : place ≠ .unsettled) : held place parts = [] := by
  unfold held
  rw [filter_eq_nil_iff.mpr]
  · rfl
  · intro part mem
    simp [unsettled part mem, settled.symm]

theorem inOrder_of_unsettled (p : Int) (parts : Parts R)
    (unsettled : ∀ part ∈ parts, part.state.place = .unsettled) :
    inOrder p parts = (parts.filter fun part => part.partition = p).flatMap Part.records := by
  unfold inOrder
  congr 1
  refine filter_congr fun part mem => ?_
  simp [unsettled part mem]

/-- The batches prepared of the records that fit, each unkeyed one on the sticky partition. -/
def preparedParts (count : Nat) (sticky : Int) (records : List R) : Parts R :=
  (Grouping.groupBy (partitionOf view count sticky) (records.filter (fits cfg view))).flatMap
    (cutGroup cfg view)

theorem prepare_ok {s : Producer} {input : MetadataInput} {draw : Nat} {records : List R}
    {pending : Pending R} (prepared : (s.prepare cfg view input draw records).2 = .ok pending) :
    ∃ m sticky, (s.prepare cfg view input draw records).1.metadata = some m ∧
      pending = ⟨preparedParts cfg view m.leaders.length sticky records,
        records.length - (records.filter (fits cfg view)).length, false, none⟩ := by
  unfold Producer.prepare at prepared ⊢
  split at prepared
  · exact absurd prepared (by simp)
  · split at prepared
    · exact absurd prepared (by simp)
    · rename_i m metadata
      split at prepared
      · exact absurd prepared (by simp)
      · rename_i made partitioned
        obtain ⟨sticky, -, shape⟩ := Option.map_eq_some_iff.mp partitioned
        obtain rfl : made = pending := by simpa using prepared
        exact ⟨m, sticky, metadata, shape.symm⟩

variable (count : Nat)

theorem preparedParts_unsettled (sticky : Int) (records : List R) (part : Part R)
    (mem : part ∈ preparedParts cfg view count sticky records) : part.state.place = .unsettled := by
  obtain ⟨group, -, inGroup⟩ := mem_flatMap.mp mem
  exact (unsettled_cutGroup cfg view group part inGroup).1

theorem perm_preparedParts (sticky : Int) (records : List R) :
    ((preparedParts cfg view count sticky records).flatMap Part.records).Perm
      (records.filter (fits cfg view)) := by
  unfold preparedParts
  rw [flatMap_assoc]
  simp only [records_cutGroup]
  exact Grouping.perm_groupBy _ _

theorem inOrder_preparedParts (sticky p : Int) (records : List R) :
    inOrder p (preparedParts cfg view count sticky records) =
      (records.filter (fits cfg view)).filter fun r => partitionOf view count sticky r = p := by
  rw [inOrder_of_unsettled p _ (preparedParts_unsettled cfg view count sticky records)]
  unfold preparedParts
  rw [Grouping.filter_flatMap_groupBy _ _ p]
  · rw [filter_eq_self.mpr, records_cutGroup]
    intro part mem
    exact decide_eq_true (unsettled_cutGroup cfg view _ part mem).2
  · intro other ne
    refine filter_eq_nil_iff.mpr fun part mem => ?_
    rw [(unsettled_cutGroup cfg view _ part mem).2]
    simpa using ne
  · rfl

end Prepared

/-- A prepared batch on its way: its batches, what was reported settled, and how many records
`dropAmbiguous` reported. -/
structure Progress (R : Type) where
  producer : Producer
  pending : Pending R
  reports : List (Settled R)
  lost : Nat

inductive Move
  | send (input : SendInput)
  | dropAmbiguous

variable (cfg : ProducerConfig)

def Progress.move (st : Progress R) : Move → Progress R
  | .send input =>
    let sent := st.producer.send cfg input st.pending
    ⟨sent.producer, sent.pending, st.reports ++ sent.settled, st.lost⟩
  | .dropAmbiguous =>
    let (producer, pending, count, _) := st.producer.dropAmbiguous cfg st.pending
    ⟨producer, pending, st.reports, st.lost + count⟩

def Progress.run (st : Progress R) (moves : List Move) : Progress R :=
  moves.foldl (Progress.move cfg) st

/-- The records at a place, of those given to `prepare`. -/
def Progress.at (view : View R) (records : List R) (st : Progress R) : Place → List R
  | .oversize => records.filter fun r => !fits cfg view r
  | .named => reported .named st.reports
  | place => held place st.pending.parts

theorem accounts_run {start : Parts R} (moves : List Move) : ∀ st : Progress R,
    Accounts start st.pending.parts st.reports st.lost →
    Accounts start (st.run cfg moves).pending.parts (st.run cfg moves).reports (st.run cfg moves).lost := by
  induction moves with
  | nil => exact fun st held => held
  | cons move moves ih =>
    intro st held
    cases move with
    | send input => exact ih _ (held.trans (accounts_send cfg st.producer input st.pending))
    | dropAmbiguous =>
      have next := held.trans (accounts_letGo st.pending.parts)
      rw [append_nil] at next
      exact ih _ next

theorem send_oversize (s : Producer) (input : SendInput) (pending : Pending R) :
    (s.send cfg input pending).pending.oversize = pending.oversize := by
  have attempt := send_attempt cfg s input pending
  generalize s.send cfg input pending = sent at attempt ⊢
  cases attempt <;> rfl

theorem run_oversize (moves : List Move) : ∀ st : Progress R,
    (st.run cfg moves).pending.oversize = st.pending.oversize := by
  induction moves with
  | nil => exact fun st => rfl
  | cons move moves ih =>
    intro st
    cases move with
    | send input => exact (ih _).trans (send_oversize cfg st.producer input st.pending)
    | dropAmbiguous => exact ih _

/-- Whatever the brokers answer, every record given to `prepare` stays in exactly one place, the reports
count what they settle, and what a partition has left or accepted is in input order. -/
theorem records_conserved (view : R → ProducerRecord) (s : Producer)
    (input : MetadataInput) (draw : Nat) (records : List R) (pending : Pending R)
    (prepared : (s.prepare cfg view input draw records).2 = .ok pending) (moves : List Move) :
    let st := Progress.run cfg ⟨(s.prepare cfg view input draw records).1, pending, [], 0⟩ moves
    let found := st.at cfg view records
    records.Perm (Place.all.flatMap found) ∧ st.pending.oversize = (found .oversize).length ∧
      (∀ report ∈ st.reports, report.records = report.of.length) ∧
      (found .accepted).Perm (reported .accepted st.reports) ∧
      (found .rejected).Perm (reported .rejected st.reports) ∧ st.lost = (found .ambiguous).length ∧
      ∃ m sticky, (s.prepare cfg view input draw records).1.metadata = some m ∧
        ∀ p, (inOrder p st.pending.parts).Sublist
          (records.filter fun r => partitionOf view m.leaders.length sticky r = p) := by
  intro st found
  obtain ⟨m, sticky, metadata, shape⟩ := prepare_ok cfg view prepared
  have unsettled := held_of_unsettled _ (preparedParts_unsettled cfg view m.leaders.length sticky records)
  have parts : pending.parts = preparedParts cfg view m.leaders.length sticky records := by rw [shape]
  have run : Accounts pending.parts st.pending.parts st.reports st.lost :=
    accounts_run cfg moves _ (Accounts.refl pending.parts)
  rw [parts] at run
  have kept := (perm_preparedParts cfg view m.leaders.length sticky records).symm.trans run.whole
  have small := (filter_append_perm (fits cfg view) records).symm
  have whole : records.Perm (Place.all.flatMap found) := by
    refine small.trans ((kept.append_right _).trans ?_)
    refine ((perm_held st.pending.parts).append_right _ |>.append_right _).trans ?_
    refine perm_append_comm.trans ?_
    simp only [Place.all, flatMap_cons, flatMap_nil, append_nil, append_assoc]
    exact List.Perm.refl _
  have settles (place : Place) (member : place ∈ [Place.accepted, .rejected]) (other : place ≠ .unsettled) :
      (held place st.pending.parts).Perm (reported place st.reports) := by
    have held := run.settles place member
    rwa [unsettled place other] at held
  refine ⟨whole, ?_, run.counts, settles _ (by simp) (by simp), settles _ (by simp) (by simp), ?_, m, sticky,
    metadata, ?_⟩
  · have count := small.length_eq
    rw [length_append] at count
    have same : st.pending.oversize = pending.oversize := run_oversize cfg moves _
    have here : found .oversize = records.filter fun r => !fits cfg view r := rfl
    rw [same, shape, here]
    dsimp only
    omega
  · have lost := run.ambiguous
    rw [unsettled .ambiguous (by simp), length_nil, Nat.zero_add] at lost
    exact lost.symm
  · intro p
    have order := run.order p
    rw [inOrder_preparedParts] at order
    exact order.trans (filter_sublist.filter _)

/-- A cluster of one broker, which leads the topic's one partition and answers every batch alike. -/
def soleBroker (code : Int) : SendInput where
  init := .ok ⟨7, 0⟩
  metadata := ⟨false, .topic [1] [(0, 0, 1)], [], .noTopic⟩
  encode := fun _ => some 100
  encodeError := fun _ => ""
  link := fun _ => ⟨.ok 9, fun _ => false, fun _ => .answers fun _ => some ⟨code, 0, [], ""⟩⟩

def soleConfig : ProducerConfig := ⟨.all, true, false, 1000, fun _ => rfl⟩

def unkeyed (n : UInt8) : ProducerRecord := ⟨none, some [n], [], 0⟩

/-- Two records, first answered too large and halved, then accepted. -/
theorem records_conserved_halved :
    let prepared := Producer.new.prepare soleConfig id (soleBroker 0).metadata 0 [unkeyed 1, unkeyed 2]
    ∃ pending, prepared.2 = .ok pending ∧
      let st := Progress.run soleConfig ⟨prepared.1, pending, [], 0⟩
        [.send (soleBroker 10), .dropAmbiguous, .send (soleBroker 0)]
      [unkeyed 1, unkeyed 2].Perm
        (Place.all.flatMap (st.at soleConfig id [unkeyed 1, unkeyed 2])) ∧
        (st.at soleConfig id [unkeyed 1, unkeyed 2] .accepted).length = 2 := by
  intro prepared
  refine ⟨_, rfl, ?_, by decide +kernel⟩
  exact (records_conserved soleConfig id new (soleBroker 0).metadata 0 [unkeyed 1, unkeyed 2] _ rfl
    [.send (soleBroker 10), .dropAmbiguous, .send (soleBroker 0)]).1

end Logit.Kafka
