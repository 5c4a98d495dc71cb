import Logit.Kafka.Numbering

namespace Logit.Kafka

open StopAndWait List Option Producer Prod

variable {R : Type}

/-- The identity and the numbers are as before, and what was due still is. -/
structure Keeps (s s' : Producer) : Prop where
  identity : s'.identity = s.identity
  generation : s'.generation = s.generation
  nextSequence : s'.nextSequence = s.nextSequence
  quiet : s'.bumpDue = false → s.bumpDue = false
  fresh : s'.reinitDue = false → s.reinitDue = false

variable (s : Producer)

theorem Keeps.refl : Keeps s s := ⟨rfl, rfl, rfl, id, id⟩

theorem Keeps.trans {s s' s'' : Producer} (first : Keeps s s') (second : Keeps s' s'') : Keeps s s'' where
  identity := second.identity.trans first.identity
  generation := second.generation.trans first.generation
  nextSequence := second.nextSequence.trans first.nextSequence
  quiet := fun quiet => first.quiet (second.quiet quiet)
  fresh := fun fresh => first.fresh (second.fresh fresh)

theorem keeps_gap (cfg : ProducerConfig) (s : Producer) : Keeps s (s.gap cfg) :=
  ⟨rfl, rfl, rfl, fun quiet => (Bool.or_eq_false_iff.mp quiet).1, id⟩

theorem keeps_topicMissing : Keeps s s.topicMissing.1 := by
  unfold topicMissing
  split_ifs <;> exact ⟨rfl, rfl, rfl, id, id⟩

theorem gaps_gapNotes (part : Part R) :
    ∀ note ∈ s.gapNotes part, ∃ identity, s.identity = some identity ∧ note = .gap identity := by
  intro note mem
  unfold gapNotes at mem
  split_ifs at mem
  · obtain ⟨identity, current, rfl⟩ := map_eq_some_iff.mp (mem_toList.mp mem)
    exact ⟨identity, current, rfl⟩
  · simp at mem

/-- Whether a batch may have been appended without an answer that says so. -/
def Outcome.isAmbiguous : Outcome → Bool
  | .unanswered fault _ => fault = .ambiguous
  | .answered code _ _ _ _ =>
    match classify code with
    | .unsettled fault _ => fault = .ambiguous
    | .outOfOrder => true
    | _ => false

/-- Whether a batch is still unsettled once its outcome is in, if nothing is given up. -/
def remains (pair : Answered R) : Bool :=
  match pair.2 with
  | none => pair.1.isUnsettled
  | some outcome => !outcome.appended

/-- A batch as it is after its outcome, if nothing is given up: its state alone changed. -/
def Settles (pair : Answered R) (part : Part R) : Prop :=
  part = { pair.1 with state := part.state } ∧ part.isUnsettled = remains pair

/-- What a batch comes from: its sequence is the same or none, and an ambiguous outcome leaves it
ambiguous. -/
structure Descends (pair : Answered R) (part : Part R) : Prop where
  sequence : part.sequence = none ∨ part.sequence = pair.1.sequence
  records : part.records ⊆ pair.1.records
  ambiguous : ∀ outcome, pair.2 = some outcome → outcome.isAmbiguous = true → part.isAmbiguous = true
  untouched : pair.2 = none → part = pair.1

/-- Outcomes folded in: the notes are gaps of the current identity, and when nothing becomes due every
batch keeps its place, its records and its number. -/
structure Folds (cfg : ProducerConfig) (s : Producer) (outcomes : List (Answered R))
    (out : Applied R) : Prop where
  keeps : Keeps s out.producer
  gaps : ∀ note ∈ out.notes, ∃ identity, s.identity = some identity ∧ note = .gap identity
  descends : ∀ part ∈ out.parts, ∃ pair ∈ outcomes, Descends pair part
  noGap : cfg.idempotent = true → out.producer.bumpDue = false → out.notes = []
  settles : cfg.idempotent = true → out.producer.bumpDue = false → out.producer.reinitDue = false →
    List.Forall₂ Settles outcomes out.parts

variable {s} {cfg : ProducerConfig} {pair : Answered R} {accepted : Bool}
  {rejection : Option String} {settled : List (Settled R)}

theorem Folds.append {first rest : List (Answered R)} {here later : Applied R}
    (folds : Folds cfg s first here) (onward : Folds cfg here.producer rest later) : Folds cfg s (first ++ rest)
      ⟨later.producer, here.parts ++ later.parts, accepted, rejection, settled, here.notes ++ later.notes⟩ where
  keeps := folds.keeps.trans onward.keeps
  gaps := by
    refine forall_mem_append.mpr ⟨folds.gaps, ?_⟩
    rw [← folds.keeps.identity]
    exact onward.gaps
  descends := by
    refine forall_mem_append.mpr ⟨fun part mem => ?_, fun part mem => ?_⟩
    · obtain ⟨pair, known, descends⟩ := folds.descends part mem
      exact ⟨pair, mem_append_left _ known, descends⟩
    · obtain ⟨pair, known, descends⟩ := onward.descends part mem
      exact ⟨pair, mem_append_right _ known, descends⟩
  noGap idempotent quiet := append_eq_nil_iff.mpr
    ⟨folds.noGap idempotent (onward.keeps.quiet quiet), onward.noGap idempotent quiet⟩
  settles idempotent quiet fresh := rel_append
    (folds.settles idempotent (onward.keeps.quiet quiet) (onward.keeps.fresh fresh))
    (onward.settles idempotent quiet fresh)

theorem Folds.kept {s' : Producer} {part' : Part R} (keeps : Keeps s s')
    (same : part' = { pair.1 with state := part'.state })
    (ambiguous : ∀ outcome, pair.2 = some outcome → outcome.isAmbiguous = true → part'.isAmbiguous = true)
    (untouched : pair.2 = none → part' = pair.1)
    (remains : s'.bumpDue = false → s'.reinitDue = false → part'.isUnsettled = remains pair) :
    Folds cfg s [pair] ⟨s', [part'], accepted, rejection, settled, []⟩ where
  keeps := keeps
  gaps := by simp
  descends := by
    refine forall_mem_singleton.mpr ⟨pair, mem_singleton_self _, .inr ?_, ?_, ambiguous, untouched⟩
    · rw [same]
    · rw [same]
      exact List.Subset.refl _
  noGap _ _ := rfl
  settles _ quiet fresh := .cons ⟨same, remains quiet fresh⟩ .nil

theorem Folds.gap {part : Part R} {outcome : Outcome} {parts : Parts R} (known : outcome.isAmbiguous = false)
    (descends : ∀ part' ∈ parts, (part'.sequence = none ∨ part'.sequence = part.sequence) ∧
      part'.records ⊆ part.records) :
    Folds cfg s [(part, some outcome)] ⟨s.gap cfg, parts, accepted, rejection, settled, s.gapNotes part⟩ := by
  have due : cfg.idempotent = true → (s.gap cfg).bumpDue = true := by
    intro idempotent
    simp [Producer.gap, idempotent]
  refine ⟨keeps_gap cfg s, gaps_gapNotes s part, fun part' mem => ?_, fun idempotent quiet => ?_,
    fun idempotent quiet => ?_⟩
  · refine ⟨_, mem_singleton_self _, (descends part' mem).1, (descends part' mem).2, ?_, nofun⟩
    rintro _ ⟨⟩ lost
    cases known.symm.trans lost
  · cases (due idempotent).symm.trans quiet
  · cases (due idempotent).symm.trans quiet

theorem classify_accepted_iff (code : Int) : classify code = .accepted ↔ code = 0 ∨ code = 46 := by
  unfold classify
  simp only [Code.none, Code.duplicateSequenceNumber, mem_cons, not_mem_nil, or_false]
  constructor
  · intro accepted
    by_contra other
    revert accepted
    split_ifs <;> simp
  · intro either
    rw [if_pos either]

theorem appended_eq (code baseOffset : Int) (recordErrors : List Int) (why : String) (version : Int) :
    (Outcome.answered code baseOffset recordErrors why version).appended = decide (classify code = .accepted) := by
  simp [Outcome.appended, classify_accepted_iff]

theorem folds_apply (cfg : ProducerConfig) (s : Producer) (part : Part R) (outcome : Outcome) :
    Folds cfg s [(part, some outcome)] (s.apply cfg part outcome) := by
  have unsettles : ∀ {s' : Producer} fault (why : String), Keeps s s' →
      (outcome.isAmbiguous = true → fault = .ambiguous) →
      (s'.bumpDue = false → s'.reinitDue = false → outcome.appended = false) →
      Folds cfg s [(part, some outcome)] (s'.keep (part.unsettle fault why)) := by
    intro s' fault why keeps ambiguous refused
    refine .kept keeps rfl ?_ (by simp) fun quiet fresh => ?_
    · rintro _ ⟨⟩ lost
      rw [ambiguous lost]
      rfl
    · simp [remains, refused quiet fresh, Part.isUnsettled, Part.unsettle]
  cases outcome with
  | unanswered fault why => exact unsettles fault why (.refl s) (fun lost => of_decide_eq_true lost) fun _ _ => rfl
  | answered code baseOffset recordErrors why version =>
    have appended := appended_eq code baseOffset recordErrors why version
    have unknown := Eq.refl (Outcome.answered code baseOffset recordErrors why version).isAmbiguous
    conv_rhs at unknown => simp [Outcome.isAmbiguous]
    cases response : classify code <;> rw [response] at appended unknown <;>
      simp only [apply, response]
    case accepted =>
      refine .kept ⟨rfl, rfl, rfl, id, id⟩ rfl ?_ (by simp) fun _ _ => ?_
      · rintro _ ⟨⟩ lost
        cases unknown.symm.trans lost
      · simp [remains, appended, Part.isUnsettled]
    case unsettled fault refresh =>
      exact unsettles fault why ⟨rfl, rfl, rfl, id, id⟩ (fun lost => of_decide_eq_true (unknown.symm.trans lost))
        fun _ _ => appended
    case missingTopic =>
      exact unsettles _ why (keeps_topicMissing s) (fun lost => absurd (unknown.symm.trans lost) (by simp))
        fun _ _ => appended
    case outOfOrder => exact unsettles _ why ⟨rfl, rfl, rfl, by simp, id⟩ (fun _ => rfl) (by simp)
    case staleEpoch =>
      exact unsettles _ why ⟨rfl, rfl, rfl, id, by simp⟩ (fun lost => absurd (unknown.symm.trans lost) (by simp))
        (by simp)
    all_goals
      have rejected : Folds cfg s [(part, some (.answered code baseOffset recordErrors why version))]
          (s.reject cfg part code why) :=
        .gap unknown (forall_mem_singleton.mpr ⟨.inr rfl, List.Subset.refl _⟩)
    case tooLarge =>
      split_ifs
      · refine .gap unknown (forall_mem_map.mpr fun half mem => ⟨.inl rfl, ?_⟩)
        rcases mem_pair.mp mem with rfl | rfl
        · exact take_subset _ _
        · exact drop_subset _ _
      · exact rejected
    case namedRecords =>
      split_ifs
      · exact rejected
      · exact .gap unknown (forall_mem_singleton.mpr ⟨.inr rfl, nil_subset _⟩)
      · refine .gap unknown (forall_mem_singleton.mpr ⟨.inl rfl, ?_⟩)
        have sub : ((part.records.zipIdx.filter
            fun r => !(namedRecords part recordErrors).contains r.2).map fst).Sublist
            (part.records.zipIdx.map fst) := filter_sublist.map _
        rw [zipIdx_map_fst] at sub
        exact sub.subset
      · exact rejected
    case rejected => exact rejected

theorem folds_applyAll (cfg : ProducerConfig) (outcomes : List (Answered R)) :
    ∀ s : Producer, Folds cfg s outcomes (s.applyAll cfg outcomes) := by
  induction outcomes with
  | nil => exact fun s => ⟨.refl s, by simp [applyAll], by simp [applyAll], fun _ _ => rfl,
      fun _ _ _ => .nil⟩
  | cons pair rest ih =>
    intro s
    obtain ⟨part, outcome⟩ := pair
    have here : Folds cfg s [(part, outcome)] (outcome.elim (s.keep part) (s.apply cfg part)) := by
      cases outcome with
      | none => exact .kept (.refl s) rfl (by simp) (fun _ => rfl) fun _ _ => rfl
      | some outcome => exact folds_apply cfg s part outcome
    exact here.append (ih _)

theorem mine_settles {p : Int} {outcomes : List (Answered R)} {parts : Parts R}
    (settles : List.Forall₂ Settles outcomes parts) : (mine p parts).map Part.batch =
      (outcomes.filter fun pair => remains pair && pair.1.partition = p).map fun pair => pair.1.batch := by
  induction settles with
  | nil => rfl
  | @cons pair part outcomes parts here _ ih =>
    obtain ⟨shape, unsettled⟩ := here
    have partition : part.partition = pair.1.partition := by rw [shape]
    have batch : part.batch = pair.1.batch := by rw [shape]; rfl
    unfold mine at ih ⊢
    rw [filter_cons, filter_cons, unsettled, partition]
    split_ifs
    · rw [map_cons, map_cons, ih, batch]
    · exact ih

theorem numbered_settles {s : Producer} {outcomes : List (Answered R)} {parts : Parts R}
    (settles : List.Forall₂ Settles outcomes parts)
    (numbered : ∀ pair ∈ outcomes, remains pair = true → s.numbered pair.1 = true) :
      Uniform s.numbered parts true := by
  induction settles with
  | nil => simp [Uniform]
  | @cons pair part outcomes parts here _ ih =>
    intro part' mem unsettled
    rcases mem_cons.mp mem with rfl | later
    · obtain ⟨shape, remainsEq⟩ := here
      have pairNumbered := numbered pair mem_cons_self (remainsEq ▸ unsettled)
      rw [shape]
      exact pairNumbered
    · exact ih (fun pair' inRest => numbered pair' (mem_cons_of_mem _ inRest)) part' later unsettled

section Delivered

variable (cfg : ProducerConfig) (m : Metadata) (input : SendInput) (parts : Parts R)

theorem outcomeOf_delivered {d : Delivered} {part : Part R} (mem : d ∈ deliver cfg m input parts)
    (place : parts[d.index]? = some part) :
    outcomeOf m input (deliver cfg m input parts) d.index part = some d.outcome := by
  obtain ⟨part', place', onPartition, unsettled, led, encoded⟩ := ready_of_mem_deliver cfg m input parts mem
  obtain rfl := some.inj (place.symm.trans place')
  obtain ⟨leader, ledBy⟩ := isSome_iff_exists.mp led
  obtain ⟨size, encodes⟩ := isSome_iff_exists.mp encoded
  simp [outcomeOf, plan, unsettled, onPartition, ledBy, encodes, find_delivered cfg m input parts mem]

theorem outcomeOf_fate {B : Type} (batchAt : Nat → B) {u : Part R × Nat} (mem : u ∈ parts.zipIdx)
    (unsettled : u.1.isUnsettled = true) :
    ∃ outcome, outcomeOf m input (deliver cfg m input parts) u.2 u.1 = some outcome ∧
      outcome.appended = (fateAt batchAt (deliver cfg m input parts) u.2).accepted := by
  have isMine : u ∈ unsettledOf u.1.partition parts.zipIdx := mem_filter.mpr ⟨mem, by simp [unsettled]⟩
  cases ready : isReady m input.encode u.1.partition u with
  | true =>
    have index : u.2 ∈ (deliveredTo u.1.partition (deliver cfg m input parts)).map Delivered.index := by
      rw [(indices_deliver cfg m input parts u.1.partition id).1]
      exact mem_map_of_mem (mem_filter.mpr ⟨isMine, ready⟩)
    obtain ⟨d, inDelivered, atIndex⟩ := mem_map.mp index
    have delivered := (mem_filter.mp inDelivered).1
    have place := mem_zipIdx_iff_getElem?.mp mem
    rw [← atIndex] at place ⊢
    refine ⟨d.outcome, outcomeOf_delivered cfg m input parts delivered place, ?_⟩
    rw [fateAt_delivered cfg m input parts delivered]
    rfl
  | false =>
    have fate : (fateAt batchAt (deliver cfg m input parts) u.2).accepted = false := by
      unfold fateAt
      rw [fateAt_unready cfg m input parts _ isMine ready]
    rw [fate]
    unfold isReady at ready
    unfold outcomeOf plan
    cases led : m.leader u.1.partition with
    | none => exact ⟨.unanswered .clean _, by simp only [unsettled]; rfl, rfl⟩
    | some leader =>
      have unencoded : input.encode u.2 = none := by simpa [led] using ready
      exact ⟨.answered (-1) (-1) [] _ 0, by simp only [unsettled, unencoded]; rfl, rfl⟩

end Delivered

end Logit.Kafka
