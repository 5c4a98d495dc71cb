import Logit.Kafka.Sequence

namespace Logit.Kafka

open StopAndWait List Bool

variable {R : Type}

/-- Every unsettled batch has its number. -/
structure Ready (s : Producer) (identity : Identity) (parts : Parts R) (trace : Trace R) : Prop
    extends Good s parts trace where
  current : Current s identity
  numbered : Uniform s.numbered parts true

variable {s : Producer} {identity : Identity} {parts : Parts R} {trace : Trace R}
  {cfg : ProducerConfig} {pending : Pending R}

theorem mem_bare {parts parts' : Parts R} (bare : parts'.map (fun part => { part with sequence := none }) =
      parts.map fun part => { part with sequence := none }) {part' : Part R} (mem : part' ∈ parts') :
    ∃ part ∈ parts, part' = { part with sequence := part'.sequence } := by
  have image : { part' with sequence := none } ∈ parts.map fun part => { part with sequence := none } := by
    rw [← bare]
    exact mem_map_of_mem mem
  obtain ⟨part, inParts, same⟩ := mem_map.mp image
  refine ⟨part, inParts, ?_⟩
  cases part'
  simpa using same.symm

theorem not_closed_of_isOpen (isOpen : .gap identity ∉ trace) (p : Int) :
    StopAndWait.Event.closed ∉ channelOf p identity trace := by
  intro closed
  obtain ⟨note, mem, made⟩ := mem_filterMap.mp closed
  cases note with
  | numbered q i base records =>
    simp only [channel] at made
    split_ifs at made
    simp at made
  | wire q stamp records outcome =>
    cases stamp with
    | none => simp [channel] at made
    | some stamp =>
      simp only [channel] at made
      split_ifs at made
      simp at made
  | gap i =>
    simp only [channel] at made
    split_ifs at made with same
    rw [same] at mem
    exact isOpen mem

theorem mine_numbered (all : Uniform s.numbered parts true) (p : Int) :
    (mine p parts).filter s.numbered = mine p parts := by
  refine filter_eq_self.mpr fun part mem => ?_
  obtain ⟨inParts, isMine⟩ := mem_filter.mp mem
  exact all part inParts (and_eq_true_iff.mp isMine).1

theorem mine_unnumbered (none : Uniform s.numbered parts false) (p : Int) :
    (mine p parts).filter s.numbered = [] := by
  refine filter_eq_nil_iff.mpr fun part mem => ?_
  obtain ⟨inParts, isMine⟩ := mem_filter.mp mem
  simp [none part inParts (and_eq_true_iff.mp isMine).1]

theorem Good.stampAll (idempotent : cfg.idempotent = true) (good : Good s parts trace)
    (current : Current s identity)
    (small : ∀ part ∈ parts, part.isUnsettled = true → part.records.length < ring) :
    Ready (s.stampAll cfg parts).1 identity (s.stampAll cfg parts).2.1
      (trace ++ (s.stampAll cfg parts).2.2) := by
  have tidy := good.tidy identity current
  rcases tidy.uniform with numbered | unnumbered
  · rw [stampAll_numbered cfg s parts numbered, append_nil]
    exact ⟨good, current, numbered⟩
  · have stamped := stampAll_unnumbered idempotent parts s current.known unnumbered good.generations
    have bare := stampAll_bare cfg parts s
    generalize s.stampAll cfg parts = result at stamped bare ⊢
    obtain ⟨s', parts', notes⟩ := result
    dsimp only at stamped bare ⊢
    have line := stamped.same
    have smallMine : ∀ p, ∀ b ∈ (mine p parts').map Part.batch, b.2.length < ring := by
      intro p b mem
      obtain ⟨part', isMine, rfl⟩ := mem_map.mp mem
      obtain ⟨inParts', isMine⟩ := mem_filter.mp isMine
      obtain ⟨part, inParts, same⟩ := mem_bare bare inParts'
      rw [same] at isMine ⊢
      exact small part inParts (and_eq_true_iff.mp isMine).1
    have ringed := fun p => (stamped.chain p).inRing (smallMine p)
      (numberedOf (channelOf p identity trace)) (tidy.next p)
    have numbered : Uniform s'.numbered parts' true := by
      rw [line]
      exact stamped.numbered
    refine ⟨good.grow (by rw [line]) ?_ ?_ ?_ ?_, ?_, numbered⟩
    · intro note mem
      obtain ⟨_, _, _, rfl⟩ := stamped.own note mem
      exact ⟨identity, current.known, rfl⟩
    · intro p i isCurrent
      obtain rfl := Option.some.inj (current.known.symm.trans isCurrent)
      rw [stamped.events p]
      exact (good.legal p identity).number _ (not_closed_of_isOpen tidy.isOpen p) (ringed p).1
    · rw [line]
      exact stamped.generations
    · intro i isCurrent
      rw [line] at isCurrent
      obtain rfl := Option.some.inj (current.known.symm.trans isCurrent.known)
      refine ⟨?_, fun p => ?_, fun p => ?_, .inl numbered⟩
      · intro mem
        refine (mem_append.mp mem).elim tidy.isOpen fun new => ?_
        obtain ⟨_, _, _, shape⟩ := stamped.own _ new
        cases shape
      · have last := (ringed p).2
        rw [channelOf_append, stamped.events p, numberedOf_append, numberedOf_map_numbered]
        exact last
      · have waits := Waiting.number (tidy.waiting p) ((mine p parts').map Part.batch)
        rw [mine_unnumbered unnumbered] at waits
        rw [channelOf_append, stamped.events p, mine_numbered numbered]
        exact waits
    · rw [line]
      exact ⟨current.known, current.quiet, current.fresh⟩

theorem left_eq (cfg : ProducerConfig) (m : Metadata) (input : SendInput) (parts : Parts R) (p : Int) :
    ((fates parts (deliver cfg m input parts) p).filter fun d => !d.accepted).map Shipment.batch =
      ((outcomes cfg m input parts).filter fun pair => remains pair && pair.1.partition = p).map
        fun pair => pair.1.batch := by
  rw [fates, filter_map, filter_map, map_map, map_map]
  unfold unsettledOf
  rw [filter_filter]
  have same : parts.zipIdx.filter (fun u => (((fun d : Shipment (Batch R) => !d.accepted) ∘
        fun u => fateAt (batchAt parts) (deliver cfg m input parts) u.2) u &&
          (u.1.isUnsettled && u.1.partition = p))) =
      parts.zipIdx.filter ((fun pair => remains pair && pair.1.partition = p) ∘
        fun u => (u.1, outcomeOf m input (deliver cfg m input parts) u.2 u.1)) := by
    refine filter_congr fun u mem => ?_
    cases unsettled : u.1.isUnsettled with
    | true =>
      obtain ⟨outcome, found, agrees⟩ := outcomeOf_fate cfg m input parts (batchAt parts) mem unsettled
      simp [remains, found, agrees]
    | false =>
      have none : outcomeOf m input (deliver cfg m input parts) u.2 u.1 = none := by
        simp [outcomeOf, plan, unsettled]
      simp [remains, none, unsettled]
  rw [same]
  refine map_congr_left fun u mem => ?_
  exact (fateAt_batch _ _ _).trans (batchAt_of_mem (mem_filter.mp mem).1)

/-- What one send puts on the wire keeps the sequences right. -/
theorem Ready.send (idempotent : cfg.idempotent = true) (ready : Ready s identity parts trace) (m : Metadata)
    (input : SendInput) (ordered : EncodesInOrder input.encode parts) :
    Good (s.applyAll cfg (outcomes cfg m input parts)).producer
      (s.applyAll cfg (outcomes cfg m input parts)).parts
      (trace ++ (wireNotes cfg s parts (deliver cfg m input parts) ++
        (s.applyAll cfg (outcomes cfg m input parts)).notes)) := by
  have tidy := ready.tidy identity ready.current
  have wired := fun p => channelOf_wireNotes parts idempotent ready.current.known m input ready.numbered p
  have onWire : ∀ note ∈ wireNotes cfg s parts (deliver cfg m input parts), _ := fun _ mem =>
    mem_wireNotes parts idempotent ready.current.known m input ready.numbered mem
  have left := left_eq cfg m input parts
  have orderly : ∀ p, Orderly (fates parts (deliver cfg m input parts) p) := fun p =>
    orderly_fates cfg m input parts p ordered
  have round := fun p => (orderly p).legal (ready.legal p identity)
    (by
      have waiting := tidy.waiting p
      rwa [mine_numbered ready.numbered, ← batch_fates] at waiting)
  have fromParts : ∀ pair ∈ outcomes cfg m input parts, pair.1 ∈ parts := by
    intro pair mem
    rw [← map_fst_outcomes parts cfg m input]
    exact mem_map_of_mem mem
  have unsettledPairs : ∀ pair ∈ outcomes cfg m input parts, remains pair = true → pair.1.isUnsettled = true := by
    intro pair mem stays
    cases found : pair.2 with
    | none => simpa [remains, found] using stays
    | some outcome => exact unsettled_outcomes parts cfg m input pair mem (by rw [found]; rfl)
  generalize outcomes cfg m input parts = outcomes at left fromParts unsettledPairs ⊢
  have folds := folds_applyAll cfg outcomes s
  generalize s.applyAll cfg outcomes = applied at folds ⊢
  refine ready.grow folds.keeps.identity ?_ ?_ ?_ ?_
  · refine forall_mem_append.mpr ⟨fun note mem => ?_, fun note mem => ?_⟩
    · obtain ⟨_, -, _, rfl⟩ := onWire note mem
      exact ⟨identity, ready.current.known, rfl⟩
    · obtain ⟨i, isCurrent, rfl⟩ := folds.gaps note mem
      exact ⟨i, isCurrent, rfl⟩
  · intro p i isCurrent
    obtain rfl := Option.some.inj (ready.current.known.symm.trans isCurrent)
    rw [channelOf_append, wired p, ← append_assoc]
    refine (round p).1.close _ fun e mem => ?_
    obtain ⟨note, inNotes, made⟩ := mem_filterMap.mp mem
    obtain ⟨i, isCurrent, rfl⟩ := folds.gaps note inNotes
    obtain rfl := Option.some.inj (ready.current.known.symm.trans isCurrent)
    simpa [channel] using made.symm
  · intro part' mem seq known
    rw [folds.keeps.generation]
    obtain ⟨pair, inOutcomes, origin⟩ := folds.descends part' mem
    rcases origin.sequence with none | same
    · simp [none] at known
    · exact ready.generations pair.1 (fromParts pair inOutcomes) seq (same ▸ known)
  · intro i current
    obtain rfl := Option.some.inj (ready.current.known.symm.trans (folds.keeps.current current).known)
    have settled := folds.settles idempotent current.quiet current.fresh
    have numberedAll : Uniform applied.producer.numbered applied.parts true := by
      rw [folds.keeps.numbered]
      refine numbered_settles settled fun pair mem stays => ?_
      exact ready.numbered pair.1 (fromParts pair mem) (unsettledPairs pair mem stays)
    rw [folds.noGap idempotent current.quiet, append_nil]
    refine ⟨?_, fun p => ?_, fun p => ?_, .inl numberedAll⟩
    · intro mem
      refine (mem_append.mp mem).elim tidy.isOpen fun wire => ?_
      obtain ⟨_, -, _, shape⟩ := onWire _ wire
      cases shape
    · rw [folds.keeps.nextSequence, channelOf_append, wired p, numberedOf_append, numberedOf_events, append_nil]
      exact tidy.next p
    · have waits := (round p).2
      rw [left p, ← mine_settles settled] at waits
      rw [mine_numbered numberedAll, channelOf_append, wired p]
      exact waits

theorem Ready.congr {s s' : Producer} (ready : Ready s identity parts trace) (same : s'.line = s.line) :
    Ready s' identity parts trace :=
  ⟨ready.toGood.congr (.of_line same), (Keeps.of_line same.symm).current ready.current,
    (Keeps.of_line same).numbered ▸ ready.numbered⟩

theorem encodesInOrder_bare (encode : Nat → Option Nat) (parts : Parts R) :
    EncodesInOrder encode (parts.map fun part => { part with sequence := none }) ↔ EncodesInOrder encode parts := by
  unfold EncodesInOrder
  rw [zipIdx_map, pairwise_map]
  rfl

theorem EncodesInOrder.stampAll {encode : Nat → Option Nat} (ordered : EncodesInOrder encode parts)
    (cfg : ProducerConfig) (s : Producer) : EncodesInOrder encode (s.stampAll cfg parts).2.1 := by
  rw [← encodesInOrder_bare, stampAll_bare, encodesInOrder_bare]
  exact ordered

theorem Good.send (idempotent : cfg.idempotent = true) (good : Good s pending.parts trace) (input : SendInput)
    (fresh : ∀ identity, input.init = .ok identity → ∀ note ∈ trace, ∀ i, note.identity? = some i →
      i.producerId ≠ identity.producerId) (ordered : EncodesInOrder input.encode pending.parts)
    (small : ∀ part ∈ pending.parts, part.isUnsettled = true → part.records.length < ring) :
    Good (s.send cfg input pending).producer (s.send cfg input pending).pending.parts
      (trace ++ (s.send cfg input pending).notes) := by
  have attempt := send_attempt cfg s input pending
  generalize s.send cfg input pending = sent at attempt ⊢
  cases attempt with
  | idle =>
    rw [append_nil]
    exact good
  | unidentified failed =>
    rw [append_nil]
    exact (good.identify idempotent fresh failed).1
  | @unplaced s' s'' error fault identified fetched =>
    rw [append_nil]
    have same := line_ensureMetadata s' input.metadata
    rw [fetched] at same
    exact (good.identify idempotent fresh identified).1.congr (.of_line same)
  | @sent s' s'' m identified fetched metadata =>
    obtain ⟨goodNow, line⟩ := good.identify idempotent fresh identified
    obtain ⟨identity, current⟩ := line rfl
    have same := line_ensureMetadata s' input.metadata
    rw [fetched] at same
    have ready :=
      (goodNow.congr (.of_line same)).stampAll idempotent ((Keeps.of_line same.symm).current current) small
    have done := fun (next : Producer) (line : next.line = (s''.stampAll cfg pending.parts).1.line) =>
      (ready.congr line).send idempotent m input (ordered.stampAll cfg s'')
    unfold Producer.sendParts
    dsimp only
    rw [append_assoc, ← append_assoc]
    exact done _ rfl

theorem flatMap_gapNotes_nil (unnumbered : ∀ part ∈ parts, s.numbered part = false) :
    parts.flatMap s.gapNotes = [] := by
  refine flatMap_eq_nil_iff.mpr fun part mem => ?_
  simp [Producer.gapNotes, unnumbered part mem]

theorem mine_letGo (unnumbered : ∀ part ∈ parts, part.isAmbiguous = true → s.numbered part = false) (p : Int) :
    (mine p (parts.map Part.letGo)).filter s.numbered = (mine p parts).filter s.numbered := by
  unfold mine
  rw [filter_filter, filter_filter]
  induction parts with
  | nil => rfl
  | cons part parts ih =>
    have rest := ih fun part' mem => unnumbered part' (mem_cons_of_mem _ mem)
    rw [map_cons, filter_cons, filter_cons, rest]
    by_cases lost : part.isAmbiguous = true
    · have none := unnumbered part mem_cons_self lost
      have same : s.numbered part.letGo = s.numbered part := by
        unfold Producer.numbered
        rw [letGo_sequence]
      simp [same, none]
    · simp [Part.letGo, lost]

theorem Good.dropAmbiguous (idempotent : cfg.idempotent = true) (good : Good s pending.parts trace) :
    Good (s.dropAmbiguous cfg pending).1 (s.dropAmbiguous cfg pending).2.1.parts
      (trace ++ (s.dropAmbiguous cfg pending).2.2.2) := by
  have keeps : Keeps s (s.dropAmbiguous cfg pending).1 := by
    unfold Producer.dropAmbiguous
    dsimp only
    split_ifs
    · exact keeps_gap cfg s
    · exact .refl s
  refine good.giveUp keeps ?_ ?_ ?_ ?_
  · intro note mem
    obtain ⟨part, -, inNotes⟩ := mem_flatMap.mp mem
    exact gaps_gapNotes s part note inNotes
  · intro part' mem unsettled
    obtain ⟨part, inParts, rfl⟩ := mem_map.mp mem
    have same := (letGo_unsettled unsettled).1
    change part.letGo ∈ pending.parts
    rw [same]
    exact inParts
  · intro part' mem seq known
    obtain ⟨part, inParts, rfl⟩ := mem_map.mp mem
    exact good.generations part inParts seq ((letGo_sequence part).symm.trans known)
  · intro quiet
    have unnumbered : ∀ part ∈ pending.parts.filter Part.isAmbiguous, s.numbered part = false := by
      intro part mem
      by_contra numbered
      have some := any_eq_true.mpr ⟨part, mem, by simpa using numbered⟩
      simp [Producer.dropAmbiguous, some, Producer.gap, idempotent] at quiet
    refine ⟨flatMap_gapNotes_nil unnumbered, mine_letGo fun part mem lost => ?_⟩
    exact unnumbered part (mem_filter.mpr ⟨mem, lost⟩)

theorem Good.abandon (idempotent : cfg.idempotent = true) (good : Good s pending.parts trace) :
    Good (s.abandon cfg pending).1 [] (trace ++ (s.abandon cfg pending).2) := by
  have keeps : Keeps s (s.abandon cfg pending).1 := by
    unfold Producer.abandon
    dsimp only
    split_ifs
    · exact ⟨rfl, rfl, rfl, nofun, id⟩
    · exact .refl s
  refine good.giveUp keeps ?_ (by simp) (by simp) ?_
  · intro note mem
    obtain ⟨part, -, inNotes⟩ := mem_flatMap.mp mem
    exact gaps_gapNotes s part note inNotes
  · intro quiet
    have none : pending.parts.filter (fun part => part.isUnsettled && s.numbered part) = [] := by
      by_contra some
      simp [Producer.abandon, idempotent, some] at quiet
    refine ⟨by simp [Producer.abandon, none], fun p => (mine_unnumbered (fun part mem unsettled => ?_) p).symm⟩
    have given := filter_eq_nil_iff.mp none part mem
    simpa [unsettled] using given

theorem Good.prepare (cfg : ProducerConfig) (view : View R) (good : Good s [] trace)
    (input : MetadataInput) (draw : Nat) (records : List R) :
    Good (s.prepare cfg view input draw records).1 [] trace ∧
      ∀ pending, (s.prepare cfg view input draw records).2 = .ok pending →
        Good (s.prepare cfg view input draw records).1 pending.parts trace := by
  have same : (s.prepare cfg view input draw records).1.line = s.line := by
    have fetched := line_ensureMetadata s input
    unfold Producer.prepare
    split
    · rename_i s' fault equal
      rw [equal] at fetched
      exact fetched
    · rename_i s' equal
      rw [equal] at fetched
      split
      · exact fetched
      · split
        · exact fetched
        · exact fetched
  have now := good.congr (.of_line same)
  refine ⟨now, fun pending prepared => ?_⟩
  obtain ⟨m, sticky, -, shape⟩ := prepare_ok cfg view prepared
  have unnumbered : ∀ part ∈ pending.parts, part.sequence = none := by
    intro part mem
    rw [shape] at mem
    obtain ⟨group, -, inGroup⟩ := mem_flatMap.mp mem
    obtain ⟨rs, -, rfl⟩ := mem_map.mp inGroup
    rfl
  generalize (s.prepare cfg view input draw records).1 = s' at now ⊢
  have none : ∀ part ∈ pending.parts, s'.numbered part = false := by
    intro part mem
    simp [Producer.numbered, unnumbered part mem]
  refine ⟨now.legal, now.stamped, now.behind, ?_, ?_⟩
  · intro part mem seq known
    simp [unnumbered part mem] at known
  · intro identity current
    have tidy := now.tidy identity current
    refine ⟨tidy.isOpen, tidy.next, ?_, .inr fun part mem _ => none part mem⟩
    intro p
    rw [mine_unnumbered fun part mem _ => none part mem]
    exact tidy.waiting p

end Logit.Kafka
