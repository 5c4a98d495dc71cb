import Logit.Kafka.Burnt

namespace Logit.Kafka

open List Function
open Prod (fst snd)

open Sink (Fault DeliveryPosture isRetryable)

variable {R : Type}

variable (cfg : ProducerConfig)

theorem careful_send (s : Producer) (input : SendInput) (pending : Pending R)
    (nodup : (pending.parts.flatMap Part.records).Nodup) :
    Careful pending.parts (s.send cfg input pending).pending.parts (s.send cfg input pending).notes := by
  have attempt := send_attempt cfg s input pending
  generalize s.send cfg input pending = sent at attempt ⊢
  cases attempt with
  | idle | unidentified | unplaced => exact .refl nodup
  | @sent s' s'' m identified fetched metadata =>
    have whole : ((s''.stampAll cfg pending.parts).2.1.flatMap Part.records).Nodup := by
      rw [records_stampAll]
      exact nodup
    have careful := fun next => careful_wire cfg next m input (s''.stampAll cfg pending.parts).2.1 whole
      (s''.stampAll cfg pending.parts).2.2 (stampAll_quiet cfg pending.parts s'')
    unfold Producer.sendParts
    dsimp only
    generalize ({ (s''.stampAll cfg pending.parts).1 with
      refreshDue := (s''.stampAll cfg pending.parts).1.refreshDue ||
        (s''.stampAll cfg pending.parts).2.1.any fun part =>
          part.isUnsettled && (m.leader part.partition).isNone } : Producer) = next
    obtain ⟨after, sub, spends⟩ := careful next
    rw [held_stampAll] at spends
    rw [records_stampAll] at sub
    exact ⟨after, sub, spends⟩

theorem send_error (s : Producer) (input : SendInput) (pending : Pending R)
    (stopped : (s.send cfg input pending).error.isSome) : (s.send cfg input pending).pending = pending := by
  have attempt := send_attempt cfg s input pending
  generalize s.send cfg input pending = sent at attempt stopped ⊢
  cases attempt with
  | idle | unidentified | unplaced => rfl
  | sent => simp [Producer.sendParts] at stopped

namespace TopicState

def records : TopicState R → List R
  | .unprepared records => records
  | .prepared pending => pending.parts.flatMap Part.records

/-- The records an attempt may still send. -/
def live : TopicState R → List R
  | .unprepared records => records
  | .prepared pending => held .unsettled pending.parts

def Calm : TopicState R → Prop
  | .unprepared _ => True
  | .prepared pending => ∀ part ∈ pending.parts, part.isAmbiguous = false

/-- The topic once its ambiguous batches are dropped. -/
def letGo : TopicState R → TopicState R
  | .unprepared records => .unprepared records
  | .prepared pending => .prepared { pending with parts := pending.parts.map Part.letGo }

variable (state : TopicState R)

theorem live_sub : state.live ⊆ state.records := by
  intro r mem
  cases state with
  | unprepared records => exact mem
  | prepared pending =>
    obtain ⟨part, inParts, -, inPart⟩ := mem_held_unsettled.mp mem
    exact mem_flatMap.mpr ⟨part, inParts, inPart⟩

theorem letGo_of_calm {state : TopicState R} (calm : state.Calm) : state.letGo = state := by
  cases state with
  | unprepared records => rfl
  | prepared pending =>
    have same : pending.parts.map Part.letGo = pending.parts := by
      refine (map_congr_left fun part mem => ?_).trans (map_id _)
      simp [Part.letGo, calm part mem]
    simp [letGo, same]

theorem letGo_calm : state.letGo.Calm := by
  cases state with
  | unprepared records => trivial
  | prepared pending =>
    intro part' mem
    obtain ⟨part, -, rfl⟩ := mem_map.mp mem
    unfold Part.letGo
    split_ifs with lost
    · rfl
    · simpa using lost

theorem letGo_records : state.letGo.records = state.records := by
  cases state with
  | unprepared records => rfl
  | prepared pending => exact records_letGo pending.parts

end TopicState

/-- What an attempt leaves of a topic, once its ambiguous batches are let go. -/
structure TopicCareful (state : TopicState R) (out : TopicOutcome R) : Prop where
  nodup : out.state.records.Nodup
  sub : out.state.records ⊆ state.records
  spends : Spends state.live out.notes out.state.letGo.live
  stopped : out.error.isSome → state.Calm → out.state.Calm

theorem careful_sendTopic (s : Producer) (input : TopicInput) (pending : Pending R) (oversize : Nat)
    (nodup : (pending.parts.flatMap Part.records).Nodup) :
    TopicCareful (.prepared pending) (sendTopic cfg s input pending oversize) := by
  obtain ⟨after, sub, spends⟩ := careful_send cfg s input.send pending nodup
  refine ⟨after, sub, spends, fun stopped calm => ?_⟩
  have same := send_error cfg s input.send pending stopped
  simp only [sendTopic, same]
  exact calm

theorem careful_attemptTopic (view : View R) (s : Producer) (input : TopicInput)
    (state : TopicState R) (nodup : state.records.Nodup) :
    TopicCareful state (attemptTopic cfg view s input state) := by
  cases state with
  | prepared pending => exact careful_sendTopic cfg s input pending 0 nodup
  | unprepared records =>
    simp only [attemptTopic]
    split
    · rename_i s' pending prepared
      have isOk : (s.prepare cfg view input.metadata input.draw records).2 = .ok pending := by rw [prepared]
      obtain ⟨m, sticky, -, shape⟩ := prepare_ok cfg view isOk
      have perm : (pending.parts.flatMap Part.records).Perm (records.filter (fits cfg view)) := by
        rw [shape]
        exact perm_preparedParts cfg view m.leaders.length sticky records
      have fromRecords : ∀ r ∈ pending.parts.flatMap Part.records, r ∈ records :=
        fun r mem => (mem_filter.mp (perm.subset mem)).1
      have calm : (TopicState.prepared pending).Calm := by
        intro part mem
        rw [shape] at mem
        obtain ⟨group, -, inGroup⟩ := mem_flatMap.mp mem
        obtain ⟨rs, -, rfl⟩ := mem_map.mp inGroup
        rfl
      have whole := perm.symm.nodup (List.Nodup.filter _ nodup)
      have sent := careful_sendTopic cfg s' input pending pending.oversize whole
      have live : (TopicState.prepared pending).live ⊆ records :=
        List.Subset.trans (TopicState.live_sub _) fromRecords
      exact ⟨sent.nodup, List.Subset.trans sent.sub fromRecords, sent.spends.widen live,
        fun stopped _ => sent.stopped stopped calm⟩
    · exact ⟨nodup, fun _ mem => mem, .quiet (by simp) _, fun _ _ => trivial⟩

theorem rank_le_strongest {classes : List Fault} {fault : Fault} (found : strongest classes = some fault) :
    ∀ c ∈ classes, rank c ≤ rank fault := by
  unfold strongest at found
  change ∀ c ∈ none.toList ++ classes, _
  generalize none = best at found ⊢
  induction classes generalizing best with
  | nil =>
    obtain rfl := found
    simp
  | cons c classes ih =>
    rw [foldl_cons] at found
    cases best with
    | none => exact ih _ found
    | some b =>
      dsimp only at found
      split_ifs at found with above
      · have later := ih _ found
        simp only [Option.toList_some, singleton_append, forall_mem_cons] at later ⊢
        exact ⟨above.trans later.1, later⟩
      · have later := ih _ found
        simp only [Option.toList_some, singleton_append, forall_mem_cons] at later ⊢
        exact ⟨later.1, by omega, later.2⟩

/-- Under a clean verdict no topic that was sent has an ambiguous batch. -/
theorem calm_of_clean {topics : List (TopicState R × Option Fault)} (clean : verdict topics = .error .clean) :
    ∀ t ∈ topics, t.2 = none → t.1.Calm := by
  intro t mem sent
  have found : strongest (topics.flatMap unsettledClasses) = some .clean := by
    unfold verdict at clean
    split at clean
    · rename_i fault found
      rw [found]
      simpa using clean
    · split_ifs at clean
      simp at clean
  obtain ⟨state, error⟩ := t
  obtain rfl := sent
  cases state with
  | unprepared records => trivial
  | prepared pending =>
    intro part inParts
    by_contra lost
    have ambiguous : part.isAmbiguous = true := by simpa using lost
    have isAmbiguous : part.fault? = some .ambiguous := by
      unfold Part.isAmbiguous at ambiguous
      unfold Part.fault?
      split at ambiguous
      · rename_i shape
        rw [shape]
      · exact absurd ambiguous Bool.false_ne_true
    have inClasses : Fault.ambiguous ∈ topics.flatMap unsettledClasses :=
      mem_flatMap.mpr ⟨_, mem, mem_filterMap.mpr ⟨part, inParts, isAmbiguous⟩⟩
    have bound := rank_le_strongest found _ inClasses
    simp [rank] at bound

/-- What the sink keeps of a batch between attempts, after a trace over the records of `all`. -/
structure Holds (all : List R) (topics : Topics R) (trace : List (String × Note R)) : Prop where
  nodup : (topics.flatMap fun t => t.state.records).Nodup
  calm : ∀ t ∈ topics, t.state.Calm
  spends : Spends all (trace.map snd) (topics.flatMap fun t => t.state.live)

namespace KafkaOutput

variable (cfg : ProducerConfig) (view : View R)

theorem dropAmbiguous_topics (topics : Topics R) : ∀ producers : String → Producer,
    (dropAmbiguous cfg producers topics).2 = topics.map fun t => { t with state := t.state.letGo } := by
  induction topics with
  | nil => exact fun producers => rfl
  | cons t topics ih =>
    intro producers
    obtain ⟨topic, state⟩ := t
    cases state with
    | unprepared records | prepared pending =>
      simp only [dropAmbiguous, ih]
      rfl

variable {all : List R} {topics : Topics R} {trace : List (String × Note R)}

/-- The topics after an attempt, their ambiguous batches dropped, are kept well. -/
theorem holds_letGo (holds : Holds all topics trace) (producers : String → Producer)
    (inputs : String → TopicInput) :
    Holds all ((attemptAll cfg view producers inputs topics).map fun t =>
        (⟨t.1, t.2.state.letGo⟩ : TopicPending R))
      (trace ++ (attemptAll cfg view producers inputs topics).flatMap fun t =>
        t.2.notes.map fun note => (t.1, note)) := by
  obtain ⟨each, disjoint⟩ := nodup_flatMap.mp holds.nodup
  have careful := fun t mem =>
    careful_attemptTopic cfg view (producers t.topic) (inputs t.topic) t.state (each t mem)
  unfold attemptAll
  rw [map_map, flatMap_map]
  refine ⟨?_, ?_, ?_⟩
  · rw [flatMap_map]
    refine nodup_flatMap.mpr ⟨?_, ?_⟩
    · intro t mem
      simp only [comp_apply, TopicState.letGo_records]
      exact (careful t mem).nodup
    · refine (List.Pairwise.and_mem.mp disjoint).imp ?_
      rintro t t' ⟨mem, mem', apart⟩ r here there
      simp only [comp_apply, TopicState.letGo_records] at here there
      exact apart ((careful t mem).sub here) ((careful t' mem').sub there)
  · intro t mem
    obtain ⟨_, -, rfl⟩ := mem_map.mp mem
    exact TopicState.letGo_calm _
  · have apart : topics.Pairwise fun t t' => t.state.live.Disjoint t'.state.live :=
      disjoint.imp fun {t t'} apart _ here there => apart (t.state.live_sub here) (t'.state.live_sub there)
    have spends := Spends.flatMap (fun t mem => (careful t mem).spends) apart
    rw [map_append, map_flatMap, flatMap_map]
    simpa only [map_map, comp_def, map_id'] using holds.spends.append spends

/-- What an attempt leaves of an armed output: before a retry it holds what is to be sent again. -/
structure Attempted (all : List R) (trace : List (String × Note R))
    (out : KafkaOutput R × Except Fault Unit × List (String × Note R)) : Prop where
  once : ((trace ++ out.2.2).map snd).Pairwise BurntOnce
  posture : out.1.posture = .atMostOnce
  armed : out.1.armed = true
  kept : isFinal .atMostOnce out.2.1 = false →
    ∃ topics, out.1.pending = some topics ∧ Holds all topics (trace ++ out.2.2)

/-- One attempt: nothing burnt is on the wire again, and before a retry nothing held is ambiguous. -/
theorem holds_attemptPending {o : KafkaOutput R} (posture : o.posture = .atMostOnce)
    (armed : o.armed = true) (holds : Holds all topics trace) (inputs : String → TopicInput) :
    Attempted all trace (attemptPending cfg view o topics inputs) := by
  have letGo := holds_letGo cfg view holds o.producers inputs
  obtain ⟨each, -⟩ := nodup_flatMap.mp holds.nodup
  unfold attemptPending
  dsimp only
  split_ifs with refused
  · refine ⟨letGo.spends.once, posture, armed, fun _ => ⟨_, rfl, ?_⟩⟩
    rw [dropAmbiguous_topics, map_map]
    exact letGo
  · refine ⟨letGo.spends.once, posture, armed, fun retried => ⟨_, rfl, ?_⟩⟩
    -- Not refused and retried, so the verdict is clean.
    have clean : verdict ((attemptAll cfg view o.producers inputs topics).map
        fun t => (t.2.state, t.2.error)) = .error .clean := by
      cases answer : verdict ((attemptAll cfg view o.producers inputs topics).map
          fun t => (t.2.state, t.2.error)) with
      | ok _ =>
        rw [answer] at retried
        simp [isFinal] at retried
      | error fault =>
        rw [answer] at retried refused
        cases fault with
        | clean => rfl
        | ambiguous | rejected => simp [isFinal, isRetryable] at retried
        | refused => exact absurd ⟨posture, rfl⟩ refused
    have calm : ∀ out ∈ attemptAll cfg view o.producers inputs topics, out.2.state.Calm := by
      intro out mem
      cases stopped : out.2.error with
      | none => exact calm_of_clean clean _ (mem_map_of_mem mem) stopped
      | some fault =>
        obtain ⟨t, inTopics, rfl⟩ := mem_map.mp mem
        have careful := careful_attemptTopic cfg view (o.producers t.topic) (inputs t.topic) t.state
          (each t inTopics)
        exact careful.stopped (by rw [stopped]; rfl) (holds.calm t inTopics)
    have same : (attemptAll cfg view o.producers inputs topics).map (fun t => ⟨t.1, t.2.state⟩) =
        (attemptAll cfg view o.producers inputs topics).map
          fun t => (⟨t.1, t.2.state.letGo⟩ : TopicPending R) := by
      refine map_congr_left fun out mem => ?_
      rw [TopicState.letGo_of_calm (calm out mem)]
    rw [same]
    exact letGo

/-- A send of an armed output: of the batch it holds, or of a new one. -/
theorem holds_send {o : KafkaOutput R} (posture : o.posture = .atMostOnce) (armed : o.armed = true)
    (batch : List (String × R)) (holds : Holds all (o.pending.getD (multiPending batch)) trace)
    (inputs : String → TopicInput) : let out := o.send cfg view batch inputs
    ((trace ++ out.2.2).map snd).Pairwise BurntOnce ∧ out.1.posture = .atMostOnce ∧
      (isFinal .atMostOnce out.2.1 = false → out.1.armed = true ∧
        Holds all (out.1.pending.getD (multiPending batch)) (trace ++ out.2.2)) := by
  have attempted : Attempted all trace (o.attempt cfg view batch inputs) := by
    unfold attempt
    simp only [armed, if_true]
    cases held : o.pending with
    | some topics =>
      rw [held] at holds
      exact holds_attemptPending cfg view posture armed holds inputs
    | none =>
      rw [held] at holds
      split_ifs with empty
      · exact ⟨by simpa using holds.spends.once, posture, armed, by simp [isFinal]⟩
      · exact holds_attemptPending cfg view posture armed holds inputs
  unfold send
  generalize o.attempt cfg view batch inputs = out at attempted ⊢
  obtain ⟨o', result, notes⟩ := out
  obtain ⟨once, stays, stillArmed, retried⟩ := attempted
  dsimp only at once stays stillArmed retried ⊢
  rw [stays]
  by_cases final : isFinal .atMostOnce result = true
  · rw [if_pos final]
    have samePosture : (o'.release cfg).posture = o'.posture := by
      unfold release
      split <;> rfl
    exact ⟨once, samePosture.trans stays, fun notFinal => absurd final (by simp [notFinal])⟩
  · rw [if_neg final]
    refine ⟨once, stays, fun notFinal => ⟨stillArmed, ?_⟩⟩
    obtain ⟨topics', held, kept⟩ := retried notFinal
    simpa only [held, Option.getD_some] using kept

/-- All attempts at a batch: what is held after the last is well kept, unless that one was final. -/
theorem holds_deliver (batch : List (String × R)) (attempts : List (String → TopicInput)) :
    ∀ (o : KafkaOutput R) (trace : List (String × Note R)), o.posture = .atMostOnce → o.armed = true →
      Holds all (o.pending.getD (multiPending batch)) trace →
      ((trace ++ (o.deliver cfg view batch attempts).2.2).map snd).Pairwise BurntOnce ∧
        ((∀ result ∈ (o.deliver cfg view batch attempts).2.1, isFinal .atMostOnce result = false) →
          Holds all ((o.deliver cfg view batch attempts).1.pending.getD (multiPending batch))
            (trace ++ (o.deliver cfg view batch attempts).2.2)) := by
  induction attempts with
  | nil =>
    intro o trace _ _ holds
    simp only [deliver, append_nil]
    exact ⟨holds.spends.once, fun _ => holds⟩
  | cons inputs rest ih =>
    intro o trace posture armed holds
    obtain ⟨once, posture', retried⟩ := holds_send cfg view posture armed batch holds inputs
    unfold deliver
    generalize o.send cfg view batch inputs = out at once posture' retried ⊢
    obtain ⟨o', result, notes⟩ := out
    dsimp only at once posture' retried ⊢
    rw [posture']
    by_cases final : isFinal .atMostOnce result = true
    · rw [if_pos final]
      exact ⟨once, fun notFinal => absurd final (by simp [notFinal result rfl])⟩
    · rw [if_neg final]
      obtain ⟨armed', kept⟩ := retried (by simpa using final)
      obtain ⟨laterOnce, laterKept⟩ := ih o' (trace ++ notes) posture' armed' kept
      rw [append_assoc] at laterOnce laterKept
      refine ⟨laterOnce, fun notFinal => laterKept fun result' last => notFinal result' ?_⟩
      rw [Option.mem_def.mp last]
      rfl

end KafkaOutput

theorem perm_pushTopic (topic : String) (record : R) (topics : Topics R) :
    ((pushTopic topic record topics).flatMap fun t => t.state.records).Perm
      ((topics.flatMap fun t => t.state.records) ++ [record]) := by
  induction topics with
  | nil => simp [pushTopic, TopicState.records]
  | cons t rest ih =>
    unfold pushTopic
    have onward := List.Perm.append_left t.state.records ih
    rw [← append_assoc] at onward
    split_ifs
    · split
      · rename_i records unprepared
        simp only [flatMap_cons, unprepared, TopicState.records, append_assoc]
        exact List.Perm.append_left _ perm_append_comm
      · exact onward
    · exact onward

theorem perm_multiPending (batch : List (String × R)) :
    ((multiPending batch).flatMap fun t => t.state.records).Perm (batch.map snd) := by
  have fold : ∀ (batch : List (String × R)) topics,
      ((batch.foldl (fun topics r => pushTopic r.1 r.2 topics) topics).flatMap
        fun t => t.state.records).Perm ((topics.flatMap fun t => t.state.records) ++ batch.map snd) := by
    intro batch
    induction batch with
    | nil => simp
    | cons r batch ih =>
      intro topics
      have pushed := (perm_pushTopic r.1 r.2 topics).append_right (batch.map snd)
      simp only [append_assoc] at pushed
      exact (ih _).trans pushed
  have whole := fold batch []
  simpa [multiPending] using whole

theorem calm_pushTopic (topic : String) (record : R) (topics : Topics R)
    (calm : ∀ t ∈ topics, t.state.Calm) : ∀ t ∈ pushTopic topic record topics, t.state.Calm := by
  induction topics with
  | nil => exact forall_mem_singleton.mpr trivial
  | cons first rest ih =>
    obtain ⟨here, there⟩ := forall_mem_cons.mp calm
    have onward : ∀ t ∈ first :: pushTopic topic record rest, t.state.Calm :=
      forall_mem_cons.mpr ⟨here, ih there⟩
    unfold pushTopic
    split_ifs
    · split
      · exact forall_mem_cons.mpr ⟨trivial, there⟩
      · exact onward
    · exact onward

theorem calm_multiPending (batch : List (String × R)) : ∀ t ∈ multiPending batch, t.state.Calm := by
  let calm (topics : Topics R) : Prop := ∀ t ∈ topics, t.state.Calm
  exact foldlRecOn (motive := calm) batch _ (by simp [calm]) fun topics calm r _ =>
    calm_pushTopic r.1 r.2 topics calm

variable (batch : List (String × ProducerRecord))

/-- A batch's records, each told apart by its place. -/
def labelled : List (String × (ProducerRecord × Nat)) :=
  batch.zipIdx.map fun r => (r.1.1, (r.1.2, r.2))

theorem nodup_labelled : ((labelled batch).map snd).Nodup := by
  have places : (((labelled batch).map snd).map snd).Nodup := by
    unfold labelled
    rw [map_map, map_map]
    have same : ((snd ∘ snd) ∘ fun r : (String × ProducerRecord) × Nat => (r.1.1, (r.1.2, r.2))) =
        snd := rfl
    rw [same, zipIdx_map_snd]
    exact nodup_range'
  exact places.of_map _

/-- Under `at_most_once`, over all attempts at a batch, the records of a partition batch whose outcome was
ambiguous are never on the wire again, and before a retry nothing held is ambiguous. -/
theorem at_most_once (cfg : ProducerConfig) (o : KafkaOutput (ProducerRecord × Nat))
    (posture : o.posture = .atMostOnce) (batch : List (String × ProducerRecord))
    (attempts : List (String → TopicInput)) :
    let out := (o.observeBatch cfg).deliver cfg fst (labelled batch) attempts
    (out.2.2.Pairwise fun earlier later => earlier.2.burnt.Disjoint later.2.onWire) ∧
      ∀ result, out.2.1 = some result → KafkaOutput.isFinal .atMostOnce result = false →
        ∀ topics, out.1.pending = some topics → ∀ t ∈ topics, t.state.Calm := by
  intro out
  have released : (o.observeBatch cfg).pending = none := by
    unfold KafkaOutput.observeBatch KafkaOutput.release
    split <;> simp_all
  have samePosture : (o.observeBatch cfg).posture = .atMostOnce := by
    unfold KafkaOutput.observeBatch KafkaOutput.release
    split <;> exact posture
  have holds : Holds ((multiPending (labelled batch)).flatMap fun t => t.state.live)
      ((o.observeBatch cfg).pending.getD (multiPending (labelled batch))) [] := by
    rw [released]
    exact ⟨(perm_multiPending _).symm.nodup (nodup_labelled batch), calm_multiPending _, .quiet (by simp) _⟩
  obtain ⟨once, kept⟩ := KafkaOutput.holds_deliver cfg fst (labelled batch) attempts
    (o.observeBatch cfg) [] samePosture rfl holds
  refine ⟨pairwise_map.mp once, fun result last notFinal topics held => ?_⟩
  have stays := kept (by simpa only [out, last, Option.mem_some, forall_eq'] using notFinal)
  simpa only [out, held, Option.getD_some] using stays.calm

def emptyOutput : KafkaOutput (ProducerRecord × Nat) := ⟨fun _ => .new, none, false, .atMostOnce⟩

/-- Topic `a` is refused and topic `b` ambiguous: the retry sends `a` alone. -/
theorem at_most_once_refused :
    let answer : Int → String → TopicInput := fun ambiguous topic =>
      let send := soleBroker (if topic = "a" then Code.topicAuthorizationFailed else ambiguous)
      ⟨send.metadata, 0, send⟩
    let out := (emptyOutput.observeBatch soleConfig).deliver soleConfig fst
      (labelled [("a", unkeyed 1), ("b", unkeyed 2)])
      [answer Code.requestTimedOut, answer Code.none]
    (out.2.2.Pairwise fun earlier later => earlier.2.burnt.Disjoint later.2.onWire) ∧
      (out.2.2.filter fun x => x.2.onWire.length = 1).map fst = ["a", "b", "a"] := by
  intro answer out
  refine ⟨(at_most_once soleConfig emptyOutput rfl [("a", unkeyed 1), ("b", unkeyed 2)]
    [answer Code.requestTimedOut, answer Code.none]).1, ?_⟩
  decide +kernel

end Logit.Kafka
