import Logit.Kafka.SequenceSteps

namespace Logit.Kafka

open StopAndWait List

variable {R : Type}

/-- A condition holds at every call of a run. -/
def Throughout (cfg : ProducerConfig) (view : View R) (P : Session R → Op R → Prop) :
    Session R → List (Op R) → Prop
  | _, [] => True
  | st, op :: ops => P st op ∧ Throughout cfg view P (st.step cfg view op) ops

theorem good_step {cfg : ProducerConfig} (idempotent : cfg.idempotent = true) (view : View R)
    {st : Session R} (good : Good st.producer st.parts st.trace) (op : Op R) (fresh : FreshIds st op)
    (encodable : Encodable st op) :
    Good (st.step cfg view op).producer (st.step cfg view op).parts (st.step cfg view op).trace := by
  obtain ⟨s, pending, trace⟩ := st
  cases pending with
  | none =>
    cases op with
    | prepare input draw records =>
      obtain ⟨failed, prepared⟩ := Good.prepare cfg view good input draw records
      simp only [Session.step]
      split
      · rename_i producer pending equal
        rw [equal] at prepared
        exact prepared pending rfl
      · rename_i producer fault equal
        rw [equal] at failed
        exact failed
    | send input => exact good
    | dropAmbiguous => exact good
    | abandon => exact good
  | some pending =>
    cases op with
    | prepare input draw records => exact good
    | send input => exact good.send idempotent input fresh encodable.1 encodable.2
    | dropAmbiguous => exact good.dropAmbiguous idempotent
    | abandon => exact good.abandon idempotent

theorem good_run {cfg : ProducerConfig} (idempotent : cfg.idempotent = true) (view : View R)
    (ops : List (Op R)) : ∀ st : Session R, Good st.producer st.parts st.trace →
      Throughout cfg view FreshIds st ops → Throughout cfg view Encodable st ops →
      Good (st.run cfg view ops).producer (st.run cfg view ops).parts (st.run cfg view ops).trace := by
  induction ops with
  | nil => exact fun st good _ _ => good
  | cons op ops ih =>
    intro st good fresh encodable
    exact ih _ (good_step idempotent view good op fresh.1 encodable.1) fresh.2 encodable.2

theorem good_start : Good (Session.start : Session R).producer (Session.start : Session R).parts [] where
  legal := fun _ _ => Legal.nil
  stamped := by simp
  behind := by simp
  generations := by
    intro part mem
    simp [Session.start, Session.parts] at mem
  tidy := by
    intro identity current
    cases current.known

/-- In every run of an idempotent producer whose attempts are encodable in order, each partition's batches
under each identity are numbered without gaps from 0, sent only once all numbered before are accepted, and
resent as they were; after a gap no further batch is numbered. -/
theorem sequence_safe (cfg : ProducerConfig) (idempotent : cfg.idempotent = true)
    (view : R → ProducerRecord) (ops : List (Op R)) (fresh : Throughout cfg view FreshIds .start ops)
    (encodable : Throughout cfg view Encodable .start ops) :
    let trace := (Session.start.run cfg view ops).trace
    (∀ p records outcome, .wire p none records outcome ∉ trace) ∧
      ∀ p identity, Legal inRing (channelOf p identity trace) ∧
        ∀ before between after b b' a a', channelOf p identity trace =
          before ++ .sent b a :: (between ++ .sent b' a' :: after) →
          acceptedOf (.sent b a :: between) = [] → b' = b := by
  intro trace
  have good := good_run idempotent view ops .start good_start fresh encodable
  refine ⟨good.stamped, fun p identity => ⟨good.legal p identity, ?_⟩⟩
  intro before between after b b' a a' split unaccepted
  exact (good.legal p identity).resent split unaccepted

/-- A batch answered too large and halved, then both halves accepted under the next epoch. -/
theorem sequence_safe_halved :
    let ops : List (Op ProducerRecord) := [.prepare (soleBroker 0).metadata 0 [unkeyed 1, unkeyed 2],
      .send (soleBroker 10), .send { soleBroker 0 with init := .error .clean }]
    Legal inRing (channelOf 0 ⟨7, 1⟩ (Session.start.run soleConfig id ops).trace) ∧
      acceptedOf (channelOf 0 ⟨7, 1⟩ (Session.start.run soleConfig id ops).trace) =
        [(0, [unkeyed 1]), (1, [unkeyed 2])] := by
  intro ops
  have encodes : ∀ parts : List (Part ProducerRecord), EncodesInOrder (fun _ => some 100) parts := by
    intro parts
    refine pairwise_of_forall fun u v _ _ _ none => ?_
    exact absurd none (by simp)
  have fresh : Throughout soleConfig id FreshIds .start ops := by
    refine ⟨trivial, ?_, ?_, trivial⟩
    · intro identity _ note member
      exact absurd member not_mem_nil
    · intro identity answered
      exact absurd answered (by simp)
  have encodable : Throughout soleConfig id Encodable .start ops :=
    ⟨trivial, ⟨encodes _, by decide +kernel⟩, ⟨encodes _, by decide +kernel⟩, trivial⟩
  exact ⟨((sequence_safe soleConfig rfl id ops fresh encodable).2 0 ⟨7, 1⟩).1, rfl⟩

def onePerBatch : ProducerConfig := ⟨.all, true, false, 98, fun _ => rfl⟩

/-- Two batches of one partition, of which the first does not encode: the second is sent before the first
is accepted. -/
theorem sequence_unsafe :
    let ops : List (Op ProducerRecord) := [.prepare (soleBroker 0).metadata 0 [unkeyed 1, unkeyed 2],
      .send { soleBroker 0 with encode := fun i => if i = 0 then none else some 98 }]
    Throughout onePerBatch id FreshIds .start ops ∧
      ¬ Legal inRing (channelOf 0 ⟨7, 0⟩ (Session.start.run onePerBatch id ops).trace) := by
  intro ops
  refine ⟨⟨trivial, ?_, trivial⟩, ?_⟩
  · intro identity _ note member
    exact absurd member not_mem_nil
  · intro legal
    have lawful := legal [.numbered (0, [unkeyed 1]), .numbered (1, [unkeyed 2])]
      (.sent (1, [unkeyed 2]) true) [.closed] rfl
    obtain ⟨rest, equal⟩ := lawful
    have bases : some (1 : Int32) = some 0 := congrArg (fun batches => (batches.map Prod.fst).head?) equal
    exact absurd bases (by decide)

end Logit.Kafka
