import Logit.Kafka.Producer
import Logit.Lib.StopAndWait

namespace Logit.Kafka

open List Bool Delivered
open Prod (fst snd)

open StopAndWait (Shipment Orderly)
open Grouping (groupBy)

variable {R : Type}

/-- What became of a delivered batch, where a place has its batch. -/
def Delivered.shipment {B : Type} (batchAt : Nat → B) (d : Delivered) : Shipment B :=
  ⟨batchAt d.index, d.wire, d.outcome.appended⟩

/-- What was delivered of a partition. -/
def deliveredTo (p : Int) (delivered : List Delivered) : List Delivered := delivered.filter fun d => d.partition = p

def entriesOf (p : Int) (entries : List Entry) : List Entry := entries.filter fun e => e.partition = p

variable (p : Int) (cfg : ProducerConfig) {B : Type} {batchAt : Nat → B}

@[simp] theorem deliveredTo_append (xs ys : List Delivered) :
    deliveredTo p (xs ++ ys) = deliveredTo p xs ++ deliveredTo p ys := by simp [deliveredTo]

@[simp] theorem entriesOf_append (xs ys : List Entry) :
    entriesOf p (xs ++ ys) = entriesOf p xs ++ entriesOf p ys := by simp [entriesOf]

/-- Outcomes made entry by entry are a partition's for the partition's entries. -/
theorem deliveredTo_map (f : Entry → Delivered) (keeps : ∀ e, (f e).partition = e.partition)
    (entries : List Entry) : deliveredTo p (entries.map f) = (entriesOf p entries).map f := by
  unfold deliveredTo
  rw [filter_map]
  congr 1
  refine filter_congr fun e _ => ?_
  simp [keeps]

variable (version : Int)

theorem produce_keeps (reply : Reply) (e : Entry) : (produce cfg version reply e).partition = e.partition ∧
      (produce cfg version reply e).index = e.index ∧ (produce cfg version reply e).wire = true := by
  unfold produce
  split
  · exact ⟨rfl, rfl, rfl⟩
  · split_ifs
    · exact ⟨rfl, rfl, rfl⟩
    · split <;> exact ⟨rfl, rfl, rfl⟩

theorem flatten_packInto (cap : Nat) (entries : List Entry) : ∀ current : List Entry,
    (packInto cap current entries).flatten = current ++ entries := by
  induction entries with
  | nil =>
    intro current
    unfold packInto
    split_ifs with empty
    · simp [isEmpty_iff.mp empty]
    · simp
  | cons e rest ih =>
    intro current
    unfold packInto
    split_ifs <;> simp [ih]

theorem distinct_packInto (cap : Nat) (entries : List Entry) : ∀ current : List Entry,
    current.Pairwise (fun e e' => e.partition ≠ e'.partition) → ∀ request ∈ packInto cap current entries,
      request.Pairwise fun e e' => e.partition ≠ e'.partition := by
  induction entries with
  | nil =>
    intro current distinct request mem
    unfold packInto at mem
    split_ifs at mem
    · simp at mem
    · rw [mem_singleton.mp mem]
      exact distinct
  | cons e rest ih =>
    intro current distinct request mem
    unfold packInto at mem
    split_ifs at mem with cut
    · rcases mem_cons.mp mem with rfl | later
      · exact distinct
      · exact ih [e] (pairwise_singleton _ _) request later
    · refine ih (current ++ [e]) ?_ request mem
      refine pairwise_append.mpr ⟨distinct, pairwise_singleton _ _, ?_⟩
      intro e' inCurrent e'' isLast same
      rw [mem_singleton.mp isLast] at same
      refine cut ?_
      have nonempty := ne_nil_of_mem inCurrent
      simp only [startsNew, and_eq_true, or_eq_true, any_eq_true, decide_eq_true_eq]
      exact ⟨by simpa using nonempty, .inl ⟨e', inCurrent, same⟩⟩

theorem entriesOf_distinct (request : List Entry)
    (distinct : request.Pairwise fun e e' => e.partition ≠ e'.partition) :
    entriesOf p request = [] ∨ ∃ e, e.partition = p ∧ entriesOf p request = [e] := by
  induction request with
  | nil => exact .inl rfl
  | cons e rest ih =>
    obtain ⟨apart, restDistinct⟩ := pairwise_cons.mp distinct
    by_cases here : e.partition = p
    · have none : entriesOf p rest = [] := by
        refine filter_eq_nil_iff.mpr fun e' mem => ?_
        have ne := apart e' mem
        simp only [decide_eq_true_eq]
        exact fun same => ne (here.trans same.symm)
      refine .inr ⟨e, here, ?_⟩
      unfold entriesOf at none ⊢
      rw [filter_cons_of_pos (by simpa using here), none]
    · unfold entriesOf at ih ⊢
      rw [filter_cons_of_neg (by simpa using here)]
      exact ih restDistinct

theorem entriesOf_filter (request : List Entry) (goes : Entry → Bool) :
    entriesOf p (request.filter goes) = (entriesOf p request).filter goes := by
  unfold entriesOf
  rw [filter_filter, filter_filter]
  refine filter_congr fun e _ => ?_
  exact and_comm _ _

/-- What became of a partition's batches: each in order, nothing sent behind a failure, and nothing sent
at all when the partition or the connection has failed before. -/
structure Served (batchAt : Nat → B) (p : Int) (entries : List Entry) (blocked : Prop)
    (delivered : List Delivered) : Prop where
  aligned : (deliveredTo p delivered).map Delivered.index = (entriesOf p entries).map Entry.index
  unsent : blocked → ∀ d ∈ deliveredTo p delivered, d.wire = false ∧ d.outcome.appended = false
  orderly : Orderly ((deliveredTo p delivered).map (Delivered.shipment batchAt))

theorem Served.of_unsent {p : Int} {entries : List Entry} {blocked : Prop} {delivered : List Delivered}
    (aligned : (deliveredTo p delivered).map Delivered.index = (entriesOf p entries).map Entry.index)
    (unsent : ∀ d ∈ deliveredTo p delivered, d.wire = false ∧ d.outcome.appended = false) :
    Served batchAt p entries blocked delivered where
  aligned := aligned
  unsent := fun _ => unsent
  orderly := by
    refine .of_unsent fun d mem => ?_
    obtain ⟨d', inDelivered, rfl⟩ := mem_map.mp mem
    exact unsent d' inDelivered

theorem served_unsent (entries : List Entry) (blocked : Prop) (fault : Sink.Fault) (why : String) :
    Served batchAt p entries blocked (entries.map fun e => .unsent e fault why) := by
  have only : deliveredTo p (entries.map fun e => Delivered.unsent e fault why) =
      (entriesOf p entries).map fun e => Delivered.unsent e fault why :=
    deliveredTo_map p _ (fun _ => rfl) entries
  refine .of_unsent ?_ ?_
  · rw [only, map_map]
    rfl
  · intro d mem
    rw [only] at mem
    obtain ⟨e, -, rfl⟩ := mem_map.mp mem
    exact ⟨rfl, rfl⟩

/-- Requests one after another: what fails in the first blocks the rest. -/
theorem Served.append {p : Int} {first second : List Entry} {blocked blocked' : Prop}
    {out rest : List Delivered} (served : Served batchAt p first blocked out)
    (later : Served batchAt p second blocked' rest)
    (stays : blocked → blocked') (stops : (∃ d ∈ deliveredTo p out, d.outcome.appended = false) → blocked') :
    Served batchAt p (first ++ second) blocked (out ++ rest) where
  aligned := by simp [served.aligned, later.aligned]
  unsent := by
    intro isBlocked d mem
    rw [deliveredTo_append] at mem
    rcases mem_append.mp mem with here | there
    · exact served.unsent isBlocked d here
    · exact later.unsent (stays isBlocked) d there
  orderly := by
    rw [deliveredTo_append, map_append]
    refine served.orderly.append later.orderly ?_
    rintro ⟨d, mem, refused⟩ d' memberRest
    obtain ⟨failed, inOut, rfl⟩ := mem_map.mp mem
    obtain ⟨unsent, inRest, rfl⟩ := mem_map.mp memberRest
    exact later.unsent (stops ⟨failed, inOut, refused⟩) unsent inRest

/-- At most one batch of a partition is in a request, so it is sent or left behind. -/
theorem deliveredTo_request (reply : Reply) (goes : Entry → Bool) (why : Entry → String) (p : Int)
    (request : List Entry) (distinct : request.Pairwise fun e e' => e.partition ≠ e'.partition) :
    (deliveredTo p (requestOutcomes cfg version reply goes why request) = [] ∧ entriesOf p request = []) ∨
      ∃ e ∈ request, e.partition = p ∧ entriesOf p request = [e] ∧
        deliveredTo p (requestOutcomes cfg version reply goes why request) =
          [if goes e then produce cfg version reply e else .unsent e .clean (why e)] := by
  have out : deliveredTo p (requestOutcomes cfg version reply goes why request) =
      ((entriesOf p request).filter fun e => !goes e).map (fun e => Delivered.unsent e .clean (why e)) ++
        ((entriesOf p request).filter goes).map (produce cfg version reply) := by
    unfold requestOutcomes
    rw [deliveredTo_append, deliveredTo_map p _ (fun _ => rfl),
      deliveredTo_map p _ (fun e => (produce_keeps cfg version reply e).1), entriesOf_filter,
      entriesOf_filter]
  rcases entriesOf_distinct p request distinct with none | ⟨e, here, one⟩
  · refine .inl ⟨?_, none⟩
    rw [out, none]
    rfl
  · have mem : e ∈ entriesOf p request := by simp [one]
    refine .inr ⟨e, (mem_filter.mp mem).1, here, one, ?_⟩
    rw [out, one]
    by_cases went : goes e = true <;> simp [went]

theorem served_request (reply : Reply) (goes : Entry → Bool) (why : Entry → String) (p : Int)
    (request : List Entry) (blocked : Prop) (distinct : request.Pairwise fun e e' => e.partition ≠ e'.partition)
    (held : blocked → ∀ e, e.partition = p → goes e = false) :
    Served batchAt p request blocked (requestOutcomes cfg version reply goes why request) := by
  rcases deliveredTo_request cfg version reply goes why p request distinct with
    ⟨nothing, none⟩ | ⟨e, -, here, one, out⟩
  · exact .of_unsent (by rw [nothing, none]; rfl) (by simp [nothing])
  · by_cases went : goes e = true
    · obtain ⟨-, index, wire⟩ := produce_keeps cfg version reply e
      rw [if_pos went] at out
      refine ⟨by simp [out, one, index], fun isBlocked => ?_, ?_⟩
      · exact absurd went (by simp [held isBlocked e here])
      · rw [out]
        cases answer : (produce cfg version reply e).outcome.appended with
        | true =>
          have shape : (produce cfg version reply e).shipment batchAt = ⟨batchAt e.index, true, true⟩ := by
            simp [shipment, index, wire, answer]
          rw [map_singleton, shape]
          exact .accepted .done
        | false => exact .stopped answer (by simp)
    · rw [if_neg went] at out
      exact .of_unsent (by rw [out, one]; rfl) (by simp [out, Delivered.unsent, Outcome.appended])

theorem served_sendRequests (link : Link) (p : Int) (requests : List (List Entry)) :
    (∀ request ∈ requests, request.Pairwise fun e e' => e.partition ≠ e'.partition) →
    ∀ (n : Nat) (failed : List Int) (finished : Option String),
      Served batchAt p requests.flatten (finished.isSome ∨ p ∈ failed)
        (sendRequests cfg version link n failed finished requests) := by
  induction requests with
  | nil =>
    intro _ n failed finished
    exact .of_unsent rfl (by simp [sendRequests, deliveredTo])
  | cons request requests ih =>
    intro distinct n failed finished
    unfold sendRequests
    generalize ended : (if (finished.isNone && link.pastDeadline n) = true then
      some "not sent: the connection's SASL session is about to end" else finished) = finished'
    have stays : finished.isSome → finished'.isSome := by
      intro isSome
      rw [← ended]
      split_ifs
      · rfl
      · exact isSome
    have held : (finished.isSome ∨ p ∈ failed) → ∀ e, e.partition = p → goesOut failed finished' e = false := by
      intro blocked e here
      unfold goesOut
      rcases blocked with above | among
      · simp [Option.isSome_iff_ne_none.mp (stays above)]
      · simp [here, among]
    have first : Served batchAt p _ _ _ := served_request cfg version (link.reply n) (goesOut failed finished')
      (behind finished') p request _
      (distinct request mem_cons_self) held
    have later := ih (fun request' mem => distinct request' (mem_cons_of_mem _ mem)) (n + 1)
    refine first.append (later _ _) ?_ ?_
    · rintro (above | among)
      · left
        have more := stays above
        split_ifs
        · rfl
        · exact more
      · right
        simp [among]
    · rintro ⟨d, mem, refused⟩
      right
      obtain ⟨inOut, here⟩ := mem_filter.mp mem
      refine mem_append_right _ (mem_map.mpr ⟨d, ?_, of_decide_eq_true here⟩)
      exact mem_filter.mpr ⟨inOut, by simp [refused]⟩

theorem served_runJob (batchAt : Nat → B) (broker : Int) (link : Link) (p : Int) (entries : List Entry) :
    Served batchAt p entries False (runJob cfg broker link entries) := by
  unfold runJob
  split
  · exact served_unsent p entries _ _ _
  · split_ifs
    · exact served_unsent p entries _ _ _
    · rename_i version _ _
      have distinct := distinct_packInto cfg.maxRequestBytes entries [] List.Pairwise.nil
      have whole := flatten_packInto cfg.maxRequestBytes entries []
      have served : Served batchAt p _ _ _ :=
        served_sendRequests cfg version link p (pack entries cfg.maxRequestBytes) distinct 0 [] none
      unfold pack at served ⊢
      rw [whole] at served
      exact ⟨served.aligned, fun none => none.elim, served.orderly⟩

/-- The unsettled batches of a partition, with their places. -/
def unsettledOf (p : Int) (parts : List (Part R × Nat)) : List (Part R × Nat) :=
  parts.filter fun u => u.1.isUnsettled && u.1.partition = p

theorem readyEntry_eq_some {m : Metadata} {encode : Nat → Option Nat} {u : Part R × Nat} {leader : Int}
    {e : Entry} (ready : readyEntry m encode u = some (leader, e)) :
    u.1.isUnsettled = true ∧ m.leader e.partition = some leader ∧ e.index = u.2 ∧
      e.partition = u.1.partition ∧ (encode u.2).isSome := by
  unfold readyEntry plan at ready
  by_cases unsettled : u.1.isUnsettled = true
  · cases led : m.leader u.1.partition with
    | none => simp [unsettled, led] at ready
    | some leader' =>
      cases encoded : encode u.2 with
      | none => simp [unsettled, led, encoded] at ready
      | some size =>
        simp only [unsettled, led, encoded] at ready
        obtain ⟨rfl, rfl⟩ := ready
        exact ⟨unsettled, led, rfl, rfl, by simp⟩
  · simp [unsettled] at ready

/-- The entries of a led partition are its unsettled batches that encode, in order. -/
theorem indices_ready (m : Metadata) (encode : Nat → Option Nat) (p : Int) (led : (m.leader p).isSome)
    (parts : List (Part R × Nat)) :
    (entriesOf p ((parts.filterMap (readyEntry m encode)).map snd)).map Entry.index =
      ((unsettledOf p parts).filter fun u => (encode u.2).isSome).map snd := by
  obtain ⟨leader, led⟩ := Option.isSome_iff_exists.mp led
  induction parts with
  | nil => rfl
  | cons u parts ih =>
    unfold entriesOf unsettledOf at ih ⊢
    by_cases here : u.1.partition = p
    · cases unsettled : u.1.isUnsettled with
      | false => simpa [readyEntry, plan, unsettled] using ih
      | true =>
        cases encoded : encode u.2 with
        | none | some size => simpa [readyEntry, plan, unsettled, here, led, encoded] using ih
    · cases ready : readyEntry m encode u with
      | none => simpa [ready, here] using ih
      | some pair =>
        obtain ⟨-, -, -, same, -⟩ := readyEntry_eq_some ready
        simpa [ready, here, same] using ih

section Deliver

variable (cfg : ProducerConfig) (m : Metadata) (input : SendInput) (parts : Parts R)

theorem deliveredTo_deliver (p leader : Int) (led : m.leader p = some leader) :
    deliveredTo p (deliver cfg m input parts) = deliveredTo p (runJob cfg leader (input.link leader)
        (((readyEntries m input.encode parts).filter fun r => r.1 = leader).map snd)) := by
  refine Grouping.filter_flatMap_groupBy fst (readyEntries m input.encode parts) leader
    (fun job => runJob cfg job.1 (input.link job.1) (job.2.map snd)) _ ?_ ?_
  · intro other ne
    have served := served_runJob cfg id other (input.link other) p
      (((readyEntries m input.encode parts).filter fun r => r.1 = other).map snd)
    have none : entriesOf p (((readyEntries m input.encode parts).filter fun r => r.1 = other).map snd)
        = [] := by
      refine filter_eq_nil_iff.mpr fun e mem => ?_
      obtain ⟨⟨leader', e'⟩, inReady, rfl⟩ := mem_map.mp mem
      obtain ⟨isReady, same⟩ := mem_filter.mp inReady
      obtain ⟨u, -, made⟩ := mem_filterMap.mp isReady
      obtain ⟨-, ledBy, -⟩ := readyEntry_eq_some made
      intro here
      rw [of_decide_eq_true here, led] at ledBy
      exact ne ((of_decide_eq_true same).symm.trans (Option.some.inj ledBy).symm)
    have aligned := served.aligned
    rw [none, map_nil, map_eq_nil_iff] at aligned
    exact aligned
  · have aligned := (served_runJob cfg id leader (input.link leader) p []).aligned
    rw [show entriesOf p [] = [] from rfl, map_nil, map_eq_nil_iff] at aligned
    exact aligned

variable {d : Delivered}

/-- Every outcome is that of a batch that was ready, on its partition. -/
theorem ready_of_mem_deliver (mem : d ∈ deliver cfg m input parts) :
    ∃ part, parts[d.index]? = some part ∧ part.partition = d.partition ∧ part.isUnsettled = true ∧
      (m.leader d.partition).isSome ∧ (input.encode d.index).isSome := by
  obtain ⟨job, inJobs, inJob⟩ := mem_flatMap.mp mem
  have grouped := Grouping.grouped_groupBy fst (readyEntries m input.encode parts)
  have aligned := (served_runJob cfg id job.1 (input.link job.1) d.partition (job.2.map snd)).aligned
  have index : d.index ∈ (entriesOf d.partition (job.2.map snd)).map Entry.index := by
    rw [← aligned]
    exact mem_map_of_mem (mem_filter.mpr ⟨inJob, by simp⟩)
  obtain ⟨e, inEntries, sameIndex⟩ := mem_map.mp index
  obtain ⟨inJobEntries, samePartition⟩ := mem_filter.mp inEntries
  obtain ⟨⟨leader, e'⟩, inGroup, rfl⟩ := mem_map.mp inJobEntries
  rw [grouped.group_eq job inJobs] at inGroup
  obtain ⟨u, inParts, made⟩ := mem_filterMap.mp (mem_filter.mp inGroup).1
  obtain ⟨unsettled, led, atIndex, onPartition, encoded⟩ := readyEntry_eq_some made
  have partition := of_decide_eq_true samePartition
  have place := mem_zipIdx_iff_getElem?.mp inParts
  rw [← atIndex, sameIndex] at place
  refine ⟨u.1, place, onPartition.symm.trans partition, unsettled, ?_, ?_⟩
  · rw [← partition, led]
    rfl
  · rw [← sameIndex, atIndex]
    exact encoded

/-- Whether a partition's unsettled batch goes to a broker. -/
def isReady (m : Metadata) (encode : Nat → Option Nat) (p : Int) (u : Part R × Nat) : Bool :=
  (m.leader p).isSome && (encode u.2).isSome

variable (p : Int)

theorem indices_deliver_led (batchAt : Nat → B) (led : (m.leader p).isSome) :
    (deliveredTo p (deliver cfg m input parts)).map Delivered.index =
        ((unsettledOf p parts.zipIdx).filter fun u => (input.encode u.2).isSome).map snd ∧
      Orderly ((deliveredTo p (deliver cfg m input parts)).map (shipment batchAt)) := by
  obtain ⟨leader, ledBy⟩ := Option.isSome_iff_exists.mp led
  have served := served_runJob cfg batchAt leader (input.link leader) p
    (((readyEntries m input.encode parts).filter fun r => r.1 = leader).map snd)
  rw [deliveredTo_deliver cfg m input parts p leader ledBy]
  refine ⟨served.aligned.trans ?_, served.orderly⟩
  rw [← indices_ready m input.encode p led parts.zipIdx]
  congr 1
  have ours : ((readyEntries m input.encode parts).filter fun r => r.2.partition = p) =
      ((readyEntries m input.encode parts).filter fun r => r.1 = leader).filter
        fun r => r.2.partition = p := by
    rw [filter_filter]
    refine filter_congr fun r mem => ?_
    obtain ⟨u, -, made⟩ := mem_filterMap.mp mem
    obtain ⟨-, ledR, -⟩ := readyEntry_eq_some made
    by_cases here : r.2.partition = p
    · rw [here, ledBy] at ledR
      simp [Option.some.inj ledR]
    · simp [here]
  unfold entriesOf
  rw [filter_map, filter_map]
  exact congrArg _ ours.symm

/-- What is delivered of a partition: its batches that are ready, in order. -/
theorem indices_deliver (batchAt : Nat → B) : (deliveredTo p (deliver cfg m input parts)).map Delivered.index =
        ((unsettledOf p parts.zipIdx).filter (isReady m input.encode p)).map snd ∧
      Orderly ((deliveredTo p (deliver cfg m input parts)).map (shipment batchAt)) := by
  unfold isReady
  by_cases led : (m.leader p).isSome = true
  · simpa [led] using indices_deliver_led cfg m input parts p batchAt led
  · have nothing : deliveredTo p (deliver cfg m input parts) = [] := by
      refine filter_eq_nil_iff.mpr fun d mem => ?_
      obtain ⟨-, -, -, -, ledD, -⟩ := ready_of_mem_deliver cfg m input parts mem
      intro here
      exact led (of_decide_eq_true here ▸ ledD)
    rw [nothing]
    exact ⟨by simp [led], .done⟩

theorem nodup_unsettledOf : ((unsettledOf p parts.zipIdx).map snd).Nodup := by
  have whole : (parts.zipIdx.map snd).Nodup := by
    rw [zipIdx_map_snd]
    exact nodup_range'
  exact whole.sublist (filter_sublist.map _)

theorem nodup_deliver : ((deliver cfg m input parts).map Delivered.index).Nodup := by
  refine pairwise_map.mpr (pairwise_iff_forall_sublist.mpr fun {d d'} both same => ?_)
  obtain ⟨part, place, onPartition, -⟩ := ready_of_mem_deliver cfg m input parts (d := d) (both.subset (by simp))
  obtain ⟨part', place', onPartition', -⟩ :=
    ready_of_mem_deliver cfg m input parts (d := d') (both.subset (by simp))
  rw [← same, place] at place'
  have partition : d'.partition = d.partition := by rw [← onPartition', ← onPartition, Option.some.inj place']
  have pair : [d, d'].Sublist (deliveredTo d.partition (deliver cfg m input parts)) := by
    have filtered := both.filter fun x => x.partition = d.partition
    simpa [deliveredTo, partition] using filtered
  have indices := pair.map Delivered.index
  rw [(indices_deliver cfg m input parts d.partition id).1] at indices
  have nodup := ((nodup_unsettledOf parts d.partition).sublist (filter_sublist.map _)).sublist indices
  simp [same] at nodup

theorem find_delivered (mem : d ∈ deliver cfg m input parts) :
    (deliver cfg m input parts).find? (·.index = d.index) = some d := by
  cases found : (deliver cfg m input parts).find? (·.index = d.index) with
  | none =>
    have absent := find?_eq_none.mp found d mem
    simp at absent
  | some d' =>
    rw [inj_on_of_nodup_map (nodup_deliver cfg m input parts) (mem_of_find?_eq_some found) mem
      (by simpa using find?_some found)]

/-- What became of the batch at a place: not sent when nothing was delivered for it. -/
def fateAt (batchAt : Nat → B) (delivered : List Delivered) (index : Nat) : Shipment B :=
  match delivered.find? (·.index = index) with
  | some d => ⟨batchAt index, d.wire, d.outcome.appended⟩
  | none => ⟨batchAt index, false, false⟩

theorem fateAt_batch (batchAt : Nat → B) (delivered : List Delivered) (index : Nat) :
    (fateAt batchAt delivered index).batch = batchAt index := by
  unfold fateAt
  split <;> rfl

theorem fateAt_delivered (mem : d ∈ deliver cfg m input parts) :
    fateAt batchAt (deliver cfg m input parts) d.index = d.shipment batchAt := by
  unfold fateAt
  rw [find_delivered cfg m input parts mem]
  rfl

theorem fateAt_unready {u : Part R × Nat} (mem : u ∈ unsettledOf p parts.zipIdx)
    (unready : isReady m input.encode p u = false) :
    (deliver cfg m input parts).find? (·.index = u.2) = none := by
  refine find?_eq_none.mpr fun d inDelivered => ?_
  simp only [decide_eq_true_eq]
  intro same
  obtain ⟨inParts, mine⟩ := mem_filter.mp mem
  simp only [and_eq_true, decide_eq_true_eq] at mine
  obtain ⟨part, place, onPartition, -, led, encoded⟩ := ready_of_mem_deliver cfg m input parts inDelivered
  rw [same, mem_zipIdx_iff_getElem?.mp inParts] at place
  have partition : d.partition = p := by rw [← onPartition, ← Option.some.inj place, mine.2]
  rw [partition] at led
  rw [same] at encoded
  unfold isReady at unready
  simp [led, encoded] at unready

/-- In every attempt no unsettled batch encodes behind one of its partition that does not. -/
def EncodesInOrder (encode : Nat → Option Nat) (parts : Parts R) : Prop :=
  parts.zipIdx.Pairwise fun u v => u.1.isUnsettled = true → v.1.isUnsettled = true →
    u.1.partition = v.1.partition → encode u.2 = none → encode v.2 = none

theorem filter_append_filter {α : Type} (q : α → Bool) (xs : List α)
    (falls : xs.Pairwise fun a b => q a = false → q b = false) :
    xs = xs.filter q ++ xs.filter fun a => !q a := by
  induction xs with
  | nil => rfl
  | cons a xs ih =>
    obtain ⟨after, rest⟩ := pairwise_cons.mp falls
    cases here : q a with
    | true => simpa [here] using ih rest
    | false =>
      have none : xs.filter q = [] := by
        refine filter_eq_nil_iff.mpr fun b mem => ?_
        simp [after b mem here]
      have all : xs.filter (fun b => !q b) = xs := by
        refine filter_eq_self.mpr fun b mem => ?_
        simp [after b mem here]
      simp [here, none, all]

theorem ready_first (ordered : EncodesInOrder input.encode parts) :
    unsettledOf p parts.zipIdx = (unsettledOf p parts.zipIdx).filter (isReady m input.encode p) ++
      (unsettledOf p parts.zipIdx).filter fun u => !isReady m input.encode p u := by
  refine filter_append_filter _ _ (pairwise_filter.mpr (ordered.imp ?_))
  intro u v falls mine mine' unready
  simp only [and_eq_true, decide_eq_true_eq] at mine mine'
  unfold isReady at unready ⊢
  by_cases led : (m.leader p).isSome = true
  · simp only [led, Bool.true_and, Option.isSome_eq_false_iff, Option.isNone_iff_eq_none] at unready ⊢
    exact falls mine.1 mine'.1 (mine.2.trans mine'.2.symm) unready
  · simp [led]

/-- A partition's unsettled batches are sent in order, and nothing behind one that failed. -/
theorem orderly_fates (ordered : EncodesInOrder input.encode parts) :
    Orderly ((unsettledOf p parts.zipIdx).map fun u => fateAt batchAt (deliver cfg m input parts) u.2) := by
  obtain ⟨aligned, orderly⟩ := indices_deliver cfg m input parts p batchAt
  rw [ready_first m input parts p ordered, map_append]
  have delivered : ((unsettledOf p parts.zipIdx).filter (isReady m input.encode p)).map
      (fun u => fateAt batchAt (deliver cfg m input parts) u.2) =
      (deliveredTo p (deliver cfg m input parts)).map (shipment batchAt) := by
    have byIndex := congrArg (map (fateAt batchAt (deliver cfg m input parts))) aligned
    rw [map_map, map_map] at byIndex
    refine byIndex.symm.trans (map_congr_left fun d mem => ?_)
    exact fateAt_delivered cfg m input parts (mem_filter.mp mem).1
  have unsent : ∀ d ∈ ((unsettledOf p parts.zipIdx).filter fun u => !isReady m input.encode p u).map
      (fun u => fateAt batchAt (deliver cfg m input parts) u.2), d.sent = false ∧ d.accepted = false := by
    intro d mem
    obtain ⟨u, inRest, rfl⟩ := mem_map.mp mem
    obtain ⟨mine, unready⟩ := mem_filter.mp inRest
    unfold fateAt
    rw [fateAt_unready cfg m input parts p mine (by simpa using unready)]
    exact ⟨rfl, rfl⟩
  rw [delivered]
  exact orderly.append (.of_unsent unsent) fun _ => unsent

end Deliver

end Logit.Kafka
