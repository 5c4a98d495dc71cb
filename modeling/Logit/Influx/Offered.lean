import Logit.Influx.Requests
import Logit.Influx.Sound

namespace Logit.Influx

open ByteCodec List Option

variable {X : Externals}

/-- A field that an event offers to its carrier line, or what it counts as refused. -/
abbrev Offer := Except Counter (String × FieldValue)

/-- What a metric offers; nothing where it is not a field of the line. -/
def offeredMetric (measurement : String) (metric : MetricRecord X) : Option Offer :=
  if isNoRecordedValue metric then some (.error .skippedNoRecordedValue)
  else
    (carrierField metric measurement).map fun (key, value) => do
      fieldKeyOk key
      if writable (typed value) then .ok (key, typed value) else .error .droppedUnencodableValue

/-- What an attribute offers; nothing where it is not a string field. -/
def offeredText (e : X.Symbol × RawValue X) : Option Offer :=
  match stripPrefix fieldPrefix (X.resolve e.1), e.2 with
  | some key, .str text => some do
    fieldKeyOk key
    if maxFieldValueBytes < (utf8Bytes text).length then .error .droppedOversizeValue else .ok (key, .str text)
  | _, _ => none

def offered (event : Event X) (measurement : String) : List Offer :=
  event.metrics.filterMap (offeredMetric measurement) ++ event.attributes.entries.filterMap offeredText

def takenFields (offers : List Offer) : Fields := offers.filterMap fun
    | .ok f => some f
    | .error _ => none

def refused (offers : List Offer) : List Counter := offers.filterMap fun
    | .ok _ => none
    | .error counter => some counter

/-- A key and a value that the encoder lets into a carrier line. -/
def CarrierField (f : String × FieldValue) : Prop :=
  f.1 ≠ "time" ∧ fieldKeyEncodable (utf8Bytes f.1) = true ∧ writable f.2 = true

theorem fieldKeyOk_ok {key : String} {value : Offer} {f : String × FieldValue}
    (ok : (fieldKeyOk key >>= fun _ => value) = .ok f) :
    key ≠ "time" ∧ fieldKeyEncodable (utf8Bytes key) = true ∧ value = .ok f := by
  rw [fieldKeyOk] at ok
  split at ok
  · cases ok
  rename_i other
  split at ok
  · cases ok
  rename_i encodable
  exact ⟨other, by simpa using encodable, ok⟩

theorem offered_carrier {event : Event X} {measurement : String} :
    ∀ f ∈ takenFields (offered event measurement), CarrierField f := by
  intro f taken
  obtain ⟨offer, given, is⟩ := mem_filterMap.mp taken
  cases offer with
  | error counter => cases is
  | ok f =>
    cases is
    rcases mem_append.mp given with given | given
    · obtain ⟨metric, -, offers⟩ := mem_filterMap.mp given
      rw [offeredMetric] at offers
      split at offers
      · cases offers
      obtain ⟨⟨key, value⟩, -, offers⟩ := map_eq_some_iff.mp offers
      obtain ⟨other, encodable, offers⟩ := fieldKeyOk_ok offers
      split at offers
      · rename_i finite
        cases offers
        exact ⟨other, encodable, finite⟩
      · cases offers
    · obtain ⟨e, -, offers⟩ := mem_filterMap.mp given
      rw [offeredText] at offers
      split at offers
      · obtain ⟨other, encodable, offers⟩ := fieldKeyOk_ok (some.inj offers)
        split at offers
        · cases offers
        · cases offers
          exact ⟨other, encodable, rfl⟩
      · cases offers

/-- The gathered fields are those offered, in line or held until one may lead, and each refusal is counted. -/
structure Gathered.Holds (g : Gathered) (offers : List Offer) : Prop where
  fields : (g.fields ++ g.deferred).Perm (takenFields offers)
  counts : g.counts = refused offers
  held : g.fields ≠ [] → g.deferred = []
  first : ∀ f others, g.fields = f :: others → startsSkippable (utf8Bytes f.1) = false
  written : g.written = g.fields.length + g.deferred.length

namespace Gathered.Holds

variable {g : Gathered} {offers : List Offer}

theorem taken (holds : g.Holds offers) (f : String × FieldValue) :
    (g.pushCarrierField f.1 f.2).Holds (offers ++ [.ok f]) := by
  have more : takenFields (offers ++ [.ok f]) = takenFields offers ++ [f] := filterMap_append
  have same : refused (offers ++ [.ok f]) = refused offers := by
    rw [refused, filterMap_append]
    exact append_nil _
  have fields := holds.fields
  have written := holds.written
  rw [pushCarrierField]
  split
  · rename_i empty
    have none := isEmpty_iff.mp empty
    rw [none] at fields
    rw [none, length_nil] at written
    split
    · refine ⟨?_, holds.counts.trans same.symm, fun some => absurd none some, holds.first, ?_⟩
      · rw [more, none]
        exact fields.append_right [f]
      · simp only [none, length_append, length_nil, length_singleton]
        omega
    · rename_i leads
      refine ⟨?_, holds.counts.trans same.symm, fun _ => rfl, fun g others same => ?_, ?_⟩
      · rw [more, append_nil]
        exact (fields.cons f).trans (perm_append_singleton f _).symm
      · cases same
        simpa using leads
      · simp only [length_cons, length_nil]
        omega
  · rename_i nonempty
    obtain ⟨first, others, shape⟩ := exists_cons_of_ne_nil (by simpa using nonempty)
    have none := holds.held (by simp [shape])
    rw [none, append_nil] at fields
    refine ⟨?_, holds.counts.trans same.symm, fun _ => none, fun g later same => ?_, ?_⟩
    · rw [more, none, append_nil]
      exact fields.append_right [f]
    · rw [shape] at same
      cases same
      exact holds.first _ _ shape
    · simp only [length_append, length_singleton]
      omega

theorem refuse (holds : g.Holds offers) (counter : Counter) :
    ({ g with counts := g.counts ++ [counter] } : Gathered).Holds (offers ++ [.error counter]) := by
  refine ⟨?_, ?_, holds.held, holds.first, holds.written⟩
  · have same : takenFields (offers ++ [.error counter]) = takenFields offers := by
      rw [takenFields, filterMap_append]
      exact append_nil _
    rw [same]
    exact holds.fields
  · rw [refused, filterMap_append, ← refused, ← holds.counts]
    rfl

theorem metric (holds : g.Holds offers) (measurement : String) (metric : MetricRecord X) :
    (g.pushMetric measurement metric).Holds (offers ++ (offeredMetric measurement metric).toList) := by
  rw [pushMetric, offeredMetric]
  split
  · exact holds.refuse _
  cases found : carrierField metric measurement with
  | none =>
    simp only [map_none, toList_none, append_nil]
    exact holds
  | some field =>
    obtain ⟨key, value⟩ := field
    simp only [map_some]
    cases ok : fieldKeyOk key with
    | error counter => exact holds.refuse counter
    | ok _ =>
      cases finite : writable (typed value) with
      | false => exact holds.refuse _
      | true =>
        have pushed := holds.taken (key, typed value)
        simp only [Bool.not_true, Bool.false_eq_true, if_false]
        split
        · exact { pushed with }
        · exact pushed

theorem text (holds : g.Holds offers) (e : X.Symbol × RawValue X) :
    (g.pushAttribute e).Holds (offers ++ (offeredText e).toList) := by
  obtain ⟨symbol, value⟩ := e
  have absent : g.Holds (offers ++ none.toList) := by rwa [toList_none, append_nil]
  cases stripped : stripPrefix fieldPrefix (X.resolve symbol) with
  | none => simpa only [pushAttribute, offeredText, stripped] using absent
  | some key =>
    cases value with
    | str text =>
      simp only [pushAttribute, offeredText, stripped]
      cases ok : fieldKeyOk key with
      | error counter => exact holds.refuse counter
      | ok _ =>
        simp only
        split
        · exact holds.refuse _
        · exact holds.taken (key, .str text)
    | _ => simpa only [pushAttribute, offeredText, stripped] using absent

theorem foldl {α : Type*} {step : Gathered → α → Gathered} {offer : α → Option Offer}
    (each : ∀ {g : Gathered} {offers : List Offer}, g.Holds offers → ∀ a,
      (step g a).Holds (offers ++ (offer a).toList))
    (holds : g.Holds offers) (elements : List α) :
    (elements.foldl step g).Holds (offers ++ elements.filterMap offer) := by
  induction elements generalizing g offers with
  | nil =>
    rw [filterMap_nil, append_nil]
    exact holds
  | cons a elements ih =>
    have rest := ih (each holds a)
    rw [filterMap_eq_flatMap, flatMap_cons, ← filterMap_eq_flatMap, ← append_assoc]
    exact rest

/-- Once gathered, the fields of a line that is written are those its event offers, and the first may lead. -/
theorem close (holds : g.Holds offers) (some : g.close.written ≠ 0) :
    g.close.fields.Perm (takenFields offers) ∧ g.close.counts = refused offers ∧
      ∃ f others, g.close.fields = f :: others ∧ startsSkippable (utf8Bytes f.1) = false := by
  have fields := holds.fields
  rw [Gathered.close] at some ⊢
  split at some
  · exact absurd rfl some
  · rename_i notHeld
    rw [if_neg notHeld]
    cases shape : g.fields with
    | nil =>
      rw [holds.written, shape] at some
      simp [shape] at notHeld
      simp [notHeld] at some
    | cons f others =>
      rw [holds.held (by simp [shape]), append_nil] at fields
      exact ⟨shape ▸ fields, holds.counts, f, others, rfl, holds.first f others shape⟩

end Gathered.Holds

/-- The line of a carrier event has the fields the event offers, in some order. -/
theorem carrierPoint_offered {tags : Tags} {event : Event X} {measurement : String} {p : Point}
    (asked : carrierPoint tags measurement event.timestamp (gather event measurement) = some p) :
    p.fields.Perm (takenFields (offered event measurement)) ∧
      (gather event measurement).counts = refused (offered event measurement) ∧
      ∃ f others, p.fields = f :: others ∧ startsSkippable (utf8Bytes f.1) = false := by
  have start : Gathered.start.Holds [] := ⟨.nil, rfl, fun _ => rfl, nofun, rfl⟩
  have metrics := Gathered.Holds.foldl (fun holds metric => holds.metric measurement metric) start event.metrics
  have holds := Gathered.Holds.foldl (fun holds e => holds.text e) metrics event.attributes.entries
  rw [carrierPoint] at asked
  split at asked
  · cases asked
  rename_i some
  split at asked
  · cases asked
    exact holds.close some
  · cases asked

end Logit.Influx
