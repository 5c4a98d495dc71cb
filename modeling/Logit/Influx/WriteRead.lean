import Logit.Influx.Accepted

namespace Logit.Influx

open ByteCodec List Prod

variable {X : Externals}

/-- The tag that an attribute makes, if it makes one. -/
def tagOf (N : FloatText) (e : X.Symbol × RawValue X) : Option (String × String) :=
  if isPrivate e.1 then none
  else
    match renderTag N (X.resolve e.1) e.2 with
    | .ok (tag, _) => some tag
    | .error _ => none

/-- What the attributes that are no tags, though not private, count as. -/
def tagsOmitted (N : FloatText) (entries : RawEntries X) : List Counter :=
  entries.filterMap fun e =>
    if isPrivate e.1 then none
    else
      match renderTag N (X.resolve e.1) e.2 with
      | .ok _ => none
      | .error counter => some counter

theorem renderTagSuffix_spec (N : FloatText) (entries : RawEntries X) :
    (renderTagSuffix N entries).2 = entries.filterMap (tagOf N) ∧
      tagsOmitted N entries <+ (renderTagSuffix N entries).1 := by
  induction entries with
  | nil => exact ⟨rfl, .slnil⟩
  | cons e entries ih =>
    obtain ⟨tags, counted⟩ := ih
    rw [filterMap_cons, tagsOmitted, filterMap_cons]
    simp only [renderTagSuffix, tagOf]
    cases isPrivate e.1 with
    | true => exact ⟨tags, counted⟩
    | false =>
      cases renderTag N (X.resolve e.1) e.2 with
      | error counter => exact ⟨tags, counted.cons_cons counter⟩
      | ok result =>
        obtain ⟨tag, multi⟩ := result
        refine ⟨by simp [tags], ?_⟩
        cases multi with
        | false => exact counted
        | true => exact counted.cons _

/-- What a line holds of the event it was written for, and what it counts for the fields it leaves out. -/
structure Holds (R : Rendering X) (resource : Resource X) (event : Event X) (p : Point) (omitted : List Counter) :
    Prop where
  tags : p.tags = (merged resource event).filterMap (tagOf R.toFloatText)
  carrier : p.carrier = true → carrierMeasurement event = some p.measurement ∧
    p.fields.Perm (takenFields (offered event p.measurement)) ∧ omitted = refused (offered event p.measurement)
  record : p.carrier = false → ∃ metric ∈ event.metrics, p.measurement = X.resolve metric.name ∧
    ∃ left, renderFields R metric.kind = .ok (some (p.fields, left)) ∧
      omitted = if left then [.degradedNonFiniteComponent] else []
  later : event.timestamp ≤ p.timestamp

/-- A step of the encoder for an event adds lines that hold what the event has, and counters, of which each
line has its own. -/
def Extends (R : Rendering X) (resource : Resource X) (event : Event X) (c c' : Ctx) : Prop :=
  ∃ (lines : List (Point × List Counter)) (counts : List Counter),
    c'.lines = c.lines ++ lines.map fst ∧ c'.counts = c.counts ++ counts ∧
      (∀ l ∈ lines, Holds R resource event l.1 l.2) ∧ lines.flatMap snd <+ counts

namespace Extends

variable {R : Rendering X} {resource : Resource X} {event : Event X} {c c' c'' : Ctx}

theorem refl : Extends R resource event c c := ⟨[], [], (append_nil _).symm, (append_nil _).symm, nofun, .slnil⟩

theorem trans (first : Extends R resource event c c') (second : Extends R resource event c' c'') :
    Extends R resource event c c'' := by
  obtain ⟨lines, counts, added, counted, holds, owed⟩ := first
  obtain ⟨lines', counts', added', counted', holds', owed'⟩ := second
  refine ⟨lines ++ lines', counts ++ counts', ?_, ?_, forall_mem_append.mpr ⟨holds, holds'⟩, ?_⟩
  · rw [added', added, append_assoc, map_append]
  · rw [counted', counted, append_assoc]
  · rw [flatMap_append]
    exact owed.append owed'

theorem count (counters : List Counter) : Extends R resource event c (c.count counters) :=
  ⟨[], counters, (append_nil _).symm, rfl, nofun, nil_sublist _⟩

/-- A line that may be written after some counters and before others. -/
theorem finish (good : c.page.Good R.toFloatText) {p : Point} {fields : Nat} {before after omitted : List Counter}
    (lines : c.lines = c'.lines) (counts : c.counts = c'.counts ++ before) (owed : omitted <+ before ++ after)
    (stamped : p.timestamp = event.timestamp) (holds : ∀ timestamp, event.timestamp ≤ timestamp →
      Holds R resource event { p with timestamp } omitted) : Extends R resource event c'
      (match c.finishLine R.toFloatText p fields with
        | (true, c) => c.count after
        | (false, c) => c) := by
  rw [Ctx.finishLine]
  cases found : allocateTimestamp (c.series p.series) p.timestamp with
  | none =>
    refine ⟨[], before ++ replicate fields .droppedTimestampOverflow, ?_, ?_, forall_mem_nil _, nil_sublist _⟩
    · exact lines.trans (append_nil _).symm
    · rw [← append_assoc, ← counts]
      rfl
  | some result =>
    obtain ⟨t, taken⟩ := result
    have low := (allocate_some (good.points _) found).low
    rw [stamped, ← Int64.le_iff_toInt_le] at low
    refine ⟨[({ p with timestamp := t }, omitted)], before ++ after, ?_, ?_, ?_, by simpa using owed⟩
    · exact congrArg (· ++ [{ p with timestamp := t }]) lines
    · rw [← append_assoc, ← counts]
      rfl
    · exact forall_mem_singleton.mpr (holds t low)

theorem record (good : c.page.Good R.toFloatText) {metric : MetricRecord X} (mem : metric ∈ event.metrics) :
    Extends R resource event c
      (c.encodeRecordLine R (renderTagSuffix R.toFloatText (merged resource event)).2 metric
      event.timestamp) := by
  rw [Ctx.encodeRecordLine]
  split
  · exact count _
  cases rendered : renderFields R metric.kind with
  | error skip => exact count _
  | ok result =>
    cases result with
    | none => exact count _
    | some result =>
      obtain ⟨fields, left⟩ := result
      cases measurementOk (X.resolve metric.name) 1 with
      | error counts => exact count _
      | ok _ =>
        have owed : (if left then [.degradedNonFiniteComponent] else []) <+
            [] ++ ((if left then [.degradedNonFiniteComponent] else []) ++ degraded metric.kind) :=
          sublist_append_left _ _
        refine finish good rfl (append_nil _).symm owed rfl fun timestamp later => ?_
        exact ⟨(renderTagSuffix_spec _ _).1, by simp, fun _ => ⟨metric, mem, rfl, left, rendered, rfl⟩, later⟩

theorem carrier (good : c.page.Good R.toFloatText) {measurement : String}
    (carried : carrierMeasurement event = some measurement) :
    Extends R resource event c
      (c.writeCarrier R (renderTagSuffix R.toFloatText (merged resource event)).2 measurement
      event.timestamp (gather event measurement)) := by
  rw [Ctx.writeCarrier]
  split
  · exact count _
  rename_i written
  cases ok : measurementOk measurement (gather event measurement).written with
  | error counts => exact (count _).trans (count _)
  | ok _ =>
    have asked : carrierPoint (renderTagSuffix R.toFloatText (merged resource event)).2 measurement event.timestamp
        (gather event measurement) =
          some ⟨true, measurement, (renderTagSuffix R.toFloatText (merged resource event)).2,
          (gather event measurement).fields, event.timestamp⟩ := by rw [carrierPoint, if_neg written, ok]
    obtain ⟨fields, counts, -⟩ := carrierPoint_offered asked
    have counted : (c.count (gather event measurement).counts).page.Good R.toFloatText := good
    refine finish counted rfl rfl (sublist_append_left _ _) rfl fun timestamp later => ?_
    exact ⟨(renderTagSuffix_spec _ _).1, fun _ => ⟨carried, fields, counts⟩, by simp, later⟩

/-- A fold over records of the event, each of which extends what was written. -/
theorem foldl {step : Ctx → MetricRecord X → Ctx} {asks : MetricRecord X → List Point}
    (page : ∀ c metric, (step c metric).page = (asks metric).foldl (Page.write R.toFloatText) c.page)
    (each : ∀ c, c.page.Good R.toFloatText → ∀ metric ∈ event.metrics, Extends R resource event c (step c metric))
    {metrics : List (MetricRecord X)} (among : ∀ metric ∈ metrics, metric ∈ event.metrics)
    (good : c.page.Good R.toFloatText) : Extends R resource event c (metrics.foldl step c) := by
  induction metrics generalizing c with
  | nil => exact refl
  | cons metric metrics ih =>
    obtain ⟨own, others⟩ := forall_mem_cons.mp among
    exact (each c good metric own).trans (ih others (by rw [page]; exact good.run _))

end Extends

/-- What an event came to: its lines, each with what it leaves out, and all that was counted for it, which has
each tag and each field that a line leaves out. -/
structure Wrote (R : Rendering X) (resource : Resource X) (event : Event X)
    (share : List (Point × List Counter) × List Counter) : Prop where
  holds : ∀ l ∈ share.1, Holds R resource event l.1 l.2
  counted : share.1 ≠ [] →
    tagsOmitted R.toFloatText (merged resource event) ++ share.1.flatMap snd <+ share.2

section Event

variable {R : Rendering X} {resource : Resource X} {event : Event X} {c c' : Ctx}

/-- The tags are counted before the lines. -/
theorem Extends.wrote (grown : Extends R resource event
      (c.count (renderTagSuffix R.toFloatText (merged resource event)).1) c') :
    ∃ share, c'.lines = c.lines ++ share.1.map fst ∧ c'.counts = c.counts ++ share.2 ∧
      Wrote R resource event share := by
  obtain ⟨lines, counts, added, counted, holds, owed⟩ := grown
  refine ⟨(lines, (renderTagSuffix R.toFloatText (merged resource event)).1 ++ counts), added, ?_, holds,
    fun _ => ?_⟩
  · rw [counted, ← append_assoc]
    rfl
  · exact (renderTagSuffix_spec _ _).2.append owed

theorem encodeEvent_wrote (resource : Resource X) (event : Event X) (good : c.page.Good R.toFloatText) :
    ∃ share, (c.encodeEvent R resource event).lines = c.lines ++ share.1.map fst ∧
      (c.encodeEvent R resource event).counts = c.counts ++ share.2 ∧ Wrote R resource event share := by
  have counted : (c.count (renderTagSuffix R.toFloatText (merged resource event)).1).page.Good R.toFloatText := good
  rw [Ctx.encodeEvent]
  cases carried : carrierMeasurement event with
  | none =>
    dsimp only
    split
    · exact ⟨([], [.skippedNoMetrics]), (append_nil _).symm, rfl, forall_mem_nil _, fun some => absurd rfl some⟩
    · exact (Extends.foldl (fun c metric => encodeRecordLine_page R c _ metric _)
        (fun c good metric mem => .record good mem) (fun _ => id) counted).wrote
  | some measurement =>
    refine ((Extends.carrier counted carried).trans
      (.foldl (encodeMismatch_page R _ measurement _) ?_ (fun _ => id) ?_)).wrote
    · intro c good metric mem
      rw [Ctx.encodeMismatch]
      split
      · exact .refl
      · have good : (c.count [.metricsNormalizedCarrierMismatch]).page.Good R.toFloatText := good
        exact (Extends.count [.metricsNormalizedCarrierMismatch]).trans (.record good mem)
    · rw [writeCarrier_page]
      exact Page.Good.run good _

end Event

/-- The lines and the counters of a batch are those of its events, in order. -/
theorem encode_wrote (R : Rendering X) (batch : EventBatch X) :
    ∃ shares, (encode R batch).lines = shares.flatMap (fun share => share.1.map fst) ∧
      (encode R batch).counts = shares.flatMap snd ∧ List.Forall₂ (Wrote R batch.resource) batch.events shares := by
  have run : ∀ events (c : Ctx), c.page.Good R.toFloatText →
      ∃ shares, (events.foldl (Ctx.encodeEvent R batch.resource) c).lines =
          c.lines ++ shares.flatMap (fun share => share.1.map fst) ∧
        (events.foldl (Ctx.encodeEvent R batch.resource) c).counts = c.counts ++ shares.flatMap snd ∧
        List.Forall₂ (Wrote R batch.resource) events shares := by
    intro events
    induction events with
    | nil => exact fun c _ => ⟨[], (append_nil _).symm, (append_nil _).symm, .nil⟩
    | cons event events ih =>
      intro c good
      obtain ⟨share, lines, counts, wrote⟩ := encodeEvent_wrote batch.resource event good
      obtain ⟨shares, lines', counts', all⟩ := ih (c.encodeEvent R batch.resource event) (by
        rw [encodeEvent_page]
        exact good.run _)
      refine ⟨share :: shares, ?_, ?_, .cons wrote all⟩
      · rw [foldl_cons, lines', lines, append_assoc, flatMap_cons]
      · rw [foldl_cons, counts', counts, append_assoc, flatMap_cons]
  obtain ⟨shares, lines, counts, all⟩ := run batch.events .start (Page.Good.start _)
  exact ⟨shares, lines, counts, all⟩

theorem encode_holds {R : Rendering X} {batch : EventBatch X} {p : Point} (mem : p ∈ (encode R batch).lines) :
    ∃ event ∈ batch.events, ∃ omitted, Holds R batch.resource event p omitted := by
  obtain ⟨shares, lines, -, all⟩ := encode_wrote R batch
  rw [lines] at mem
  clear lines
  generalize batch.events = events at all ⊢
  induction all with
  | nil => cases mem
  | cons wrote all ih =>
    rcases mem_append.mp mem with own | others
    · obtain ⟨l, inside, rfl⟩ := mem_map.mp own
      exact ⟨_, mem_cons_self, l.2, wrote.holds l inside⟩
    · obtain ⟨event, among, held⟩ := ih others
      exact ⟨event, mem_cons_of_mem _ among, held⟩

/-- What a line is read back as: its point, with each field key once and the value written last under it. -/
structure ReadBack (p : Point) (point : Line × Int64) : Prop where
  measurement : point.1.measurement = p.measurement
  tags : point.1.tags = sortTags p.tags
  keys : (point.1.fields.map Prod.fst).Nodup
  values : ∀ key, point.1.fields.lookup key = lastValue p.fields key
  same : p.carrier = true ∨ (p.fields.map Prod.fst).Nodup → point.1.fields = p.fields
  timestamp : point.1.timestamp = some p.timestamp ∧ point.2 = p.timestamp

/-- Fields of a record are of one type, and a carrier's are if its keys are distinct. -/
theorem Holds.oneType {R : Rendering X} (lawful : R.Lawful) {resource : Resource X} {event : Event X}
    {p : Point} {omitted : List Counter} (holds : Holds R resource event p omitted)
    (distinct : p.carrier = true → (p.fields.map fst).Nodup) : OneType p.fields := by
  cases carrier : p.carrier with
  | false =>
    obtain ⟨metric, -, -, left, rendered, -⟩ := holds.record carrier
    obtain ⟨⟨name, plain⟩, -⟩ := PlainFields.render lawful rendered
    exact fun f mem g mem' _ => ((plain f mem).2.2).trans ((plain g mem').2.2).symm
  | true =>
    intro f mem g mem' same
    rw [inj_on_of_nodup_map (distinct carrier) mem mem' same]

/-- One point is read back for each line that was written. The lines and the counters are those of the batch's
events, in order: each line holds what its event has, and each tag and field it leaves out has a counter. -/
theorem decodeBody_encode {R : Rendering X} (lawful : R.Lawful) (batch : EventBatch X) (now : Int64)
    (ranged : ∀ p ∈ (encode R batch).lines, minTimestampNs ≤ p.timestamp ∧ p.timestamp ≤ maxTimestampNs)
    (distinct : ∀ event ∈ batch.events, ∀ measurement, carrierMeasurement event = some measurement →
      ((takenFields (offered event measurement)).map Prod.fst).Nodup) :
    (∃ points, decodeBody R.toFloatText (encode R batch).buf .ns now = .ok points ∧
      List.Forall₂ ReadBack (encode R batch).lines points) ∧
    ∃ shares, (encode R batch).lines = shares.flatMap (fun share => share.1.map Prod.fst) ∧
      (encode R batch).counts = shares.flatMap Prod.snd ∧
      List.Forall₂ (Wrote R batch.resource) batch.events shares := by
  refine ⟨?_, encode_wrote R batch⟩
  have sound := encode_lines_sound lawful batch
  have carried : ∀ p ∈ (encode R batch).lines, p.carrier = true → (p.fields.map fst).Nodup := by
    intro p member carrier
    obtain ⟨event, among, omitted, held⟩ := encode_holds member
    obtain ⟨measured, fields, -⟩ := held.carrier carrier
    exact (fields.map fst).nodup_iff.mpr (distinct event among p.measurement measured)
  have each : ∀ p ∈ (encode R batch).lines, ∃ point,
      parsePoint R.toFloatText .ns (Precision.truncate .ns now) (p.text R.toFloatText) = .ok (some point) ∧
        ReadBack p point := by
    intro p member
    obtain ⟨event, -, omitted, held⟩ := encode_holds member
    obtain ⟨fields, taken⟩ := (pushAll_nil_isOk p).mpr (held.oneType lawful (carried p member))
    obtain ⟨keys, values⟩ := pushAll_ok taken nodup_nil
    refine ⟨_, parsePoint_text lawful.toLawful (sound p member) _ taken (ranged p member), rfl, rfl, keys, ?_,
      ?_, rfl, rfl⟩
    · intro key
      rw [values key]
      exact Option.or_none
    · intro known
      have once := known.elim (carried p member) id
      exact Except.ok.inj (taken.symm.trans (pushAll_distinct once))
  obtain ⟨points, parsed, all⟩ := parsePoints_each each 1
  refine ⟨points, ?_, all⟩
  rw [decodeBody, lines_encode lawful]
  exact parsed

/-- An integer field and a string field that needs escapes. -/
theorem decodeBody_encode_sample : ∃ points, decodeBody Rendering.sample.toFloatText
        (encode .sample (carrierBatch 7 [("m.a b", .gauge (.i64 1))] [("g", "x\"y\\z\n")])).buf .ns 0 = .ok points ∧
      points.length = 1 := by
  obtain ⟨⟨points, decoded, all⟩, -⟩ := decodeBody_encode Rendering.sample_lawful
    (carrierBatch 7 [("m.a b", .gauge (.i64 1))] [("g", "x\"y\\z\n")]) 0 (by decide +kernel) (by
      have carries : ∀ event ∈ (carrierBatch 7 [("m.a b", .gauge (.i64 1))] [("g", "x\"y\\z\n")]).events,
          carrierMeasurement event = some "m" ∧ ((takenFields (offered event "m")).map fst).Nodup := by
            decide +kernel
      intro event member measurement carried
      obtain ⟨measured, once⟩ := carries event member
      cases measured.symm.trans carried
      exact once)
  refine ⟨points, decoded, all.length_eq.symm.trans ?_⟩
  decide +kernel

/-- Two values for one quantile of a summary are two fields of one key: the later one is read back, and
nothing counts the other. -/
theorem repeated_quantile_merged :
    let half : F64 := ⟨0x3fe0000000000000⟩
    let one : F64 := ⟨0x3ff0000000000000⟩
    let two : F64 := ⟨0x4000000000000000⟩
    let three : F64 := ⟨0x4008000000000000⟩
    let batch := carrierBatch 7 [("s", .summary ⟨[(half, one), (half, two)], 2, three, .delta⟩)] []
    (encode .sample batch).lines.map Point.fields =
        [[("count", .f64 two), ("sum", .f64 three), ("0.5", .f64 one), ("0.5", .f64 two)]] ∧
      (encode .sample batch).buf = utf8Bytes "s count=2,sum=3,0.5=1,0.5=2 7\n" ∧
      (decodeBody Rendering.sample.toFloatText (encode .sample batch).buf .ns 0).map (·.map (·.1.fields)) =
        .ok [[("count", .f64 two), ("sum", .f64 three), ("0.5", .f64 two)]] ∧
      (encode .sample batch).counts = [.metricsNormalizedCarrierMismatch, .degradedSummary] := by decide +kernel

end Logit.Influx
