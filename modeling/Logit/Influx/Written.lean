import Logit.Influx.Offered

namespace Logit.Influx

open ByteCodec Escape List Prod Option Except
open Decimal (byte isDigit)

variable {X : Externals}

/-- The texts of doubles read back, and the double of a count is finite. -/
structure Rendering.Lawful (R : Rendering X) : Prop extends R.toFloatText.Lawful where
  counted : ∀ n, (R.ofCount n).isFinite = true

/-- A byte that a record's field key may hold. -/
def PlainByte (b : UInt8) : Prop := Bare b ∧ b ≠ byte '\r' ∧ b ≠ byte '\t' ∧ b ≠ 0

instance : DecidablePred PlainByte := fun _ => inferInstanceAs (Decidable (_ ∧ _))

/-- A key that needs no escape and may lead. -/
structure PlainKey (key : String) : Prop where
  nonempty : utf8Bytes key ≠ []
  bytes : ∀ b ∈ utf8Bytes key, PlainByte b
  other : key ≠ "time"

theorem marksBefore_none {text : Bytes} {p : UInt8 → Bool} (none : ∀ b ∈ text, b ≠ backslash) :
    marksBefore p text = false := by
  induction text with
  | nil => rfl
  | cons a text ih =>
    cases text with
    | nil => rfl
    | cons b text =>
      obtain ⟨head, tail⟩ := forall_mem_cons.mp none
      rw [marksBefore, ih tail]
      simp [head]

namespace PlainKey

variable {key : String}

theorem encodable (plain : PlainKey key) : fieldKeyEncodable (utf8Bytes key) = true := by
  have unmarked : ∀ b ∈ utf8Bytes key, b ≠ backslash := fun b mem => (plain.bytes b mem).1.1
  have last : (utf8Bytes key).getLast? ≠ some backslash :=
    fun ends => unmarked _ (mem_of_getLast? ends) rfl
  have whole : (utf8Bytes key).any breaksLine = false := by
    refine any_eq_false.mpr fun b mem => ?_
    obtain ⟨bare, notReturn, -⟩ := plain.bytes b mem
    simp [breaksLine, bare.2.2.2.2.1, notReturn]
  simp [fieldKeyEncodable, tagEncodable, plain.nonempty, whole, last, marksBefore_none unmarked]

theorem unescaped (plain : PlainKey key) : pushEscapedFieldKey key = utf8Bytes key := by
  refine escape_eq_self fun b mem => ?_
  obtain ⟨-, equals, commas, quotes, -, spaces⟩ := (plain.bytes b mem).1
  simp [fieldKeyEscapes, equals, commas, quotes, spaces]

theorem leads (plain : PlainKey key) : startsSkippable (utf8Bytes key) = false := by
  have first : ∀ b, (utf8Bytes key).head? = some b → PlainByte b :=
    fun b head => plain.bytes b (mem_of_mem_head? head)
  have notTab : (utf8Bytes key).head? ≠ some (byte '\t') := fun head => (first _ head).2.2.1 rfl
  have notNul : (utf8Bytes key).head? ≠ some 0 := fun head => (first _ head).2.2.2 rfl
  simp [startsSkippable, notTab, notNul]

end PlainKey

theorem PlainByte.digit {b : UInt8} (digit : isDigit b = true) : PlainByte b := by
  refine ⟨.digit digit, ?_⟩
  rw [← not_or, ← not_or]
  rintro (rfl | rfl | rfl)
  · exact absurd digit (by decide)
  · exact absurd digit (by decide)
  · exact absurd digit (by decide)

theorem Spelled.plain {text : Bytes} (spelled : Spelled text) :
    text ≠ [] ∧ ∀ b ∈ text, PlainByte b ∧ b ≠ byte 't' := by
  obtain ⟨sign, whole, part, rfl, sign', whole', part'⟩ := spelled
  have digits : ∀ b, isDigit b = true → PlainByte b ∧ b ≠ byte 't' := by
    refine fun b digit => ⟨.digit digit, ?_⟩
    rintro rfl
    exact absurd digit (by decide)
  obtain ⟨nonempty, wholes⟩ := bare_digits whole'
  refine ⟨by simp [nonempty], ?_⟩
  simp only [forall_mem_append]
  refine ⟨?_, fun b mem => digits b (wholes b mem), ?_⟩
  · rcases sign' with rfl | rfl
    · simp
    · simpa using (by decide : PlainByte (byte '-') ∧ byte '-' ≠ byte 't')
  · rcases part' with rfl | ⟨parts, are, rfl⟩
    · simp
    · exact forall_mem_cons.mpr ⟨by decide, fun b mem => digits b ((bare_digits are).2 b mem)⟩

theorem PlainKey.print {N : FloatText} (lawful : N.Lawful) {v : F64} (finite : v.isFinite = true) :
    PlainKey (N.print v) := by
  obtain ⟨nonempty, bytes⟩ := (lawful.spelled v finite).plain
  refine ⟨nonempty, fun b mem => (bytes b mem).1, fun same => ?_⟩
  rw [same] at bytes
  exact (bytes (byte 't') (by decide +kernel)).2 rfl

/-- What holds of the fields of a record's line, which are of one type. -/
def PlainFields (name : String) (fields : Fields) : Prop :=
  ∀ f ∈ fields, PlainKey f.1 ∧ writable f.2 = true ∧ f.2.typeName = name

theorem PlainKey.named : ∀ key ∈ ["count", "sum", "min", "max", "+Inf", "value"], PlainKey key := by
  have bytes : ∀ key ∈ ["count", "sum", "min", "max", "+Inf", "value"], utf8Bytes key ≠ [] ∧
      (∀ b ∈ utf8Bytes key, PlainByte b) ∧ key ≠ "time" := by decide +kernel
  exact fun key mem => ⟨(bytes key mem).1, (bytes key mem).2.1, (bytes key mem).2.2⟩

namespace PlainFields

variable {name : String}

theorem cons {key : String} {value : FieldValue} {fields : Fields} (plain : PlainKey key)
    (finite : writable value = true)
    (others : PlainFields value.typeName fields) : PlainFields value.typeName ((key, value) :: fields) :=
  forall_mem_cons.mpr ⟨⟨plain, finite, rfl⟩, others⟩

theorem append {fields others : Fields} (first : PlainFields name fields) (second : PlainFields name others) :
    PlainFields name (fields ++ others) := forall_mem_append.mpr ⟨first, second⟩

theorem nil : PlainFields name [] := by
  intro f mem
  cases mem

theorem optional {key : String} (plain : PlainKey key) (v : Option F64) :
    PlainFields "float" (pushOptionalFloat key v).1 := by
  cases v with
  | none => exact .nil
  | some v =>
    rw [pushOptionalFloat]
    split
    · rename_i finite
      exact .cons plain finite .nil
    · exact .nil

theorem quantiles {N : FloatText} (lawful : N.Lawful) (entries : List (F64 × Option F64)) :
    PlainFields "float" (quantileFields N entries).1 := by
  induction entries with
  | nil => exact .nil
  | cons e entries ih =>
    obtain ⟨q, value⟩ := e
    cases value with
    | none => exact ih
    | some v =>
      simp only [quantileFields]
      split
      · rename_i finite
        rw [Bool.and_eq_true] at finite
        exact .cons (.print lawful finite.1) finite.2 ih
      · exact ih

variable {R : Rendering X}

theorem bounds (lawful : R.Lawful) (entries : List Bucket) :
    PlainFields "float" (boundFields R entries).1 := by
  induction entries with
  | nil => exact .nil
  | cons e entries ih =>
    obtain ⟨bound, count⟩ := e
    simp only [boundFields]
    split
    · rename_i finite
      exact .cons (.print lawful.toLawful finite) (lawful.counted count) ih
    · exact ih

theorem summary (lawful : R.Lawful) (count : UInt64) (sum : Option F64) (entries : List (F64 × Option F64)) :
    PlainFields "float" (renderSummaryFields R count sum entries).1 := by
  have sums := PlainFields.optional (.named "sum" (by simp)) sum
  exact .cons (.named "count" (by simp)) (lawful.counted count) (.append sums (.quantiles lawful.toLawful entries))

theorem histogram (lawful : R.Lawful) (h : Histogram) : PlainFields "float" (renderHistogramFields R h).1 := by
  have sum := PlainFields.optional (.named "sum" (by simp)) h.sum
  have min := PlainFields.optional (.named "min" (by simp)) h.min
  have max := PlainFields.optional (.named "max" (by simp)) h.max
  refine .cons (.named "count" (by simp)) (lawful.counted _)
    (.append ?_ (.cons (.named "+Inf" (by simp)) (lawful.counted _) .nil))
  exact ((sum.append min).append max).append (.bounds lawful _)

/-- The fields of every kind that has a line, of which there is one at least. -/
theorem render (lawful : R.Lawful) {kind : MetricKind X} {fields : Fields} {omitted : Bool}
    (rendered : renderFields R kind = .ok (some (fields, omitted))) :
    (∃ name, PlainFields name fields) ∧ fields ≠ [] := by
  have plainValue := PlainKey.named "value" (by simp)
  have single :
      ∀ v, pushValueField v = some (fields, omitted) → (∃ name, PlainFields name fields) ∧ fields ≠ [] := by
    intro v pushed
    obtain ⟨finite, same⟩ := ite_none_right_eq_some.mp pushed
    cases same
    exact ⟨⟨_, .cons plainValue finite .nil⟩, by simp⟩
  have whole : ∀ result, (∃ name, PlainFields name result.1) ∧ result.1 ≠ [] →
    some result = some (fields, omitted) →
      (∃ name, PlainFields name fields) ∧ fields ≠ [] := by
    intro result holds same
    cases same
    exact holds
  cases kind with
  | sum s => exact single s.value (ok.inj rendered)
  | gauge v => exact single v (ok.inj rendered)
  | distribution sketch => exact whole _ ⟨⟨_, .summary lawful _ _ _⟩, cons_ne_nil _ _⟩ (ok.inj rendered)
  | samples s => exact whole _ ⟨⟨_, .summary lawful _ _ _⟩, cons_ne_nil _ _⟩ (ok.inj rendered)
  | histogram h => exact whole _ ⟨⟨_, .histogram lawful h⟩, cons_ne_nil _ _⟩ (ok.inj rendered)
  | summary s => exact whole _ ⟨⟨_, .summary lawful _ _ _⟩, cons_ne_nil _ _⟩ (ok.inj rendered)
  | set hll => exact whole _ ⟨⟨_, .cons plainValue rfl .nil⟩, cons_ne_nil _ _⟩ (ok.inj rendered)
  | setMembers _ | exponentialHistogram _ | gaugeDelta _ => cases rendered

end PlainFields

/-- What holds of the tags of a line. -/
def GoodTag (t : String × String) : Prop :=
  (utf8Bytes t.1 ≠ [] ∧ tagEncodable (utf8Bytes t.1) = true ∧ t.1 ∉ reservedTagKeys) ∧
    utf8Bytes t.2 ≠ [] ∧ tagEncodable (utf8Bytes t.2) = true

theorem utf8Bytes_ne_nil {s : String} (nonempty : s ≠ "") : utf8Bytes s ≠ [] := by
  intro none
  have back := fromUtf8_utf8Bytes s
  rw [none] at back
  exact nonempty (some.inj (back.symm.trans (fromUtf8_utf8Bytes "")))

theorem renderTag_ok {N : FloatText} {key : String} {value : RawValue X} {tag : String × String} {multi : Bool}
    (rendered : renderTag N key value = .ok (tag, multi)) : tag.1 = key ∧ GoodTag tag := by
  simp only [renderTag] at rendered
  split at rendered
  · cases rendered
  split at rendered
  · cases rendered
  rename_i some
  split at rendered
  · cases rendered
  rename_i encodable
  split at rendered
  · cases rendered
  rename_i free
  cases rendered
  rw [not_or] at some
  simp only [Bool.or_eq_true, Bool.not_eq_true', not_or, Bool.not_eq_false] at encodable
  exact ⟨rfl, ⟨utf8Bytes_ne_nil some.1, encodable.1, free⟩, utf8Bytes_ne_nil some.2, encodable.2⟩

theorem renderTagSuffix_good (N : FloatText) (entries : RawEntries X) :
    (∀ t ∈ (renderTagSuffix N entries).2, GoodTag t) ∧
      ((renderTagSuffix N entries).2.map fst).Sublist (entries.map fun e => X.resolve e.1) := by
  induction entries with
  | nil => exact ⟨by simp [renderTagSuffix], .slnil⟩
  | cons e entries ih =>
    obtain ⟨key, value⟩ := e
    simp only [renderTagSuffix]
    split
    · exact ⟨ih.1, ih.2.cons _⟩
    cases rendered : renderTag N (X.resolve key) value with
    | error counter => exact ⟨ih.1, ih.2.cons _⟩
    | ok result =>
      obtain ⟨name, good⟩ := renderTag_ok rendered
      refine ⟨forall_mem_cons.mpr ⟨good, ih.1⟩, ?_⟩
      rw [map_cons, name]
      exact ih.2.cons_cons _

theorem renderTagSuffix_distinct (N : FloatText) {entries : RawEntries X}
    (sorted : entries.Pairwise fun a b => a.1 < b.1) : ((renderTagSuffix N entries).2.map fst).Nodup := by
  refine (renderTagSuffix_good N entries).2.nodup ?_
  rw [nodup_iff_pairwise_ne, pairwise_map]
  refine sorted.imp fun below same => ?_
  have equal := congrArg X.intern same
  rw [X.intern_resolve, X.intern_resolve] at equal
  exact ne_of_lt below equal

theorem measurementOk_ok {measurement : String} {fields : Nat} (ok : measurementOk measurement fields = .ok ()) :
    (utf8Bytes measurement).head? ≠ some (byte '#') ∧ measurementEncodable (utf8Bytes measurement) = true := by
  rw [measurementOk] at ok
  split at ok
  · cases ok
  rename_i leads
  split at ok
  · cases ok
  rename_i encodable
  exact ⟨leads, by simpa using encodable⟩

theorem recordPoint_sound {R : Rendering X} (lawful : R.Lawful) {tags : Tags} (good : ∀ t ∈ tags, GoodTag t)
    (distinct : (tags.map fst).Nodup) {timestamp : Int64} {metric : MetricRecord X} {p : Point}
    (asked : recordPoint R tags timestamp metric = some p) : p.Sound := by
  rw [recordPoint] at asked
  split at asked
  · cases asked
  split at asked
  · rename_i fields omitted rendered ok
    cases asked
    obtain ⟨leads, encodable⟩ := measurementOk_ok ok
    obtain ⟨⟨name, plain⟩, nonempty⟩ := PlainFields.render lawful rendered
    obtain ⟨f, others, same⟩ := exists_cons_of_ne_nil nonempty
    refine ⟨leads, encodable, good, distinct, ?_, fun f mem => (plain f mem).2.1, f, others, same, ?_⟩
    · exact fun f mem =>
        ⟨(plain f mem).1.other, (plain f mem).1.encodable, fun _ => (plain f mem).1.unescaped⟩
    · exact (plain f (same ▸ mem_cons_self)).1.leads
  · cases asked

theorem carrierPoint_sound {tags : Tags} (good : ∀ t ∈ tags, GoodTag t) (distinct : (tags.map fst).Nodup)
    {event : Event X} {measurement : String} {p : Point}
    (asked : carrierPoint tags measurement event.timestamp (gather event measurement) = some p) : p.Sound := by
  obtain ⟨fields, -, first⟩ := carrierPoint_offered asked
  have each : ∀ f ∈ p.fields, CarrierField f := fun f mem => offered_carrier f (fields.mem_iff.mp mem)
  rw [carrierPoint] at asked
  split at asked
  · cases asked
  split at asked
  · rename_i ok
    cases asked
    obtain ⟨leads, encodable⟩ := measurementOk_ok ok
    refine ⟨leads, encodable, good, distinct, ?_, fun f mem => (each f mem).2.2, first⟩
    exact fun f mem => ⟨(each f mem).1, (each f mem).2.1, by simp⟩
  · cases asked

theorem batchPoints_sound {R : Rendering X} (lawful : R.Lawful) (batch : EventBatch X) :
    ∀ p ∈ batchPoints R batch, p.Sound := by
  intro p mem
  obtain ⟨event, -, mem⟩ := mem_flatMap.mp mem
  have good := (renderTagSuffix_good R.toFloatText (merged batch.resource event)).1
  have distinct := renderTagSuffix_distinct R.toFloatText (merged_sorted batch.resource event)
  rw [eventPoints] at mem
  cases carried : carrierMeasurement event with
  | none =>
    rw [carried] at mem
    obtain ⟨metric, -, asked⟩ := mem_filterMap.mp mem
    exact recordPoint_sound lawful good distinct asked
  | some measurement =>
    rw [carried] at mem
    rcases mem_append.mp mem with carrier | record
    · exact carrierPoint_sound good distinct (mem_toList.mp carrier)
    · obtain ⟨metric, -, asked⟩ := mem_filterMap.mp record
      obtain ⟨-, asked⟩ := ite_none_left_eq_some.mp asked
      exact recordPoint_sound lawful good distinct asked

end Logit.Influx
