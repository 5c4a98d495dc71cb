import Logit.Influx.Splitting

namespace Logit.Influx

open ByteCodec Escape List
open Decimal (byte isDigit)

/-- Decimal text: a sign or none, digits, and more digits after a point or none. -/
def Spelled (text : Bytes) : Prop :=
  ∃ sign whole part, text = sign ++ (whole ++ part) ∧ (sign = [] ∨ sign = [byte '-']) ∧ isDigits whole = true ∧
    (part = [] ∨ ∃ digits, isDigits digits = true ∧ part = byte '.' :: digits)

/-- The printed text of a finite double has no exponent and reads back. -/
structure FloatText.Lawful (N : FloatText) : Prop where
  spelled : ∀ v : F64, v.isFinite = true → Spelled (utf8Bytes (N.print v))
  parsed : ∀ v : F64, v.isFinite = true → N.parse (utf8Bytes (N.print v)) = some v

/-- A digit, or a byte of the few others that stand in an unquoted value. -/
def Bare (b : UInt8) : Prop := b ≠ backslash ∧ b ≠ equal ∧ b ≠ comma ∧ b ≠ quote ∧ b ≠ newline ∧ b ≠ space

instance : DecidablePred Bare := fun _ => inferInstanceAs (Decidable (_ ∧ _))

theorem Bare.digit {b : UInt8} (digit : isDigit b = true) : Bare b := by
  simp only [isDigit, Bool.and_eq_true, decide_eq_true_eq] at digit
  have ends : ∀ c, (c < byte '0' ∨ byte '9' < c) → b ≠ c := by
    rintro c outside rfl
    rcases outside with low | high
    · exact absurd digit.1 (UInt8.not_le.mpr low)
    · exact absurd digit.2 (UInt8.not_le.mpr high)
  exact ⟨ends _ (by decide), ends _ (by decide), ends _ (by decide), ends _ (by decide), ends _ (by decide),
    ends _ (by decide)⟩

variable {text : Bytes}

theorem bare_digits (digits : isDigits text = true) : text ≠ [] ∧ ∀ b ∈ text, isDigit b = true := by
  simpa [isDigits] using digits

theorem Spelled.bare (spelled : Spelled text) : ∀ b ∈ text, Bare b := by
  obtain ⟨sign, whole, part, rfl, sign', whole', part'⟩ := spelled
  simp only [forall_mem_append]
  refine ⟨?_, fun b mem => .digit ((bare_digits whole').2 b mem), ?_⟩
  · rcases sign' with rfl | rfl
    · simp
    · simpa using (by decide : Bare (byte '-'))
  · rcases part' with rfl | ⟨digits, some, rfl⟩
    · simp
    · exact forall_mem_cons.mpr ⟨by decide, fun b mem => .digit ((bare_digits some).2 b mem)⟩

theorem bare_print {n : Nat} : ∀ b ∈ Decimal.print n, Bare b :=
  fun _ mem => .digit (Decimal.isDigit_of_mem_print mem)

theorem bare_printInt {z : Int} : ∀ b ∈ Decimal.printInt z, Bare b := by
  rw [Decimal.printInt]
  split
  · exact forall_mem_cons.mpr ⟨by decide, bare_print⟩
  · exact bare_print

/-- What the encoder ensures of a line it writes. -/
structure Point.Sound (p : Point) : Prop where
  leads : (utf8Bytes p.measurement).head? ≠ some (byte '#')
  measurement : measurementEncodable (utf8Bytes p.measurement) = true
  tags : ∀ t ∈ p.tags, (utf8Bytes t.1 ≠ [] ∧ tagEncodable (utf8Bytes t.1) = true ∧ t.1 ∉ reservedTagKeys) ∧
    utf8Bytes t.2 ≠ [] ∧ tagEncodable (utf8Bytes t.2) = true
  distinct : (p.tags.map Prod.fst).Nodup
  keys : ∀ f ∈ p.fields, f.1 ≠ "time" ∧ fieldKeyEncodable (utf8Bytes f.1) = true ∧
    (p.carrier = false → pushEscapedFieldKey f.1 = utf8Bytes f.1)
  values : ∀ f ∈ p.fields, writable f.2 = true
  first : ∃ f others, p.fields = f :: others ∧ startsSkippable (utf8Bytes f.1) = false

theorem marksBefore_isChain {some : UInt8 → Bool} (none : marksBefore some text = false) :
    text.IsChain fun a b => ¬(a = backslash ∧ some b = true) := by
  induction text with
  | nil => exact .nil
  | cons a text ih =>
    cases text with
    | nil => exact .singleton a
    | cons b text =>
      rw [marksBefore, Bool.or_eq_false_iff, Bool.and_eq_false_iff] at none
      refine .cons_cons ?_ (ih none.2)
      rintro ⟨mark, is⟩
      rcases none.1 with other | not
      · exact (by simpa using other : a ≠ backslash) mark
      · rw [is] at not
        cases not

theorem tagEncodable_iff (encodable : tagEncodable text = true) :
    (∀ b ∈ text, b ≠ newline) ∧ text.getLast? ≠ some backslash ∧ marksBefore (· == space) text = false := by
  simp only [tagEncodable, Bool.and_eq_true, Bool.not_eq_true', decide_eq_true_eq] at encodable
  obtain ⟨⟨breaks, last⟩, marks⟩ := encodable
  refine ⟨fun b mem same => ?_, last, marks⟩
  have not := any_eq_false.mp breaks b mem
  rw [same] at not
  exact not (by decide)

theorem measurementEncodable_iff (encodable : measurementEncodable text = true) :
    text ≠ [] ∧ startsSkippable text = false ∧ (∀ b ∈ text, b ≠ newline) ∧ text.getLast? ≠ some backslash ∧
      marksBefore keyEscapes text = false := by
  simp only [measurementEncodable, Bool.and_eq_true, Bool.not_eq_true', decide_eq_true_eq] at encodable
  obtain ⟨⟨⟨⟨some, skips⟩, breaks⟩, last⟩, marks⟩ := encodable
  refine ⟨some, skips, fun b mem same => ?_, last, marks⟩
  have not := any_eq_false.mp breaks b mem
  rw [same] at not
  exact not (by decide)

theorem fieldKeyEncodable_iff (encodable : fieldKeyEncodable text = true) :
    text ≠ [] ∧ tagEncodable text = true ∧ marksBefore fieldKeyEscapes text = false := by
  simp only [fieldKeyEncodable, Bool.and_eq_true, Bool.not_eq_true', decide_eq_true_eq] at encodable
  exact ⟨encodable.1.1, encodable.1.2, encodable.2⟩

theorem special_bytes : (∀ b, endsName b = true ↔ b = comma ∨ b = space) ∧
    (∀ b, keyEscapes b = true ↔ b = comma ∨ b = equal ∨ b = space) ∧
    (∀ b, fieldKeyEscapes b = true ↔ b = comma ∨ b = equal ∨ b = space ∨ b = quote) ∧
    (∀ b, endsKey b = true ↔ b = equal ∨ b = comma ∨ b = space) ∧
    ∀ b, stringEscapes b = true ↔ b = backslash ∨ b = quote := by
  refine ⟨?_, ?_, ?_, ?_, ?_⟩ <;> intro b <;>
    simp [endsName, keyEscapes, fieldKeyEscapes, endsKey, stringEscapes, or_assoc]

theorem passes_measurement (encodable : measurementEncodable text = true) :
    Passes .start (escape backslash endsName text) .start := by
  obtain ⟨-, -, breaks, last, marks⟩ := measurementEncodable_iff encodable
  refine .escaped (by decide) ?_ ?_ last
  · intro b mem plain _
    refine step_start ?_ (breaks b mem)
    rintro rfl
    cases plain
  · refine (marksBefore_isChain marks).imp fun {a b} apart mark special => ?_
    refine absurd ⟨mark, ?_⟩ apart
    rw [special_bytes.2.1]
    rw [special_bytes.1] at special
    tauto

theorem passes_tag (encodable : tagEncodable text = true) :
    Passes .start (escape backslash keyEscapes text) .start := by
  obtain ⟨breaks, last, marks⟩ := tagEncodable_iff encodable
  refine .escaped (by decide) ?_ ?_ last
  · intro b mem plain _
    refine step_start ?_ (breaks b mem)
    rintro rfl
    cases plain
  · -- a comma or an equals sign read alone is nothing to the splitter here
    refine (marksBefore_isChain marks).imp fun {a b} apart mark special => ?_
    have notSpace : b ≠ space := by
      rintro rfl
      exact apart ⟨mark, by decide⟩
    refine step_start notSpace ?_
    rintro rfl
    cases special

variable {s : Split} {N : FloatText}

theorem passes_fieldKey (inFields : s.fields = true) (encodable : fieldKeyEncodable text = true) :
    Passes s (escape backslash fieldKeyEscapes text) s := by
  obtain ⟨-, tag, marks⟩ := fieldKeyEncodable_iff encodable
  obtain ⟨breaks, last, -⟩ := tagEncodable_iff tag
  refine .escaped (by decide) ?_ ?_ last
  · intro b mem plain _
    refine step_plain inFields ⟨?_, ?_, ?_, breaks b mem⟩ <;> rintro rfl <;> cases plain
  · exact (marksBefore_isChain marks).imp fun {a b} apart mark special => absurd ⟨mark, special⟩ apart

theorem passes_bare (inFields : s.fields = true) (bare : ∀ b ∈ text, Bare b) : Passes s text s := by
  refine .still fun b mem => ?_
  obtain ⟨mark, isEqual, isComma, isQuote, isNewline, -⟩ := bare b mem
  exact ⟨mark, step_plain inFields ⟨isEqual, isComma, isQuote, isNewline⟩⟩

theorem passes_quoted (inFields : s.fields = true) (bare : s.quoted = false) (owed : s.commas < s.equals)
    (text : String) : Passes s (pushQuoted text) s := by
  have inside : Passes { s with quoted := true } (escape backslash stringEscapes (utf8Bytes text))
      { s with quoted := true } := by
    refine .escaped_marks (by decide) fun b _ plain => step_quoted inFields rfl ?_
    rintro rfl
    cases plain
  have opens : s.step quote = some { s with quoted := true } := by
    rw [step_quote inFields owed, bare]
    rfl
  have closes : Split.step { s with quoted := true } quote = some s := by
    rw [step_quote (s := { s with quoted := true }) inFields owed]
    cases s
    cases bare
    rfl
  refine .cons (by decide) opens (inside.append ?_)
  exact .step (by decide) closes

theorem bare_push (lawful : N.Lawful) {value : FieldValue} (finite : writable value = true)
    (unquoted : ∀ v, value ≠ .str v) : ∀ b ∈ pushValue N value, Bare b := by
  cases value with
  | f64 v => exact (lawful.spelled v finite).bare
  | i64 v => exact forall_mem_append.mpr ⟨bare_printInt, forall_mem_singleton.mpr (by decide)⟩
  | u64 v => exact forall_mem_append.mpr ⟨bare_print, forall_mem_singleton.mpr (by decide)⟩
  | bool v =>
    have words : ∀ v : Bool, ∀ b ∈ utf8Bytes (if v then "true" else "false"), Bare b := by decide +kernel
    exact words v
  | str v => exact absurd rfl (unquoted v)

theorem passes_value (lawful : N.Lawful) (inFields : s.fields = true) (bare : s.quoted = false)
    (owed : s.commas < s.equals) {value : FieldValue} (finite : writable value = true) :
    Passes s (pushValue N value) s := by
  cases value with
  | str v => exact passes_quoted inFields bare owed v
  | _ => exact passes_bare inFields (bare_push lawful finite (by simp))

def carrierText (N : FloatText) (f : String × FieldValue) : Bytes :=
  pushEscapedFieldKey f.1 ++ equal :: pushValue N f.2

theorem fieldText_eq {p : Point} (sound : p.Sound) {f : String × FieldValue} (mem : f ∈ p.fields) :
    p.fieldText N f = carrierText N f := by
  rw [Point.fieldText, carrierText]
  cases way : p.carrier with
  | true => rfl
  | false => rw [(sound.keys f mem).2.2 way]; rfl

/-- After `n` fields, each with its comma. -/
def afterFields (n : Nat) : Split := ⟨false, true, n, n⟩

theorem passes_field (lawful : N.Lawful) {n : Nat} {f : String × FieldValue}
    (encodable : fieldKeyEncodable (utf8Bytes f.1) = true) (finite : writable f.2 = true) :
    Passes (afterFields n) (carrierText N f) ⟨false, true, n + 1, n⟩ := by
  refine (passes_fieldKey rfl encodable).append (.cons (by decide) (step_equal rfl rfl) ?_)
  exact passes_value lawful rfl rfl (Nat.lt_succ_self n) finite

theorem passes_fields {texts : List Bytes} {f : Bytes} {n : Nat}
    (each : ∀ text ∈ f :: texts, ∀ n, Passes (afterFields n) text ⟨false, true, n + 1, n⟩) :
    ∃ m, Passes (afterFields n) ([comma].intercalate (f :: texts)) ⟨false, true, m + 1, m⟩ := by
  induction texts generalizing f n with
  | nil =>
    refine ⟨n, ?_⟩
    rw [intercalate_singleton]
    exact each f (by simp) n
  | cons g texts ih =>
    obtain ⟨first, others⟩ := forall_mem_cons.mp each
    obtain ⟨m, rest⟩ := @ih g (n + 1) others
    refine ⟨m, ?_⟩
    rw [intercalate_cons_cons]
    exact ((first n).append (.step (by decide) (step_comma rfl rfl))).append rest

theorem passes_tags {tags : Tags}
    (sound : ∀ t ∈ tags, tagEncodable (utf8Bytes t.1) = true ∧ tagEncodable (utf8Bytes t.2) = true) :
    Passes .start (tags.flatMap fun t => comma :: (pushEscapedKey t.1 ++ equal :: pushEscapedKey t.2)) .start := by
  induction tags with
  | nil => exact .nil _
  | cons t tags ih =>
    obtain ⟨⟨key, value⟩, others⟩ := forall_mem_cons.mp sound
    refine Passes.append ?_ (ih others)
    refine .cons (by decide) (step_start (by decide) (by decide)) ((passes_tag key).append ?_)
    exact .cons (by decide) (step_start (by decide) (by decide)) (passes_tag value)

theorem passes_text (lawful : N.Lawful) {p : Point} (sound : p.Sound) :
    ∃ n, Passes .start (p.text N) ⟨false, true, n + 1, n⟩ := by
  obtain ⟨f, others, fields, -⟩ := sound.first
  have texts : ∀ text ∈ p.fields.map (p.fieldText N), ∀ n, Passes (afterFields n) text ⟨false, true, n + 1, n⟩ := by
    intro text mem n
    obtain ⟨g, inside, rfl⟩ := mem_map.mp mem
    rw [fieldText_eq sound inside]
    exact passes_field lawful (sound.keys g inside).2.1 (sound.values g inside)
  rw [fields] at texts
  obtain ⟨n, body⟩ := passes_fields texts
  refine ⟨n, ?_⟩
  have series : Passes .start p.series .start := (passes_measurement sound.measurement).append
      (passes_tags fun t mem => ⟨(sound.tags t mem).1.2.1, (sound.tags t mem).2.2⟩)
  refine series.append (.cons (by decide) (step_space _) ?_)
  rw [Point.fieldsText, fields]
  refine body.append (.cons (by decide) (step_space _) ?_)
  exact passes_bare rfl bare_printInt

theorem linesOf_body (lawful : N.Lawful) {points : List Point} (sound : ∀ p ∈ points, p.Sound) {n : Nat}
    (enough : points.length ≤ n) :
    linesOf n (points.flatMap fun p => p.text N ++ [newline]) = points.map (Point.text N) := by
  induction points generalizing n with
  | nil => cases n <;> rfl
  | cons p points ih =>
    obtain ⟨first, others⟩ := forall_mem_cons.mp sound
    obtain ⟨n, rfl⟩ : ∃ m, n = m + 1 := ⟨n - 1, by simp only [length_cons] at enough; omega⟩
    obtain ⟨m, passes⟩ := passes_text lawful first
    have rest := ih others (by simpa using enough)
    have split : lineEnd .start ((p :: points).flatMap fun p => p.text N ++ [newline]) =
        (p.text N, some (points.flatMap fun p => p.text N ++ [newline])) := by
      rw [flatMap_cons, append_assoc, passes _ (by simp), singleton_append, lineEnd_newline rfl, append_nil]
    rw [linesOf.eq_3 _ _ (by simp), split]
    simp [rest]

theorem lines_body (lawful : N.Lawful) {points : List Point} (sound : ∀ p ∈ points, p.Sound) :
    lines (points.flatMap fun p => p.text N ++ [newline]) = points.map (Point.text N) := by
  refine linesOf_body lawful sound ?_
  rw [length_flatMap]
  induction points with
  | nil => simp
  | cons p points ih =>
    have rest := ih (forall_mem_cons.mp sound).2
    simp only [length_cons, map_cons, sum_cons, length_append] at rest ⊢
    omega

end Logit.Influx
