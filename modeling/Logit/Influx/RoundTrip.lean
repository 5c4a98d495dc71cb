import Logit.Influx.Sound

namespace Logit.Influx

open ByteCodec Escape List Prod Int64
open Decimal (byte isDigit)

theorem unescapeKey_escape {special known : UInt8 → Bool} (knows : ∀ b, special b = true → known b = true)
    (free : known backslash = false) {text : String} {what : String}
    (apart : (utf8Bytes text).IsChain fun a b => ¬(a = backslash ∧ known b = true ∧ special b = false)) :
    unescapeKey (escape backslash special (utf8Bytes text)) known what = .ok text := by
  rw [unescapeKey, unescape_escape knows free apart, fromUtf8_utf8Bytes]

theorem unescapeKey_same {special : UInt8 → Bool} (free : special backslash = false) (text what : String) :
    unescapeKey (escape backslash special (utf8Bytes text)) special what = .ok text := by
  refine unescapeKey_escape (fun _ is => is) free ?_
  refine List.Pairwise.isChain (pairwise_of_forall fun a b => ?_)
  rintro ⟨-, yes, no⟩
  rw [yes] at no
  cases no

theorem scanUntil_tail {stop : UInt8 → Bool} {first : UInt8} {text raw rest : Bytes} {last : UInt8}
    (past : stop first = false) (scan : scanUntil backslash stop last (first :: text) = (first :: raw, rest)) :
    scanUntil backslash stop first text = (raw, rest) := by
  rw [scanUntil_past (by simp [past])] at scan
  obtain ⟨same, after⟩ := mk.inj scan
  exact Prod.ext (cons.inj same).2 after

theorem span_ends {goes : UInt8 → Bool} {text rest : Bytes} (inside : ∀ b ∈ text, goes b = true)
    (ends : ∀ b, rest.head? = some b → goes b = false) :
    (text ++ rest).takeWhile goes = text ∧ (text ++ rest).dropWhile goes = rest := by
  have stop : rest.takeWhile goes = [] ∧ rest.dropWhile goes = rest := by
    cases rest with
    | nil => exact ⟨rfl, rfl⟩
    | cons b rest =>
      have not : ¬goes b = true := by simp [ends b rfl]
      exact ⟨takeWhile_cons_of_neg not, dropWhile_cons_of_neg not⟩
  rw [takeWhile_append_of_pos inside, dropWhile_append_of_pos inside, stop.1, stop.2, append_nil]
  exact ⟨rfl, rfl⟩

theorem isDigits_print (n : Nat) : isDigits (Decimal.print n) = true := by
  simp only [isDigits, Bool.and_eq_true, decide_eq_true_eq, all_eq_true]
  exact ⟨Decimal.print_ne_nil n, fun _ => Decimal.isDigit_of_mem_print⟩

theorem parseI64_print (v : Int64) : parseI64 (Decimal.printInt v.toInt) = some v := by
  have low := le_toInt v
  have high := toInt_lt v
  rw [parseI64, Decimal.valueInt_printInt]
  simp only [low, high, and_self, if_true, ofInt_toInt]

theorem parseU64_print (v : UInt64) : parseU64 (Decimal.print v.toNat) = some v := by
  rw [parseU64, Decimal.value_print]
  simp [UInt64.toNat_lt v]

variable {N : FloatText} {tok : Bytes} {b : UInt8} {text : Bytes} {c : UInt8}

/-- Digits of a text that begins with a digit or a minus sign take the number's branch. -/
theorem parseScalar_number (head : tok.head? = some b) (number : b = byte '-' ∨ isDigit b = true) :
    parseScalar N tok = parseNumber N tok := by
  have case : b = byte '-' ∨ b = byte '.' ∨ isDigit b = true := by tauto
  simp [parseScalar, head, if_pos case]

theorem head_digits (digits : isDigits text = true) : ∃ b more, text = b :: more ∧ isDigit b = true := by
  obtain ⟨some, all⟩ := bare_digits digits
  obtain ⟨b, more, rfl⟩ := exists_cons_of_ne_nil some
  exact ⟨b, more, rfl, all b mem_cons_self⟩

theorem head_printInt (z : Int) : ∃ b more, Decimal.printInt z = b :: more ∧ (b = byte '-' ∨ isDigit b = true) := by
  rw [Decimal.printInt]
  split
  · exact ⟨_, _, rfl, .inl rfl⟩
  · obtain ⟨b, more, shape, digit⟩ := head_digits (isDigits_print z.natAbs)
    exact ⟨b, more, shape, .inr digit⟩

theorem parseNumber_int (v : Int64) : parseNumber N (Decimal.printInt v.toInt ++ [byte 'i']) = .ok (.i64 v) := by
  have digits : isDigits (Decimal.unsigned (Decimal.printInt v.toInt)) = true := by
    rw [Decimal.unsigned_printInt]
    exact isDigits_print _
  simp [parseNumber, getLast?_append, getLast?_singleton, Option.some_or, digits, parseI64_print]

theorem parseNumber_uint (v : UInt64) : parseNumber N (Decimal.print v.toNat ++ [byte 'u']) = .ok (.u64 v) := by
  have other : ¬some (byte 'u') = some (byte 'i') := by decide
  simp only [parseNumber, getLast?_append, getLast?_singleton, Option.some_or, dropLast_concat,
    if_true, if_neg other, isDigits_print, Bool.not_true, Bool.false_eq_true, if_false, parseU64_print]

theorem unsigned_sign {sign text : Bytes} (sign' : sign = [] ∨ sign = [byte '-'])
    (head : ∃ b more, text = b :: more ∧ isDigit b = true) : Decimal.unsigned (sign ++ text) = text := by
  obtain ⟨b, more, rfl, digit⟩ := head
  rcases sign' with rfl | rfl
  · have other : b ≠ byte '-' := by
      rintro rfl
      cases digit
    rw [nil_append, Decimal.unsigned, if_neg other]
  · rw [singleton_append, Decimal.unsigned, if_pos rfl]

theorem parseFloat_spelled {v : F64} (spelled : Spelled tok) (parsed : N.parse tok = some v)
    (finite : v.isFinite = true) : parseFloat N tok = .ok (.f64 v) := by
  obtain ⟨sign, whole, part, shape, sign', whole', part'⟩ := spelled
  obtain ⟨some, all⟩ := bare_digits whole'
  have length : whole.length ≠ 0 := by simpa using some
  have stripped : Decimal.unsigned tok = whole ++ part := by
    obtain ⟨b, more, rfl, digit⟩ := head_digits whole'
    rw [shape]
    exact unsigned_sign sign' ⟨b, more ++ part, rfl, digit⟩
  have stop : ∀ b, part.head? = Option.some b → isDigit b = false := by
    rcases part' with rfl | ⟨digits, -, rfl⟩
    · simp
    · rintro b ⟨⟩
      decide
  obtain ⟨taken, dropped⟩ := span_ends all stop
  have rest : (fraction part).2 = [] := by
    rcases part' with rfl | ⟨digits, some', rfl⟩
    · rfl
    · have whole := @span_ends isDigit digits [] (bare_digits some').2 (by simp)
      rw [append_nil] at whole
      exact whole.2
  have count : ¬whole.length + (fraction part).1.length = 0 := by omega
  simp only [parseFloat, stripped, taken, dropped, if_neg count, rest, skipExponent, bind, Except.bind, ne_eq,
    not_true_eq_false, if_false, parsed, finite, if_true]

theorem getLast?_spelled (spelled : Spelled tok) : ∃ b, tok.getLast? = some b ∧ isDigit b = true := by
  obtain ⟨sign, whole, part, rfl, -, whole', part'⟩ := spelled
  have last : ∀ {text : Bytes}, isDigits text = true → ∃ b, text.getLast? = some b ∧ isDigit b = true := by
    intro text digits
    obtain ⟨some, all⟩ := bare_digits digits
    exact ⟨_, getLast?_eq_some_getLast some, all _ (getLast_mem some)⟩
  rcases part' with rfl | ⟨digits, some, rfl⟩
  · obtain ⟨b, ends, digit⟩ := last whole'
    exact ⟨b, by simp [ends], digit⟩
  · obtain ⟨b, ends, digit⟩ := last some
    exact ⟨b, by simp [getLast?_cons, ends], digit⟩

theorem parseNumber_float (lawful : N.Lawful) {v : F64} (finite : v.isFinite = true) :
    parseNumber N (utf8Bytes (N.print v)) = .ok (.f64 v) := by
  have spelled := lawful.spelled v finite
  obtain ⟨b, last, digit⟩ := getLast?_spelled spelled
  have notI : ¬some b = some (byte 'i') := by
    rintro ⟨⟩
    cases digit
  have notU : ¬some b = some (byte 'u') := by
    rintro ⟨⟩
    cases digit
  simp only [parseNumber, last, if_neg notI, if_neg notU]
  exact parseFloat_spelled spelled (lawful.parsed v finite) finite

theorem parseScalar_bool (N : FloatText) (v : Bool) :
    parseScalar N (utf8Bytes (if v then "true" else "false")) = .ok (.bool v) := by
  have head : (utf8Bytes (if v then "true" else "false")).head? = some (byte (if v then 't' else 'f')) := by
    revert v
    decide
  have word : ∀ v : Bool, ¬(byte (if v then 't' else 'f') = byte '-' ∨ byte (if v then 't' else 'f') = byte '.' ∨
      isDigit (byte (if v then 't' else 'f')) = true) := by decide
  simp only [parseScalar, head, if_neg (word v)]
  revert v
  decide

theorem scanString_quote (rest : Bytes) : scanString (quote :: rest) = some ([], rest) := by
  have other : quote ≠ backslash := by decide
  cases rest with
  | nil => rw [scanString, if_pos rfl]
  | cons c rest => rw [scanString, if_neg (fun escapes => other escapes.1), if_pos rfl]

theorem scanString_plain (plain : stringEscapes b = false) {rest : Bytes} (some : rest ≠ []) :
    scanString (b :: rest) = (scanString rest).map fun r => (b :: r.1, r.2) := by
  obtain ⟨c, rest, rfl⟩ := exists_cons_of_ne_nil some
  simp only [stringEscapes, Bool.or_eq_false_iff, beq_eq_false_iff_ne] at plain
  rw [scanString, if_neg (fun escapes => plain.1 escapes.1), if_neg plain.2]

theorem scanString_escape (text rest : Bytes) :
    scanString (escape backslash stringEscapes text ++ quote :: rest) =
      some (escape backslash stringEscapes text, rest) := by
  induction text with
  | nil => exact scanString_quote rest
  | cons a text ih =>
    cases is : stringEscapes a with
    | true =>
      rw [escape_special is, cons_append, cons_append, scanString, if_pos ⟨rfl, is⟩, ih]
      rfl
    | false =>
      rw [escape_plain is, cons_append, scanString_plain is (by simp), ih]
      rfl

theorem parseString_quoted (text : String) (rest : Bytes) :
    parseString (escape backslash stringEscapes (utf8Bytes text) ++ quote :: rest) = .ok (.str text, rest) := by
  rw [parseString, scanString_escape]
  simp [unescape_escape_marks (by decide : stringEscapes backslash = true), fromUtf8_utf8Bytes]

/-- A value without quotes is taken up to the comma or the space after it. -/
theorem parseValue_bare {value : FieldValue} (bare : ∀ b ∈ text, Bare b)
    (scalar : parseScalar N text = .ok value) (ends : endsName c = true) (rest : Bytes) :
    parseValue N (text ++ c :: rest) = .ok (value, c :: rest) := by
  have inside : ∀ b ∈ text, (!endsName b) = true := by
    intro b mem
    obtain ⟨-, -, isComma, -, -, isSpace⟩ := bare b mem
    simp [endsName, isComma, isSpace]
  obtain ⟨taken, dropped⟩ := @span_ends (fun b => !endsName b) text (c :: rest) inside (by
    rintro b ⟨⟩
    simp [ends])
  cases text with
  | nil => cases scalar
  | cons b text =>
    obtain ⟨⟨-, -, isComma, isQuote, -, isSpace⟩, -⟩ := forall_mem_cons.mp bare
    have goes : ¬endsName b = true := by simp [endsName, isComma, isSpace]
    rw [cons_append] at taken dropped ⊢
    simp only [parseValue, if_neg goes, if_neg isQuote, taken, dropped, scalar]
    rfl

theorem parseValue_push (lawful : N.Lawful) {value : FieldValue} (finite : writable value = true)
    (ends : endsName c = true) (rest : Bytes) :
    parseValue N (pushValue N value ++ c :: rest) = .ok (value, c :: rest) := by
  have bare := bare_push lawful finite
  cases value with
  | f64 v =>
    have spelled := lawful.spelled v finite
    refine parseValue_bare spelled.bare ?_ ends rest
    obtain ⟨sign, whole, part, shape, sign', whole', -⟩ := spelled
    obtain ⟨b, more, rfl, digit⟩ := head_digits whole'
    have head : ∃ b, (utf8Bytes (N.print v)).head? = some b ∧ (b = byte '-' ∨ isDigit b = true) := by
      rcases sign' with rfl | rfl
      · exact ⟨b, by rw [shape]; rfl, .inr digit⟩
      · exact ⟨byte '-', by rw [shape]; rfl, .inl rfl⟩
    obtain ⟨b, head, number⟩ := head
    rw [parseScalar_number head number]
    exact parseNumber_float lawful finite
  | i64 v =>
    refine parseValue_bare (bare (by simp)) ?_ ends rest
    obtain ⟨b, more, shape, number⟩ := head_printInt v.toInt
    rw [parseScalar_number (by rw [pushValue, shape]; rfl) number]
    exact parseNumber_int v
  | u64 v =>
    refine parseValue_bare (bare (by simp)) ?_ ends rest
    obtain ⟨b, more, shape, digit⟩ := head_digits (isDigits_print v.toNat)
    rw [parseScalar_number (by rw [pushValue, shape]; rfl) (.inr digit)]
    exact parseNumber_uint v
  | bool v => exact parseValue_bare (bare (by simp)) (parseScalar_bool N v) ends rest
  | str v =>
    have other : ¬endsName quote = true := by decide
    rw [pushValue, pushQuoted, append_assoc]
    simp [parseValue, if_neg other, parseString_quoted, bind, Except.bind, if_pos ends]

/-- The scan of a key up to the equals sign after it, and the first byte of the key. -/
theorem scan_key {special : UInt8 → Bool} (stops : ∀ b, endsKey b = true → special b = true)
    (free : special backslash = false) (nonempty : text ≠ []) (last : text.getLast? ≠ some backslash)
    (ends : endsKey c = true) (rest : Bytes) :
    ∃ first more, escape backslash special text = first :: more ∧ endsKey first = false ∧
      scanUntil backslash endsKey comma (first :: (more ++ c :: rest)) = (first :: more, c :: rest) ∧
      scanUntil backslash endsKey first (more ++ c :: rest) = (more, c :: rest) := by
  obtain ⟨first, more, shape, plain⟩ := @head_escape _ backslash special free text nonempty
  have past : endsKey first = false := by
    cases is : endsKey first with
    | false => rfl
    | true =>
      rw [stops first is] at plain
      cases plain
  have bare : (comma :: text).getLast? ≠ some backslash := by
    rw [getLast?_cons_of_ne_nil nonempty]
    exact last
  have scan := @scanUntil_escape _ backslash special _ endsKey stops (by decide) text comma c rest ends bare
  rw [shape] at scan
  exact ⟨first, more, shape, past, scan, scanUntil_tail past scan⟩

theorem endsName_of_endsKey (past : endsKey b = false) : endsName b = false ∧ b ≠ equal := by
  simp only [endsKey, endsName, Bool.or_eq_false_iff, beq_eq_false_iff_ne] at past ⊢
  exact ⟨⟨past.1.2, past.2⟩, past.1.1⟩

theorem parseFields_one (lawful : N.Lawful) (measurement : String) {f : String × FieldValue}
    (key : f.1 ≠ "time" ∧ fieldKeyEncodable (utf8Bytes f.1) = true) (finite : writable f.2 = true)
    (ends : endsName c = true) (rest : Bytes) (n : Nat) (fields : Fields) :
    parseFields N measurement (n + 1) (carrierText N f ++ c :: rest) fields =
      (pushField measurement fields f.1 f.2).bind fun fields =>
        if c = comma then parseFields N measurement n rest fields else .ok (fields, c :: rest) := by
  obtain ⟨nonempty, tag, -⟩ := fieldKeyEncodable_iff key.2
  obtain ⟨-, last, -⟩ := tagEncodable_iff tag
  have stops : ∀ b, endsKey b = true → fieldKeyEscapes b = true := by
    intro b is
    rw [special_bytes.2.2.1]
    rw [special_bytes.2.2.2.1] at is
    tauto
  obtain ⟨first, more, shape, past, scan, -⟩ :=
    scan_key stops (by decide) nonempty last (by decide : endsKey equal = true) (pushValue N f.2 ++ c :: rest)
  obtain ⟨name, notEqual⟩ := endsName_of_endsKey past
  have unescaped : unescapeKey (first :: more) fieldKeyEscapes "field key" = .ok f.1 := by
    rw [← shape]
    exact unescapeKey_same (by decide) f.1 "field key"
  rw [carrierText, pushEscapedFieldKey, shape, cons_append, cons_append, parseFields]
  simp [if_neg notEqual, name, scan, unescaped, bind, Except.bind, if_neg key.1, parseValue_push lawful finite ends]

def pushAll (measurement : String) : Fields → Fields → Except Reason Fields
  | fields, [] => .ok fields
  | fields, f :: others =>
    (pushField measurement fields f.1 f.2).bind fun fields => pushAll measurement fields others

theorem parseFields_text (lawful : N.Lawful) {measurement : String} {written : Fields} (nonempty : written ≠ [])
    (keys : ∀ f ∈ written, f.1 ≠ "time" ∧ fieldKeyEncodable (utf8Bytes f.1) = true)
    (values : ∀ f ∈ written, writable f.2 = true) (rest : Bytes) {n : Nat} (enough : written.length ≤ n)
    (fields : Fields) : parseFields N measurement n
        ([comma].intercalate (written.map (carrierText N)) ++ space :: rest) fields =
      (pushAll measurement fields written).map fun fields => (fields, space :: rest) := by
  induction written generalizing n fields with
  | nil => exact absurd rfl nonempty
  | cons f others ih =>
    obtain ⟨key, keys⟩ := forall_mem_cons.mp keys
    obtain ⟨finite, values⟩ := forall_mem_cons.mp values
    rw [length_cons] at enough
    obtain ⟨n, rfl⟩ : ∃ m, n = m + 1 := ⟨n - 1, by omega⟩
    rw [map_cons]
    cases others with
    | nil =>
      have notComma : ¬space = comma := by decide
      have one := parseFields_one lawful measurement key finite (by decide : endsName space = true) rest n fields
      rw [map_nil, intercalate_singleton, one, pushAll]
      cases pushField measurement fields f.1 f.2 with
      | error => rfl
      | ok fields => simp [Except.bind, if_neg notComma, pushAll, Except.map]
    | cons g others =>
      have one := parseFields_one lawful measurement key finite (by decide : endsName comma = true)
        ([comma].intercalate ((g :: others).map (carrierText N)) ++ space :: rest) n fields
      rw [map_cons, intercalate_cons_cons, append_assoc, append_assoc, singleton_append, ← map_cons, one, pushAll]
      cases pushField measurement fields f.1 f.2 with
      | error => rfl
      | ok fields => exact ih (by simp) keys values (by omega) fields

def tagText (t : String × String) : Bytes := pushEscapedKey t.1 ++ equal :: pushEscapedKey t.2

theorem parseTags_one {t : String × String} (key : utf8Bytes t.1 ≠ [] ∧ tagEncodable (utf8Bytes t.1) = true)
    (value : utf8Bytes t.2 ≠ [] ∧ tagEncodable (utf8Bytes t.2) = true) (ends : endsName c = true) (rest : Bytes)
    (n : Nat) (tags : Tags) : parseTags (n + 1) (tagText t ++ c :: rest) tags =
      if c = comma then parseTags n rest (tags ++ [t]) else .ok (tags ++ [t], c :: rest) := by
  have stops : ∀ b, endsKey b = true → keyEscapes b = true := by
    intro b is
    rw [special_bytes.2.1]
    rw [special_bytes.2.2.2.1] at is
    tauto
  have endsC : endsKey c = true ∧ c ≠ equal := by rcases (special_bytes.1 c).mp ends with rfl | rfl <;> decide
  obtain ⟨first, more, shape, past, scan, -⟩ := scan_key stops (by decide) key.1 (tagEncodable_iff key.2).2.1
    (by decide : endsKey equal = true) (pushEscapedKey t.2 ++ c :: rest)
  obtain ⟨first', more', shape', past', -, scan'⟩ :=
    scan_key stops (by decide) value.1 (tagEncodable_iff value.2).2.1
    endsC.1 rest
  have name' := (endsName_of_endsKey past').1
  have unescaped : unescapeKey (first :: more) keyEscapes "tag key" = .ok t.1 := by
    rw [← shape]
    exact unescapeKey_same (by decide) t.1 "tag key"
  have unescaped' : unescapeKey (first' :: more') keyEscapes "tag value" = .ok t.2 := by
    rw [← shape']
    exact unescapeKey_same (by decide) t.2 "tag value"
  rw [tagText, pushEscapedKey, shape, append_assoc, cons_append, cons_append, parseTags]
  simp only [past, scan]
  rw [pushEscapedKey, shape']
  simp [name', scan', if_neg endsC.2, unescaped, unescaped', bind, Except.bind]

theorem parseTags_text {written : Tags} {t : String × String}
    (sound : ∀ u ∈ t :: written, (utf8Bytes u.1 ≠ [] ∧ tagEncodable (utf8Bytes u.1) = true) ∧
      utf8Bytes u.2 ≠ [] ∧ tagEncodable (utf8Bytes u.2) = true)
    (rest : Bytes) {n : Nat} (enough : written.length < n) (tags : Tags) :
    parseTags n (tagText t ++ (written.flatMap (fun t => comma :: tagText t) ++ space :: rest)) tags =
      .ok (tags ++ t :: written, space :: rest) := by
  induction written generalizing t n tags with
  | nil =>
    obtain ⟨⟨key, value⟩, -⟩ := forall_mem_cons.mp sound
    obtain ⟨n, rfl⟩ : ∃ m, n = m + 1 := ⟨n - 1, by omega⟩
    rw [flatMap_nil, nil_append, parseTags_one key value (by decide) rest, if_neg (by decide)]
  | cons u written ih =>
    obtain ⟨⟨key, value⟩, others⟩ := forall_mem_cons.mp sound
    rw [length_cons] at enough
    obtain ⟨n, rfl⟩ : ∃ m, n = m + 1 := ⟨n - 1, by omega⟩
    rw [flatMap_cons, cons_append, cons_append, parseTags_one key value (by decide), if_pos rfl,
      append_assoc, ih others (by omega), append_assoc, singleton_append]

theorem repeats_eq_false {tags : Tags} (distinct : (tags.map fst).Nodup) : repeats tags = false := by
  induction tags with
  | nil => rfl
  | cons a tags ih =>
    rw [map_cons, nodup_cons] at distinct
    cases tags with
    | nil => rfl
    | cons b tags =>
      have other : a.1 ≠ b.1 := by
        intro same
        exact distinct.1 (by simp [same])
      simp only [repeats, ih distinct.2, Bool.or_false, beq_eq_false_iff_ne]
      exact other

def sortTags (tags : Tags) : Tags := tags.insertionSort fun a b => a.1 ≤ b.1

theorem checkTags_sound {tags : Tags} (allowed : ∀ t ∈ tags, t.1 ∉ reservedTagKeys)
    (distinct : (tags.map fst).Nodup) :
    checkTags tags = .ok (sortTags tags) := by
  have none : tags.find? (fun t => decide (t.1 ∈ reservedTagKeys)) = none := by
    rw [find?_eq_none]
    intro t mem
    simp [allowed t mem]
  have sorted : ((sortTags tags).map fst).Nodup :=
    (((perm_insertionSort (fun a b : String × String => a.1 ≤ b.1) tags).map fst).nodup_iff).mpr distinct
  rw [checkTags, none]
  show (if repeats (sortTags tags) = true then _ else _) = _
  rw [repeats_eq_false sorted]
  rfl

theorem parseTime_text (t : Int64) : parseTime (space :: Decimal.printInt t.toInt) = .ok (some t) := by
  obtain ⟨b, more, shape, number⟩ := head_printInt t.toInt
  have bare : ∀ b ∈ Decimal.printInt t.toInt, (b != space) = true := by
    intro b mem
    simpa using (bare_printInt b mem).2.2.2.2.2
  have notSkipped : isSkippable b = false := by
    rcases number with rfl | digit
    · decide
    · have others : b ≠ space ∧ b ≠ byte '\t' ∧ b ≠ 0 := by refine ⟨?_, ?_, ?_⟩ <;> rintro rfl <;> cases digit
      simp [isSkippable, others.1, others.2.1, others.2.2]
  have skipped : skipWs (space :: Decimal.printInt t.toInt) = Decimal.printInt t.toInt := by
    rw [skipWs, dropWhile_cons_of_pos (by decide), shape, dropWhile_cons_of_neg (by simp [notSkipped])]
  have whole := @span_ends (fun b => b != space) (Decimal.printInt t.toInt) [] bare (by simp)
  rw [append_nil] at whole
  have digits : isDigits (Decimal.unsigned (Decimal.printInt t.toInt)) = true := by
    rw [Decimal.unsigned_printInt]
    exact isDigits_print _
  have parsed : parseTimestamp (Decimal.printInt t.toInt) = .ok t := by
    simp [parseTimestamp, digits, parseI64_print]
  rw [parseTime, skipped]
  rw [shape] at whole parsed ⊢
  simp [whole.1, whole.2, parsed, bind, Except.bind]

/-- The text from after the measurement on. -/
def afterMeasurement (N : FloatText) (p : Point) : Bytes := p.tags.flatMap (fun t => comma :: tagText t) ++
    space :: (p.fieldsText N ++ space :: Decimal.printInt p.timestamp.toInt)

theorem text_eq (N : FloatText) (p : Point) :
    p.text N = pushEscapedMeasurement p.measurement ++ afterMeasurement N p := by
  rw [Point.text, Point.series, append_assoc]
  rfl

theorem scan_measurement (encodable : measurementEncodable text = true) (leads : text.head? ≠ some (byte '#'))
    (ends : endsName c = true) (rest : Bytes) :
    ∃ first more, escape backslash endsName text = first :: more ∧ isSkippable first = false ∧
      first ≠ byte '#' ∧ first ≠ comma ∧
      scanUntil backslash endsName first (more ++ c :: rest) = (more, c :: rest) := by
  obtain ⟨nonempty, skips, -, last, -⟩ := measurementEncodable_iff encodable
  obtain ⟨b, more, rfl⟩ := exists_cons_of_ne_nil nonempty
  have scan := @scanUntil_escape _ backslash endsName _ endsName (fun _ is => is) (by decide)
    (b :: more) comma c rest
    ends (by rwa [getLast?_cons_cons])
  cases is : endsName b with
  | true =>
    rw [escape_special is] at scan ⊢
    exact ⟨backslash, _, rfl, by decide, by decide, by decide, scanUntil_tail (by decide) scan⟩
  | false =>
    rw [escape_plain is] at scan ⊢
    simp only [startsSkippable, head?_cons, Bool.or_eq_false_iff, decide_eq_false_iff_not,
      Option.some.injEq] at skips
    simp only [endsName, Bool.or_eq_false_iff, beq_eq_false_iff_ne] at is
    refine ⟨b, _, rfl, ?_, fun same => leads (by rw [same]; rfl), is.1, scanUntil_tail ?_ scan⟩
    · simp [isSkippable, is.2, skips.1, skips.2]
    · simp [endsName, is.1, is.2]

theorem unescape_measurement {text : String} (encodable : measurementEncodable (utf8Bytes text) = true) :
    unescapeKey (pushEscapedMeasurement text) keyEscapes "measurement" = .ok text := by
  obtain ⟨-, -, -, -, marks⟩ := measurementEncodable_iff encodable
  refine unescapeKey_escape ?_ (by decide) ?_
  · intro b is
    rw [special_bytes.2.1]
    rw [special_bytes.1] at is
    tauto
  · exact (marksBefore_isChain marks).imp fun {a b} apart both => apart ⟨both.1, both.2.1⟩

theorem skipWs_fields {p : Point} (sound : p.Sound) (rest : Bytes) :
    ∃ b more, p.fieldsText N ++ rest = b :: more ∧ skipWs (space :: (p.fieldsText N ++ rest)) = b :: more := by
  obtain ⟨f, others, fields, skips⟩ := sound.first
  have mem : f ∈ p.fields := by simp [fields]
  obtain ⟨nonempty, -⟩ := fieldKeyEncodable_iff (sound.keys f mem).2.1
  obtain ⟨b, more, shape, notSkipped⟩ : ∃ b more, pushEscapedFieldKey f.1 = b :: more ∧ isSkippable b = false := by
    obtain ⟨b, more, start⟩ := exists_cons_of_ne_nil nonempty
    rw [pushEscapedFieldKey]
    rw [start] at skips ⊢
    cases is : fieldKeyEscapes b with
    | true => exact ⟨backslash, _, escape_special is more, by decide⟩
    | false =>
      refine ⟨b, _, escape_plain is more, ?_⟩
      have notSpace : b ≠ space := by
        rintro rfl
        cases is
      simp only [startsSkippable, head?_cons, Bool.or_eq_false_iff, decide_eq_false_iff_not,
        Option.some.injEq] at skips
      simp [isSkippable, notSpace, skips.1, skips.2]
  have starts : ∃ more, p.fieldsText N ++ rest = b :: more := by
    rw [Point.fieldsText, fields, map_cons, fieldText_eq sound mem, carrierText, shape]
    cases others with
    | nil => exact ⟨_, by rw [map_nil]; rfl⟩
    | cons g others => exact ⟨_, by rw [map_cons]; rfl⟩
  obtain ⟨more, starts⟩ := starts
  refine ⟨b, more, starts, ?_⟩
  rw [skipWs, dropWhile_cons_of_pos (by decide), starts, dropWhile_cons_of_neg (by simp [notSkipped])]

theorem length_le_flatMap (tags : Tags) : tags.length ≤ (tags.flatMap fun t => comma :: tagText t).length := by
  induction tags with
  | nil => simp
  | cons t tags ih =>
    rw [flatMap_cons, length_append, length_cons, length_cons]
    omega

theorem length_le_intercalate (fields : Fields) :
    fields.length ≤ ([comma].intercalate (fields.map (carrierText N))).length := by
  have one : ∀ f, 1 ≤ (carrierText N f).length := by
    intro f
    rw [carrierText, length_append, length_cons]
    omega
  induction fields with
  | nil => simp
  | cons f fields ih =>
    have first := one f
    cases fields with
    | nil => simpa using first
    | cons g fields =>
      rw [map_cons, map_cons, intercalate_cons_cons, ← map_cons, length_append, length_append, length_cons]
      omega

/-- What a written line parses to: the point, with its fields pushed one by one. -/
theorem parseLine_text (lawful : N.Lawful) {p : Point} (sound : p.Sound) :
    parseLine N (p.text N) = (pushAll p.measurement [] p.fields).map fun fields =>
      some ⟨p.measurement, sortTags p.tags, fields, some p.timestamp⟩ := by
  -- what follows the measurement begins with a comma or a space
  obtain ⟨c, rest, after, ends⟩ : ∃ c rest, afterMeasurement N p = c :: rest ∧ endsName c = true := by
    rw [afterMeasurement]
    cases p.tags with
    | nil => exact ⟨space, _, rfl, by decide⟩
    | cons t tags => exact ⟨comma, _, rfl, by decide⟩
  obtain ⟨first, more, shape, notSkipped, notHash, notComma, scan⟩ :=
    scan_measurement sound.measurement sound.leads ends rest
  have measurement := unescape_measurement sound.measurement
  rw [pushEscapedMeasurement, shape] at measurement
  have start : skipWs (p.text N) = first :: (more ++ c :: rest) := by
    rw [text_eq, after, pushEscapedMeasurement, shape, cons_append, skipWs,
      dropWhile_cons_of_neg (by simp [notSkipped])]
  have tags : tagSection c rest =
      .ok (p.tags, space :: (p.fieldsText N ++ space :: Decimal.printInt p.timestamp.toInt)) := by
    rw [afterMeasurement] at after
    rw [tagSection]
    cases all : p.tags with
    | nil =>
      rw [all] at after
      obtain ⟨rfl, rfl⟩ := cons.inj after
      rw [if_neg (by decide)]
    | cons t others =>
      rw [all, flatMap_cons, append_assoc, cons_append] at after
      obtain ⟨rfl, rfl⟩ := cons.inj after
      have enough : others.length < (tagText t ++ (others.flatMap (fun t => comma :: tagText t) ++
          space :: (p.fieldsText N ++ space :: Decimal.printInt p.timestamp.toInt))).length := by
        have each := length_le_flatMap others
        simp only [length_append, length_cons]
        omega
      rw [if_pos rfl, parseTags_text _ _ enough [], nil_append]
      intro u mem
      obtain ⟨⟨key, encodable, -⟩, value⟩ := sound.tags u (by rw [all]; exact mem)
      exact ⟨⟨key, encodable⟩, value⟩
  obtain ⟨b, fields, starts, skipped⟩ := skipWs_fields (N := N) sound (space :: Decimal.printInt p.timestamp.toInt)
  have parsed : parseFields N p.measurement (b :: fields).length (b :: fields) [] =
      (pushAll p.measurement [] p.fields).map fun fields =>
        (fields, space :: Decimal.printInt p.timestamp.toInt) := by
    obtain ⟨f, others, all, -⟩ := sound.first
    have same : p.fieldsText N = [comma].intercalate (p.fields.map (carrierText N)) := by
      rw [Point.fieldsText]
      congr 1
      exact map_congr_left fun f mem => fieldText_eq sound mem
    have enough := length_le_intercalate (N := N) p.fields
    rw [← starts, same]
    refine parseFields_text lawful (by simp [all])
      (fun f mem => ⟨(sound.keys f mem).1, (sound.keys f mem).2.1⟩)
      sound.values _ ?_ []
    rw [length_append]
    omega
  have checked := checkTags_sound (fun t mem => (sound.tags t mem).1.2.2) sound.distinct
  rw [parseLine, start]
  simp only [if_neg notHash, if_neg notComma, scan, measurement, bind, Except.bind, tags, checked, skipped, parsed]
  cases pushAll p.measurement [] p.fields with
  | error reason => rfl
  | ok fields => simp [Except.map, parseTime_text]

end Logit.Influx
