import Logit.Influx.Decode
import Logit.Influx.Fields
import Logit.Influx.Written

namespace Logit.Influx

open ByteCodec List Int64 Decimal

variable {X : Externals} {p : Point} {N : FloatText}

theorem Point.Sound.at (sound : p.Sound) (timestamp : Int64) : ({ p with timestamp } : Point).Sound :=
  { sound with }

theorem parsePoint_text (lawful : N.Lawful) (sound : p.Sound) (now : Int64) {fields : Fields}
    (taken : pushAll p.measurement [] p.fields = .ok fields)
    (ranged : minTimestampNs ≤ p.timestamp ∧ p.timestamp ≤ maxTimestampNs) : parsePoint N .ns now (p.text N) =
      .ok (some (⟨p.measurement, sortTags p.tags, fields, some p.timestamp⟩, p.timestamp)) := by
  rw [parsePoint, parseLine_text lawful sound, taken]
  simp only [Precision.scaleToNs_ns]
  exact if_pos ranged

/-- A line that the decoder takes. -/
def Fine (p : Point) : Prop := OneType p.fields ∧ minTimestampNs ≤ p.timestamp ∧ p.timestamp ≤ maxTimestampNs

theorem pushAll_nil_isOk (p : Point) :
    (∃ fields, pushAll p.measurement [] p.fields = .ok fields) ↔ OneType p.fields := by
  refine (pushAll_isOk [] p.fields).trans ⟨fun all => all.2, fun one => ⟨fun f _ current found => ?_, one⟩⟩
  cases found

/-- A parsed line whose timestamp is there and in range. -/
def Accepted (N : FloatText) (line : Bytes) : Prop :=
  ∃ parsed t, parseLine N line = .ok (some parsed) ∧ parsed.timestamp = some t ∧ minTimestampNs ≤ t ∧
    t ≤ maxTimestampNs

/-- A line that was written is accepted when its fields are and its instant is in range, and the decoder takes
it then, too. -/
theorem accepted_text (lawful : N.Lawful) (sound : p.Sound) (now : Int64) :
    (Accepted N (p.text N) ↔ Fine p) ∧ ((∃ point, parsePoint N .ns now (p.text N) = .ok point) ↔ Fine p) := by
  rw [Accepted, parsePoint, parseLine_text lawful sound, Fine, ← pushAll_nil_isOk]
  cases taken : pushAll p.measurement [] p.fields with
  | error reason => simp [Except.map]
  | ok fields =>
    simp only [Except.map, Precision.scaleToNs_ns]
    by_cases ranged : minTimestampNs ≤ p.timestamp ∧ p.timestamp ≤ maxTimestampNs
    · simp [ranged]
    · simp [ranged]

/-- The text is that of the lines, and the instants taken in a series are those of its lines. -/
structure Page.Good (N : FloatText) (g : Page) : Prop where
  body : g.buf = g.lines.flatMap fun p => p.text N ++ [newline]
  points : ∀ key, Points (g.series key)
  taken : ∀ key t, Taken (g.series key) t ↔ ∃ p ∈ g.lines, p.series = key ∧ p.timestamp = t

variable {g : Page} {R : Rendering X}

/-- A write puts a point at the first free instant of its series, or nothing where none is left. -/
theorem write_cases (good : g.Good N) (p : Point) :
    (allocateTimestamp (g.series p.series) p.timestamp = none ∧ g.write N p = g) ∨
      ∃ t after, allocateTimestamp (g.series p.series) p.timestamp = some (t, after) ∧
        Allocated (g.series p.series) p.timestamp t after ∧
        g.write N p = ⟨fun key => if key = p.series then after else g.series key,
          g.buf ++ (({ p with timestamp := t } : Point).text N ++ [newline]),
            g.lines ++ [{ p with timestamp := t }]⟩ := by
  cases found : allocateTimestamp (g.series p.series) p.timestamp with
  | none => exact .inl ⟨rfl, by rw [Page.write, found]⟩
  | some result =>
    obtain ⟨t, after⟩ := result
    exact .inr ⟨t, after, rfl, allocate_some (good.points _) found, by rw [Page.write, found]⟩

theorem Page.Good.start (N : FloatText) : Page.start.Good N := by
  refine ⟨rfl, fun _ => points_none, fun key t => ?_⟩
  simp [Page.start, Taken]

theorem Page.Good.write (good : g.Good N) (p : Point) : (g.write N p).Good N := by
  rcases write_cases good p with ⟨-, same⟩ | ⟨t, after, -, allocated, written⟩
  · rw [same]
    exact good
  · rw [written]
    refine ⟨by simp [good.body], fun key => ?_, fun key u => ?_⟩
    · dsimp only
      split
      · exact allocated.points
      · exact good.points key
    · simp only [mem_append, or_and_right, exists_or, mem_singleton, exists_eq_left]
      split
      · rename_i same
        subst same
        rw [allocated.taken, good.taken, or_comm]
        exact or_congr_right ⟨fun same => ⟨rfl, same.symm⟩, fun same => same.2.symm⟩
      · rename_i other
        rw [good.taken]
        exact ⟨.inl, fun found => found.resolve_right fun own => other own.1.symm⟩

theorem Page.Good.run (good : g.Good N) (points : List Point) : (points.foldl (Page.write N) g).Good N :=
  foldlRecOn points _ good fun _ good p _ => good.write p

/-- The lines that were written are points that were asked for, at other instants. -/
theorem run_lines (N : FloatText) (points : List Point) (g : Page)
    (mem : p ∈ (points.foldl (Page.write N) g).lines) :
    p ∈ g.lines ∨ ∃ q ∈ points, p = { q with timestamp := p.timestamp } := by
  induction points generalizing g with
  | nil => exact .inl mem
  | cons q points ih =>
    rcases ih (g.write N q) mem with old | ⟨q', among, same⟩
    · rw [Page.write] at old
      split at old
      · exact .inl old
      · rcases mem_append.mp old with old | new
        · exact .inl old
        · rw [mem_singleton.mp new]
          exact .inr ⟨q, mem_cons_self, rfl⟩
    · exact .inr ⟨q', mem_cons_of_mem _ among, same⟩

theorem encode_lines_sound (lawful : R.Lawful) (batch : EventBatch X) : ∀ p ∈ (encode R batch).lines, p.Sound := by
  intro p mem
  have lines := congrArg Page.lines (encode_page R batch)
  change (encode R batch).lines = _ at lines
  rw [lines] at mem
  rcases run_lines R.toFloatText _ .start mem with old | ⟨q, among, same⟩
  · cases old
  · rw [same]
    exact (batchPoints_sound lawful batch q among).at _

theorem encode_good (R : Rendering X) (batch : EventBatch X) : (encode R batch).page.Good R.toFloatText := by
  rw [encode_page]
  exact (Page.Good.start _).run _

/-- The decoder splits the body into the texts of the lines that were written. -/
theorem lines_encode (lawful : R.Lawful) (batch : EventBatch X) :
    lines (encode R batch).buf = (encode R batch).lines.map (Point.text R.toFloatText) := by
  rw [show (encode R batch).buf = _ from (encode_good R batch).body]
  exact lines_body lawful.toLawful (encode_lines_sound lawful batch)

theorem write_mono (N : FloatText) (g : Page) (q : Point) (mem : p ∈ g.lines) : p ∈ (g.write N q).lines := by
  rw [Page.write]
  split
  · exact mem
  · exact mem_append_left _ mem

theorem forall_split_cons {α : Type*} {P : List α → α → Prop} (a : α) (elements : List α) :
    (∀ before b after, a :: elements = before ++ b :: after → P before b) ↔
      P [] a ∧ ∀ before b after, elements = before ++ b :: after → P (a :: before) b := by
  refine ⟨fun all => ⟨all [] a elements rfl, fun before b after same => ?_⟩,
    fun ⟨first, all⟩ before b after same => ?_⟩
  · exact all (a :: before) b after (by rw [same]; rfl)
  · cases before with
    | nil =>
      cases same
      exact first
    | cons c before =>
      obtain ⟨rfl, rest⟩ := cons.inj same
      exact all before b after rest

section

variable {σ α : Type*} {f : σ → α → σ} {G F : σ → Prop} {H : σ → α → Prop}

theorem foldl_back (grows : ∀ s a, F (f s a) → F s) (elements : List α) (s : σ)
    (last : F (elements.foldl f s)) : F s := by
  induction elements generalizing s with
  | nil => exact last
  | cons a elements ih => exact grows s a (ih (f s a) last)

/-- A fold ends fine when each of its steps is harmless where it is taken. -/
theorem foldl_fine_iff (keeps : ∀ s a, G s → G (f s a)) (grows : ∀ s a, F (f s a) → F s)
    (own : ∀ s a, G s → F s → (F (f s a) ↔ H s a)) {s : σ} (start : G s) (low : F s)
    (elements : List α) : F (elements.foldl f s) ↔
      ∀ before a after, elements = before ++ a :: after → H (before.foldl f s) a := by
  induction elements generalizing s with
  | nil => exact ⟨fun _ before a after same => by simp at same, fun _ => low⟩
  | cons a elements ih =>
    rw [forall_split_cons, foldl_cons, foldl_nil, ← own s a start low]
    by_cases holds : F (f s a)
    · rw [ih (keeps s a start) holds]
      exact ⟨fun all => ⟨holds, all⟩, fun all => all.2⟩
    · exact ⟨fun last => absurd (foldl_back grows elements _ last) holds, fun all => absurd all.1 holds⟩

end

/-- Whether an instant is free for a point in its series. -/
def Room (g : Page) (p : Point) : Prop := (allocateTimestamp (g.series p.series) p.timestamp).isSome = true

/-- A point below the range finds its own instant free, unless a line stands there already. -/
theorem fine_written (good : g.Good N) (low : ∀ p ∈ g.lines, Fine p) {t : Int64} {after : NextFree}
    (allocated : Allocated (g.series p.series) p.timestamp t after) :
    Fine { p with timestamp := t } ↔ minTimestampNs ≤ p.timestamp ∧ OneType p.fields := by
  have greatest : maxTimestampNs.toInt = 2 ^ 63 - 2 := by decide
  have later := allocated.low
  have high := allocated.high
  simp only [Fine, le_iff_toInt_le]
  refine ⟨fun ⟨one, above, _⟩ => ⟨?_, one⟩, fun ⟨above, one⟩ => ⟨one, by omega, by omega⟩⟩
  by_contra below
  obtain ⟨q, mem, -, same⟩ := (good.taken _ _).mp (allocated.first p.timestamp (Int.le_refl _) (by omega))
  have fine := (low q mem).2.1
  rw [same, le_iff_toInt_le] at fine
  exact below fine

theorem ranged_of_full (good : g.Good N) (low : ∀ p ∈ g.lines, Fine p)
    (full : allocateTimestamp (g.series p.series) p.timestamp = none) : minTimestampNs ≤ p.timestamp := by
  have least : minTimestampNs.toInt = -2 ^ 63 + 2 := by decide
  rw [le_iff_toInt_le]
  by_contra below
  have answers := allocateTimestamp_answers (good.points p.series) p.timestamp
  rw [full] at answers
  have taken := answers p.timestamp (Int.le_refl _) (by omega)
  obtain ⟨q, mem, -, same⟩ := (good.taken _ _).mp taken
  have fine := (low q mem).2.1
  rw [same, le_iff_toInt_le] at fine
  exact below fine

/-- A page whose lines the decoder takes. -/
def Page.Fine (g : Page) : Prop := ∀ p ∈ g.lines, Influx.Fine p

theorem Page.fine_of_write {q : Point} (fine : (g.write N q).Fine) : g.Fine :=
  fun p mem => fine p (write_mono N g q mem)

theorem run_fine (good : g.Good N) (low : ∀ p ∈ g.lines, Fine p) (points : List Point) :
    (∀ p ∈ (points.foldl (Page.write N) g).lines, Fine p) ↔ ∀ before p after, points = before ++ p :: after →
        minTimestampNs ≤ p.timestamp ∧ (Room (before.foldl (Page.write N) g) p → OneType p.fields) := by
  refine foldl_fine_iff (G := Page.Good N) (F := Page.Fine)
    (H := fun g p => minTimestampNs ≤ p.timestamp ∧ (Room g p → OneType p.fields)) (fun _ p good => good.write p)
    (fun _ _ => Page.fine_of_write) (fun g q good low => ?_) good low points
  rcases write_cases good q with ⟨full, same⟩ | ⟨t, after, found, allocated, written⟩
  · rw [same]
    refine ⟨fun _ => ⟨ranged_of_full good low full, fun room => ?_⟩, fun _ => low⟩
    rw [Room, full] at room
    cases room
  · have room : Room g q := by rw [Room, found]; rfl
    rw [Page.Fine, written, forall_mem_append, forall_mem_singleton, fine_written good low allocated]
    exact ⟨fun both => ⟨both.2.1, fun _ => both.2.2⟩, fun harmless => ⟨low, harmless.1, harmless.2 room⟩⟩

theorem recordPoint_spec (lawful : R.Lawful) {tags : Tags} {timestamp : Int64} {metric : MetricRecord X}
    (asked : recordPoint R tags timestamp metric = some p) :
    p.carrier = false ∧ p.timestamp = timestamp ∧ OneType p.fields := by
  rw [recordPoint] at asked
  split at asked
  · cases asked
  split at asked
  · rename_i fields omitted rendered ok
    cases asked
    obtain ⟨⟨name, plain⟩, -⟩ := PlainFields.render lawful rendered
    exact ⟨rfl, rfl, fun f mem g mem' _ => ((plain f mem).2.2).trans ((plain g mem').2.2).symm⟩
  · cases asked

theorem carrierPoint_spec {tags : Tags} {measurement : String} {timestamp : Int64} {g : Gathered}
    (asked : carrierPoint tags measurement timestamp g = some p) : p.timestamp = timestamp := by
  rw [carrierPoint] at asked
  split at asked
  · cases asked
  split at asked
  · cases asked
    rfl
  · cases asked

/-- The carrier line that an event asks for, if it has a measurement of its own. -/
def carrierLine (R : Rendering X) (resource : Resource X) (event : Event X) : Option Point :=
  (carrierMeasurement event).bind fun measurement =>
    carrierPoint (renderTagSuffix R.toFloatText (merged resource event)).2 measurement event.timestamp
      (gather event measurement)

/-- An event asks for its carrier line, if any, and then for lines of records, of one type each. -/
theorem eventPoints_split (lawful : R.Lawful) (resource : Resource X) (event : Event X) :
    ∃ records, eventPoints R resource event = (carrierLine R resource event).toList ++ records ∧
      ∀ p ∈ records, p.carrier = false ∧ p.timestamp = event.timestamp ∧ OneType p.fields := by
  rw [eventPoints, carrierLine]
  cases carried : carrierMeasurement event with
  | none =>
    refine ⟨_, rfl, fun p mem => ?_⟩
    obtain ⟨metric, -, asked⟩ := mem_filterMap.mp mem
    exact recordPoint_spec lawful asked
  | some measurement =>
    refine ⟨_, rfl, fun p mem => ?_⟩
    obtain ⟨metric, -, asked⟩ := mem_filterMap.mp mem
    obtain ⟨-, asked⟩ := Option.ite_none_left_eq_some.mp asked
    exact recordPoint_spec lawful asked

variable {resource : Resource X} {event : Event X}

theorem carrierLine_spec (asked : carrierLine R resource event = some p) : p.timestamp = event.timestamp := by
  obtain ⟨measurement, -, asked⟩ := Option.bind_eq_some_iff.mp asked
  exact carrierPoint_spec asked

/-- An event that asks for a line is not below the range, and the fields it offers to a carrier line are of
one type a key, where the line finds an instant free. -/
def Harmless (R : Rendering X) (resource : Resource X) (g : Page) (event : Event X) : Prop :=
  (eventPoints R resource event ≠ [] → minTimestampNs ≤ event.timestamp) ∧
    ∀ measurement p, carrierMeasurement event = some measurement → carrierLine R resource event = some p →
      Room g p →
      OneType (takenFields (offered event measurement))

theorem OneType.perm {fields others : Fields} (same : fields.Perm others) : OneType fields ↔ OneType others := by
  simp [OneType, same.mem_iff]

theorem carrierLine_oneType (asked : carrierLine R resource event = some p) {measurement : String}
    (carried : carrierMeasurement event = some measurement) :
    OneType (takenFields (offered event measurement)) ↔ OneType p.fields := by
  rw [carrierLine, carried] at asked
  exact (OneType.perm (carrierPoint_offered asked).1).symm

theorem eventPoints_timestamp (lawful : R.Lawful) (mem : p ∈ eventPoints R resource event) :
    p.timestamp = event.timestamp := by
  obtain ⟨records, points, each⟩ := eventPoints_split lawful resource event
  rw [points] at mem
  rcases mem_append.mp mem with carrier | record
  · exact carrierLine_spec (Option.mem_toList.mp carrier)
  · exact (each p record).2.1

theorem event_fine (lawful : R.Lawful) (good : g.Good R.toFloatText) (low : ∀ p ∈ g.lines, Fine p)
    (resource : Resource X) (event : Event X) :
    (∀ p ∈ ((eventPoints R resource event).foldl (Page.write R.toFloatText) g).lines, Fine p) ↔
      Harmless R resource g event := by
  obtain ⟨records, points, each⟩ := eventPoints_split lawful resource event
  rw [run_fine good low]
  constructor
  · intro all
    refine ⟨fun nonempty => ?_, fun measurement p carried asked room => ?_⟩
    · obtain ⟨p, after, same⟩ := exists_cons_of_ne_nil nonempty
      rw [← eventPoints_timestamp lawful (same ▸ mem_cons_self)]
      exact (all [] p after same).1
    · rw [carrierLine_oneType asked carried]
      refine (all [] p records ?_).2 room
      rw [points, asked]
      rfl
  · rintro ⟨ranged, one⟩ before p after same
    have mem : p ∈ eventPoints R resource event := by
      rw [same]
      simp
    refine ⟨eventPoints_timestamp lawful mem ▸ ranged (ne_nil_of_mem mem), fun room => ?_⟩
    rw [points] at same
    cases asked : carrierLine R resource event with
    | none =>
      rw [asked] at same
      exact (each p (by rw [show records = _ from same]; simp)).2.2
    | some q =>
      rw [asked] at same
      cases before with
      | nil =>
        cases same
        obtain ⟨measurement, carried, -⟩ := Option.bind_eq_some_iff.mp asked
        exact (carrierLine_oneType asked carried).mp (one measurement _ carried asked room)
      | cons _ before =>
        obtain ⟨-, rest⟩ := cons.inj same
        exact (each p (by rw [show records = _ from rest]; simp)).2.2

/-- When every line of a body is accepted, and when the decoder takes the body whole: no event of the
batch is below the range or offers fields of two types under one key. -/
theorem encode_accepted_iff {R : Rendering X} (lawful : R.Lawful) (batch : EventBatch X) (now : Int64) :
    ((∀ line ∈ lines (encode R batch).buf, Accepted R.toFloatText line) ↔
      ∀ before event after, batch.events = before ++ event :: after →
        Harmless R batch.resource (encode R { batch with events := before }).page event) ∧
    ((∃ points, decodeBody R.toFloatText (encode R batch).buf .ns now = .ok points) ↔
      ∀ before event after, batch.events = before ++ event :: after →
        Harmless R batch.resource (encode R { batch with events := before }).page event) := by
  have sound := encode_lines_sound lawful batch
  have fine := foldl_fine_iff (G := Page.Good R.toFloatText) (F := Page.Fine)
    (f := fun g event => (eventPoints R batch.resource event).foldl (Page.write R.toFloatText) g)
    (fun _ _ good => good.run _) (fun g _ => foldl_back (fun _ _ => Page.fine_of_write) _ g)
    (fun _ event good low => event_fine lawful good low batch.resource event) (.start _)
    (fun p member => absurd member not_mem_nil) batch.events
  simp only [← foldl_flatMap] at fine
  rw [decodeBody, parsePoints_isOk, lines_encode lawful]
  simp only [forall_mem_map, encode_page]
  rw [show (encode R batch).lines = _ from congrArg Page.lines (encode_page R batch)] at sound ⊢
  refine ⟨Iff.trans ?_ fine, Iff.trans ?_ fine⟩
  · exact forall₂_congr fun p member => (accepted_text lawful.toLawful (sound p member) now).1
  · exact forall₂_congr fun p member => (accepted_text lawful.toLawful (sound p member) _).2

/-- The double nearest to a count, ties to even: the 53 bits from its highest one on, under its exponent. -/
def nearest (n : UInt64) : F64 :=
  let shifted := n.toNat * 2 ^ 63 / 2 ^ n.toNat.log2
  let up := 2 ^ 10 < shifted % 2 ^ 11 ∨ shifted % 2 ^ 12 = 2 ^ 11 + 2 ^ 10
  if n = 0 then .zero
  else ⟨((n.toNat.log2 + 1022) * 2 ^ 52 + shifted / 2 ^ 11 + if up then 1 else 0).toUInt64⟩

theorem isFinite_ofNat {bits : Nat} (below : bits < 0x7ff0000000000000) :
    (F64.mk bits.toUInt64).isFinite = true := by
  refine decide_eq_true (UInt64.lt_of_le_of_lt (b := bits.toUInt64) Nat.and_le_left ?_)
  rw [UInt64.lt_iff_toNat_lt]
  show bits % 2 ^ 64 < 0x7ff0000000000000
  omega

theorem nearest_isFinite (n : UInt64) : (nearest n).isFinite = true := by
  unfold nearest
  by_cases none : n = 0
  · rw [if_pos none]
    rfl
  · have positive : n.toNat ≠ 0 := fun zero => none (UInt64.toNat_inj.mp zero)
    have exponent : n.toNat.log2 < 64 := (Nat.log2_lt positive).mpr n.toNat_lt
    have shifted : n.toNat * 2 ^ 63 / 2 ^ n.toNat.log2 < 2 ^ 64 := by
      have high := @Nat.lt_log2_self n.toNat
      rw [pow_succ] at high
      rw [Nat.div_lt_iff_lt_mul (by positivity)]
      omega
    rw [if_neg none]
    exact isFinite_ofNat (by split <;> omega)

/-- The numbers that one, two and three are printed as; the other doubles have those from `2 ^ 64` on. -/
def numeral (v : F64) : Nat :=
  if v.bits = 0x3ff0000000000000 then 1
  else if v.bits = 0x4000000000000000 then 2
  else if v.bits = 0x4008000000000000 then 3
  else v.bits.toNat + 2 ^ 64

def double (n : Nat) : UInt64 :=
  if n = 1 then 0x3ff0000000000000
  else if n = 2 then 0x4000000000000000
  else if n = 3 then 0x4008000000000000
  else (n - 2 ^ 64).toUInt64

theorem double_numeral (v : F64) : double (numeral v) = v.bits := by
  unfold numeral
  split_ifs with one two three
  · exact one.symm
  · exact two.symm
  · exact three.symm
  · rw [double, if_neg (by omega), if_neg (by omega), if_neg (by omega), Nat.add_sub_cancel]
    exact UInt64.ofNat_toNat

/-- One, two, three and a half as the standard library prints them. -/
def Rendering.sample : Rendering .plain where
  print v := if v.bits = 0x3fe0000000000000 then "0.5" else decimal (numeral v)
  parse text := some ⟨if text = [0x30, 0x2e, 0x35] then 0x3fe0000000000000 else double (Decimal.value text)⟩
  ofCount := nearest
  quantile _ _ := none
  sketchCount _ := 0
  sketchSum _ := .zero
  sketchOf _ := []
  estimate _ := 0

theorem utf8Bytes_half : utf8Bytes "0.5" = [0x30, 0x2e, 0x35] := by decide +kernel

theorem Rendering.sample_lawful : Rendering.sample.Lawful where
  spelled v _ := by
    simp only [sample]
    split
    · exact ⟨[], [0x30], [0x2e, 0x35], utf8Bytes_half, .inl rfl, rfl, .inr ⟨[0x35], rfl, rfl⟩⟩
    · refine ⟨[], Decimal.print (numeral v), [], ?_, .inl rfl, ?_, .inl rfl⟩
      · rw [append_nil]
        exact utf8Bytes_decimal _
      · simp only [isDigits, Bool.and_eq_true, decide_eq_true_eq, all_eq_true]
        exact ⟨print_ne_nil _, fun b mem => isDigit_of_mem_print mem⟩
  parsed v _ := by
    simp only [sample]
    split
    · rename_i half
      rw [utf8Bytes_half, if_pos rfl, ← half]
    · have other : Decimal.print (numeral v) ≠ [0x30, 0x2e, 0x35] := by
        intro same
        have digit := @isDigit_of_mem_print (numeral v) 0x2e (by rw [same]; decide)
        exact absurd digit (by decide)
      rw [utf8Bytes_decimal, if_neg other, value_print, double_numeral]
  counted := nearest_isFinite

/-- A batch of one event with the measurement `m`, string fields and metrics. -/
def carrierBatch (timestamp : Int64) (metrics : List (String × MetricKind .plain))
    (texts : List (String × String)) :
    EventBatch .plain where
  resource := ⟨AttrMap.empty, 0, none⟩
  scope := none
  events := [{
    timestamp
    attributes := texts.foldl (fun m t => m.insertSym (fieldPrefix ++ t.1) (.str t.2))
      (AttrMap.empty.insertSym attrMeasurement (.str "m"))
    log := none
    metrics := metrics.map fun m => ⟨m.1, none, none, 0, [], 0, m.2⟩
    span := none }]

/-- An integer field beside a string field of another key, in range. -/
theorem encode_accepted_sample : ∃ points, decodeBody Rendering.sample.toFloatText
      (encode .sample (carrierBatch 7 [("m.f", .gauge (.i64 1))] [("g", "x")])).buf .ns 0 = .ok points := by
  refine (encode_accepted_iff Rendering.sample_lawful _ 0).2.mpr fun before event after same => ?_
  have member : event ∈ (carrierBatch 7 [("m.f", .gauge (.i64 1))] [("g", "x")]).events := by
    rw [same]
    simp
  have carries : ∀ event ∈ (carrierBatch 7 [("m.f", .gauge (.i64 1))] [("g", "x")]).events,
      minTimestampNs ≤ event.timestamp ∧ carrierMeasurement event = some "m" ∧
        OneType (takenFields (offered event "m")) := by decide +kernel
  obtain ⟨ranged, measured, one⟩ := carries event member
  refine ⟨fun _ => ranged, fun measurement p carried _ _ => ?_⟩
  cases measured.symm.trans carried
  exact one

/-- An integer field and a string field of one key, and an event below the range: the decoder refuses the
line, and with it the body. -/
theorem poisoned_bodies : decodeBody Rendering.sample.toFloatText
        (encode .sample (carrierBatch 7 [("m.f", .gauge (.i64 1))] [("f", "x")])).buf .ns 0 =
      .error ⟨1, utf8Bytes "m f=1i,f=\"x\" 7",
        "field type conflict: input field \"f\" on measurement \"m\" is type string, already exists as type integer"⟩ ∧
    decodeBody Rendering.sample.toFloatText
        (encode .sample (carrierBatch Int64.minValue [("m.f", .gauge (.i64 1))] [])).buf .ns 0 =
      .error ⟨1, utf8Bytes "m f=1i -9223372036854775808",
        "time outside range -9223372036854775806 - 9223372036854775806"⟩ := by decide +kernel

end Logit.Influx
