import Logit.Spool.Walk

namespace Logit.Spool

open ByteCodec Native Logit.Frame List Nat

theorem resync_of_magic {bytes : Bytes} {i : Nat} (marked : magic <+: bytes.drop i) :
    ∃ ahead ≤ i, resync bytes = some ahead := by
  induction bytes generalizing i with
  | nil => simp [magic] at marked
  | cons b rest ih =>
    by_cases here : magic.isPrefixOf (b :: rest) = true
    · exact ⟨0, zero_le i, by rw [resync, if_pos here]⟩
    · cases i with
      | zero => exact absurd (List.isPrefixOf_iff_prefix.mpr marked) here
      | succ i =>
        obtain ⟨ahead, near, found⟩ := ih marked
        exact ⟨ahead + 1, by omega, by rw [resync, if_neg here, found]; rfl⟩

variable {F : RecordFormat} {items : List F.Item} {bytes tail : Bytes} {r : F.Value × Nat}

variable (marks : ∀ {bytes r}, F.parse bytes = .ok r → magic <+: bytes.drop contextLen)
include marks

theorem contextLen_lt_length (parsed : F.parse bytes = .ok r) : contextLen < bytes.length := by
  have long := (marks parsed).length_le
  rw [length_drop, length_magic] at long
  omega

/-- A scan from before the magic of a record comes to one that parses, that record or an earlier one. -/
theorem resyncLoop_of_parse {place scanFrom rounds : Nat} (parsed : F.parse (bytes.drop place) = .ok r)
    (before : scanFrom ≤ place + contextLen) (enough : place + contextLen < scanFrom + rounds) :
    ∃ next r', resyncLoop F.parse bytes rounds scanFrom = some next ∧ F.parse (bytes.drop next) = .ok r' := by
  have long := contextLen_lt_length marks parsed
  rw [length_drop] at long
  induction rounds generalizing scanFrom with
  | zero => omega
  | succ rounds ih =>
    have marked : magic <+: (bytes.drop scanFrom).drop (place + contextLen - scanFrom) := by
      rw [drop_drop, Nat.add_sub_cancel' before, ← drop_drop]
      exact marks parsed
    obtain ⟨ahead, near, found⟩ := resync_of_magic marked
    rw [resyncLoop, if_pos (by omega), found]
    cases here : F.parse (bytes.drop (scanFrom + ahead - contextLen)) with
    | ok r' => exact ⟨_, r', by simp [here], here⟩
    | error e =>
      have other : scanFrom + ahead ≠ place + contextLen := by
        intro same
        rw [same, Nat.add_sub_cancel, parsed] at here
        cases here
      simp only [here]
      exact ih (by omega) (by omega)

/-- What a walk finds in a torn record is what parses past its first byte. -/
theorem walkLoop_torn_iff (bytes : Bytes) {rounds : Nat}
    (torn : tail = [] ∨ ∃ needed, F.parse tail = .error (.truncated needed)) (enough : tail.length ≤ rounds) :
    ((walkLoop F.parse (bytes ++ tail) (rounds + 1) bytes.length).records = [] ∧
        (walkLoop F.parse (bytes ++ tail) (rounds + 1) bytes.length).goodLen = bytes.length) ↔
      ∀ k, 0 < k → ∀ r, F.parse (tail.drop k) ≠ .ok r := by
  rw [walkLoop]
  rcases torn with rfl | ⟨needed, fails⟩
  · rw [append_nil, if_neg (lt_irrefl _)]
    refine ⟨fun _ k _ r parsed => ?_, fun _ => ⟨rfl, rfl⟩⟩
    have long := contextLen_lt_length marks parsed
    simp at long
  constructor
  · rintro ⟨nothing, _⟩ k positive r parsed
    have long := contextLen_lt_length marks parsed
    rw [length_drop] at long
    have here : F.parse ((bytes ++ tail).drop (bytes.length + k)) = .ok r := by rwa [drop_length_add_append]
    obtain ⟨next, r', found, read⟩ : ∃ next r', resyncAfter F.parse (bytes ++ tail) bytes.length = some next ∧
        F.parse ((bytes ++ tail).drop next) = .ok r' :=
      resyncLoop_of_parse marks here (by omega) (by rw [length_append]; omega)
    have inside := contextLen_lt_length marks read
    rw [length_drop] at inside
    obtain ⟨more, rfl⟩ : ∃ more, rounds = more + 1 := Nat.exists_eq_add_of_le' (by omega)
    rw [if_pos (by rw [length_append]; omega), drop_left, fails] at nothing
    simp only [found] at nothing
    rw [walkLoop, if_pos (by omega), read] at nothing
    cases nothing
  · intro plain
    have none : resyncAfter F.parse (bytes ++ tail) bytes.length = none :=
      resyncLoop_plain plain bytes _ _ (lt_succ_self _)
    split
    · rw [drop_left, fails, none]
      exact ⟨rfl, rfl⟩
    · exact ⟨rfl, rfl⟩

omit marks

theorem le_of_mem_placed {pos : Nat} {found : Nat × F.Value × Nat} (mem : found ∈ placed pos items) :
    pos ≤ found.1 := by
  induction items generalizing pos with
  | nil => cases mem
  | cons item items ih =>
    rcases mem_cons.mp mem with rfl | later
    · exact le_refl _
    · have := ih later
      omega

/-- A cut leaves the records that end at or before it, and a part of one more. -/
theorem placed_cut (records : IsRecords items bytes) (pos cut : Nat) :
    ∃ done front tail, IsRecords done front ∧ bytes.take cut = front ++ tail ∧
      (tail = [] ∨ ∃ needed, F.parse tail = .error (.truncated needed)) ∧
      (placed pos items).filter (fun r => r.1 + r.2.2 ≤ pos + cut) = placed pos done ∧
      ((placed pos done).map (·.2.2)).sum = front.length := by
  obtain ⟨parts, all, rfl⟩ := records
  induction all generalizing pos cut with
  | nil => exact ⟨[], [], [], ⟨[], .nil, rfl⟩, by simp, .inl rfl, rfl, rfl⟩
  | @cons item part items parts written all ih =>
    have length := F.lengthOf_record written
    by_cases fits : part.length ≤ cut
    · obtain ⟨done, front, tail, whole, split, torn, kept, sum⟩ := ih (pos + part.length) (cut - part.length)
      refine ⟨item :: done, part ++ front, tail, whole.cons written, ?_, torn, ?_, ?_⟩
      · rw [flatten_cons, take_append, take_of_length_le fits, split, append_assoc]
      · rw [show pos + part.length + (cut - part.length) = pos + cut by omega] at kept
        rw [placed, length, filter_cons_of_pos (by simpa using fits), kept, placed, length]
      · rw [placed, length, map_cons, sum_cons, sum, length_append]
    · refine ⟨[], [], part.take cut, ⟨[], .nil, rfl⟩, ?_, .inr ?_, ?_, rfl⟩
      · rw [flatten_cons, take_append_of_le_length (by omega), nil_append]
      · obtain ⟨needed, _, fails⟩ := F.parse_short written (List.take_prefix cut part) (by rw [length_take]; omega)
        exact ⟨needed, fails⟩
      · refine filter_eq_nil_iff.mpr fun found mem => ?_
        rw [placed, length] at mem
        rw [decide_eq_true_eq]
        rcases mem_cons.mp mem with rfl | later
        · simpa using fits
        · have past := le_of_mem_placed later
          omega

theorem hopRecords_magic {X : Externals} {Z : BlockCodec} {compression : Compression} {bytes : Bytes}
    {r : (hopRecords X Z compression).Value × Nat} (parsed : (hopRecords X Z compression).parse bytes = .ok r) :
    magic <+: bytes.drop contextLen :=
  parseRecord_magic parsed ▸ take_prefix 4 _

/-- A walk of records cut anywhere reports those that end at or before the cut, and ends where they do,
exactly if no record parses from inside what is left of the next one. -/
theorem walkSegment_cut_iff (X : Externals) (Z : BlockCodec) (compression : Compression)
    {items : List (hopRecords X Z compression).Item} {bytes : Bytes} (records : IsRecords items bytes) (cut : Nat) :
    let walk := walkSegment (hopRecords X Z compression).parse (bytes.take cut) 0
    let whole := (placed 0 items).filter fun r => r.1 + r.2.2 ≤ cut
    (walk.records = whole ∧ walk.goodLen = (whole.map (·.2.2)).sum) ↔
      ∀ k, (whole.map (·.2.2)).sum < k → ∀ r,
        (hopRecords X Z compression).parse ((bytes.take cut).drop k) ≠ .ok r := by
  intro walk whole
  obtain ⟨done, front, tail, records, split, torn, kept, sum⟩ := placed_cut records 0 cut
  obtain ⟨rounds, enough, walked⟩ := walkSegment_past records tail
  have inner := walkLoop_torn_iff hopRecords_magic front torn enough
  have same : whole = placed 0 done := by rw [← kept, zero_add]
  rw [← split] at walked
  rw [show walk = _ from walked, same, sum, split]
  refine Iff.trans (and_congr_left' append_right_eq_self) (inner.trans ?_)
  constructor
  · intro plain k past r parsed
    obtain ⟨more, rfl⟩ := Nat.exists_eq_add_of_lt past
    rw [add_assoc, drop_length_add_append] at parsed
    exact plain _ (succ_pos more) r parsed
  · intro plain k positive r parsed
    refine plain (front.length + k) (by omega) r ?_
    rwa [drop_length_add_append]

/-- An item whose batch holds some bytes as they are. -/
def Spoolable.carrying (bytes : Bytes) : Spoolable Externals.plain where
  item := { (Spoolable.empty 2 (by decide)).item with
    batch := ⟨{ Resource.start with schemaUrl := some bytes }, none, []⟩ }
  shallow := ⟨shallowMap_empty, nofun, fun _ mem => absurd mem List.not_mem_nil⟩
  fits := (Spoolable.empty 2 (by decide)).fits
  numbered := (Spoolable.empty 2 (by decide)).numbered

def plainRecord (item : Spoolable Externals.plain) : Bytes := (plainRecords.record item).toOption.getD []

theorem record_plain (item : Spoolable Externals.plain)
    (written : (plainRecords.record item).toOption.isSome = true) :
      plainRecords.record item = .ok (plainRecord item) := by
  unfold plainRecord
  cases made : plainRecords.record item with
  | ok bytes => rfl
  | error e =>
    rw [made] at written
    cases written

/-- A record that was never written is reported from inside one that holds its bytes, cut short. -/
theorem walkSegment_embedded :
    let item := Spoolable.carrying (plainRecord (.empty 1 (by decide)))
    IsRecords (F := plainRecords) [item] (plainRecord item) ∧
      (placed (F := plainRecords) 0 [item]).filter (fun r => r.1 + r.2.2 ≤ 141) = [] ∧
      (walkSegment plainRecords.parse ((plainRecord item).take 141) 0).records.length = 1 :=
  ⟨⟨[_], .cons (record_plain _ (by decide +kernel)) .nil, by simp⟩, length_eq_zero_iff.mp (by decide +kernel),
    by decide +kernel⟩

/-- Two records of 70 bytes, cut at byte 100: the first is kept, and nothing in the torn second parses. -/
theorem walkSegment_cut_iff_torn :
    let first := Spoolable.empty 1 (by decide)
    let second := Spoolable.empty 2 (by decide)
    let bytes := plainRecord first ++ plainRecord second
    IsRecords (F := plainRecords) [first, second] bytes ∧ bytes.length = 140 ∧
      (walkSegment plainRecords.parse (bytes.take 100) 0).records =
        (placed (F := plainRecords) 0 [first, second]).filter (fun r => r.1 + r.2.2 ≤ 100) ∧
      (walkSegment plainRecords.parse (bytes.take 100) 0).goodLen = 70 := by
  intro first second bytes
  have written : IsRecords (F := plainRecords) [first, second] bytes :=
    ⟨_, .cons (record_plain _ (by decide +kernel)) (.cons (record_plain _ (by decide +kernel)) .nil),
      by simp [bytes]⟩
  have nothing : ∀ k < 100, 70 < k → (plainRecords.parse ((bytes.take 100).drop k)).toOption.isNone = true := by
    decide +kernel
  have kept : (((placed (F := plainRecords) 0 [first, second]).filter
      fun r => r.1 + r.2.2 ≤ 100).map (·.2.2)).sum = 70 := by
    decide +kernel
  have walked := (walkSegment_cut_iff Externals.plain .plain .none written 100).mpr fun k past r parsed => by
    have long := contextLen_lt_length hopRecords_magic parsed
    rw [length_drop, length_take] at long
    have none := nothing k (by omega) (kept ▸ past)
    rw [parsed] at none
    cases none
  exact ⟨written, by decide +kernel, walked.1, walked.2.trans kept⟩

end Logit.Spool
