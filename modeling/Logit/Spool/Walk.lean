import Logit.Spool.Record

namespace Logit.Spool

open ByteCodec Native Logit.Frame List Nat

variable {V : Type} (parse : Bytes → Result (V × Nat))

/-- The scan of `resyncAfter`: each magic is tried as a record that starts a context before it. The
bytes bound the rounds, since every one starts past the last magic. -/
def resyncLoop (bytes : Bytes) : Nat → Nat → Option Nat
  | 0, _ => none
  | rounds + 1, scanFrom =>
    if scanFrom < bytes.length then
      match resync (bytes.drop scanFrom) with
      | none => none
      | some ahead =>
        match parse (bytes.drop (scanFrom + ahead - contextLen)) with
        | .ok _ => some (scanFrom + ahead - contextLen)
        | .error _ => resyncLoop bytes rounds (scanFrom + ahead + 1)
    else none

/-- The start of the first record after the one at `pos` that parses. -/
def resyncAfter (bytes : Bytes) (pos : Nat) : Option Nat :=
  resyncLoop parse bytes bytes.length (pos + contextLen + 1)

/-- What a walk found: each record with its place and length, where it stopped, and how many regions
it skipped. -/
structure WalkOutcome (V : Type) where
  records : List (Nat × V × Nat)
  goodLen : Nat
  corruptSkipped : Nat

def WalkOutcome.after (first : List (Nat × V × Nat)) (outcome : WalkOutcome V) : WalkOutcome V :=
  { outcome with records := first ++ outcome.records }

def isTruncated : CodecError → Bool
  | .truncated _ => true
  | _ => false

/-- The loop of `walkSegment`. Every round moves on, so the bytes bound the rounds. -/
def walkLoop (bytes : Bytes) : Nat → Nat → WalkOutcome V
  | 0, pos => ⟨[], pos, 0⟩
  | rounds + 1, pos =>
    if pos < bytes.length then
      match parse (bytes.drop pos) with
      | .ok (v, consumed) =>
        let after := walkLoop bytes rounds (pos + consumed)
        { after with records := (pos, v, consumed) :: after.records }
      | .error e =>
        match resyncAfter parse bytes pos with
        | some next =>
          let after := walkLoop bytes rounds next
          { after with corruptSkipped := after.corruptSkipped + 1 }
        -- Nothing parses past a record that was cut short: a torn tail.
        | none => if isTruncated e then ⟨[], pos, 0⟩ else ⟨[], bytes.length, 1⟩
    else ⟨[], pos, 0⟩

def walkSegment (bytes : Bytes) (startOffset : Nat) : WalkOutcome V :=
  walkLoop parse bytes (bytes.length + 1) startOffset

/-- What a read at the cursor found: a record and how far past it lies, corruption up to the end of
the segment, or nothing for now. -/
inductive ReadOutcome (V : Type)
  | record (v : V) (delta : Nat)
  | skip (delta : Nat)
  | unavailable

def readChunkInitial : Nat := 8 * 1024

/-- The read that grows by what a record cut short asks for, over the file from the offset on. It
ends with an outcome, or with bytes that hold no record at their front. -/
def readLoop (rest : Bytes) (remaining : Nat) : Nat → Nat → Except Bytes (ReadOutcome V)
  | 0, _ => .ok .unavailable
  | rounds + 1, chunkLen =>
    let buf := rest.take chunkLen
    if buf.length < chunkLen then .ok .unavailable
    else
      match parse buf with
      | .ok (v, consumed) => .ok (.record v consumed)
      | .error (.truncated needed) =>
        if buf.length < remaining then
          readLoop rest remaining rounds (min (buf.length + needed) remaining)
        else .error buf
      | .error _ => .error buf

/-- One record of a segment file at an offset, of which no more is looked at than the tracked
length. -/
def readRecordAt (file : Option Bytes) (segLen : Option Nat) (offset : Nat) : ReadOutcome V :=
  match segLen, file with
  | some len, some file =>
    let remaining := len - offset
    if remaining = 0 then .unavailable
    else
      match readLoop parse (file.drop offset) remaining (remaining + 1)
          (min readChunkInitial remaining) with
      | .ok outcome => outcome
      | .error buf =>
        let whole := if buf.length = remaining then buf else (file.drop offset).take remaining
        if whole.length = remaining then
          match (walkSegment parse whole 0).records with
          | (pos, v, len) :: _ => .record v (pos + len)
          | [] => .skip remaining
        else .unavailable
  | _, _ => .unavailable

variable {parse} in
/-- No scan from inside bytes that hold no record past their first byte finds one. -/
theorem resyncLoop_plain {tail : Bytes} (plain : ∀ k, 0 < k → ∀ v, parse (tail.drop k) ≠ .ok v)
    (before : Bytes) (rounds scanFrom : Nat) (inside : before.length + contextLen < scanFrom) :
    resyncLoop parse (before ++ tail) rounds scanFrom = none := by
  induction rounds generalizing scanFrom with
  | zero => rfl
  | succ rounds ih =>
    rw [resyncLoop]
    by_cases within : scanFrom < (before ++ tail).length
    · rw [if_pos within]
      cases resync ((before ++ tail).drop scanFrom) with
      | none => rfl
      | some ahead =>
        obtain ⟨k, start, positive⟩ : ∃ k, scanFrom + ahead - contextLen = before.length + k ∧ 0 < k :=
          ⟨scanFrom + ahead - contextLen - before.length, by omega, by omega⟩
        simp only [start, drop_length_add_append]
        cases parsed : parse (tail.drop k) with
        | ok v => exact absurd parsed (plain k positive v)
        | error e => exact ih _ (by omega)
    · rw [if_neg within]

variable {F : RecordFormat} {item : F.Item} {bytes : Bytes}

/-- The growing read reaches the end of a whole record, and stops there. The induction is on the
rounds, of which each adds a byte at least. -/
theorem readLoop_record (written : F.record item = .ok bytes) {more : Bytes} {remaining : Nat}
    (fits : bytes.length ≤ remaining) (present : remaining ≤ (bytes ++ more).length)
    {rounds chunkLen : Nat} (some : 0 < rounds) (within : chunkLen ≤ remaining)
    (enough : bytes.length < chunkLen + rounds) :
    readLoop F.parse (bytes ++ more) remaining rounds chunkLen = .ok (.record (F.value item) bytes.length) := by
  induction rounds generalizing chunkLen with
  | zero => cases some
  | succ rounds ih =>
    have length : ((bytes ++ more).take chunkLen).length = chunkLen := by
      rw [length_take]
      omega
    by_cases whole : bytes.length ≤ chunkLen
    · have front : (bytes ++ more).take chunkLen = bytes ++ more.take (chunkLen - bytes.length) := by
        rw [take_append, take_of_length_le whole]
      rw [front] at length
      simp only [readLoop, length, Nat.lt_irrefl, if_false, front, F.parse_record written]
    · have cut : (bytes ++ more).take chunkLen <+: bytes := by
        rw [take_append_of_le_length (by omega)]
        exact take_prefix _ _
      obtain ⟨needed, positive, fails⟩ := F.parse_short written cut (by omega)
      simp only [readLoop, length, Nat.lt_irrefl, if_false, fails]
      rw [if_pos (by omega)]
      exact ih (by omega) (by omega) (by omega)

/-- A read at the start of a whole record within the tracked length finds it. -/
theorem readRecordAt_record (written : F.record item = .ok bytes) {file more : Bytes}
    {len offset : Nat} (here : file.drop offset = bytes ++ more) (fits : offset + bytes.length ≤ len)
    (present : len ≤ file.length) :
    readRecordAt F.parse (some file) (some len) offset = .record (F.value item) bytes.length := by
  have some := F.nonempty written
  have held : len - offset ≤ (bytes ++ more).length := by
    rw [← here, length_drop]
    omega
  have found := readLoop_record written (by omega) held (succ_pos (len - offset))
    (min_le_right readChunkInitial (len - offset)) (by omega)
  simp only [readRecordAt, here, found]
  rw [if_neg (by omega)]

/-- The records of items, one after another. -/
def IsRecords (items : List F.Item) (bytes : Bytes) : Prop :=
  ∃ parts, List.Forall₂ (fun item part => F.record item = .ok part) items parts ∧ bytes = parts.flatten

def RecordFormat.lengthOf (F : RecordFormat) (item : F.Item) : Nat :=
  match F.record item with
  | .ok bytes => bytes.length
  | .error _ => 0

theorem RecordFormat.lengthOf_record (written : F.record item = .ok bytes) : F.lengthOf item = bytes.length := by
  rw [RecordFormat.lengthOf, written]

/-- The records of items as a walk reports them, one after another from a place on. -/
def placed : Nat → List F.Item → List (Nat × F.Value × Nat)
  | _, [] => []
  | pos, item :: items => (pos, F.value item, F.lengthOf item) :: placed (pos + F.lengthOf item) items

variable {items : List F.Item}

theorem IsRecords.cons {rest : Bytes} (written : F.record item = .ok bytes) (others : IsRecords items rest) :
    IsRecords (item :: items) (bytes ++ rest) := by
  obtain ⟨parts, all, rfl⟩ := others
  exact ⟨bytes :: parts, .cons written all, rfl⟩

variable (records : IsRecords items bytes)
include records

theorem IsRecords.length_le : items.length ≤ bytes.length := by
  obtain ⟨parts, all, rfl⟩ := records
  induction all with
  | nil => exact zero_le _
  | cons written _ ih =>
    have some := F.nonempty written
    rw [length_cons, flatten_cons, length_append]
    omega

theorem walkLoop_records (before tail : Bytes) (rounds : Nat) :
    walkLoop F.parse (before ++ (bytes ++ tail)) (items.length + rounds) before.length =
      (walkLoop F.parse (before ++ (bytes ++ tail)) rounds (before.length + bytes.length)).after
        (placed before.length items) := by
  obtain ⟨parts, all, rfl⟩ := records
  induction all generalizing before with
  | nil => simp [placed, WalkOutcome.after]
  | @cons item part items parts written all ih =>
    have some := F.nonempty written
    have here : (before ++ ((part :: parts).flatten ++ tail)).drop before.length =
        part ++ (parts.flatten ++ tail) := by rw [drop_left, flatten_cons, append_assoc]
    have inside : before.length < (before ++ ((part :: parts).flatten ++ tail)).length := by
      rw [flatten_cons, length_append, length_append, length_append]
      omega
    have rest := ih (before ++ part)
    have same : before ++ part ++ (parts.flatten ++ tail) = before ++ ((part :: parts).flatten ++ tail) := by
      rw [flatten_cons, append_assoc, append_assoc]
    rw [same, length_append] at rest
    rw [length_cons, add_right_comm, walkLoop, if_pos inside, here, F.parse_record written]
    simp only [rest, WalkOutcome.after, placed, F.lengthOf_record written, cons_append]
    rw [flatten_cons, length_append, add_assoc]

/-- A walk of a segment that starts with whole records comes to their end with rounds to spare. -/
theorem walkSegment_past (tail : Bytes) : ∃ rounds, tail.length ≤ rounds ∧ walkSegment F.parse (bytes ++ tail) 0 =
      (walkLoop F.parse (bytes ++ tail) (rounds + 1) bytes.length).after (placed 0 items) := by
  have small := records.length_le
  have walked := walkLoop_records records [] tail ((bytes ++ tail).length - items.length + 1)
  have rounds : items.length + ((bytes ++ tail).length - items.length + 1) = (bytes ++ tail).length + 1 := by
    rw [length_append]
    omega
  rw [rounds, length_nil, zero_add] at walked
  exact ⟨(bytes ++ tail).length - items.length, by rw [length_append]; omega, walked⟩

theorem walkSegment_records : (walkSegment F.parse bytes 0).goodLen = bytes.length := by
  obtain ⟨rounds, _, walked⟩ := walkSegment_past records []
  rw [append_nil] at walked
  rw [walked, walkLoop, if_neg (Nat.lt_irrefl _)]
  rfl

end Logit.Spool
