import Logit.Sink.Output
import Logit.Spool.Walk

namespace Logit.Spool

open ByteCodec Native List

structure Config where
  maxBytes : Nat
  segmentBytes : Nat
  overflow : Sink.OverflowPolicy

/-- A tracked segment and its confirmed length. -/
structure Segment where
  seq : Nat
  len : Nat
deriving DecidableEq

/-- A read position, as the cursor file holds it. -/
structure Cursor where
  segment : Nat
  offset : Nat
deriving DecidableEq

/-- The spool's directory: its segment files by number, and the cursor file. -/
structure Disk where
  files : Nat → Option Bytes
  bound : Nat
  finite : ∀ n, bound ≤ n → files n = none
  cursor : Option Cursor

namespace Disk

def empty : Disk := ⟨fun _ => none, 0, fun _ _ => rfl, none⟩

variable (d : Disk) (seq : Nat)

def set (file : Option Bytes) : Disk where
  files n := if n = seq then file else d.files n
  bound := max d.bound (seq + 1)
  finite n above := by
    have other : n ≠ seq := by omega
    rw [if_neg other, d.finite n (by omega)]
  cursor := d.cursor

/-- Opens a segment file for append, creating it when it is not there. -/
def create : Disk :=
  match d.files seq with
  | some _ => d
  | none => d.set seq (some [])

def append (bytes : Bytes) : Disk :=
  match d.files seq with
  | some file => d.set seq (some (file ++ bytes))
  | none => d

/-- Cuts a file to a length, or extends it with zeros up to it. -/
def setLen (size : Nat) : Disk :=
  match d.files seq with
  | some file => d.set seq (some (file.take size ++ List.replicate (size - file.length) 0))
  | none => d

def unlink : Disk := d.set seq none

def listSegments : List Nat := (List.range d.bound).filter fun n => (d.files n).isSome

@[simp] theorem set_self (file : Option Bytes) : (d.set seq file).files seq = file := if_pos rfl

variable {d : Disk} {seq n : Nat}

theorem set_other {file : Option Bytes} (other : n ≠ seq) : (d.set seq file).files n = d.files n := if_neg other

theorem unlink_files {file : Bytes} : (d.unlink seq).files n = some file ↔ n ≠ seq ∧ d.files n = some file := by
  by_cases gone : n = seq <;> simp [unlink, set]

@[simp] theorem create_cursor (d : Disk) (seq : Nat) : (d.create seq).cursor = d.cursor := by
  unfold create
  split <;> rfl

@[simp] theorem append_cursor (d : Disk) (seq : Nat) (bytes : Bytes) : (d.append seq bytes).cursor = d.cursor := by
  unfold append
  split <;> rfl

@[simp] theorem setLen_cursor (d : Disk) (seq size : Nat) : (d.setLen seq size).cursor = d.cursor := by
  unfold setLen
  split <;> rfl

theorem create_other (other : n ≠ seq) : (d.create seq).files n = d.files n := by
  unfold create
  split
  · rfl
  · exact set_other other

theorem create_self (d : Disk) (seq : Nat) : (d.create seq).files seq = some ((d.files seq).getD []) := by
  unfold create
  split
  · rename_i file present
    rw [present]
    rfl
  · rename_i absent
    rw [set_self, absent]
    rfl

theorem append_other {bytes : Bytes} (other : n ≠ seq) : (d.append seq bytes).files n = d.files n := by
  unfold append
  split
  · exact set_other other
  · rfl

theorem append_self {seq : Nat} {file : Bytes} (present : d.files seq = some file) (bytes : Bytes) :
    (d.append seq bytes).files seq = some (file ++ bytes) := by simp [append, present]

theorem setLen_other {seq n size : Nat} (other : n ≠ seq) : (d.setLen seq size).files n = d.files n := by
  unfold setLen
  split
  · exact set_other other
  · rfl

theorem setLen_self {seq size : Nat} {file : Bytes} (present : d.files seq = some file)
    (long : size ≤ file.length) : (d.setLen seq size).files seq = some (file.take size) := by
  have none : size - file.length = 0 := by omega
  simp [setLen, present, none]

theorem mem_listSegments {n : Nat} : n ∈ d.listSegments ↔ (d.files n).isSome := by
  rw [listSegments, mem_filter, mem_range]
  constructor
  · exact fun both => both.2
  · intro present
    refine ⟨?_, present⟩
    by_contra above
    rw [d.finite n (by omega)] at present
    cases present

theorem listSegments_sorted (d : Disk) : d.listSegments.Pairwise (· < ·) := pairwise_lt_range.filter _

end Disk

/-- Work for the persist worker: a cursor to make durable, then segments to unlink. -/
structure PersistJob where
  cursor : Option Cursor
  unlink : List Nat

variable (F : RecordFormat)

/-- A record that was read and not committed, where it starts, and how far past it lies. -/
structure ReadAhead where
  value : F.Value
  seg : Nat
  offset : Nat
  len : Nat

/-- What the spool tracks of its records: every segment, of which the last is the one written to,
the commit cursor, the records read ahead of it, and the worker's queue. -/
structure Store where
  older : List Segment
  active : Segment
  readSeq : Nat
  readOffset : Nat
  totalBytes : Nat
  queuedRecords : Nat
  readAhead : List (ReadAhead F)
  jobs : List PersistJob

variable {F}

def segmentLen (segments : List Segment) (seq : Nat) : Option Nat :=
  (segments.find? fun g => g.seq = seq).map Segment.len

namespace Store

variable (st : Store F)

def segments : List Segment := st.older ++ [st.active]

/-- Moves a position off finished segments, and lists those it leaves. Each round goes to a later
segment, so their number bounds the rounds. -/
def rollLoop (st : Store F) : Nat → Nat → Nat → List Nat × Nat × Nat
  | 0, seq, offset => ([], seq, offset)
  | rounds + 1, seq, offset =>
    match segmentLen st.segments seq with
    | none => ([], seq, offset)
    | some len =>
      if st.active.seq = seq ∨ offset < len then ([], seq, offset)
      else
        match (st.segments.map Segment.seq).find? fun s => seq < s with
        | none => ([], seq, offset)
        | some next =>
          let (passed, seq', offset') := st.rollLoop rounds next (offset - len)
          (seq :: passed, seq', offset')

/-- Stops tracking a segment the cursor has left. -/
def dropSegment (seq : Nat) : Store F :=
  match st.older.find? fun g => g.seq = seq with
  | some removed =>
    { st with
      older := st.older.eraseP fun g => g.seq = seq
      totalBytes := st.totalBytes - removed.len }
  | none => st

/-- Whether a position has tracked bytes after it. -/
def readable (seq offset : Nat) : Bool :=
  match segmentLen st.segments seq with
  | some len => offset < len
  | none => false

/-- Rolls the commit cursor off finished segments, and queues its persist and their unlink. -/
def rollReadCursor : Store F :=
  let (passed, seq, offset) := st.rollLoop st.segments.length st.readSeq st.readOffset
  let moved := passed.foldl dropSegment { st with readSeq := seq, readOffset := offset }
  if passed.isEmpty then moved
  else { moved with jobs := moved.jobs ++ [⟨some ⟨seq, offset⟩, passed⟩] }

def readAheadEnd : Nat × Nat :=
  match st.readAhead.getLast? with
  | some last => (last.seg, last.offset + last.len)
  | none => (st.readSeq, st.readOffset)

/-- Where the next record past those read ahead starts, if there is one to read. -/
def nextReadPosition : Option (Nat × Nat) :=
  let (_, seg, offset) := st.rollLoop st.segments.length st.readAheadEnd.1 st.readAheadEnd.2
  if st.readable seg offset then some (seg, offset) else none

/-- After the cursor moved: rolls it, and queues a persist when a checkpoint is due. -/
def afterCursorAdvance (due : Bool) : Store F :=
  let rolled := st.rollReadCursor
  if due then
    { rolled with jobs := rolled.jobs ++ [⟨some ⟨rolled.readSeq, rolled.readOffset⟩, []⟩] }
  else rolled

def advanceReadCursor (len : Nat) (due : Bool) : Store F :=
  { st with readOffset := st.readOffset + len }.afterCursorAdvance due

/-- Whether the head is still the unreserved record at a position. -/
def headAt (seq offset : Nat) : Bool :=
  st.readAhead.isEmpty && st.readSeq == seq && st.readOffset == offset

/-- Moves the cursor past corrupt bytes, if the head has not moved since they were read. -/
def skipCorrupt (seq offset delta : Nat) (due : Bool) : Option (Store F) :=
  if st.headAt seq offset then some (st.advanceReadCursor delta due) else none

/-- Releases the head and moves the cursor past it; with nothing read, only rolls the cursor. -/
def commit (due : Bool) : Store F × Option F.Value :=
  let rolled := st.rollReadCursor
  match rolled.readAhead with
  | [] => (rolled, none)
  | head :: others =>
    let released := { rolled with
      readAhead := others
      queuedRecords := rolled.queuedRecords - 1 }
    (released.advanceReadCursor head.len due, some head.value)

/-- Moves the cursor past a record that nobody has read. -/
def evict (len : Nat) (due : Bool) : Store F :=
  let advanced := st.advanceReadCursor len due
  { advanced with queuedRecords := advanced.queuedRecords - 1 }

def reserve (entry : ReadAhead F) : Store F := { st with readAhead := st.readAhead ++ [entry] }

def confirm (recordLen : Nat) : Store F :=
  { st with
    active := { st.active with len := st.active.len + recordLen }
    totalBytes := st.totalBytes + recordLen
    queuedRecords := st.queuedRecords + 1 }

/-- Makes a new, empty segment the one that is written to. -/
def addSegment (seq : Nat) : Store F :=
  { st with older := st.older ++ [st.active], active := ⟨seq, 0⟩ }

end Store

end Logit.Spool
