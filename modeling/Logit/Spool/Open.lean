import Logit.Spool.Queue

namespace Logit.Spool

open ByteCodec Native

/-- A change that opening a spool makes to its directory. -/
inductive DiskOp
  | create (seq : Nat)
  | setLen (seq size : Nat)
  | persist (c : Cursor)
  | unlink (seq : Nat)

def Disk.apply (d : Disk) : DiskOp → Disk
  | .create seq => d.create seq
  | .setLen seq size => d.setLen seq size
  | .persist c => { d with cursor := some c }
  | .unlink seq => d.unlink seq

def Disk.fileLen (d : Disk) (seq : Nat) : Nat := ((d.files seq).getD []).length

/-- What `open` finds: the segments before the active one, the active one with its good length, and
where reading resumes. -/
structure Found where
  closed : List Segment
  active : Segment
  resume : Cursor
  repair : List DiskOp

/-- The persisted cursor, or the oldest segment when there is none or its segment is gone; never past
a segment's length. -/
def resumeFrom (seqs : List Nat) (segments : List Segment) (oldest : Nat) (cursor : Option Cursor) : Cursor :=
  match cursor with
  | none => ⟨oldest, 0⟩
  | some c =>
    if c.segment ∈ seqs then ⟨c.segment, min c.offset ((segmentLen segments c.segment).getD 0)⟩
    else ⟨oldest, 0⟩

variable (F : RecordFormat)

/-- The directory as `open` finds it. Only the highest segment can be torn, so only that one is
walked and cut to its good length. -/
def Disk.find (d : Disk) : Found :=
  match d.listSegments.getLast? with
  | none => ⟨[], ⟨0, 0⟩, ⟨0, 0⟩, [.create 0]⟩
  | some activeSeq =>
    let goodLen := (walkSegment F.parse ((d.files activeSeq).getD []) 0).goodLen
    let closed := d.listSegments.dropLast.map fun seq => ⟨seq, d.fileLen seq⟩
    let active := ⟨activeSeq, goodLen⟩
    let oldest := d.listSegments.headD activeSeq
    { closed
      active
      resume := resumeFrom d.listSegments (closed ++ [active]) oldest d.cursor
      repair := if goodLen < d.fileLen activeSeq then [.setLen activeSeq goodLen] else [] }

/-- The segments behind the resume point, which an earlier unlink left. -/
def Found.leaked (found : Found) : List Segment := found.closed.takeWhile fun g => g.seq < found.resume.segment

def Found.older (found : Found) : List Segment := found.closed.dropWhile fun g => g.seq < found.resume.segment

/-- The changes `open` makes, in order: the repair, the cursor, then the leaked segments. -/
def Found.ops (found : Found) : List DiskOp :=
  found.repair ++ .persist found.resume :: found.leaked.map fun g => .unlink g.seq

/-- How many records are left past the resume point. -/
def replayed (d : Disk) (resume : Cursor) (segments : List Segment) : Nat := (segments.map fun g =>
    let usable := ((d.files g.seq).getD []).take g.len
    let start := if g.seq = resume.segment then resume.offset else 0
    (walkSegment F.parse usable start).records.length).sum

/-- Opens a spool on what an earlier process left. -/
def openQueue (d : Disk) : Queue F :=
  let found := d.find F
  { disk := found.ops.foldl Disk.apply d
    store :=
      { older := found.older
        active := found.active
        readSeq := found.resume.segment
        readOffset := found.resume.offset
        totalBytes := ((found.older ++ [found.active]).map Segment.len).sum
        queuedRecords := replayed F d found.resume (found.older ++ [found.active])
        readAhead := []
        jobs := [] }
    handle := none
    needsRepair := none
    rotationStarted := false
    pushing := none
    orphans := []
    reader := none
    closed := false }

end Logit.Spool
