import Logit.Spool.State

namespace Logit.Spool

open ByteCodec Native List

/-- What a file handle has handed to the blocking pool: the bytes of a write that are not on disk
yet, or a truncation. -/
inductive PoolOp
  | write (rest : Bytes)
  | setLen (size : Nat)

/-- A handle has one operation in the pool at most, and keeps its result until it is asked. -/
inductive HandleIo
  | idle
  | busy (op : PoolOp)
  | done (ok : Bool)

structure Handle where
  seq : Nat
  io : HandleIo

/-- A read in progress: where it starts, and the tracked length it was started with. -/
structure PendingRead where
  seg : Nat
  offset : Nat
  segLen : Option Nat

variable (F : RecordFormat)

/-- A push in progress, with its record encoded. -/
structure Push where
  item : F.Item
  record : Bytes
  written : F.record item = .ok record
  madeRoom : Bool

/-- The await a push is at. A repair or rotation is the write's own, or the one that makes room. -/
inductive Stage
  | blocked
  | evicting (read : PendingRead)
  | repairFlush (makeRoom : Bool) (before : Nat)
  | repairOpen (makeRoom : Bool) (before : Nat)
  | repairSetLen (makeRoom : Bool)
  | rotateSync (makeRoom : Bool)
  | rotateCreate (makeRoom : Bool)
  | rotateSyncDir (makeRoom : Bool)
  | opening
  | writing (rest : Bytes)

inductive ReadMode
  | peek
  | peekAt (n : Nat)

/-- The queue and its directory. The one producer's push and the one consumer's read are each at an
await, or not under way. Creates that outlived their push are still in the pool. -/
structure Queue where
  disk : Disk
  store : Store F
  handle : Option Handle
  needsRepair : Option Nat
  rotationStarted : Bool
  pushing : Option (Push F × Stage)
  orphans : List Nat
  reader : Option (ReadMode × PendingRead)
  closed : Bool

/-- What callers see, and what the queue counts. -/
inductive Obs
  | accepted (item : F.Item)
  | dropped (item : F.Item)
  | failed (item : F.Item)
  | cancelled (item : F.Item)
  | evicted (v : F.Value)
  | peeked (n : Nat) (v : F.Value)
  | committed (v : F.Value)

/-- The queue after a call or a poll, and what callers saw of it. -/
abbrev Reaction := Queue F × List (Obs F)

inductive Action
  | write | block | evict | dropNewest | makeRoom

variable {F}

/-- The most bytes that one write hands to the pool. -/
def writeBuffer : Nat := 2 * 1024 * 1024

namespace Queue

def await (q : Queue F) (p : Push F) (stage : Stage) : Reaction F :=
  ({ q with pushing := some (p, stage) }, [])

def leave (q : Queue F) (o : Obs F) : Reaction F := ({ q with pushing := none }, [o])

/-- Hands over more of a record. Once every byte is, and flushed, it counts as queued in the same poll. -/
def handOver (q : Queue F) (p : Push F) (h : Handle) (rest : Bytes) : Reaction F :=
  if rest.isEmpty then
    { q with
      handle := some ⟨h.seq, .idle⟩
      needsRepair := none
      store := q.store.confirm p.record.length }.leave (.accepted p.item)
  else
    { q with handle := some ⟨h.seq, .busy (.write (rest.take writeBuffer))⟩ }.await p
      (.writing (rest.drop writeBuffer))

/-- Goes on with the write of a record through its handle, and with its flush. -/
def writeOn (q : Queue F) (p : Push F) (h : Handle) (rest : Bytes) : Reaction F :=
  match h.io with
  | .busy _ => q.await p (.writing rest)
  | .done false => { q with handle := some ⟨h.seq, .idle⟩ }.leave (.failed p.item)
  | .idle | .done true => q.handOver p h rest

def beginWrite (q : Queue F) (p : Push F) (h : Handle) : Reaction F :=
  { q with needsRepair := some q.store.active.len }.writeOn p h p.record

def openHandle (q : Queue F) (p : Push F) : Reaction F :=
  match q.handle with
  | some h => q.beginWrite p h
  | none => q.await p .opening

def rotateSegment (q : Queue F) (p : Push F) (makeRoom : Bool) : Reaction F :=
  { q with rotationStarted := true }.await p (.rotateSync makeRoom)

def repairTornTail (q : Queue F) (p : Push F) (makeRoom : Bool) (before : Nat) : Reaction F :=
  match q.handle with
  | some _ => q.await p (.repairFlush makeRoom before)
  | none => q.await p (.repairOpen makeRoom before)

variable (cfg : Config) (q : Queue F) (p : Push F)

def afterRepair (makeRoom : Bool) : Reaction F :=
  if makeRoom || q.rotationStarted || cfg.segmentBytes ≤ q.store.active.len then
    q.rotateSegment p makeRoom
  else q.openHandle p

/-- The start of `write_record`, and of `rotate_consumed_active_segment`: both repair first. -/
def writeRecord (makeRoom : Bool) : Reaction F :=
  match q.needsRepair with
  | some before => q.repairTornTail p makeRoom before
  | none => q.afterRepair cfg p makeRoom

def nothingQueued : Bool := q.store.readAhead.isEmpty && q.store.readSeq == q.store.active.seq &&
    q.store.active.len ≤ q.store.readOffset

def action : Action :=
  let full := cfg.maxBytes < q.store.totalBytes + p.record.length
  if !full || cfg.maxBytes < p.record.length || q.closed then .write
  else if q.nothingQueued && !p.madeRoom then .makeRoom
  else if q.nothingQueued then
    match cfg.overflow with
    | .dropNewest => .dropNewest
    | .block | .dropOldest => .write
  else
    match cfg.overflow with
    | .block => .block
    | .dropNewest => .dropNewest
    | .dropOldest => if q.store.readAhead.isEmpty then .evict else .dropNewest

def readFrom (seg offset : Nat) : PendingRead := ⟨seg, offset, segmentLen q.store.segments seg⟩

/-- One round of the loop in `push`, up to its next await. -/
def pushLoop : Reaction F :=
  let q := { q with store := q.store.rollReadCursor }
  match q.action cfg p with
  | .write => q.writeRecord cfg p false
  | .dropNewest => q.leave (.dropped p.item)
  | .makeRoom => q.writeRecord cfg { p with madeRoom := true } true
  | .block => q.await p .blocked
  | .evict =>
    if q.store.readAhead.isEmpty then
      q.await p (.evicting (q.readFrom q.store.readSeq q.store.readOffset))
    else q.writeRecord cfg p false

/-- After a rotation: the write goes on, or the consumed segment is left and the loop goes on. -/
def afterRotate (makeRoom : Bool) : Reaction F :=
  if makeRoom then { q with store := q.store.rollReadCursor }.pushLoop cfg p else q.openHandle p

def push (item : F.Item) : Reaction F :=
  match h : F.record item with
  | .error _ => (q, [.dropped item])
  | .ok record => q.pushLoop cfg ⟨item, record, h, false⟩

/-- What a read finds when it completes. One that fails finds nothing. -/
def readResult (ok : Bool) (read : PendingRead) : ReadOutcome F.Value :=
  if ok then readRecordAt F.parse (q.disk.files read.seg) read.segLen read.offset else .unavailable

/-- The end of `evict_oldest`, and the loop or the write that it goes back to. -/
def evictOldest (read : PendingRead) (ok due : Bool) : Reaction F :=
  match q.readResult ok read with
  | .record v len =>
    if q.store.headAt read.seg read.offset then
      let (q', obs) := { q with store := q.store.evict len due }.pushLoop cfg p
      (q', .evicted v :: obs)
    else q.writeRecord cfg p false
  | .skip delta =>
    match q.store.skipCorrupt read.seg read.offset delta due with
    | some store => { q with store }.pushLoop cfg p
    | none => q.writeRecord cfg p false
  | .unavailable => q.writeRecord cfg p false

/-- Resumes the push. The operation it waits for, if its result is not with the handle, succeeds or
fails; `due` says whether a cursor checkpoint is. A poll while the handle is busy resumes nothing. -/
def poll (ok due : Bool) : Option (Reaction F) :=
  match q.pushing with
  | none => none
  | some (p, .blocked) => some (q.pushLoop cfg p)
  | some (p, .evicting read) => some (q.evictOldest cfg p read ok due)
  | some (p, .repairFlush makeRoom before) =>
    match q.handle with
    | none | some ⟨_, .busy _⟩ => none
    -- A failed flush only clears the handle's error; the truncation goes on.
    | some ⟨seq, _⟩ =>
      some ({ q with handle := some ⟨seq, .busy (.setLen before)⟩ }.await p (.repairSetLen makeRoom))
  | some (p, .repairOpen makeRoom before) =>
    if ok && (q.disk.files q.store.active.seq).isSome then
      some ({ q with handle := some ⟨q.store.active.seq, .busy (.setLen before)⟩ }.await p
        (.repairSetLen makeRoom))
    else some (q.leave (.failed p.item))
  | some (p, .repairSetLen makeRoom) =>
    match q.handle with
    | some ⟨seq, .done true⟩ =>
      some ({ q with handle := some ⟨seq, .idle⟩, needsRepair := none }.afterRepair cfg p makeRoom)
    | some ⟨seq, .done false⟩ =>
      some ({ q with handle := some ⟨seq, .idle⟩ }.leave (.failed p.item))
    | _ => none
  | some (p, .rotateSync makeRoom) =>
    match q.handle with
    | some ⟨_, .busy _⟩ => none
    | some ⟨seq, _⟩ =>
      some ({ q with handle := some ⟨seq, .idle⟩ }.await p (.rotateCreate makeRoom))
    | none => some (q.await p (.rotateCreate makeRoom))
  | some (p, .rotateCreate makeRoom) =>
    let next := q.store.active.seq + 1
    if ok then
      some ({ q with disk := q.disk.create next }.await p (.rotateSyncDir makeRoom))
    -- The file of a cancelled rotation may be there: then the old segment takes no more writes.
    else if (q.disk.files next).isSome then some (q.leave (.failed p.item))
    else some ({ q with rotationStarted := false }.afterRotate cfg p makeRoom)
  | some (p, .rotateSyncDir makeRoom) =>
    let next := q.store.active.seq + 1
    some ({ q with
      handle := some ⟨next, .idle⟩
      store := q.store.addSegment next
      rotationStarted := false }.afterRotate cfg p makeRoom)
  | some (p, .opening) =>
    let seq := q.store.active.seq
    if ok then
      some ({ q with
        disk := q.disk.create seq
        handle := some ⟨seq, .idle⟩ }.beginWrite p ⟨seq, .idle⟩)
    else some (q.leave (.failed p.item))
  | some (p, .writing rest) =>
    match q.handle with
    | none | some ⟨_, .busy _⟩ => none
    | some h => some (q.writeOn p h rest)

/-- Drops a push at its await. What it handed to the pool stays there. -/
def cancel : Option (Reaction F) :=
  match q.pushing with
  | none => none
  | some (p, stage) =>
    let orphans :=
      match stage with
      | .rotateCreate _ => (q.store.active.seq + 1) :: q.orphans
      | .opening => q.store.active.seq :: q.orphans
      | _ => q.orphans
    some ({ q with orphans }.leave (.cancelled p.item))

/-- The pool puts some bytes of the handle's write on disk. -/
def poolWrite (count : Nat) : Option (Queue F) :=
  match q.handle with
  | some ⟨seq, .busy (.write rest)⟩ =>
    some { q with
      disk := q.disk.append seq (rest.take count)
      handle := some ⟨seq, .busy (.write (rest.drop count))⟩ }
  | _ => none

def poolDone (ok : Bool) : Option (Queue F) :=
  match q.handle with
  | some ⟨seq, .busy op⟩ =>
    let disk :=
      match ok, op with
      | true, .write rest => q.disk.append seq rest
      | true, .setLen size => q.disk.setLen seq size
      | false, _ => q.disk
    some { q with disk, handle := some ⟨seq, .done ok⟩ }
  | _ => none

def orphanDone (seq : Nat) (ok : Bool) : Option (Queue F) :=
  if seq ∈ q.orphans then
    some { q with
      orphans := q.orphans.erase seq
      disk := if ok then q.disk.create seq else q.disk }
  else none

/-- One round of the loop in `peek`. It waits, or ends with nothing, when nothing is readable. -/
def peekLoop : Reaction F :=
  let st := q.store.rollReadCursor
  let q := { q with store := st }
  match st.readAhead with
  | head :: _ => ({ q with reader := none }, [.peeked 0 head.value])
  | [] =>
    if st.readable st.readSeq st.readOffset then
      ({ q with reader := some (.peek, q.readFrom st.readSeq st.readOffset) }, [])
    else ({ q with reader := none }, [])

def peekAt (q : Queue F) (n : Nat) : Reaction F :=
  let st := if n = 0 && q.store.readAhead.isEmpty then q.store.rollReadCursor else q.store
  let q := { q with store := st }
  match st.readAhead[n]? with
  | some cached => (q, [.peeked n cached.value])
  | none =>
    if st.readAhead.length < n then (q, [])
    else
      match st.nextReadPosition with
      | none => (q, [])
      | some (seg, offset) => ({ q with reader := some (.peekAt n, q.readFrom seg offset) }, [])

/-- The end of a read of `peek`, and the loop it goes back to. A record is kept only if the head is
still where the read began. -/
def peekDone (read : PendingRead) (ok due : Bool) : Reaction F :=
  match q.readResult ok read with
  | .record v len =>
    if q.store.headAt read.seg read.offset then
      { q with store := q.store.reserve ⟨v, read.seg, read.offset, len⟩ }.peekLoop
    else q.peekLoop
  | .skip delta =>
    let store := (q.store.skipCorrupt read.seg read.offset delta due).getD q.store
    { q with store }.peekLoop
  | .unavailable => (q, [])

/-- The end of a read of `peekAt`. A record is kept only if the read was of the next one still. -/
def peekAtDone (n : Nat) (read : PendingRead) (ok due : Bool) : Reaction F :=
  match q.readResult ok read with
  | .record v len =>
    if q.store.readAhead.length = n ∧ q.store.nextReadPosition = some (read.seg, read.offset) then
      ({ q with store := q.store.reserve ⟨v, read.seg, read.offset, len⟩ }, [.peeked n v])
    else (q, [])
  | .skip delta =>
    let skipped := (q.store.skipCorrupt read.seg read.offset delta due).getD q.store
    ({ q with store := if n = 0 then skipped else q.store }, [])
  | .unavailable => (q, [])

def readDone (ok due : Bool) : Option (Reaction F) :=
  match q.reader with
  | none => none
  | some (.peek, read) => some ({ q with reader := none }.peekDone read ok due)
  | some (.peekAt n, read) => some ({ q with reader := none }.peekAtDone n read ok due)

def commit (q : Queue F) (due : Bool) : Reaction F :=
  let (store, released) := q.store.commit due
  ({ q with store }, released.toList.map .committed)

/-- The persist worker's next step: the cursor of its oldest job, then each unlink of that job. -/
def work (ok : Bool) : Option (Queue F) :=
  match q.store.jobs with
  | [] => none
  | ⟨some c, unlink⟩ :: later =>
    some { q with
      disk := if ok then { q.disk with cursor := some c } else q.disk
      store := { q.store with jobs := ⟨none, unlink⟩ :: later } }
  | ⟨none, seq :: unlink⟩ :: later =>
    some { q with
      disk := if ok then q.disk.unlink seq else q.disk
      store := { q.store with jobs := ⟨none, unlink⟩ :: later } }
  | ⟨none, []⟩ :: later => some { q with store := { q.store with jobs := later } }

end Queue

variable (F)

inductive Event
  | push (item : F.Item)
  | poll (ok due : Bool)
  | cancel
  | poolWrite (count : Nat)
  | poolDone (ok : Bool)
  | orphanDone (seq : Nat) (ok : Bool)
  | peek
  | peekAt (n : Nat)
  | readDone (ok due : Bool)
  | dropRead
  | commit (due : Bool)
  | work (ok : Bool)
  | close

variable {F}

/-- One step of the queue: a call, the next poll of one under way, or a step of the pool or of the
persist worker. The producer has one push under way at most, the consumer one read. -/
def Queue.step (cfg : Config) (q : Queue F) : Event F → Option (Reaction F)
  | .push item => if q.pushing.isNone then some (q.push cfg item) else none
  | .poll ok due => q.poll cfg ok due
  | .cancel => q.cancel
  | .poolWrite count => (q.poolWrite count).map (·, [])
  | .poolDone ok => (q.poolDone ok).map (·, [])
  | .orphanDone seq ok => (q.orphanDone seq ok).map (·, [])
  | .peek => if q.reader.isNone then some q.peekLoop else none
  | .peekAt n => if q.reader.isNone then some (q.peekAt n) else none
  | .readDone ok due => q.readDone ok due
  | .dropRead => some ({ q with reader := none }, [])
  | .commit due => if q.reader.isNone then some (q.commit due) else none
  | .work ok => (q.work ok).map (·, [])
  | .close => some ({ q with closed := true }, [])

/-- A run of the queue, of which every step is allowed, with all that came of it. -/
inductive Runs (cfg : Config) (allow : Queue F → Event F → Prop) : Queue F → List (Obs F) → Queue F → Prop
  | start (q : Queue F) : Runs cfg allow q [] q
  | next {q q' q'' : Queue F} {obs more : List (Obs F)} {e : Event F} :
      Runs cfg allow q obs q' → allow q' e → q'.step cfg e = some (q'', more) →
      Runs cfg allow q (obs ++ more) q''

/-- The steps of a list of events, if each can be taken. -/
def Queue.run (cfg : Config) (q : Queue F) : List (Event F) → Option (Reaction F)
  | [] => some (q, [])
  | e :: events =>
    match q.step cfg e with
    | none => none
    | some (q', obs) => (q'.run cfg events).map fun r => (r.1, obs ++ r.2)

namespace Runs

variable {cfg : Config} {allow allow' : Queue F → Event F → Prop} {q q' q'' : Queue F}
  {obs more : List (Obs F)}

theorem append (first : Runs cfg allow q obs q') (second : Runs cfg allow q' more q'') :
    Runs cfg allow q (obs ++ more) q'' := by
  induction second with
  | start => rwa [append_nil]
  | next _ allowed step ih =>
    rw [← append_assoc]
    exact .next ih allowed step

theorem of_run {events : List (Event F)} (allowed : ∀ q, ∀ e ∈ events, allow q e)
    (run : q.run cfg events = some (q', obs)) : Runs cfg allow q obs q' := by
  induction events generalizing q obs with
  | nil =>
    cases run
    exact .start _
  | cons e events ih =>
    rw [Queue.run] at run
    split at run
    · cases run
    · rename_i middle first step
      obtain ⟨⟨last, rest⟩, made, same⟩ := Option.map_eq_some_iff.mp run
      cases same
      have one : Runs cfg allow q ([] ++ first) middle := .next (.start q) (allowed q e mem_cons_self) step
      exact one.append (ih (fun q e mem => allowed q e (mem_cons_of_mem _ mem)) made)

end Runs

/-- The event reports no I/O failure. -/
def Event.faultless : Event F → Bool
  | .poll ok _ | .poolDone ok | .orphanDone _ ok | .readDone ok _ | .work ok => ok
  | _ => true

end Logit.Spool
