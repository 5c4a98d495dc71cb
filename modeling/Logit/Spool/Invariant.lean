import Logit.Lib.Fifo
import Logit.Spool.Queue
import Logit.Spool.StoreInvariant

namespace Logit.Spool

open ByteCodec Native List

variable (F : RecordFormat)

/-- What the code does not keep: every accepted record and how many of them are consumed, where the
session began, the segment that the persist jobs reached and whether one failed to persist its cursor,
and the bytes on disk past the active segment's tracked length. -/
structure Ghost where
  floor : Nat
  lossy : Bool
  start : Nat
  log : Log F
  head : Nat
  tail : Bytes

variable {F} {g g' g'' : Ghost F} {q : Queue F} {p : Push F} {e : Entry F} {st : Store F}
  {obs more : List (Obs F)}

def Ghost.fifo (g : Ghost F) : Fifo F.Item := ⟨g.log.map Entry.item, g.head⟩

/-- What an observation says of the abstract queue. An eviction takes the head like a commit. -/
def Obs.act : Obs F → Option (Fifo.Act F.Item F.Value)
  | .accepted item => some (.put item)
  | .evicted v => some (.take v)
  | .committed v => some (.take v)
  | .peeked n v => some (.look n v)
  | .dropped _ | .failed _ | .cancelled _ => none

/-- The observations are those of an abstract queue. -/
structure Tells (g : Ghost F) (obs : List (Obs F)) (g' : Ghost F) : Prop where
  start : g'.start = g.start
  grown : g.log <+: g'.log
  run : Fifo.Run F.value g.fifo (obs.filterMap Obs.act) g'.fifo

theorem Tells.trans (first : Tells g obs g') (second : Tells g' more g'') : Tells g (obs ++ more) g'' := by
  refine ⟨second.start.trans first.start, first.grown.trans second.grown, ?_⟩
  rw [filterMap_append]
  exact first.run.append second.run

theorem Tells.silent {g : Ghost F} {floor : Nat} {lossy : Bool} {tail : Bytes}
    (quiet : obs.filterMap Obs.act = []) : Tells g obs { g with floor, lossy, tail } := by
  refine ⟨rfl, prefix_refl _, ?_⟩
  rw [quiet]
  exact .start _

theorem Tells.accepted (e : Entry F) {tail : Bytes} :
    Tells g [.accepted e.item] { g with log := g.log ++ [e], tail } := by
  refine ⟨rfl, prefix_append _ _, ?_⟩
  rw [Ghost.fifo, Ghost.fifo, map_append]
  exact .single (.put e.item)

theorem Ghost.entry (found : g.log[g.head]? = some e) : (g.log.map Entry.item)[g.head]? = some e.item := by
  rw [getElem?_map, found]
  rfl

theorem Tells.evicted (found : g.log[g.head]? = some e) :
    Tells g [.evicted (F.value e.item)] { g with head := g.head + 1 } :=
  ⟨rfl, prefix_refl _, .single (.take (Ghost.entry found))⟩

theorem Tells.committed (found : g.log[g.head]? = some e) :
    Tells g [.committed (F.value e.item)] { g with head := g.head + 1 } :=
  ⟨rfl, prefix_refl _, .single (.take (Ghost.entry found))⟩

theorem Tells.peeked {n : Nat} (found : g.log[g.head + n]? = some e) : Tells g [.peeked n (F.value e.item)] g := by
  refine ⟨rfl, prefix_refl _, .single (.look ?_)⟩
  rw [Ghost.fifo, getElem?_map, found]
  rfl

/-- A read is at the start of a whole record, within the length it was started with. -/
structure ReadsRecord (log : Log F) (read : PendingRead) (i : Nat) (e : Entry F) (len : Nat) : Prop where
  entry : log[i]? = some e
  position : (spoolLog F).At log read.seg read.offset i
  inside : e.seg = read.seg
  tracked : read.segLen = some len
  fits : read.offset + e.bytes.length ≤ len
  held : len ≤ (content log read.seg).length

/-- Where the files agree with the log, below the active segment, in it and above it, and what the
cursor file holds. A rotation under way may have left the next segment's file. -/
structure FilesInv (g : Ghost F) (disk : Disk) (active : Nat) (rotating : Bool) : Prop where
  activeFile : disk.files active = some (content g.log active ++ g.tail)
  kept : ∀ n, g.floor ≤ n → n < active → disk.files n = some (content g.log n)
  below : ∀ n file, n < active → disk.files n = some file → file = content g.log n ∨ file = []
  above : ∀ n file, active < n → disk.files n = some file → file = [] ∧ n = active + 1 ∧ rotating = true
  persisted : ∃ c i, disk.cursor = some c ∧ c.segment ≤ g.floor ∧ g.start ≤ i ∧ i ≤ g.head ∧
    (spoolLog F).At g.log c.segment c.offset i ∧ (g.lossy = false → c.segment = g.floor)

/-- What the write handle can be doing. With no repair due, it is idle and nothing is torn. -/
structure HandleInv (tail : Bytes) (active : Segment) (handle : Option Handle)
    (needsRepair : Option Nat) : Prop where
  torn : needsRepair = none → tail = []
  seq : ∀ h, handle = some h → h.seq = active.seq
  idle : needsRepair = none → ∀ h, handle = some h → h.io = .idle
  repair : ∀ before, needsRepair = some before → before = active.len ∧ handle.isSome
  truncates : ∀ h size, handle = some h → h.io = .busy (.setLen size) → size = active.len

/-- What holds of the queue whatever its push is at. -/
structure Core (g : Ghost F) (q : Queue F) : Prop where
  store : StoreInv g.floor g.start g.log g.head q.store
  files : FilesInv g q.disk q.store.active.seq q.rotationStarted
  handle : HandleInv g.tail q.store.active q.handle q.needsRepair
  rotation : q.rotationStarted = true → q.needsRepair = none
  orphans : ∀ n ∈ q.orphans, n ≤ q.store.active.seq ∨ n = q.store.active.seq + 1 ∧ q.rotationStarted = true
  reading : ∀ mode read, q.reader = some (mode, read) → ∃ i e len, ReadsRecord g.log read i e len

/-- What the handle still has to do for a record of which `tail` is on disk and `rest` not handed over. -/
def Writes (record tail rest : Bytes) : HandleIo → Prop
  | .idle | .done true => tail ++ rest = record
  | .busy (.write sent) => tail ++ (sent ++ rest) = record
  | .busy (.setLen _) => False
  | .done false => tail <+: record

/-- A truncation that is under way, or done with nothing left to cut. -/
def Truncates (tail : Bytes) : HandleIo → Prop
  | .busy (.setLen _) => True
  | .done true => tail = []
  | .done false => True
  | _ => False

/-- What holds at each await of a push. -/
def StageInv (g : Ghost F) (q : Queue F) (p : Push F) : Stage → Prop
  | .blocked => True
  | .evicting read => ∃ i e len, ReadsRecord g.log read i e len
  | .repairFlush _ before => q.needsRepair = some before
  | .repairOpen _ _ => False
  | .repairSetLen _ => q.needsRepair.isSome ∧ ∀ h, q.handle = some h → Truncates g.tail h.io
  | .rotateSync _ | .rotateCreate _ => q.rotationStarted = true
  | .rotateSyncDir _ =>
    q.rotationStarted = true ∧ q.disk.files (q.store.active.seq + 1) = some []
  | .opening => q.handle = none ∧ q.needsRepair = none ∧ q.rotationStarted = false
  | .writing rest => q.needsRepair.isSome ∧ ∀ h, q.handle = some h → Writes p.record g.tail rest h.io

structure Inv (g : Ghost F) (q : Queue F) : Prop where
  core : Core g q
  stage : ∀ p stage, q.pushing = some (p, stage) → StageInv g q p stage

/-- A step ends in a queue that some further history explains. -/
def Settles (g : Ghost F) (r : Reaction F) : Prop :=
  ∃ g', Tells g r.2 g' ∧ g'.lossy = g.lossy ∧ Inv g' r.1

theorem Settles.silent {obs : List (Obs F)} (inv : Inv g q) (quiet : obs.filterMap Obs.act = []) :
    Settles g (q, obs) :=
  ⟨g, .silent quiet, rfl, inv⟩

theorem Settles.after (first : Tells g obs g') (same : g'.lossy = g.lossy)
    {r : Reaction F} (rest : Settles g' r) : Settles g (r.1, obs ++ r.2) := by
  obtain ⟨g'', tells, lossy, inv⟩ := rest
  exact ⟨g'', first.trans tells, lossy.trans same, inv⟩

theorem Core.trackedFile (core : Core g q) {n : Nat} (mem : n ∈ q.store.seqs)
    (closed : n ≠ q.store.active.seq) : q.disk.files n = some (content g.log n) := by
  have low := core.store.reached.trans (core.store.least n mem)
  have high := core.store.le_active mem
  exact core.files.kept n low (by omega)

theorem Core.file (core : Core g q) {n : Nat} (mem : n ∈ q.store.seqs) :
    ∃ more, q.disk.files n = some (content g.log n ++ more) := by
  by_cases active : n = q.store.active.seq
  · subst active
    exact ⟨g.tail, core.files.activeFile⟩
  · exact ⟨[], by rw [core.trackedFile mem active, append_nil]⟩

theorem FilesInv.headed {disk : Disk} {active head : Nat} {rotating : Bool}
    (files : FilesInv g disk active rotating) (more : g.head ≤ head) :
    FilesInv { g with head } disk active rotating := by
  obtain ⟨c, i, found, low, from_, upTo, position, exact_⟩ := files.persisted
  exact ⟨files.activeFile, files.kept, files.below, files.above,
    c, i, found, low, from_, upTo.trans more, position, exact_⟩

theorem Core.moved (core : Core g q) {head : Nat} (more : g.head ≤ head)
    (inv : StoreInv g.floor g.start g.log head st) (forward : Forward q.store st) :
    Core { g with head } { q with store := st } := by
  have active := forward.active
  refine ⟨inv, ?_, ?_, core.rotation, ?_, core.reading⟩
  all_goals simp [active]
  · exact core.files.headed more
  · exact core.handle
  · exact core.orphans

theorem Core.rolled (core : Core g q) : Core g { q with store := q.store.rollReadCursor } ∧
      Rolled g.log q.store q.store.rollReadCursor := by
  obtain ⟨inv, rolled⟩ := core.store.rollReadCursor
  exact ⟨core.moved (le_refl _) inv rolled.toForward, rolled⟩

theorem Core.readResult (core : Core g q) {read : PendingRead} {i len : Nat}
    (reads : ReadsRecord g.log read i e len) (mem : read.seg ∈ q.store.seqs) :
    q.readResult true read = .record (F.value e.item) e.bytes.length := by
  obtain ⟨more, file⟩ := core.file mem
  have here : (content g.log read.seg ++ more).drop read.offset =
      e.bytes ++ ((spoolLog F).content (g.log.drop (i + 1)) read.seg ++ more) := by
    have bound : read.offset ≤ (content g.log read.seg).length := reads.position.le_content
    rw [drop_append_of_le_length bound]
    have held := reads.position.drop_content_next reads.entry reads.inside
    change (content g.log read.seg).drop read.offset = e.bytes ++ _ at held
    rw [held, append_assoc]
  have present := reads.held
  rw [Queue.readResult, file, reads.tracked]
  refine readRecordAt_record e.written here reads.fits ?_
  rw [length_append]
  omega

theorem Core.readFrom (core : Core g q) {seg offset i : Nat} (mem : seg ∈ q.store.seqs)
    (position : (spoolLog F).At g.log seg offset i) (found : g.log[i]? = some e) (inside : e.seg = seg) :
    ReadsRecord g.log (q.readFrom seg offset) i e (content g.log seg).length := by
  refine ⟨found, position, inside, core.store.segmentLen mem, ?_, le_refl _⟩
  have next := (position.next found inside).le_content
  exact next

theorem ReadsRecord.append {log : Log F} {read : PendingRead} {i len : Nat} {last : Entry F}
    (reads : ReadsRecord log read i e len) (later : ∀ a ∈ log, a.seg ≤ last.seg) :
    ReadsRecord (log ++ [last]) read i e len := by
  have bound := (List.getElem?_eq_some_iff.mp reads.entry).1
  refine ⟨?_, reads.position.append ?_, reads.inside, reads.tracked, reads.fits, ?_⟩
  · rw [getElem?_append_left bound, reads.entry]
  · have old := later e (mem_of_getElem? reads.entry)
    rw [reads.inside] at old
    exact old
  · have held := reads.held
    rw [content, SegmentedLog.content_append, length_append]
    exact held.trans (Nat.le_add_right _ _)

end Logit.Spool
