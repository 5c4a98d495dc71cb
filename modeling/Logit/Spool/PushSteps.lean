import Logit.Spool.Invariant

namespace Logit.Spool

open ByteCodec Native List Option

variable {F : RecordFormat} {cfg : Config} {g : Ghost F} {q : Queue F} {p : Push F} {h : Handle}
  {rest : Bytes}

namespace Core

theorem await (core : Core g q) {stage : Stage} (here : StageInv g q p stage) : Settles g (q.await p stage) := by
  refine .silent ⟨{ core with }, ?_⟩ rfl
  rintro p' stage' ⟨⟩
  cases stage <;> exact here

theorem leave (core : Core g q) {o : Obs F} (quiet : o.act = none) : Settles g (q.leave o) := by
  refine .silent ⟨{ core with }, ?_⟩ (by simp [quiet])
  intro p' stage' none
  cases none

end Core

/-- The handle goes to another operation of a write or truncation that is not confirmed. -/
theorem HandleInv.operates {tail tail' : Bytes} {active : Segment} {needsRepair : Option Nat}
    (handle : HandleInv tail active (some h) needsRepair) (unconfirmed : needsRepair.isSome)
    {io : HandleIo} (truncates : ∀ size, io = .busy (.setLen size) → size = active.len) :
    HandleInv tail' active (some ⟨h.seq, io⟩) needsRepair := by
  have marked := isSome_iff_ne_none.mp unconfirmed
  refine ⟨fun clean => absurd clean marked, ?_, fun clean => absurd clean marked, ?_, ?_⟩
  · rintro h' ⟨⟩
    exact handle.seq h rfl
  · exact fun before found => ⟨(handle.repair before found).1, rfl⟩
  · rintro h' size ⟨⟩
    exact truncates size

theorem HandleInv.clean {active : Segment} {seq : Nat} (same : seq = active.seq) :
    HandleInv [] active (some ⟨seq, .idle⟩) none := by
  refine ⟨fun _ => rfl, ?_, ?_, nofun, ?_⟩
  · rintro h ⟨⟩
    exact same
  · rintro _ h ⟨⟩
    rfl
  · rintro h size ⟨⟩ busy
    cases busy

theorem FilesInv.confirm {disk : Disk} {active : Nat} {rotating : Bool} {e : Entry F}
    (files : FilesInv g disk active rotating) (here : e.seg = active) (whole : g.tail = e.bytes)
    (low : g.floor ≤ active) : FilesInv { g with log := g.log ++ [e], tail := [] } disk active rotating := by
  obtain ⟨c, i, found, reached, from_, upTo, position, exact_⟩ := files.persisted
  have later := (reached.trans low).trans here.ge
  refine ⟨?_, ?_, ?_, files.above, c, i, found, reached, from_, upTo, position.append later, exact_⟩
  · rw [content_confirm here, append_nil, ← whole]
    exact files.activeFile
  · intro n reached small
    rw [content_confirm_other (by omega)]
    exact files.kept n reached small
  · intro n file small present
    rw [content_confirm_other (by omega)]
    exact files.below n file small present

namespace Core

section

variable (core : Core g q)
include core

theorem confirm (held : q.handle = some h) (whole : g.tail = p.record) : Settles g ({ q with
      handle := some ⟨h.seq, .idle⟩
      needsRepair := none
      store := q.store.confirm p.record.length }.leave (.accepted p.item)) := by
  let e : Entry F := ⟨q.store.active.seq, p.item, p.record, p.written⟩
  have inv := core.store.confirm (e := e) rfl
  have low := core.store.reached.trans (core.store.le_active core.store.tracked)
  refine ⟨{ g with log := g.log ++ [e], tail := [] }, .accepted e, rfl, ⟨inv,
    core.files.confirm rfl whole low, .clean (core.handle.seq h held), fun _ => rfl, core.orphans, ?_⟩, ?_⟩
  · intro mode read found
    obtain ⟨i, a, len, reads⟩ := core.reading mode read found
    exact ⟨i, a, len, reads.append core.store.below⟩
  · intro p' stage none
    cases none

theorem withHandle (held : q.handle = some h) (unconfirmed : q.needsRepair.isSome) {io : HandleIo}
    (truncates : ∀ size, io = .busy (.setLen size) → size = q.store.active.len) :
    Core g { q with handle := some ⟨h.seq, io⟩ } := by
  have handle := core.handle
  rw [held] at handle
  exact { core with handle := handle.operates unconfirmed truncates }

theorem writeOn (held : q.handle = some h) (unconfirmed : q.needsRepair.isSome)
    (writes : Writes p.record g.tail rest h.io) : Settles g (q.writeOn p h rest) := by
  have sends (together : g.tail ++ rest = p.record) : Settles g (q.handOver p h rest) := by
    rw [Queue.handOver]
    by_cases empty : rest.isEmpty = true
    · rw [if_pos empty]
      rw [isEmpty_iff.mp empty, append_nil] at together
      exact core.confirm held together
    · rw [if_neg empty]
      refine (core.withHandle held unconfirmed fun size busy => by cases busy).await ⟨unconfirmed, ?_⟩
      rintro h' ⟨⟩
      change g.tail ++ (rest.take writeBuffer ++ rest.drop writeBuffer) = p.record
      rw [take_append_drop, together]
  rw [Queue.writeOn]
  split
  · refine core.await ⟨unconfirmed, ?_⟩
    intro h' found
    rw [held] at found
    cases found
    exact writes
  · exact (core.withHandle held unconfirmed fun size busy => by cases busy).leave rfl
  · rename_i clear
    rw [clear] at writes
    exact sends writes
  · rename_i clear
    rw [clear] at writes
    exact sends writes

theorem beginWrite (held : q.handle = some h) (clean : q.needsRepair = none)
    (stopped : q.rotationStarted = false) : Settles g (q.beginWrite p h) := by
  have handle := core.handle
  have marked : Core g { q with needsRepair := some q.store.active.len } := by
    refine { core with handle := ⟨nofun, handle.seq, nofun, ?_, handle.truncates⟩, rotation := ?_ }
    · rintro before ⟨⟩
      exact ⟨rfl, by rw [held]; rfl⟩
    · intro started
      rw [stopped] at started
      cases started
  refine marked.writeOn held rfl ?_
  rw [handle.idle clean h held, handle.torn clean]
  rfl

theorem openHandle (clean : q.needsRepair = none) (stopped : q.rotationStarted = false) :
    Settles g (q.openHandle p) := by
  rw [Queue.openHandle]
  split
  · rename_i h held
    exact core.beginWrite held clean stopped
  · rename_i none
    exact core.await ⟨none, clean, stopped⟩

theorem rotateSegment (clean : q.needsRepair = none) (makeRoom : Bool) :
    Settles g (q.rotateSegment p makeRoom) := by
  have files := core.files
  have started : Core g { q with rotationStarted := true } := by
    refine { core with files := { files with above := ?_ }, rotation := fun _ => clean, orphans := ?_ }
    · intro n file large present
      obtain ⟨empty, next, _⟩ := files.above n file large present
      exact ⟨empty, next, rfl⟩
    · intro n mem
      exact (core.orphans n mem).imp id fun next => ⟨next.1, rfl⟩
  exact started.await rfl

theorem afterRepair (clean : q.needsRepair = none) (makeRoom : Bool) :
    Settles g (q.afterRepair cfg p makeRoom) := by
  rw [Queue.afterRepair]
  split
  · exact core.rotateSegment clean makeRoom
  · rename_i write
    refine core.openHandle clean ?_
    simp only [Bool.or_eq_true, not_or, Bool.not_eq_true] at write
    exact write.1.2

theorem writeRecord (makeRoom : Bool) : Settles g (q.writeRecord cfg p makeRoom) := by
  rw [Queue.writeRecord]
  split
  · rename_i before torn
    obtain ⟨h, held⟩ := isSome_iff_exists.mp (core.handle.repair before torn).2
    rw [Queue.repairTornTail, held]
    exact core.await torn
  · rename_i clean
    exact core.afterRepair clean makeRoom

/-- With the cursor rolled and the queue not drained, the entry at the cursor is there to read. -/
theorem readHead
    (stops : q.store.readSeq = q.store.active.seq ∨ q.store.readOffset < (content g.log q.store.readSeq).length)
    (more : q.store.readSeq = q.store.active.seq → q.store.readOffset < q.store.active.len) :
    ∃ i e len, ReadsRecord g.log (q.readFrom q.store.readSeq q.store.readOffset) i e len := by
  have inside : q.store.readOffset < (content g.log q.store.readSeq).length := by
    rcases stops with last | inside
    · have small := more last
      rw [core.store.active_len] at small
      rw [last]
      exact small
    · exact inside
  obtain ⟨e, found, here⟩ := core.store.cursor.exists_of_lt inside core.store.ordered
  exact ⟨_, _, _, core.readFrom core.store.tracked core.store.cursor found here⟩

end

theorem action_evict (evict : q.action cfg p = .evict) : q.nothingQueued = false ∧ cfg.overflow = .dropOldest := by
  rw [Queue.action] at evict
  split at evict
  · cases evict
  · split at evict
    · cases evict
    · split at evict
      · split at evict <;> cases evict
      · rename_i queued
        split at evict
        · cases evict
        · cases evict
        · rename_i policy
          exact ⟨by simpa using queued, policy⟩

theorem pushLoop (core : Core g q) : Settles g (q.pushLoop cfg p) := by
  obtain ⟨rolled, roll⟩ := core.rolled
  rw [Queue.pushLoop]
  split
  · exact rolled.writeRecord false
  · exact rolled.leave rfl
  · exact rolled.writeRecord true
  · exact rolled.await trivial
  · rename_i evict
    split
    · rename_i unread
      refine rolled.await (rolled.readHead roll.stops ?_)
      intro last
      by_contra drained
      have queued := (action_evict evict).1
      have same : q.store.rollReadCursor.readSeq = q.store.rollReadCursor.active.seq := last
      simp only [Queue.nothingQueued, unread, same, beq_self_eq_true, Bool.true_and,
        decide_eq_false_iff_not] at queued
      exact queued (Nat.not_lt.mp drained)
    · exact rolled.writeRecord false

theorem afterRotate (core : Core g q) (clean : q.needsRepair = none)
    (stopped : q.rotationStarted = false) (makeRoom : Bool) : Settles g (q.afterRotate cfg p makeRoom) := by
  rw [Queue.afterRotate]
  split
  · exact core.rolled.1.pushLoop
  · exact core.openHandle clean stopped

theorem push (core : Core g q) (item : F.Item) (idle : q.pushing = none) : Settles g (q.push cfg item) := by
  rw [Queue.push]
  split
  · refine ⟨g, .silent rfl, rfl, core, ?_⟩
    intro p stage found
    rw [idle] at found
    cases found
  · exact core.pushLoop

end Core

end Logit.Spool
