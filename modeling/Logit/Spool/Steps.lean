import Logit.Spool.PushSteps

namespace Logit.Spool

open ByteCodec Native List Nat Disk Store Option

variable {F : RecordFormat} {cfg : Config} {g : Ghost F} {q q' : Queue F} {p : Push F} {h : Handle}
  {e : Entry F} {read : PendingRead} {r : Reaction F}

/-- No create fails while a cancelled rotation's create of the same segment is still in the pool and
has made no file. -/
def CreateClear (q : Queue F) : Event F → Prop
  | .poll false _ => ∀ p makeRoom, q.pushing = some (p, .rotateCreate makeRoom) →
      q.disk.files (q.store.active.seq + 1) = none → q.store.active.seq + 1 ∉ q.orphans
  | _ => True

theorem Store.headAt_iff {st : Store F} {seq offset : Nat} (here : st.headAt seq offset = true) :
    st.readAhead = [] ∧ st.readSeq = seq ∧ st.readOffset = offset := by
  simp only [headAt, Bool.and_eq_true, beq_iff_eq, List.isEmpty_iff] at here
  exact ⟨here.1.1, here.1.2, here.2⟩

namespace Core

/-- While the head is still where a read began, what was read is the entry at the cursor. -/
theorem readHeadResult (core : Core g q) {i len : Nat} (reads : ReadsRecord g.log read i e len)
    (here : q.store.headAt read.seg read.offset = true) :
    q.readResult true read = .record (F.value e.item) e.bytes.length ∧ g.log[g.head]? = some e ∧
      e.seg = q.store.readSeq := by
  obtain ⟨_, seq, offset⟩ := headAt_iff here
  have mem := core.store.tracked
  have cursor := core.store.cursor
  rw [seq] at mem cursor
  rw [offset] at cursor
  obtain rfl := cursor.unique reads.position
  exact ⟨core.readResult reads mem, reads.entry, reads.inside.trans seq.symm⟩

theorem evictOldest (core : Core g q) {i len : Nat} (reads : ReadsRecord g.log read i e len)
    (ok due : Bool) : Settles g (q.evictOldest cfg p read ok due) := by
  rw [Queue.evictOldest]
  cases ok with
  | false => exact core.writeRecord false
  | true =>
    by_cases here : q.store.headAt read.seg read.offset = true
    · obtain ⟨result, found, inside⟩ := core.readHeadResult reads here
      have unread := (headAt_iff here).1
      obtain ⟨inv, forward⟩ := core.store.evict found inside unread due
      have moved := core.moved (le_succ _) inv forward
      have rest : Settles _ (Queue.pushLoop cfg _ p) := moved.pushLoop
      simp only [result, if_pos here]
      exact .after (.evicted found) rfl rest
    · split
      · rw [if_neg here]
        exact core.writeRecord false
      · rw [skipCorrupt, if_neg here]
        exact core.writeRecord false
      · exact core.writeRecord false

end Core

namespace FilesInv

variable {disk : Disk} {active : Nat} {rotating : Bool}

variable (files : FilesInv g disk active rotating)
include files

theorem created {seq : Nat} (known : seq ≤ active ∨ seq = active + 1 ∧ rotating = true) :
    FilesInv g (disk.create seq) active rotating := by
  have kept {n : Nat} {file : Bytes} (present : disk.files n = some file) :
      (disk.create seq).files n = some file := by
    by_cases here : n = seq
    · subst here
      rw [create_self, present]
      rfl
    · rw [create_other here, present]
  have made {n : Nat} {file : Bytes} (present : (disk.create seq).files n = some file) :
      disk.files n = some file ∨ n = seq ∧ file = [] := by
    by_cases here : n = seq
    · subst here
      rw [create_self] at present
      cases old : disk.files n with
      | none => rw [old] at present; cases present; exact .inr ⟨rfl, rfl⟩
      | some file' => rw [old] at present; exact .inl present
    · rw [create_other here] at present
      exact .inl present
  refine ⟨kept files.activeFile, fun n low small => kept (files.kept n low small), ?_, ?_, ?_⟩
  · intro n file small present
    rcases made present with old | ⟨_, empty⟩
    · exact files.below n file small old
    · exact .inr empty
  · intro n file large present
    rcases made present with old | ⟨rfl, empty⟩
    · exact files.above n file large old
    · rcases known with low | next
      · omega
      · exact ⟨empty, next⟩
  · rw [create_cursor]
    exact files.persisted

theorem next_created : (disk.create (active + 1)).files (active + 1) = some [] := by
  rw [create_self]
  cases present : disk.files (active + 1) with
  | none => rfl
  | some file => rw [(files.above _ file (lt_succ_self _) present).1]; rfl

/-- The next segment becomes the active one, when its file is there and the last one is whole. -/
theorem installed (clean : g.tail = []) (next : disk.files (active + 1) = some [])
    (bound : ∀ e ∈ g.log, e.seg ≤ active) : FilesInv g disk (active + 1) false := by
  have empty : content g.log (active + 1) = [] := SegmentedLog.content_eq_nil fun a mem =>
    Nat.ne_of_lt (Nat.lt_succ_of_le (bound a mem))
  have whole : disk.files active = some (content g.log active) := by rw [files.activeFile, clean, append_nil]
  refine ⟨by rw [next, empty, clean]; rfl, ?_, ?_, ?_, files.persisted⟩
  · intro n low small
    rcases Nat.lt_succ_iff_lt_or_eq.mp small with below | rfl
    · exact files.kept n low below
    · exact whole
  · intro n file small present
    rcases Nat.lt_succ_iff_lt_or_eq.mp small with below | rfl
    · exact files.below n file below present
    · rw [whole] at present
      cases present
      exact .inl rfl
  · intro n file large present
    have only := (files.above n file (by omega) present).2.1
    omega

/-- No file of the next segment is there, so the last rotation can be given up. -/
theorem stopped (none : disk.files (active + 1) = none) : FilesInv g disk active false := by
  refine { files with above := ?_ }
  intro n file large present
  obtain ⟨_, only, _⟩ := files.above n file large present
  rw [only, none] at present
  cases present

theorem unlinked {seq : Nat} (passed : seq < g.floor) (low : g.floor ≤ active) :
    FilesInv g (disk.unlink seq) active rotating := by
  refine ⟨unlink_files.mpr ⟨by omega, files.activeFile⟩, ?_, ?_, ?_, files.persisted⟩
  · exact fun n reached small => unlink_files.mpr ⟨by omega, files.kept n reached small⟩
  · exact fun n file small present => files.below n file small (unlink_files.mp present).2
  · exact fun n file large present => files.above n file large (unlink_files.mp present).2

/-- The active segment's file takes other bytes past the tracked length. -/
theorem retailed {bytes : Bytes} {disk' : Disk} (here : disk'.files active = some (content g.log active ++ bytes))
    (other : ∀ n, n ≠ active → disk'.files n = disk.files n) (cursor : disk'.cursor = disk.cursor) :
    FilesInv { g with tail := bytes } disk' active rotating := by
  refine ⟨here, ?_, ?_, ?_, ?_⟩
  · intro n low small
    rw [other n (by omega)]
    exact files.kept n low small
  · intro n file small present
    rw [other n (by omega)] at present
    exact files.below n file small present
  · intro n file large present
    rw [other n (by omega)] at present
    exact files.above n file large present
  · rw [cursor]
    exact files.persisted

end FilesInv

namespace Core

theorem rested (core : Core g q) (held : q.handle = some h) : Core g { q with handle := some ⟨h.seq, .idle⟩ } := by
  have handle := core.handle
  refine { core with handle := ⟨handle.torn, ?_, ?_, ?_, ?_⟩ }
  · rintro h' ⟨⟩
    exact handle.seq h held
  · rintro _ h' ⟨⟩
    rfl
  · exact fun before found => ⟨(handle.repair before found).1, rfl⟩
  · rintro h' size ⟨⟩ busy
    cases busy

theorem repaired (core : Core g q) (held : q.handle = some h) (cut : g.tail = []) :
    Core g { q with handle := some ⟨h.seq, .idle⟩, needsRepair := none } := by
  refine { core with handle := ?_, rotation := fun _ => rfl }
  rw [cut]
  exact .clean (core.handle.seq h held)

theorem installed (core : Core g q) (started : q.rotationStarted = true)
    (next : q.disk.files (q.store.active.seq + 1) = some []) : Core g { q with
      handle := some ⟨q.store.active.seq + 1, .idle⟩
      store := q.store.addSegment (q.store.active.seq + 1)
      rotationStarted := false } := by
  have clean := core.rotation started
  have whole := core.handle.torn clean
  refine ⟨core.store.addSegment (lt_succ_self _), core.files.installed whole next core.store.below,
    ?_, fun _ => clean, ?_, core.reading⟩
  · rw [whole, clean]
    exact .clean rfl
  · intro n mem
    left
    change n ≤ q.store.active.seq + 1
    rcases core.orphans n mem with old | ⟨new, _⟩ <;> omega

end Core

/-- A push goes on from its await. -/
theorem Inv.poll (inv : Inv g q) {ok due : Bool} (clear : CreateClear q (.poll ok due))
    (step : q.poll cfg ok due = some r) : Settles g r := by
  have core := inv.core
  rw [Queue.poll] at step
  cases pushing : q.pushing with
  | none => rw [pushing] at step; cases step
  | some pair =>
    obtain ⟨p, stage⟩ := pair
    have here := inv.stage p stage pushing
    rw [pushing] at step
    cases stage with
    | blocked =>
      cases step
      exact core.pushLoop
    | evicting read =>
      cases step
      obtain ⟨i, e, len, reads⟩ := here
      exact core.evictOldest reads ok due
    | repairFlush makeRoom before =>
      have torn : q.needsRepair.isSome = true := by rw [here]; rfl
      simp only at step
      split at step <;> cases step
      rename_i seq io _ held
      refine (core.withHandle held torn ?_).await ⟨torn, ?_⟩
      · rintro _ ⟨⟩
        exact (core.handle.repair before here).1
      · rintro h' ⟨⟩
        trivial
    | repairOpen makeRoom before => exact here.elim
    | repairSetLen makeRoom =>
      obtain ⟨torn, truncates⟩ := here
      simp only at step
      split at step <;> cases step
      · rename_i seq held
        exact (core.repaired held (truncates _ held)).afterRepair rfl makeRoom
      · rename_i seq held
        exact (core.rested held).leave rfl
    | rotateSync makeRoom =>
      simp only at step
      split at step <;> cases step
      · rename_i seq io _ held
        exact (core.rested held).await here
      · exact core.await here
    | rotateCreate makeRoom =>
      cases ok with
      | true =>
        cases step
        have created : Core g { q with disk := q.disk.create (q.store.active.seq + 1) } :=
          { core with files := core.files.created (.inr ⟨rfl, here⟩) }
        exact created.await ⟨here, core.files.next_created⟩
      | false =>
        cases present : q.disk.files (q.store.active.seq + 1) with
        | some file =>
          simp only [present] at step
          cases step
          exact core.leave rfl
        | none =>
          simp only [present] at step
          cases step
          have none := clear p makeRoom pushing present
          have stopped : Core g { q with rotationStarted := false } := by
            refine { core with
              files := core.files.stopped present
              rotation := fun _ => core.rotation here
              orphans := ?_ }
            intro n mem
            rcases core.orphans n mem with old | ⟨rfl, _⟩
            · exact .inl old
            · exact absurd mem none
          exact stopped.afterRotate (core.rotation here) rfl makeRoom
    | rotateSyncDir makeRoom =>
      cases step
      exact (core.installed here.1 here.2).afterRotate (core.rotation here.1) rfl makeRoom
    | opening =>
      obtain ⟨none, clean, stopped⟩ := here
      cases ok with
      | false => cases step; exact core.leave rfl
      | true =>
        cases step
        have opened : Core g { q with
            disk := q.disk.create q.store.active.seq
            handle := some ⟨q.store.active.seq, .idle⟩ } := by
          refine { core with files := core.files.created (.inl (le_refl _)), handle := ?_ }
          rw [clean, core.handle.torn clean]
          exact .clean rfl
        exact opened.beginWrite rfl clean stopped
    | writing rest =>
      obtain ⟨torn, writes⟩ := here
      simp only at step
      split at step <;> cases step
      rename_i h _ held
      exact core.writeOn held torn (writes h held)

/-- What a push relies on at its await, over steps that are not its own. -/
theorem StageInv.carry {g' : Ghost F} {stage : Stage} (here : StageInv g q p stage)
    (active : q'.store.active = q.store.active)
    (next : q.disk.files (q.store.active.seq + 1) = some [] → q'.disk.files (q.store.active.seq + 1) = some [])
    (log : g'.log = g.log := by rfl) (bytes : g'.tail = g.tail := by rfl)
    (repair : q'.needsRepair = q.needsRepair := by rfl) (handle : q'.handle = q.handle := by rfl)
    (rotation : q'.rotationStarted = q.rotationStarted := by rfl) :
    StageInv g' q' p stage := by
  cases stage with
  | rotateSyncDir makeRoom =>
    obtain ⟨started, present⟩ := here
    refine ⟨rotation.trans started, ?_⟩
    rw [active]
    exact next present
  | blocked => trivial
  | repairOpen => exact here.elim
  | _ => simpa only [StageInv, log, bytes, repair, handle, rotation] using here

theorem Inv.moved (inv : Inv g q) {head : Nat} {st : Store F} (more : g.head ≤ head)
    (store : StoreInv g.floor g.start g.log head st) (forward : Forward q.store st) :
    Inv { g with head } { q with store := st } := by
  refine ⟨inv.core.moved more store forward, fun p stage pushing => ?_⟩
  exact (inv.stage p stage pushing).carry forward.active id

theorem Inv.withReader (inv : Inv g q) {reader : Option (ReadMode × PendingRead)}
    (reads : ∀ mode read, reader = some (mode, read) → ∃ i e len, ReadsRecord g.log read i e len) :
    Inv g { q with reader } :=
  ⟨{ inv.core with reading := reads }, fun p stage pushing =>
    (inv.stage p stage pushing).carry rfl id⟩

theorem Inv.dropRead (inv : Inv g q) : Inv g { q with reader := none } :=
  inv.withReader fun _ _ none => by cases none

theorem Inv.peekLoop (inv : Inv g q) : Settles g q.peekLoop := by
  obtain ⟨store, rolled⟩ := inv.core.store.rollReadCursor
  have after := inv.moved (le_refl _) store rolled.toForward
  rw [Queue.peekLoop]
  cases ahead : q.store.rollReadCursor.readAhead with
  | cons first others =>
    obtain ⟨e, found, value, _⟩ := (store.ahead 0 first (by rw [ahead]; rfl)).entry
    simp only [value]
    exact ⟨g, .peeked found, rfl, after.dropRead⟩
  | nil =>
    simp only
    split
    · rename_i readable
      rw [Store.readable, store.segmentLen store.tracked] at readable
      obtain ⟨e, found, here⟩ := store.cursor.exists_of_lt (of_decide_eq_true readable) store.ordered
      have reads := after.core.readFrom store.tracked store.cursor found here
      refine .silent (after.withReader ?_) rfl
      rintro mode read ⟨⟩
      exact ⟨_, _, _, reads⟩
    · exact .silent after.dropRead rfl

theorem Inv.peekAt (inv : Inv g q) (n : Nat) : Settles g (q.peekAt n) := by
  rw [Queue.peekAt]
  generalize chosen : (if (decide (n = 0) && q.store.readAhead.isEmpty) = true then
    q.store.rollReadCursor else q.store) = st
  obtain ⟨store, forward⟩ : StoreInv g.floor g.start g.log g.head st ∧ Forward q.store st := by
    split at chosen
    · obtain ⟨store, rolled⟩ := inv.core.store.rollReadCursor
      rw [← chosen]
      exact ⟨store, rolled.toForward⟩
    · rw [← chosen]
      exact ⟨inv.core.store, .refl _⟩
  have after := inv.moved (le_refl _) store forward
  cases cached : st.readAhead[n]? with
  | some held =>
    obtain ⟨e, found, value, _⟩ := (store.ahead n held cached).entry
    simp only [value]
    exact ⟨g, .peeked found, rfl, after⟩
  | none =>
    simp only
    split
    · exact .silent after rfl
    · cases next : st.nextReadPosition with
      | none => exact .silent after rfl
      | some place =>
        obtain ⟨mem, position, e, found, here⟩ := store.nextReadPosition next
        have reads := after.core.readFrom mem position found here
        refine .silent (after.withReader ?_) rfl
        rintro mode read ⟨⟩
        exact ⟨_, _, _, reads⟩

variable {i len : Nat} {disk : Disk} {ok : Bool}

/-- A record read where the next one starts is kept as the entry it is. -/
theorem ReadsRecord.holds (reads : ReadsRecord g.log read i e len) :
    Holds g.log i ⟨F.value e.item, read.seg, read.offset, e.bytes.length⟩ :=
  ⟨⟨e, reads.entry, rfl, rfl, reads.inside.symm⟩, reads.position⟩

section

variable (inv : Inv g q)
include inv

theorem Inv.peekDone (reads : ReadsRecord g.log read i e len) (ok due : Bool) :
    Settles g (q.peekDone read ok due) := by
  rw [Queue.peekDone]
  cases ok with
  | false => exact .silent inv rfl
  | true =>
    by_cases here : q.store.headAt read.seg read.offset = true
    · obtain ⟨result, found, _⟩ := inv.core.readHeadResult reads here
      obtain ⟨unread, seq, offset⟩ := headAt_iff here
      have cursor := inv.core.store.cursor
      rw [seq, offset] at cursor
      obtain rfl := cursor.unique reads.position
      have held := reads.holds
      rw [← add_zero g.head, ← length_nil, ← unread] at held
      have kept := inv.moved (le_refl _) (inv.core.store.reserve held) ⟨rfl, le_refl _, fun _ mem => mem⟩
      simp only [result, if_pos here]
      exact kept.peekLoop
    · split
      · rw [if_neg here]
        exact inv.peekLoop
      · rw [skipCorrupt, if_neg here]
        exact inv.peekLoop
      · exact .silent inv rfl

theorem Inv.peekAtDone (reads : ReadsRecord g.log read i e len) (n : Nat) (ok due : Bool) :
    Settles g (q.peekAtDone n read ok due) := by
  rw [Queue.peekAtDone]
  cases ok with
  | false => exact .silent inv rfl
  | true =>
    split
    · rename_i v size result
      split
      · rename_i next
        obtain ⟨rfl, next⟩ := next
        obtain ⟨mem, position, _⟩ := inv.core.store.nextReadPosition next
        obtain rfl := position.unique reads.position
        rw [inv.core.readResult reads mem] at result
        cases result
        have kept := inv.moved (le_refl _) (inv.core.store.reserve reads.holds)
          ⟨rfl, le_refl _, fun _ mem => mem⟩
        exact ⟨g, .peeked reads.entry, rfl, kept⟩
      · exact .silent inv rfl
    · rename_i delta result
      have same : (if n = 0 then
          (q.store.skipCorrupt read.seg read.offset delta due).getD q.store else q.store) = q.store := by
        split
        · rw [skipCorrupt]
          split
          · rename_i here
            rw [(inv.core.readHeadResult reads here).1] at result
            cases result
          · rfl
        · rfl
      simp only [same]
      exact .silent inv rfl
    · exact .silent inv rfl

theorem Inv.readDone {ok due : Bool} (step : q.readDone ok due = some r) : Settles g r := by
  rw [Queue.readDone] at step
  cases reader : q.reader with
  | none => rw [reader] at step; cases step
  | some pair =>
    obtain ⟨mode, read⟩ := pair
    obtain ⟨i, e, len, reads⟩ := inv.core.reading mode read reader
    rw [reader] at step
    cases mode with
    | peek =>
      cases step
      exact inv.dropRead.peekDone reads ok due
    | peekAt n =>
      cases step
      exact inv.dropRead.peekAtDone reads n ok due

theorem Inv.commit (due : Bool) : Settles g (q.commit due) := by
  obtain ⟨forward, released⟩ := inv.core.store.commit due
  rw [Queue.commit]
  cases result : (q.store.commit due).2 with
  | none =>
    rw [result] at released
    simp only [result]
    exact .silent (inv.moved (le_refl _) released forward) rfl
  | some v =>
    rw [result] at released
    obtain ⟨⟨e, found, rfl⟩, store⟩ := released
    simp only [result]
    exact ⟨_, .committed found, rfl, inv.moved (le_succ _) store forward⟩

theorem Inv.close : Inv g { q with closed := true } :=
  ⟨{ inv.core with }, fun p stage pushing => (inv.stage p stage pushing).carry rfl id⟩

/-- A step of the worker: it concerns its jobs, the cursor file and unlinked segments. -/
theorem Inv.worked {floor : Nat} {lossy : Bool} {jobs : List PersistJob}
    (store : StoreInv floor g.start g.log g.head { q.store with jobs })
    (files : FilesInv { g with floor, lossy } disk q.store.active.seq q.rotationStarted)
    (next : q.disk.files (q.store.active.seq + 1) = some [] → disk.files (q.store.active.seq + 1) = some []) :
    Inv { g with floor, lossy } { q with disk, store := { q.store with jobs } } :=
  ⟨{ inv.core with store, files }, fun p stage pushing =>
    (inv.stage p stage pushing).carry rfl next⟩

theorem Inv.work (step : q.work ok = some q') :
    ∃ g', Tells g [] g' ∧ (ok = true → g'.lossy = g.lossy) ∧ Inv g' q' := by
  have store := inv.core.store
  have files := inv.core.files
  have low := store.reached.trans (store.le_active store.tracked)
  rw [Queue.work] at step
  split at step
  · cases step
  · rename_i c unlink later jobs
    cases step
    obtain ⟨raised, after⟩ := store.persisted jobs
    obtain ⟨i, start, upTo, position⟩ := (store.jobs ⟨some c, unlink⟩ (by
      rw [jobs]
      exact mem_cons_self)).position c rfl
    cases ok with
    | true =>
      refine ⟨{ g with floor := c.segment }, .silent rfl, fun _ => rfl, inv.worked after ?_ id⟩
      exact ⟨files.activeFile, fun n reached => files.kept n (raised.trans reached), files.below,
        files.above, c, i, rfl, le_refl _, start, upTo, position, fun _ => rfl⟩
    | false =>
      obtain ⟨c', i', found, reached, start', upTo', position', _⟩ := files.persisted
      refine ⟨{ g with floor := c.segment, lossy := true }, .silent rfl, nofun, inv.worked after ?_ id⟩
      exact ⟨files.activeFile, fun n reached => files.kept n (raised.trans reached), files.below,
        files.above, c', i', found, reached.trans raised, start', upTo', position', nofun⟩
  · rename_i n unlink later jobs
    cases step
    obtain ⟨passed, after⟩ := store.unlinked jobs
    cases ok with
    | true =>
      refine ⟨g, .silent rfl, fun _ => rfl, inv.worked after (files.unlinked passed low) fun present => ?_⟩
      exact (set_other (by omega)).trans present
    | false => exact ⟨g, .silent rfl, fun _ => rfl, inv.worked after files id⟩
  · rename_i later jobs
    cases step
    exact ⟨g, .silent rfl, fun _ => rfl, inv.worked (store.jobDone jobs) files id⟩

end

theorem Core.unconfirmed (core : Core g q) (held : q.handle = some h) (busy : h.io ≠ .idle) :
    q.needsRepair.isSome := by
  cases torn : q.needsRepair with
  | some before => rfl
  | none => exact absurd (core.handle.idle torn h held) busy

/-- The file behind the handle takes other bytes past the tracked length. -/
theorem Core.retailed (core : Core g q) (held : q.handle = some h) (busy : h.io ≠ .idle) {bytes : Bytes}
    {io : HandleIo} (here : disk.files q.store.active.seq = some (content g.log q.store.active.seq ++ bytes))
    (other : ∀ n, n ≠ q.store.active.seq → disk.files n = q.disk.files n) (cursor : disk.cursor = q.disk.cursor)
    (truncates : ∀ size, io = .busy (.setLen size) → size = q.store.active.len) :
    Core { g with tail := bytes } { q with disk, handle := some ⟨h.seq, io⟩ } := by
  have handle := core.handle
  have unconfirmed := core.unconfirmed held busy
  rw [held] at handle
  exact { core with
    files := core.files.retailed here other cursor
    handle := handle.operates unconfirmed truncates }

/-- A push relies on its handle's write or truncation; any other await is not of a busy handle. -/
theorem StageInv.retailed {stage : Stage} {bytes : Bytes} {io : HandleIo} (core : Core g q)
    (here : StageInv g q p stage) (held : q.handle = some h) (busy : h.io ≠ .idle)
    (writes : ∀ rest, Writes p.record g.tail rest h.io → Writes p.record bytes rest io)
    (truncates : Truncates g.tail h.io → Truncates bytes io) :
    StageInv { g with tail := bytes } { q with disk, handle := some ⟨h.seq, io⟩ } p stage := by
  have stopped : q.rotationStarted = true → False := fun started =>
    busy (core.handle.idle (core.rotation started) h held)
  cases stage with
  | blocked => trivial
  | evicting read => exact here
  | repairFlush makeRoom before => exact here
  | repairOpen makeRoom before => exact here
  | repairSetLen makeRoom =>
    refine ⟨here.1, ?_⟩
    rintro h' ⟨⟩
    exact truncates (here.2 h held)
  | rotateSync makeRoom | rotateCreate makeRoom => exact (stopped here).elim
  | rotateSyncDir makeRoom => exact (stopped here.1).elim
  | opening =>
    rw [here.1] at held
    cases held
  | writing rest =>
    refine ⟨here.1, ?_⟩
    rintro h' ⟨⟩
    exact writes rest (here.2 h held)

theorem Inv.poolWrite (inv : Inv g q) {count : Nat} (step : q.poolWrite count = some q') : Settles g (q', []) := by
  have core := inv.core
  rw [Queue.poolWrite] at step
  split at step <;> cases step
  rename_i seq rest held
  obtain rfl : seq = q.store.active.seq := core.handle.seq _ held
  have busy : HandleIo.busy (.write rest) ≠ .idle := by rintro ⟨⟩
  have file := append_self core.files.activeFile (rest.take count)
  rw [append_assoc] at file
  refine ⟨{ g with tail := g.tail ++ rest.take count }, .silent rfl, rfl,
    core.retailed held busy file (fun n other => append_other other) (append_cursor _ _ _)
      nofun, ?_⟩
  intro p stage pushing
  refine (inv.stage p stage pushing).retailed core held busy ?_ (fun none => none.elim)
  intro more writes
  change g.tail ++ rest.take count ++ (rest.drop count ++ more) = p.record
  rw [append_assoc, ← append_assoc (rest.take count), take_append_drop, writes]

theorem Inv.poolDone (inv : Inv g q) (step : q.poolDone ok = some q') : Settles g (q', []) := by
  have core := inv.core
  rw [Queue.poolDone] at step
  split at step <;> cases step
  rename_i seq op held
  obtain rfl : seq = q.store.active.seq := core.handle.seq _ held
  have busy : HandleIo.busy op ≠ .idle := by rintro ⟨⟩
  cases ok with
  | false =>
    refine ⟨g, .silent rfl, rfl, core.retailed held busy core.files.activeFile (fun _ _ => rfl) rfl nofun, ?_⟩
    intro p stage pushing
    refine (inv.stage p stage pushing).retailed core held busy ?_ (fun _ => trivial)
    intro more writes
    cases op with
    | write rest => exact ⟨_, writes⟩
    | setLen size => exact writes.elim
  | true =>
    cases op with
    | write rest =>
      have file := append_self core.files.activeFile rest
      rw [append_assoc] at file
      refine ⟨{ g with tail := g.tail ++ rest }, .silent rfl, rfl,
        core.retailed held busy file (fun n other => append_other other)
          (append_cursor _ _ _) nofun, ?_⟩
      intro p stage pushing
      refine (inv.stage p stage pushing).retailed core held busy ?_ (fun none => none.elim)
      intro more writes
      change g.tail ++ rest ++ more = p.record
      rw [append_assoc]
      exact writes
    | setLen size =>
      obtain rfl := core.handle.truncates _ size held rfl
      have long : q.store.active.len ≤ (content g.log q.store.active.seq ++ g.tail).length := by
        rw [length_append, core.store.active_len]
        exact le_add_right _ _
      have file := setLen_self core.files.activeFile long
      rw [take_left' core.store.active_len.symm] at file
      refine ⟨{ g with tail := [] }, .silent rfl, rfl,
        core.retailed held busy ?_ (fun n other => setLen_other other)
          (setLen_cursor _ _ _) nofun, ?_⟩
      · rw [append_nil]
        exact file
      · intro p stage pushing
        exact (inv.stage p stage pushing).retailed core held busy (fun _ none => none.elim)
          fun _ => rfl

/-- A create may stay in the pool when its push is cancelled, but only of the active segment or of a
rotation that is not finished. -/
theorem Inv.cancel (inv : Inv g q) (step : q.cancel = some r) : Settles g r := by
  have core := inv.core
  have leaves (orphans : List Nat) (p : Push F)
      (known : ∀ n ∈ orphans, n ≤ q.store.active.seq ∨ n = q.store.active.seq + 1 ∧ q.rotationStarted = true) :
      Settles g ({ q with orphans }.leave (.cancelled p.item)) := by
    have kept : Core g { q with orphans } := { core with orphans := known }
    exact kept.leave rfl
  rw [Queue.cancel] at step
  cases pushing : q.pushing with
  | none => rw [pushing] at step; cases step
  | some pair =>
    obtain ⟨p, stage⟩ := pair
    have here := inv.stage p stage pushing
    rw [pushing] at step
    cases step
    refine leaves _ p ?_
    cases stage with
    | rotateCreate makeRoom =>
      intro n mem
      rcases mem_cons.mp mem with new | old
      · exact .inr ⟨new, here⟩
      · exact core.orphans n old
    | opening =>
      intro n mem
      rcases mem_cons.mp mem with new | old
      · exact .inl new.le
      · exact core.orphans n old
    | _ => exact core.orphans

theorem Inv.orphanDone (inv : Inv g q) {seq : Nat} (step : q.orphanDone seq ok = some q') : Settles g (q', []) := by
  have core := inv.core
  rw [Queue.orphanDone] at step
  split at step <;> cases step
  rename_i listed
  have fewer : ∀ n ∈ q.orphans.erase seq,
      n ≤ q.store.active.seq ∨ n = q.store.active.seq + 1 ∧ q.rotationStarted = true :=
    fun n mem => core.orphans n (mem_of_mem_erase mem)
  have known := core.orphans seq listed
  cases ok with
  | false =>
    refine .silent ⟨{ core with orphans := fewer }, fun p stage pushing => ?_⟩ rfl
    exact (inv.stage p stage pushing).carry rfl id
  | true =>
    refine .silent
      ⟨{ core with orphans := fewer, files := core.files.created known }, fun p stage pushing => ?_⟩ rfl
    refine (inv.stage p stage pushing).carry rfl fun present => ?_
    by_cases here : q.store.active.seq + 1 = seq
    · rw [← here]
      exact core.files.next_created
    · exact (create_other here).trans present

/-- One step of the queue is explained by the abstract queue, and keeps the invariant. Only the worker
can fail to persist a cursor. -/
theorem Inv.step (inv : Inv g q) {e : Event F} (clear : CreateClear q e) (step : q.step cfg e = some r) :
    ∃ g', Tells g r.2 g' ∧ (e.faultless = true → g'.lossy = g.lossy) ∧ Inv g' r.1 := by
  have settled (settles : Settles g r) :
      ∃ g', Tells g r.2 g' ∧ (e.faultless = true → g'.lossy = g.lossy) ∧ Inv g' r.1 := by
    obtain ⟨g', tells, lossy, after⟩ := settles
    exact ⟨g', tells, fun _ => lossy, after⟩
  have lifted {next : Option (Queue F)} (found : next.map (·, ([] : List (Obs F))) = some r) :
      ∃ q', next = some q' ∧ r = (q', []) := by
    obtain ⟨q', made, same⟩ := map_eq_some_iff.mp found
    exact ⟨q', made, same.symm⟩
  cases e with
  | push item =>
    rw [Queue.step] at step
    split at step <;> cases step
    rename_i free
    exact settled (inv.core.push item (isNone_iff_eq_none.mp free))
  | poll ok due => exact settled (inv.poll clear step)
  | cancel => exact settled (inv.cancel step)
  | poolWrite count =>
    obtain ⟨q', made, rfl⟩ := lifted step
    exact settled (inv.poolWrite made)
  | poolDone ok =>
    obtain ⟨q', made, rfl⟩ := lifted step
    exact settled (inv.poolDone made)
  | orphanDone seq ok =>
    obtain ⟨q', made, rfl⟩ := lifted step
    exact settled (inv.orphanDone made)
  | peek =>
    rw [Queue.step] at step
    split at step <;> cases step
    exact settled inv.peekLoop
  | peekAt n =>
    rw [Queue.step] at step
    split at step <;> cases step
    exact settled (inv.peekAt n)
  | readDone ok due => exact settled (inv.readDone step)
  | dropRead =>
    cases step
    exact settled ⟨g, .silent rfl, rfl, inv.dropRead⟩
  | commit due =>
    rw [Queue.step] at step
    split at step <;> cases step
    exact settled (inv.commit due)
  | work ok =>
    obtain ⟨q', made, rfl⟩ := lifted step
    exact inv.work made
  | close =>
    cases step
    exact settled ⟨g, .silent rfl, rfl, inv.close⟩

end Logit.Spool
