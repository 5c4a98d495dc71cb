import Logit.Spool.Open
import Logit.Spool.Steps

namespace Logit.Spool

open ByteCodec Native Logit.Frame List Nat Queue Option List.Subset

variable {F : RecordFormat} {cfg : Config} {g g' : Ghost F} {q q' : Queue F} {p : Push F} {h : Handle}
  {obs : List (Obs F)} {r : Reaction F} {allow : Queue F → Event F → Prop}

def Obs.acceptedItem : Obs F → Option F.Item
  | .accepted item => some item
  | _ => none

def Obs.committedValue : Obs F → Option F.Value
  | .committed v => some v
  | _ => none

def Obs.evictedValue : Obs F → Option F.Value
  | .evicted v => some v
  | _ => none

/-- The items that pushes were accepted with, in order. -/
def accepted (obs : List (Obs F)) : List F.Item := obs.filterMap Obs.acceptedItem

def committed (obs : List (Obs F)) : List F.Value := obs.filterMap Obs.committedValue

/-- The values that left the queue, committed or evicted, in order. -/
def consumed (obs : List (Obs F)) : List F.Value := obs.filterMap fun o => o.committedValue <|> o.evictedValue

theorem puts_act (obs : List (Obs F)) : Fifo.puts (obs.filterMap Obs.act) = accepted obs := by
  rw [Fifo.puts, filterMap_filterMap]
  refine filterMap_congr fun o _ => ?_
  cases o <;> rfl

theorem takes_act (obs : List (Obs F)) : Fifo.takes (obs.filterMap Obs.act) = consumed obs := by
  rw [Fifo.takes, filterMap_filterMap]
  refine filterMap_congr fun o _ => ?_
  cases o <;> rfl

theorem consumed_eq_committed (kept : ∀ o ∈ obs, o.evictedValue = none) : consumed obs = committed obs := by
  refine filterMap_congr fun o mem => ?_
  rw [kept o mem]
  cases o.committedValue <;> rfl

theorem Inv.runs (inv : Inv g q) (run : Runs cfg allow q obs q')
    (clear : ∀ q e, allow q e → CreateClear q e) : ∃ g', Tells g obs g' ∧ Inv g' q' := by
  induction run with
  | start => exact ⟨g, .silent rfl, inv⟩
  | next _ allowed step ih =>
    obtain ⟨middle, first, here⟩ := ih
    obtain ⟨last, second, _, there⟩ := here.step (clear _ _ allowed) step
    exact ⟨last, first.trans second, there⟩

theorem createClear_of_faultless (q : Queue F) {e : Event F} (ok : e.faultless = true) : CreateClear q e := by
  cases e with
  | poll result due => cases result <;> [cases ok; trivial]
  | _ => trivial

/-- A spool that was just opened: its files are whole, and nothing is under way. -/
theorem Inv.opened {disk : Disk} (store : StoreInv g.floor g.start g.log g.head (openQueue F disk).store)
    (files : FilesInv g (openQueue F disk).disk (openQueue F disk).store.active.seq false)
    (whole : g.tail = []) : Inv g (openQueue F disk) :=
  ⟨⟨store, files, ⟨fun _ => whole, nofun, nofun, nofun, nofun⟩, nofun, nofun, nofun⟩, nofun⟩

/-- What is known of a new spool: nothing was accepted yet. -/
def Ghost.new : Ghost F := ⟨0, false, 0, [], 0, []⟩

theorem Inv.new : Inv (Ghost.new : Ghost F) (openQueue F Disk.empty) := by
  have files (n : Nat) : (openQueue F Disk.empty).disk.files n = if n = 0 then some [] else none := rfl
  have position : (spoolLog F).At [] 0 0 0 := ⟨le_refl _, nofun, nofun, rfl⟩
  refine .opened ⟨⟨pairwise_singleton _ _, .nil, nofun, ?_⟩, position, mem_singleton.mpr rfl,
    fun n _ => zero_le n, nofun, nofun, le_refl _, le_refl _, nofun, .nil⟩ ⟨rfl, ?_, ?_, ?_, ?_⟩ rfl
  · intro segment mem
    rw [mem_singleton.mp mem]
    rfl
  · exact fun n _ small => absurd small (not_lt_zero n)
  · exact fun n _ small => absurd small (not_lt_zero n)
  · intro n file large present
    have positive : 0 < n := large
    rw [files, if_neg (ne_of_gt positive)] at present
    cases present
  · exact ⟨⟨0, 0⟩, 0, rfl, le_refl _, le_refl _, le_refl _, position, fun _ => rfl⟩

/-- A poll that leaves no eviction under way, and evicts nothing. -/
structure NoEviction (r : Reaction F) : Prop where
  stage : ∀ p read, r.1.pushing ≠ some (p, .evicting read)
  obs : ∀ o ∈ r.2, o.evictedValue = none

def Queue.Writing (q : Queue F) : Prop := ∃ p rest, q.pushing = some (p, .writing rest)

def Queue.Evicting (q : Queue F) : Prop := ∃ p read, q.pushing = some (p, .evicting read)

/-- The handle's operation has not failed. -/
def Queue.Calm (q : Queue F) : Prop := ∀ h, q.handle = some h → h.io ≠ .done false

theorem Queue.calm_of {seq : Nat} {io : HandleIo} (held : q.handle = some ⟨seq, io⟩) (fine : io ≠ .done false) :
    q.Calm := by
  intro h same
  rw [held] at same
  cases same
  exact fine

/-- What a step can leave of a push. A repair is due that was due before (`torn`), or that of a record being
written; the record is the push's own; an eviction begins only under its policy. -/
structure Turn (cfg : Config) (q : Queue F) (torn : Prop) (own : Bytes → Prop) (r : Reaction F) :
    Prop where
  orphans : r.1.orphans ⊆ q.orphans
  calm : q.Calm → r.1.Calm
  repair : q.Calm → r.1.needsRepair.isSome → torn ∨ r.1.Writing
  own : ∀ p stage, r.1.pushing = some (p, stage) → own p.record
  evicting : r.1.Evicting → cfg.overflow = .dropOldest ∨ q.Evicting
  obs : ¬ q.Evicting → ∀ o ∈ r.2, o.evictedValue = none

/-- A turn that leaves no repair due but those that were. -/
abbrev Passes (cfg : Config) (q : Queue F) (own : Bytes → Prop) (r : Reaction F) : Prop :=
  Turn cfg q q.needsRepair.isSome own r

/-- The turn of a step: a repair that was due for a record being written is due no more. -/
abbrev Steps (cfg : Config) (q : Queue F) (own : Bytes → Prop) (r : Reaction F) : Prop :=
  Turn cfg q (q.needsRepair.isSome ∧ ¬ q.Writing) own r

namespace Turn

variable {torn torn' : Prop} {own : Bytes → Prop} {rest : Bytes} {stage : Stage} {makeRoom : Bool}

theorem start {disk : Disk} {store : Store F} {handle : Option Handle} {needsRepair : Option Nat}
    {rotationStarted : Bool}
    (turn : Turn cfg { q with disk, store, handle, needsRepair, rotationStarted } torn own r)
    (calm : q.Calm → { q with disk, store, handle, needsRepair, rotationStarted }.Calm) (before : torn → torn') :
    Turn cfg q torn' own r where
  orphans := turn.orphans
  calm fine := turn.calm (calm fine)
  repair fine due := (turn.repair (calm fine) due).imp_left before
  own := turn.own
  evicting := turn.evicting
  obs := turn.obs

theorem leave {o : Obs F} (kept : o.evictedValue = none) : Passes cfg q own (q.leave o) where
  orphans := refl _
  calm := id
  repair _ due := .inl due
  own := nofun
  evicting := by
    rintro ⟨p, read, none⟩
    cases none
  obs _ := by
    rw [Queue.leave, forall_mem_singleton]
    exact kept

variable (mine : own p.record)
include mine

theorem await (policy : ∀ read, stage = .evicting read → cfg.overflow = .dropOldest) :
    Passes cfg q own (q.await p stage) where
  orphans := refl _
  calm := id
  repair _ due := .inl due
  own := by
    rintro p' stage' ⟨⟩
    exact mine
  evicting := by
    rintro ⟨p', read, ⟨⟩⟩
    exact .inl (policy read rfl)
  obs _ := nofun

theorem awaitWriting : Turn cfg q False own (q.await p (.writing rest)) :=
  { await mine (by simp) with repair := fun _ _ => .inr ⟨p, rest, rfl⟩ }

theorem writeOn (held : q.handle = some h) : Turn cfg q False own (q.writeOn p h rest) := by
  have sends : Turn cfg q False own (q.handOver p h rest) := by
    rw [handOver]
    split
    · exact (leave rfl).start (fun _ => calm_of rfl (by simp)) (by simp)
    · exact (awaitWriting mine).start (fun _ => calm_of rfl (by simp)) id
  rw [Queue.writeOn]
  split
  · exact awaitWriting mine
  · rename_i failed
    have rested : Passes cfg q own
        ({ q with handle := some ⟨h.seq, .idle⟩ }.leave (.failed p.item)) :=
      (leave rfl).start (fun _ => calm_of rfl (by simp)) id
    exact { rested with repair := fun fine => absurd failed (fine h held) }
  · exact sends
  · exact sends

theorem openHandle : Passes cfg q own (q.openHandle p) := by
  rw [Queue.openHandle]
  split
  · rename_i h held
    have marked : Turn cfg { q with needsRepair := some q.store.active.len } False own
        ({ q with needsRepair := some q.store.active.len }.writeOn p h p.record) := writeOn mine held
    exact marked.start id False.elim
  · exact await mine (by simp)

theorem afterRepair : Passes cfg q own (q.afterRepair cfg p makeRoom) := by
  rw [Queue.afterRepair]
  split
  · exact (await mine (by simp)).start id id
  · exact openHandle mine

theorem writeRecord : Passes cfg q own (q.writeRecord cfg p makeRoom) := by
  rw [Queue.writeRecord]
  split
  · rw [repairTornTail]
    split <;> exact await mine (by simp)
  · exact afterRepair mine

theorem pushLoop : Passes cfg q own (q.pushLoop cfg p) := by
  have rolled :
      Turn cfg { q with store := q.store.rollReadCursor } q.needsRepair.isSome own (q.pushLoop cfg p) := by
    rw [Queue.pushLoop]
    split
    · exact writeRecord mine
    · exact leave rfl
    · exact writeRecord mine
    · exact await mine (by simp)
    · rename_i evict
      split
      · exact await mine fun _ _ => (Core.action_evict evict).2
      · exact writeRecord mine
  exact rolled.start id id

theorem afterRotate : Passes cfg q own (q.afterRotate cfg p makeRoom) := by
  rw [Queue.afterRotate]
  split
  · exact (pushLoop mine).start id id
  · exact openHandle mine

theorem evictOldest {read : PendingRead} {ok due : Bool} (evicting : q.Evicting) :
    Passes cfg q own (q.evictOldest cfg p read ok due) := by
  rw [Queue.evictOldest]
  split
  · rename_i v len _
    split
    · have looped :
        Passes cfg q own ({ q with store := q.store.evict len due }.pushLoop cfg p) :=
        (pushLoop mine).start id id
      exact { looped with obs := fun none => absurd evicting none }
    · exact writeRecord mine
  · split
    · exact (pushLoop mine).start id id
    · exact writeRecord mine
  · exact writeRecord mine

end Turn

theorem Turn.poll {stage : Stage} {ok due : Bool} {own : Bytes → Prop} (pushing : q.pushing = some (p, stage))
    (mine : own p.record) (step : q.poll cfg ok due = some r) :
    Steps cfg q own r := by
  have polled (turn : Passes cfg q own r) (other : ∀ rest, stage ≠ .writing rest := by simp) :
      Steps cfg q own r := by
    refine turn.start id fun due => ⟨due, ?_⟩
    rintro ⟨p', rest, writing⟩
    rw [pushing] at writing
    cases writing
    exact other rest rfl
  rw [Queue.poll, pushing] at step
  cases stage with
  | blocked => cases step; exact polled (pushLoop mine)
  | evicting read => cases step; exact polled (evictOldest mine ⟨p, read, pushing⟩)
  | repairFlush makeRoom size =>
    simp only at step
    split at step <;> cases step
    exact polled ((await mine (by simp)).start (fun _ => calm_of rfl (by simp)) id)
  | repairOpen makeRoom size =>
    simp only at step
    split at step <;> cases step
    · exact polled ((await mine (by simp)).start (fun _ => calm_of rfl (by simp)) id)
    · exact polled (leave rfl)
  | repairSetLen makeRoom =>
    simp only at step
    split at step <;> cases step
    · exact polled ((afterRepair mine).start (fun _ => calm_of rfl (by simp)) (by simp))
    · exact polled ((leave rfl).start (fun _ => calm_of rfl (by simp)) id)
  | rotateSync makeRoom =>
    simp only at step
    split at step <;> cases step
    · exact polled ((await mine (by simp)).start (fun _ => calm_of rfl (by simp)) id)
    · exact polled (await mine (by simp))
  | rotateCreate makeRoom =>
    simp only at step
    split at step
    · cases step; exact polled ((await mine (by simp)).start id id)
    · split at step <;> cases step
      · exact polled (leave rfl)
      · exact polled ((afterRotate mine).start id id)
  | rotateSyncDir makeRoom =>
    cases step
    exact polled ((afterRotate mine).start (fun _ => calm_of rfl (by simp)) id)
  | opening =>
    simp only at step
    split at step <;> cases step
    · rw [← pushing]
      exact (writeOn mine rfl).start (fun _ => calm_of rfl (by simp)) False.elim
    · exact polled (leave rfl)
  | writing rest =>
    simp only at step
    split at step <;> cases step
    rename_i h _ held
    exact (writeOn mine held).start id False.elim

/-- A step of the consumer: it concerns its own read and the store's cursor. -/
structure ConsumerOnly (q : Queue F) (r : Reaction F) : Prop where
  disk : r.1.disk = q.disk
  handle : r.1.handle = q.handle
  needsRepair : r.1.needsRepair = q.needsRepair
  rotationStarted : r.1.rotationStarted = q.rotationStarted
  pushing : r.1.pushing = q.pushing
  orphans : r.1.orphans = q.orphans
  obs : ∀ o ∈ r.2, o.evictedValue = none ∧ o.acceptedItem = none

namespace ConsumerOnly

variable {store : Store F} {reader : Option (ReadMode × PendingRead)}

theorem quiet {closed : Bool} : ConsumerOnly q ({ q with store, reader, closed }, []) :=
  ⟨rfl, rfl, rfl, rfl, rfl, rfl, nofun⟩

theorem tells {o : Obs F} (evicts : o.evictedValue = none) (accepts : o.acceptedItem = none) :
    ConsumerOnly q ({ q with store, reader }, [o]) := by
  refine ⟨rfl, rfl, rfl, rfl, rfl, rfl, ?_⟩
  intro o' mem
  rw [mem_singleton.mp mem]
  exact ⟨evicts, accepts⟩

theorem peekLoop : ConsumerOnly q { q with store, reader }.peekLoop := by
  rw [Queue.peekLoop]
  split
  · exact tells rfl rfl
  · split <;> exact quiet

theorem peekAt {n : Nat} : ConsumerOnly q (q.peekAt n) := by
  rw [Queue.peekAt]
  generalize (if (decide (n = 0) && q.store.readAhead.isEmpty) = true then
    q.store.rollReadCursor else q.store) = st
  split
  · exact tells rfl rfl
  · split
    · exact quiet
    · split <;> exact quiet

theorem readDone {ok due : Bool} (step : q.readDone ok due = some r) : ConsumerOnly q r := by
  rw [Queue.readDone] at step
  split at step
  · cases step
  · cases step
    rw [peekDone]
    split
    · split <;> exact peekLoop
    · exact peekLoop
    · exact quiet
  · cases step
    rw [peekAtDone]
    split
    · split
      · exact tells rfl rfl
      · exact quiet
    · exact quiet
    · exact quiet

theorem commit {due : Bool} : ConsumerOnly q (q.commit due) := by
  rw [Queue.commit]
  simp only
  cases (q.store.commit due).2 with
  | none => exact quiet
  | some v => exact tells rfl rfl

end ConsumerOnly

theorem Turn.aside {own : Bytes → Prop} (before : ∀ p stage, q.pushing = some (p, stage) → own p.record)
    (orphans : r.1.orphans ⊆ q.orphans) (calm : q.Calm → r.1.Calm) (needsRepair : r.1.needsRepair = q.needsRepair)
    (pushing : r.1.pushing = q.pushing) (obs : ∀ o ∈ r.2, o.evictedValue = none) :
    Steps cfg q own r where
  orphans := orphans
  calm := calm
  repair _ due := by
    rw [needsRepair] at due
    by_cases writing : q.Writing
    · rw [Queue.Writing, ← pushing] at writing
      exact .inr writing
    · exact .inl ⟨due, writing⟩
  own := by
    rw [pushing]
    exact before
  evicting := by
    rw [Queue.Evicting, pushing]
    exact .inr
  obs _ := obs

theorem Turn.step {own : Bytes → Prop} {e : Event F}
    (before : ∀ p stage, q.pushing = some (p, stage) → own p.record)
    (starts : ∀ item record, e = .push item → F.record item = .ok record → own record) (ok : e.faultless = true)
    (kept : e ≠ .cancel) (step : q.step cfg e = some r) :
    Steps cfg q own r := by
  have consumer (only : ConsumerOnly q r) : Steps cfg q own r := by
    refine .aside before (only.orphans ▸ refl _) ?_ only.needsRepair only.pushing
      fun o mem => (only.obs o mem).1
    rw [Queue.Calm, Queue.Calm, only.handle]
    exact id
  have quiet {next : Option (Queue F)} (found : next.map (·, ([] : List (Obs F))) = some r)
      (fine : ∀ q', next = some q' → q'.orphans ⊆ q.orphans ∧ (q.Calm → q'.Calm) ∧
        q'.needsRepair = q.needsRepair ∧ q'.pushing = q.pushing) :
      Steps cfg q own r := by
    obtain ⟨q', made, rfl⟩ := map_eq_some_iff.mp found
    obtain ⟨orphans, calm, needsRepair, pushing⟩ := fine q' made
    exact .aside before orphans calm needsRepair pushing nofun
  cases e with
  | push item =>
    rw [Queue.step] at step
    split at step <;> cases step
    rename_i free
    rw [Queue.push]
    split
    · exact .aside before (refl _) id rfl rfl (by simp [Obs.evictedValue])
    · rename_i record written
      refine (Turn.pushLoop (starts item record rfl written)).start id fun due => ⟨due, ?_⟩
      rintro ⟨p, rest, writing⟩
      rw [writing] at free
      cases free
  | poll ok due =>
    cases pushing : q.pushing with
    | none =>
      rw [Queue.step, Queue.poll, pushing] at step
      cases step
    | some pair => exact .poll pushing (before pair.1 pair.2 pushing) step
  | cancel => exact absurd rfl kept
  | poolWrite count =>
    refine quiet step fun q' made => ?_
    rw [Queue.poolWrite] at made
    split at made <;> cases made
    exact ⟨refl _, fun _ => calm_of rfl (by simp), rfl, rfl⟩
  | poolDone ok =>
    refine quiet step fun q' made => ?_
    rw [Queue.poolDone] at made
    split at made <;> cases made
    exact ⟨refl _, fun _ => calm_of rfl (by simp_all [Event.faultless]), rfl, rfl⟩
  | orphanDone seq ok =>
    refine quiet step fun q' made => ?_
    rw [Queue.orphanDone] at made
    split at made <;> cases made
    exact ⟨erase_subset, id, rfl, rfl⟩
  | peek =>
    rw [Queue.step] at step
    split at step <;> cases step
    exact consumer .peekLoop
  | peekAt n =>
    rw [Queue.step] at step
    split at step <;> cases step
    exact consumer .peekAt
  | readDone ok due => exact consumer (.readDone step)
  | dropRead | close => cases step; exact consumer .quiet
  | commit due =>
    rw [Queue.step] at step
    split at step <;> cases step
    exact consumer .commit
  | work ok =>
    refine quiet step fun q' made => ?_
    rw [Queue.work] at made
    split at made <;> cases made <;> exact ⟨refl _, id, rfl, rfl⟩

theorem noEviction_step (blocking : cfg.overflow = .block)
    (before : ∀ p read, q.pushing ≠ some (p, .evicting read)) {e : Event F} (ok : e.faultless = true)
    (step : q.step cfg e = some r) : NoEviction r := by
  have none : ¬ q.Evicting := by
    rintro ⟨p, read, pushing⟩
    exact before p read pushing
  by_cases cancels : e = .cancel
  · subst cancels
    rw [Queue.step, Queue.cancel] at step
    split at step <;> cases step
    exact ⟨by simp [Queue.leave], by simp [Queue.leave, Obs.evictedValue]⟩
  · have turn : Turn cfg q _ (fun _ => True) r :=
      .step (fun _ _ _ => trivial) (fun _ _ _ _ => trivial) ok cancels step
    refine ⟨fun p read pushing => ?_, turn.obs none⟩
    rcases turn.evicting ⟨p, read, pushing⟩ with policy | evicting
    · rw [blocking] at policy
      cases policy
    · exact none evicting

theorem noEviction_runs (blocking : cfg.overflow = .block) (run : Runs cfg (fun _ e => e.faultless = true) q obs q')
    (before : ∀ p read, q.pushing ≠ some (p, .evicting read)) : NoEviction (q', obs) := by
  induction run with
  | start => exact ⟨before, nofun⟩
  | next _ ok step ih =>
    have last := noEviction_step blocking ih.stage ok step
    refine ⟨last.stage, fun o mem => ?_⟩
    rcases mem_append.mp mem with old | new
    · exact ih.obs o old
    · exact last.obs o new

theorem committed_of_tells (tells : Tells Ghost.new obs g) (kept : ∀ o ∈ obs, o.evictedValue = none) :
    committed obs <+: (accepted obs).map F.value := by
  have takes := tells.run.takes
  have items := tells.run.items
  rw [puts_act] at items
  rw [takes_act, consumed_eq_committed kept] at takes
  rwa [items] at takes

theorem peeked_of_tells {before after : List (Obs F)} {n : Nat} {v : F.Value}
    (tells : Tells Ghost.new (before ++ .peeked n v :: after) g) (kept : ∀ o ∈ before, o.evictedValue = none) :
    ((accepted before).map F.value)[(committed before).length + n]? = some v := by
  have told := tells.run
  rw [filterMap_append] at told
  have look := told.look
  rw [puts_act, takes_act, consumed_eq_committed kept] at look
  change ((([] ++ accepted before)[0 + (committed before).length + n]?).map F.value) = some v at look
  rw [nil_append, zero_add] at look
  rw [getElem?_map, look]

/-- The spool is a queue: under the blocking policy, with no I/O failure, what is committed is a prefix
of what was accepted, and every look sees the item that as many uncommitted ones come before. -/
theorem spool_fifo (X : Externals) (Z : BlockCodec) (compression : Compression) (cfg : Config)
    (blocking : cfg.overflow = .block) {obs : List (Obs (hopRecords X Z compression))}
    {q : Queue (hopRecords X Z compression)}
    (run : Runs cfg (fun _ e => e.faultless = true) (openQueue (hopRecords X Z compression) Disk.empty) obs q) :
    committed obs <+: (accepted obs).map Spoolable.value ∧
    ∀ before n v after, obs = before ++ .peeked n v :: after →
      ((accepted before).map Spoolable.value)[(committed before).length + n]? = some v := by
  have kept := (noEviction_runs blocking run nofun).obs
  obtain ⟨g, tells, _⟩ := Inv.new.runs run fun q e ok => createClear_of_faultless q ok
  refine ⟨committed_of_tells tells kept, ?_⟩
  rintro before n v after rfl
  exact peeked_of_tells tells fun o member => kept o (mem_append_left _ member)

/-- Two pushes into segments of one record each, of which the first is read and committed, and the
second looked at. -/
def fifoEvents (first second : Spoolable Externals.plain) : List (Event plainRecords) :=
  [.push first, .poll true false, .poolDone true, .poll true false,
    .push second, .poll true false, .poll true false, .poll true false, .poolDone true, .poll true false,
    .peek, .readDone true false, .peekAt 1, .readDone true false, .commit false, .peek]

theorem spool_fifo_sample : ∃ obs q, Runs ⟨1000, 1, .block⟩ (fun _ e => e.faultless = true)
      (openQueue plainRecords Disk.empty) obs q ∧
    (accepted obs).length = 2 ∧ (committed obs).length = 1 ∧
    committed obs <+: (accepted obs).map Spoolable.value := by
  have counts : ((openQueue plainRecords Disk.empty).run
      ⟨1000, 1, .block⟩ (fifoEvents (.empty 1 (by decide)) (.empty 2 (by decide)))).map
        (fun r => ((accepted r.2).length, (committed r.2).length)) = some (2, 1) := by decide +kernel
  obtain ⟨⟨q, obs⟩, made, counted⟩ := map_eq_some_iff.mp counts
  have run : Runs ⟨1000, 1, .block⟩ (fun _ e => e.faultless = true) _ obs q :=
    .of_run (fun _ => all_eq_true.mp rfl) made
  simp only [Prod.mk.injEq] at counted
  exact ⟨obs, q, run, counted.1, counted.2, (spool_fifo _ _ _ ⟨1000, 1, .block⟩ rfl run).1⟩

end Logit.Spool
