import Logit.Spool.Refinement

namespace Logit.Spool

open ByteCodec Native List Queue Store

variable {F : RecordFormat} {cfg : Config} {g g' : Ghost F} {q q' : Queue F} {e : Entry F}
  {obs : List (Obs F)}

/-- What a consumer alone does to a spool, with the persist worker behind it. -/
def Event.drains : Event F → Bool
  | .peek | .peekAt _ | .dropRead | .commit _ => true
  | .readDone ok _ | .work ok => ok
  | _ => false

theorem faultless_of_drains {event : Event F} (drains : event.drains = true) : event.faultless = true := by
  cases event with
  | peek | peekAt | dropRead | commit => rfl
  | readDone | work => exact drains
  | _ => cases drains

theorem drains_step {event : Event F} (drains : event.drains = true) {r : Reaction F}
    (step : q.step cfg event = some r) : ∀ o ∈ r.2, o.evictedValue = none ∧ o.acceptedItem = none := by
  cases event with
  | peek =>
    rw [Queue.step] at step
    split at step <;> cases step
    exact ConsumerOnly.peekLoop.obs
  | peekAt n =>
    rw [Queue.step] at step
    split at step <;> cases step
    exact ConsumerOnly.peekAt.obs
  | readDone ok due => exact (ConsumerOnly.readDone step).obs
  | dropRead => cases step; simp
  | commit due =>
    rw [Queue.step] at step
    split at step <;> cases step
    exact ConsumerOnly.commit.obs
  | work ok =>
    obtain ⟨q', _, rfl⟩ := Option.map_eq_some_iff.mp step
    simp
  | _ => cases drains

/-- A consumer has peeked to the end: another peek would wait. -/
def Drained (q : Queue F) : Prop := q.peekLoop.2 = [] ∧ q.peekLoop.1.reader = none

/-- The values that a consumer commits of a spool until nothing is left. -/
def Drains (cfg : Config) (q : Queue F) (vs : List F.Value) : Prop :=
  ∃ obs q', Runs cfg (fun _ event => event.drains = true) q obs q' ∧ Drained q' ∧ committed obs = vs

theorem StoreInv.readable {floor start head : Nat} {log : Log F} {st : Store F}
    (inv : StoreInv floor start log head st)
    (stops : st.readSeq = st.active.seq ∨ st.readOffset < (content log st.readSeq).length)
    (found : log[head]? = some e) : e.seg = st.readSeq ∧ st.readable st.readSeq st.readOffset = true := by
  have inside := inv.seg_of_stops inv.cursor found stops
  have next : st.readOffset + e.bytes.length ≤ (content log st.readSeq).length :=
    (inv.cursor.next found inside).le_content
  have some := (spoolLog F).nonempty e
  rw [Store.readable, inv.segmentLen inv.tracked]
  refine ⟨inside, decide_eq_true ?_⟩
  change 0 < e.bytes.length at some
  omega

theorem Inv.drained (inv : Inv g q) (drained : Drained q) : g.log.length ≤ g.head := by
  obtain ⟨quiet, idle⟩ := drained
  obtain ⟨store, rolled⟩ := inv.core.store.rollReadCursor
  by_contra more
  have found := getElem?_eq_getElem (by omega : g.head < g.log.length)
  obtain ⟨_, readable⟩ := store.readable rolled.stops found
  rw [Queue.peekLoop] at quiet idle
  cases ahead : q.store.rollReadCursor.readAhead with
  | cons first others =>
    rw [ahead] at quiet
    cases quiet
  | nil =>
    simp only [ahead, readable] at idle
    cases idle

theorem Store.rollReadCursor_readAhead (st : Store F) : st.rollReadCursor.readAhead = st.readAhead := by
  rw [rollReadCursor]
  obtain ⟨passed, seq, offset⟩ := st.rollLoop st.segments.length st.readSeq st.readOffset
  obtain ⟨older, total, same, _⟩ := dropSegments_eq passed { st with readSeq := seq, readOffset := offset }
  simp only [same]
  split <;> rfl

theorem Store.advanceReadCursor_readAhead (st : Store F) (len : Nat) (due : Bool) :
    (st.advanceReadCursor len due).readAhead = st.readAhead := by
  have rolled := { st with readOffset := st.readOffset + len }.rollReadCursor_readAhead
  rw [advanceReadCursor, afterCursorAdvance]
  split
  · exact rolled
  · exact rolled

theorem Queue.peekLoop_ahead {first : ReadAhead F} {others : List (ReadAhead F)}
    (ahead : q.store.readAhead = first :: others) :
    q.peekLoop = ({ q with store := q.store.rollReadCursor, reader := none }, [.peeked 0 first.value]) := by
  have kept := q.store.rollReadCursor_readAhead
  rw [ahead] at kept
  rw [peekLoop]
  simp [kept]

theorem Queue.commit_ahead {first : ReadAhead F} {others : List (ReadAhead F)}
    (ahead : q.store.readAhead = first :: others) (due : Bool) :
    ∃ store : Store F, q.commit due = ({ q with store }, [.committed first.value]) ∧ store.readAhead = others := by
  have kept := q.store.rollReadCursor_readAhead
  rw [ahead] at kept
  refine ⟨(q.store.commit due).1, ?_, ?_⟩
  · rw [commit, Store.commit]
    simp only [kept]
    rfl
  · rw [Store.commit]
    simp only [kept]
    exact advanceReadCursor_readAhead _ _ _

/-- With nothing read ahead, a peek begins the read of the next record. -/
theorem Inv.peek_reads (inv : Inv g q) (unread : q.store.readAhead = []) (found : g.log[g.head]? = some e) :
    ∃ read, q.peekLoop = ({ q with store := q.store.rollReadCursor, reader := some (.peek, read) }, []) ∧
      { q with store := q.store.rollReadCursor }.readResult true read = .record (F.value e.item) e.bytes.length ∧
      q.store.rollReadCursor.headAt read.seg read.offset = true := by
  obtain ⟨store, rolled⟩ := inv.core.store.rollReadCursor
  have after := inv.core.moved (le_refl _) store rolled.toForward
  obtain ⟨inside, readable⟩ := store.readable rolled.stops found
  have reads := after.readFrom store.tracked store.cursor found inside
  have ahead := q.store.rollReadCursor_readAhead
  rw [unread] at ahead
  refine ⟨_, ?_, after.readResult reads store.tracked, ?_⟩
  · rw [Queue.peekLoop]
    simp [ahead, readable]
  · rw [headAt, ahead, readFrom]
    simp

theorem Queue.peekDone_head {read : PendingRead} {v : F.Value} {len : Nat} (due : Bool)
    (result : q.readResult true read = .record v len) (here : q.store.headAt read.seg read.offset = true) :
    ∃ store : Store F, q.peekDone read true due = ({ q with store, reader := none }, [.peeked 0 v]) ∧
      store.readAhead = [⟨v, read.seg, read.offset, len⟩] := by
  obtain ⟨unread, _, _⟩ := headAt_iff here
  have ahead : (q.store.reserve ⟨v, read.seg, read.offset, len⟩).readAhead = [⟨v, read.seg, read.offset, len⟩] := by
    rw [reserve, unread, nil_append]
  refine ⟨(q.store.reserve ⟨v, read.seg, read.offset, len⟩).rollReadCursor, ?_, ?_⟩
  · rw [peekDone, result]
    simp only [if_pos here]
    exact peekLoop_ahead (q := { q with
      store := q.store.reserve ⟨v, read.seg, read.offset, len⟩ }) ahead
  · rw [rollReadCursor_readAhead, ahead]

theorem Inv.round (cfg : Config) (inv : Inv g q) (free : q.reader = none) (unread : q.store.readAhead = [])
    (found : g.log[g.head]? = some e) : ∃ q', Runs cfg (fun _ event => event.drains = true) q
        [.peeked 0 (F.value e.item), .committed (F.value e.item)] q' ∧
      q'.reader = none ∧ q'.store.readAhead = [] := by
  obtain ⟨read, begins, result, here⟩ := inv.peek_reads unread found
  have peeks : q.step cfg .peek =
      some ({ q with store := q.store.rollReadCursor, reader := some (.peek, read) }, []) := by
    rw [Queue.step, free, Option.isNone_none, if_pos rfl, begins]
  obtain ⟨held, ends, one⟩ := peekDone_head (q := { q with
    store := q.store.rollReadCursor
    reader := none }) false result here
  obtain ⟨left, commits, none⟩ := commit_ahead (q := { q with
    store := held
    reader := none }) one false
  have first : Runs cfg (fun _ event => event.drains = true) q _ _ := .next (.start q) rfl peeks
  have second := Runs.next first (e := .readDone true false) rfl (congrArg some ends)
  have third := Runs.next second (e := .commit false) rfl (congrArg some commits)
  exact ⟨_, third, rfl, none⟩

theorem Inv.drain (inv : Inv g q) (run : Runs cfg (fun _ event => event.drains = true) q obs q') :
    ∃ g', Tells g obs g' ∧ Inv g' q' ∧ g'.log = g.log ∧ consumed obs = committed obs := by
  obtain ⟨g', tells, after⟩ := inv.runs run fun _ _ drains =>
    createClear_of_faultless _ (faultless_of_drains drains)
  have quiet : ∀ o ∈ obs, o.evictedValue = none ∧ o.acceptedItem = none := by
    clear tells after inv
    induction run with
    | start => exact nofun
    | next _ drains step ih =>
      intro o mem
      rcases mem_append.mp mem with old | new
      · exact ih o old
      · exact drains_step drains step o new
  have items := tells.run.items
  rw [puts_act, accepted, filterMap_eq_nil_iff.mpr fun o mem => (quiet o mem).2] at items
  have same : g.log.length = g'.log.length := by simpa [Ghost.fifo] using (congrArg length items).symm
  exact ⟨g', tells, after, (tells.grown.eq_of_length same).symm,
    consumed_eq_committed fun o mem => (quiet o mem).1⟩

theorem Inv.drains_eq (inv : Inv g q) {vs : List F.Value} (drains : Drains cfg q vs) :
    vs = (g.log.drop g.head).map fun e => F.value e.item := by
  obtain ⟨obs, q', run, drained, rfl⟩ := drains
  obtain ⟨g', tells, after, same, values⟩ := inv.drain run
  have all := after.drained drained
  have takes := tells.run.takes
  have taken := tells.run.taken
  rw [takes_act, values] at takes taken
  change g'.head = g.head + (committed obs).length at taken
  change committed obs <+: ((g'.log.map Entry.item).drop g.head).map F.value at takes
  rw [same, ← map_drop, map_map] at takes
  refine takes.eq_of_length_le ?_
  rw [same] at all
  rw [length_map, length_drop]
  omega

theorem Inv.drains (inv : Inv g q) (free : q.reader = none) (unread : q.store.readAhead = []) :
    ∃ vs, Drains cfg q vs := by
  generalize left : g.log.length - g.head = rounds
  induction rounds generalizing g q with
  | zero =>
    have none : g.log[g.head]? = none := getElem?_eq_none (by omega)
    obtain ⟨store, rolled⟩ := inv.core.store.rollReadCursor
    have ahead := q.store.rollReadCursor_readAhead
    rw [unread] at ahead
    have ended : q.store.rollReadCursor.readable q.store.rollReadCursor.readSeq
        q.store.rollReadCursor.readOffset = false := by
      rw [Store.readable, store.segmentLen store.tracked]
      refine decide_eq_false fun more => ?_
      obtain ⟨e, found, _⟩ := store.cursor.exists_of_lt more store.ordered
      rw [none] at found
      cases found
    refine ⟨[], [], q, .start q, ?_, rfl⟩
    rw [Drained, Queue.peekLoop]
    simp only [ahead, ended]
    exact ⟨rfl, rfl⟩
  | succ rounds ih =>
    have found := getElem?_eq_getElem (by omega : g.head < g.log.length)
    obtain ⟨q', run, free', unread'⟩ := inv.round cfg free unread found
    obtain ⟨g', tells, after, same, values⟩ := inv.drain run
    have taken := tells.run.taken
    obtain ⟨vs, obs, q'', rest, drained, _⟩ := ih after free' unread' (by
      rw [same]
      change g'.head = g.head + 1 at taken
      omega)
    exact ⟨_, _, q'', run.append rest, drained, rfl⟩

end Logit.Spool
