import Logit.Spool.Tracking

namespace Logit.Spool

open ByteCodec Native List Nat

variable {F : RecordFormat} {log : Log F} {floor head start i seq offset : Nat}
  {st : Store F} {e : Entry F}

/-- A record read ahead is the log's entry `i`. -/
structure Holds (log : Log F) (i : Nat) (r : ReadAhead F) : Prop where
  entry : ∃ e, log[i]? = some e ∧ r.value = F.value e.item ∧ r.len = e.bytes.length ∧ r.seg = e.seg
  position : (spoolLog F).At log r.seg r.offset i

/-- The segment below which a job unlinks: that of the cursor it persists first, or the `floor` that
earlier jobs reached. -/
def PersistJob.reach (floor : Nat) (job : PersistJob) : Nat := (job.cursor.map Cursor.segment).getD floor

/-- A queued job stays behind the cursor. -/
structure Behind (floor start : Nat) (log : Log F) (head readSeq : Nat) (job : PersistJob) : Prop where
  low : floor ≤ job.reach floor
  high : job.reach floor ≤ readSeq
  unlinks : ∀ n ∈ job.unlink, n < job.reach floor
  position : ∀ c, job.cursor = some c → ∃ i, start ≤ i ∧ i ≤ head ∧ (spoolLog F).At log c.segment c.offset i

/-- A store over the log of all accepted records, of which the first `head` are consumed. The session
began at entry `start`, and its persist jobs have reached segment `floor`. -/
structure StoreInv (floor start : Nat) (log : Log F) (head : Nat) (st : Store F) : Prop
    extends Tracks log st where
  cursor : (spoolLog F).At log st.readSeq st.readOffset head
  tracked : st.readSeq ∈ st.seqs
  least : ∀ n ∈ st.seqs, st.readSeq ≤ n
  pending : ∀ e ∈ log.drop head, e.seg ∈ st.seqs
  ahead : ∀ k r, st.readAhead[k]? = some r → Holds log (head + k) r
  started : start ≤ head
  reached : floor ≤ st.readSeq
  jobs : ∀ job ∈ st.jobs, Behind floor start log head st.readSeq job
  jobsOrdered : (st.jobs.filterMap PersistJob.cursor).Pairwise fun a b => a.segment ≤ b.segment

theorem Behind.later {job : PersistJob} {floor readSeq readSeq' head' : Nat}
    (behind : Behind floor start log head readSeq job) (forward : readSeq ≤ readSeq')
    (more : head ≤ head') : Behind floor start log head' readSeq' job := by
  refine ⟨behind.low, behind.high.trans forward, behind.unlinks, fun c found => ?_⟩
  obtain ⟨i, low, high, position⟩ := behind.position c found
  exact ⟨i, low, high.trans more, position⟩

theorem mem_drop_of_getElem? (found : log[i]? = some e) (from_ : head ≤ i) : e ∈ log.drop head := by
  rw [mem_iff_getElem?]
  refine ⟨i - head, ?_⟩
  rw [getElem?_drop, Nat.add_sub_cancel' from_, found]

theorem Tracks.seg_of_stops (tracks : Tracks log st) (here : (spoolLog F).At log seq offset i)
    (found : log[i]? = some e)
    (stops : seq = st.active.seq ∨ offset < (content log seq).length) : e.seg = seq := by
  rcases stops with rfl | more
  · have after := here.after e (mem_drop_of_getElem? found (le_refl i))
    exact le_antisymm (tracks.below e (mem_of_getElem? found)) after
  · obtain ⟨first, same, inside⟩ := here.exists_of_lt more tracks.ordered
    rw [found] at same
    cases same
    exact inside

namespace Store

theorem eraseP_seq {segments : List Segment} (sorted : (segments.map Segment.seq).Pairwise (· < ·))
    (n : Nat) : segments.eraseP (fun g => g.seq = n) = segments.filter fun g => g.seq ≠ n := by
  induction segments with
  | nil => rfl
  | cons g others ih =>
    rw [map_cons, pairwise_cons] at sorted
    by_cases here : g.seq = n
    · have different : ∀ o ∈ others, decide (o.seq ≠ n) = true := by
        intro o mem
        have above := sorted.1 o.seq (mem_map_of_mem mem)
        simp only [decide_eq_true_eq]
        omega
      rw [eraseP_cons_of_pos (by simpa using here), filter_cons_of_neg (by simpa using here),
        filter_eq_self.mpr different]
    · rw [eraseP_cons_of_neg (by simpa using here), filter_cons_of_pos (by simpa using here), ih sorted.2]

/-- Dropping segments takes them off the older ones, and changes nothing else but the total. -/
theorem dropSegments_eq (passed : List Nat) (st : Store F) :
    ∃ older total, passed.foldl dropSegment st = { st with older, totalBytes := total } ∧
      ((st.older.map Segment.seq).Pairwise (· < ·) → older = st.older.filter fun g => g.seq ∉ passed) := by
  induction passed generalizing st with
  | nil => exact ⟨_, _, rfl, by simp⟩
  | cons n passed ih =>
    obtain ⟨older, total, first, kept⟩ : ∃ older total, st.dropSegment n = { st with older, totalBytes := total } ∧
        ((st.older.map Segment.seq).Pairwise (· < ·) → older = st.older.filter fun g => g.seq ≠ n) := by
      rw [dropSegment]
      cases search : st.older.find? fun g => g.seq = n with
      | some removed => exact ⟨_, _, rfl, fun sorted => eraseP_seq sorted n⟩
      | none =>
        refine ⟨_, _, rfl, fun _ => (filter_eq_self.mpr fun g mem => ?_).symm⟩
        simpa using find?_eq_none.mp search g mem
    obtain ⟨older', total', rest, kept'⟩ := ih (st.dropSegment n)
    refine ⟨older', total', by rw [foldl_cons, rest, first], fun sorted => ?_⟩
    rw [first] at kept'
    have still : (older.map Segment.seq).Pairwise (· < ·) := by
      rw [kept sorted]
      exact sorted.sublist (filter_sublist.map _)
    rw [kept' still, kept sorted, filter_filter]
    refine filter_congr fun g _ => ?_
    simp only [mem_cons, not_or, ← Bool.decide_and, decide_eq_decide]
    exact and_comm

end Store

theorem Tracks.older_sorted (tracks : Tracks log st) : (st.older.map Segment.seq).Pairwise (· < ·) := by
  have sorted := tracks.sorted
  rw [Store.seqs, Store.segments, map_append] at sorted
  exact (pairwise_append.mp sorted).1

/-- An operation on the cursor: it goes forward, and leaves segments behind. -/
structure Forward (st st' : Store F) : Prop where
  active : st'.active = st.active
  readSeq : st.readSeq ≤ st'.readSeq
  fewer : ∀ n ∈ st'.seqs, n ∈ st.seqs

theorem Forward.refl (st : Store F) : Forward st st := ⟨rfl, le_refl _, fun _ mem => mem⟩

theorem Forward.trans {st st' st'' : Store F} (first : Forward st st') (second : Forward st' st'') :
    Forward st st'' :=
  ⟨second.active.trans first.active, first.readSeq.trans second.readSeq,
    fun n mem => first.fewer n (second.fewer n mem)⟩

/-- A roll moves nothing that is ahead of the cursor. -/
structure Rolled (log : Log F) (st st' : Store F) : Prop extends Forward st st' where
  readAhead : st'.readAhead = st.readAhead
  stops : st'.readSeq = st'.active.seq ∨ st'.readOffset < (content log st'.readSeq).length

namespace StoreInv

theorem moved (inv : StoreInv floor start log head st) {passed : List Nat}
    (rolls : RollsTo log st st.readSeq head (passed, seq, offset)) :
    let st' := passed.foldl Store.dropSegment { st with readSeq := seq, readOffset := offset }
    st'.readSeq = seq ∧ st'.readOffset = offset ∧ StoreInv floor start log head st' ∧ Rolled log st st' := by
  obtain ⟨older, total, same, rest⟩ := Store.dropSegments_eq passed { st with readSeq := seq, readOffset := offset }
  obtain rfl := rest inv.older_sorted
  have kept {n : Nat} : n ∈ (st.older.filter (fun g => g.seq ∉ passed)).map Segment.seq ++ [st.active.seq] ↔
      n ∈ st.seqs ∧ n ∉ passed := by
    have low : st.active.seq ∉ passed := fun mem =>
      absurd (((rolls.passed _).mp mem).2.2.trans_le (inv.le_active rolls.tracked)) (lt_irrefl _)
    simp only [Store.seqs, Store.segments, map_append, mem_append, mem_map, mem_filter,
      map_cons, map_nil, mem_singleton, decide_eq_true_eq]
    constructor
    · rintro (⟨g, ⟨mem, left⟩, rfl⟩ | rfl)
      · exact ⟨.inl ⟨g, mem, rfl⟩, left⟩
      · exact ⟨.inr rfl, low⟩
    · rintro ⟨⟨g, mem, rfl⟩ | rfl, left⟩
      · exact .inl ⟨g, ⟨mem, left⟩, rfl⟩
      · exact .inr rfl
  have seqs : ({ st with
      older := st.older.filter fun g => g.seq ∉ passed
      readSeq := seq
      readOffset := offset
      totalBytes := total } : Store F).seqs =
      (st.older.filter (fun g => g.seq ∉ passed)).map Segment.seq ++ [st.active.seq] := by
    rw [Store.seqs, Store.segments, map_append]
    rfl
  have fewer : (st.older.filter (fun g => g.seq ∉ passed) ++ [st.active]).Sublist st.segments :=
    filter_sublist.append (List.Sublist.refl _)
  simp only [same]
  refine ⟨trivial, trivial, ⟨⟨inv.sorted.sublist (fewer.map _), inv.ordered, inv.below,
    fun g mem => inv.lengths g (fewer.subset mem)⟩, rolls.position, ?_, ?_, ?_, inv.ahead, inv.started,
    inv.reached.trans rolls.forward, ?_, inv.jobsOrdered⟩, ⟨rfl, rolls.forward, ?_⟩, rfl, rolls.stops⟩
  · rw [seqs, kept]
    exact ⟨rolls.tracked, fun mem => absurd ((rolls.passed seq).mp mem).2.2 (lt_irrefl seq)⟩
  · intro n mem
    rw [seqs, kept] at mem
    by_contra below
    exact mem.2 ((rolls.passed n).mpr ⟨mem.1, inv.least n mem.1, not_le.mp below⟩)
  · intro e mem
    rw [seqs]
    refine kept.mpr ⟨inv.pending e mem, fun left => ?_⟩
    have after := rolls.position.after e mem
    exact absurd ((rolls.passed e.seg).mp left).2.2 (not_lt.mpr after)
  · exact fun job mem => (inv.jobs job mem).later rolls.forward (le_refl head)
  · intro n mem
    rw [seqs] at mem
    exact (kept.mp mem).1

variable {unlink : List Nat} {later : List PersistJob}

variable (inv : StoreInv floor start log head st)
include inv

/-- Queues a job that persists the cursor and unlinks segments it has left. -/
theorem checkpoint (atSeq : st.readSeq = seq) (atOffset : st.readOffset = offset) (low : ∀ n ∈ unlink, n < seq) :
    StoreInv floor start log head { st with jobs := st.jobs ++ [⟨some ⟨seq, offset⟩, unlink⟩] } := by
  subst atSeq atOffset
  refine { inv with jobs := ?_, jobsOrdered := ?_ }
  · intro job mem
    rcases mem_append.mp mem with old | new
    · exact inv.jobs job old
    · rw [mem_singleton] at new
      subst new
      refine ⟨inv.reached, le_refl _, low, ?_⟩
      rintro c ⟨⟩
      exact ⟨head, inv.started, le_refl head, inv.cursor⟩
  · rw [filterMap_append, pairwise_append]
    refine ⟨inv.jobsOrdered, by simp, ?_⟩
    intro old mem new last
    obtain ⟨job, queued, found⟩ := mem_filterMap.mp mem
    simp only [filterMap_cons, filterMap_nil, mem_singleton] at last
    subst last
    have high := (inv.jobs job queued).high
    rwa [PersistJob.reach, found] at high

theorem rollReadCursor : StoreInv floor start log head st.rollReadCursor ∧ Rolled log st st.rollReadCursor := by
  have rolls := Store.rollLoop_segments inv.toTracks inv.pending inv.cursor inv.tracked
  rw [Store.rollReadCursor]
  generalize st.rollLoop st.segments.length st.readSeq st.readOffset = rolled at rolls
  obtain ⟨passed, seq, offset⟩ := rolled
  obtain ⟨atSeq, atOffset, after, step⟩ := inv.moved rolls
  by_cases none : passed.isEmpty = true
  · simp only [if_pos none]
    exact ⟨after, step⟩
  · simp only [if_neg none]
    have queued := after.checkpoint atSeq atOffset fun n mem =>
      ((rolls.passed n).mp mem).2.2
    exact ⟨queued, { step with }⟩

theorem afterCursorAdvance (due : Bool) : StoreInv floor start log head (st.afterCursorAdvance due) ∧
      Rolled log st (st.afterCursorAdvance due) := by
  obtain ⟨after, rolled⟩ := inv.rollReadCursor
  cases due with
  | false => exact ⟨after, rolled⟩
  | true =>
    have queued := after.checkpoint rfl rfl fun n mem => absurd mem not_mem_nil
    exact ⟨queued, { rolled with }⟩

theorem pending_from (from_ : head ≤ i) : ∀ e ∈ log.drop i, e.seg ∈ st.seqs := by
  intro e mem
  rw [← Nat.add_sub_cancel' from_, ← drop_drop] at mem
  exact inv.pending e (mem_of_mem_drop mem)

theorem past (found : log[head]? = some e) (here : e.seg = st.readSeq) {others : List (ReadAhead F)}
    (rest : ∀ k r, others[k]? = some r → Holds log (head + 1 + k) r) (queued : Nat) :
    StoreInv floor start log (head + 1) { st with
      readAhead := others
      queuedRecords := queued
      readOffset := st.readOffset + e.bytes.length } := by
  exact { inv with
    cursor := inv.cursor.next found here
    pending := inv.pending_from (le_succ head)
    ahead := rest
    started := inv.started.trans (le_succ head)
    jobs := fun job mem => (inv.jobs job mem).later (le_refl _) (le_succ head) }

theorem advance (found : log[head]? = some e) (here : e.seg = st.readSeq) {others : List (ReadAhead F)}
    (rest : ∀ k r, others[k]? = some r → Holds log (head + 1 + k) r) (queued : Nat) (due : Bool) :
    StoreInv floor start log (head + 1) ({ st with
      readAhead := others
      queuedRecords := queued }.advanceReadCursor e.bytes.length due) ∧
    Forward st ({ st with
      readAhead := others
      queuedRecords := queued }.advanceReadCursor e.bytes.length due) := by
  obtain ⟨after, rolled⟩ := (inv.past found here rest queued).afterCursorAdvance due
  exact ⟨after, { rolled with }⟩

/-- A commit releases the entry at the cursor, or nothing when nothing was read. -/
theorem commit (due : Bool) : Forward st (st.commit due).1 ∧ match (st.commit due).2 with
    | none => StoreInv floor start log head (st.commit due).1
    | some v => (∃ e, log[head]? = some e ∧ v = F.value e.item) ∧
        StoreInv floor start log (head + 1) (st.commit due).1 := by
  obtain ⟨after, rolled⟩ := inv.rollReadCursor
  rw [Store.commit]
  cases ahead : st.rollReadCursor.readAhead with
  | nil => exact ⟨rolled.toForward, after⟩
  | cons first others =>
    obtain ⟨e, found, value, len, _⟩ := (after.ahead 0 first (by rw [ahead]; rfl)).entry
    have here := after.seg_of_stops after.cursor found rolled.stops
    have rest : ∀ k r, others[k]? = some r → Holds log (head + 1 + k) r := by
      intro k r mem
      have held := after.ahead (k + 1) r (by rw [ahead, getElem?_cons_succ, mem])
      rwa [add_comm k 1, ← add_assoc] at held
    obtain ⟨released, forward⟩ := after.advance found here rest (st.rollReadCursor.queuedRecords - 1) due
    rw [← len] at released forward
    exact ⟨rolled.toForward.trans forward, ⟨e, found, value⟩, released⟩

theorem evict (found : log[head]? = some e) (here : e.seg = st.readSeq) (unread : st.readAhead = []) (due : Bool) :
    StoreInv floor start log (head + 1) (st.evict e.bytes.length due) ∧
      Forward st (st.evict e.bytes.length due) := by
  have none : ∀ k r, st.readAhead[k]? = some r → Holds log (head + 1 + k) r := by
    intro k r mem
    rw [unread] at mem
    cases mem
  obtain ⟨after, forward⟩ := inv.advance found here none st.queuedRecords due
  exact ⟨{ after with }, { forward with }⟩

/-- The records read ahead end where the first entry not read yet starts, or would start. -/
theorem readAheadEnd : (spoolLog F).At log st.readAheadEnd.1 st.readAheadEnd.2 (head + st.readAhead.length) ∧
      st.readAheadEnd.1 ∈ st.seqs := by
  rw [Store.readAheadEnd]
  cases last : st.readAhead.getLast? with
  | none =>
    rw [getLast?_eq_none_iff.mp last]
    exact ⟨inv.cursor, inv.tracked⟩
  | some r =>
    rw [getLast?_eq_getElem?] at last
    have bound := (List.getElem?_eq_some_iff.mp last).1
    have held := inv.ahead _ r last
    obtain ⟨e, found, _, len, same⟩ := held.entry
    have step := held.position.next found same.symm
    have index : head + (st.readAhead.length - 1) + 1 = head + st.readAhead.length := by omega
    rw [index] at step
    simp only [len, same]
    rw [same] at step
    exact ⟨step, inv.pending e (mem_drop_of_getElem? found (le_add_right _ _))⟩

/-- The next place to read from is that of the first entry not read yet. -/
theorem nextReadPosition (next : st.nextReadPosition = some (seq, offset)) :
    seq ∈ st.seqs ∧ (spoolLog F).At log seq offset (head + st.readAhead.length) ∧
      ∃ e, log[head + st.readAhead.length]? = some e ∧ e.seg = seq := by
  obtain ⟨here, mem⟩ := inv.readAheadEnd
  have rolls := Store.rollLoop_segments inv.toTracks (inv.pending_from (le_add_right _ _)) here mem
  simp only [Store.nextReadPosition, Store.readable, inv.segmentLen rolls.tracked] at next
  split at next
  · rename_i more
    cases next
    have inside := of_decide_eq_true more
    exact ⟨rolls.tracked, rolls.position, rolls.position.exists_of_lt inside inv.ordered⟩
  · cases next

theorem reserve {r : ReadAhead F} (held : Holds log (head + st.readAhead.length) r) :
    StoreInv floor start log head (st.reserve r) := by
  refine { inv with ahead := ?_ }
  intro k r' mem
  rw [Store.reserve, getElem?_append] at mem
  split at mem
  · exact inv.ahead k r' mem
  · obtain ⟨rfl, rfl⟩ : k = st.readAhead.length ∧ r = r' := by
      cases index : k - st.readAhead.length with
      | zero =>
        rw [index] at mem
        exact ⟨by omega, by simpa using mem⟩
      | succ more =>
        rw [index] at mem
        cases mem
    exact held

/-- A record confirmed in the active segment is the log's next entry. -/
theorem confirm (here : e.seg = st.active.seq) :
    StoreInv floor start (log ++ [e]) head (st.confirm e.bytes.length) := by
  have seqs : (st.confirm e.bytes.length).seqs = st.seqs := by simp [Store.seqs, Store.segments, Store.confirm]
  have stays {s o i : Nat} (position : (spoolLog F).At log s o i) (mem : s ≤ st.active.seq) :
      (spoolLog F).At (log ++ [e]) s o i :=
    position.append (mem.trans here.ge)
  have entry {i : Nat} {a : Entry F} (found : log[i]? = some a) : (log ++ [e])[i]? = some a := by
    rw [getElem?_append_left (List.getElem?_eq_some_iff.mp found).1, found]
  refine ⟨⟨?_, ?_, ?_, ?_⟩, stays inv.cursor (inv.le_active inv.tracked), ?_, ?_, ?_, ?_, inv.started,
    inv.reached, ?_, inv.jobsOrdered⟩
  · rw [seqs]
    exact inv.sorted
  · rw [map_append, pairwise_append]
    refine ⟨inv.ordered, by simp, ?_⟩
    intro old mem new last
    obtain ⟨a, listed, rfl⟩ := mem_map.mp mem
    simp only [map_cons, map_nil, mem_singleton] at last
    rw [last, here]
    exact inv.below a listed
  · intro a mem
    rcases mem_append.mp mem with old | new
    · exact inv.below a old
    · rw [mem_singleton.mp new]
      exact here.le
  · intro g mem
    rcases mem_append.mp mem with old | active
    · have below : g.seq < st.active.seq := by
        have sorted := inv.sorted
        rw [Store.seqs, Store.segments, map_append] at sorted
        exact (pairwise_append.mp sorted).2.2 g.seq (mem_map_of_mem old) _ (by simp)
      rw [content_confirm_other (by omega)]
      exact inv.lengths g (mem_append_left _ old)
    · rw [mem_singleton.mp active]
      change st.active.len + e.bytes.length = (content (log ++ [e]) st.active.seq).length
      rw [content_confirm here, length_append, inv.active_len]
  · rw [seqs]
    exact inv.tracked
  · rw [seqs]
    exact inv.least
  · rw [seqs, drop_append_of_le_length inv.cursor.bound]
    intro a mem
    rcases mem_append.mp mem with old | new
    · exact inv.pending a old
    · rw [mem_singleton.mp new, here]
      exact st.mem_seqs_active
  · intro k r mem
    have held := inv.ahead k r mem
    obtain ⟨a, found, value, len, same⟩ := held.entry
    refine ⟨⟨a, entry found, value, len, same⟩, stays held.position ?_⟩
    rw [same]
    exact inv.below a (mem_of_getElem? found)
  · intro job mem
    have behind := inv.jobs job mem
    refine ⟨behind.low, behind.high, behind.unlinks, ?_⟩
    intro c found
    obtain ⟨i, low, high, position⟩ := behind.position c found
    have reach := behind.high
    rw [PersistJob.reach, found] at reach
    exact ⟨i, low, high, stays position (reach.trans (inv.le_active inv.tracked))⟩

theorem addSegment (above : st.active.seq < seq) : StoreInv floor start log head (st.addSegment seq) := by
  have seqs : (st.addSegment seq).seqs = st.seqs ++ [seq] := by simp [Store.seqs, Store.segments, Store.addSegment]
  have mem {n : Nat} (old : n ∈ st.seqs) : n ∈ (st.addSegment seq).seqs := by
    rw [seqs]
    exact mem_append_left _ old
  refine ⟨⟨?_, inv.ordered, fun a listed => (inv.below a listed).trans above.le, ?_⟩, inv.cursor,
    mem inv.tracked, ?_, fun a listed => mem (inv.pending a listed), inv.ahead, inv.started,
    inv.reached, inv.jobs, inv.jobsOrdered⟩
  · rw [seqs, pairwise_append]
    refine ⟨inv.sorted, by simp, ?_⟩
    intro n old m new
    rw [mem_singleton.mp new]
    exact (inv.le_active old).trans_lt above
  · intro g listed
    rw [Store.addSegment] at listed
    rcases mem_append.mp listed with old | new
    · exact inv.lengths g old
    · have none : content log seq = [] := SegmentedLog.content_eq_nil fun a listed => by
        have below := inv.below a listed
        exact Nat.ne_of_lt (below.trans_lt above)
      rw [mem_singleton.mp new, none]
      rfl
  · intro n listed
    rw [seqs] at listed
    rcases mem_append.mp listed with old | new
    · exact inv.least n old
    · rw [mem_singleton.mp new]
      exact (inv.le_active inv.tracked).trans above.le

/-- The worker tried to persist its oldest job's cursor: later jobs start from that segment. -/
theorem persisted {c : Cursor} (jobs : st.jobs = ⟨some c, unlink⟩ :: later) : floor ≤ c.segment ∧
      StoreInv c.segment start log head { st with jobs := ⟨none, unlink⟩ :: later } := by
  have ordered := inv.jobsOrdered
  have first := inv.jobs ⟨some c, unlink⟩ (by rw [jobs]; exact mem_cons_self)
  have raised : floor ≤ c.segment := first.low
  simp only [jobs, filterMap_cons, pairwise_cons] at ordered
  refine ⟨raised, { inv with reached := first.high, jobs := ?_, jobsOrdered := ordered.2 }⟩
  intro job mem
  rcases mem_cons.mp mem with rfl | old
  · exact ⟨le_refl _, first.high, first.unlinks, fun _ found => by cases found⟩
  · have behind := inv.jobs job (by rw [jobs]; exact mem_cons_of_mem _ old)
    cases found : job.cursor with
    | none =>
      have reach : job.reach c.segment = c.segment := by rw [PersistJob.reach, found]; rfl
      have before : job.reach floor = floor := by rw [PersistJob.reach, found]; rfl
      refine ⟨reach.ge, reach.le.trans first.high, ?_, fun _ some => by rw [found] at some; cases some⟩
      intro n listed
      have low := behind.unlinks n listed
      omega
    | some c' =>
      have reach (f : Nat) : job.reach f = c'.segment := by rw [PersistJob.reach, found]; rfl
      have above := ordered.1 c' (mem_filterMap.mpr ⟨job, old, found⟩)
      have high := behind.high
      have unlinks := behind.unlinks
      rw [reach] at high unlinks
      exact ⟨by rw [reach]; exact above, by rw [reach]; exact high, by rw [reach]; exact unlinks, behind.position⟩

/-- The worker tried its oldest job's next unlink, of a segment that is not tracked any more. -/
theorem unlinked {n : Nat} (jobs : st.jobs = ⟨none, n :: unlink⟩ :: later) :
    n < floor ∧ StoreInv floor start log head { st with jobs := ⟨none, unlink⟩ :: later } := by
  have first := inv.jobs ⟨none, n :: unlink⟩ (by rw [jobs]; exact mem_cons_self)
  have ordered := inv.jobsOrdered
  rw [jobs] at ordered
  refine ⟨first.unlinks n mem_cons_self, { inv with jobs := ?_, jobsOrdered := ordered }⟩
  intro job mem
  rcases mem_cons.mp mem with rfl | old
  · exact ⟨first.low, first.high, fun m listed => first.unlinks m (mem_cons_of_mem _ listed),
      fun _ found => by cases found⟩
  · exact inv.jobs job (by rw [jobs]; exact mem_cons_of_mem _ old)

theorem jobDone (jobs : st.jobs = ⟨none, []⟩ :: later) :
    StoreInv floor start log head { st with jobs := later } := by
  have ordered := inv.jobsOrdered
  rw [jobs] at ordered
  exact { inv with
    jobs := fun job old => inv.jobs job (by rw [jobs]; exact mem_cons_of_mem _ old)
    jobsOrdered := ordered }

end StoreInv

end Logit.Spool
