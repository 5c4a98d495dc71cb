import Logit.Spool.Drain
import Logit.Spool.Reopen

namespace Logit.Spool

open ByteCodec Native Logit.Frame List Nat Externals

variable {F : RecordFormat} {cfg : Config} {g : Ghost F} {q q' : Queue F} {e : Entry F}
  {log : Log F} {low top : Nat} {c : Cursor} {tail : Bytes} {disk : Disk} {obs : List (Obs F)}

/-- A record that a crash finds whole on disk, though its push had not come back yet. -/
def Queue.landed (q : Queue F) : List F.Item :=
  match q.pushing with
  | some (p, .writing _) =>
    if q.disk.fileLen q.store.active.seq = q.store.active.len + p.record.length then [p.item] else []
  | _ => []

section

variable (inv : Inv g q)
include inv

theorem Inv.smooth_runs (smooth : Smooth q) (run : Runs cfg (fun _ event => event.smooth) q obs q') :
    ∃ g', Tells g obs g' ∧ g'.lossy = g.lossy ∧ Inv g' q' ∧ Smooth q' := by
  induction run with
  | start => exact ⟨g, .silent rfl, rfl, inv, smooth⟩
  | next _ allowed step ih =>
    obtain ⟨middle, first, kept, here, calm⟩ := ih
    have faultless := faultless_of_smooth allowed
    obtain ⟨last, second, same, there⟩ := here.step (createClear_of_faultless _ faultless) step
    exact ⟨last, first.trans second, (same faultless).trans kept, there, calm.step allowed step⟩

theorem Queue.landed_of_clean (clean : q.needsRepair = none) : q.landed = [] := by
  rw [landed]
  split
  · rename_i p rest pushing
    have torn := (inv.stage p _ pushing).1
    rw [clean] at torn
    cases torn
  · rfl

theorem Inv.crash_rotating (exact_ : g.lossy = false) {file : Bytes}
    (next : q.disk.files (q.store.active.seq + 1) = some file) :
    q.landed = [] ∧ ∃ c i, g.start ≤ i ∧ i ≤ g.head ∧ Survives g.log i c (q.store.active.seq + 1) [] q.disk := by
  have core := inv.core
  obtain ⟨rfl, _, rotating⟩ := core.files.above _ file (lt_succ_self _) next
  have clean := core.rotation rotating
  obtain ⟨c, i, found, _, from_, upTo, position, floor⟩ := core.files.persisted
  have start := floor exact_
  have reached := core.store.reached.trans (core.store.le_active core.store.tracked)
  have below := core.store.below
  have empty : content g.log (q.store.active.seq + 1) = [] := by
    refine SegmentedLog.content_eq_nil fun e mem same => ?_
    have old := below e mem
    change e.seg = _ at same
    omega
  refine ⟨q.landed_of_clean inv clean, c, i, from_, upTo, ⟨.inl found, position, by omega, ?_, ?_, ?_, ?_,
    core.store.ordered, fun e mem => (below e mem).trans (le_succ _), .inl rfl⟩⟩
  · rw [next, empty]
    rfl
  · intro n low high
    rcases eq_or_lt_of_le (le_of_lt_succ high) with rfl | closed
    · rw [core.files.activeFile, core.handle.torn clean, append_nil]
    · exact core.files.kept n (by omega) closed
  · exact fun n file small present => core.files.below n file (by omega) present
  · intro n large
    by_contra present
    obtain ⟨other, held⟩ := Option.ne_none_iff_exists'.mp present
    have above := (core.files.above n other (by omega) held).2.1
    omega

/-- A crash otherwise, with all that is written of the active segment's records explained. -/
theorem Inv.crash_writing (exact_ : g.lossy = false) (absent : q.disk.files (q.store.active.seq + 1) = none)
    (torn : Torn F tail) (same : ∀ n, n < q.store.active.seq → content log n = content g.log n)
    (active : content log q.store.active.seq ++ tail = content g.log q.store.active.seq ++ g.tail)
    (ordered : (log.map Entry.seg).Pairwise (· ≤ ·)) (bound : ∀ e ∈ log, e.seg ≤ q.store.active.seq)
    (moved : ∀ s offset i, s ≤ q.store.active.seq → (spoolLog F).At g.log s offset i →
      (spoolLog F).At log s offset i) :
    ∃ c i, g.start ≤ i ∧ i ≤ g.head ∧ Survives log i c q.store.active.seq tail q.disk := by
  have core := inv.core
  obtain ⟨c, i, found, _, from_, upTo, position, floor⟩ := core.files.persisted
  have start := floor exact_
  have reached := core.store.reached.trans (core.store.le_active core.store.tracked)
  refine ⟨c, i, from_, upTo, ⟨.inl found, moved _ _ _ (by omega) position, by omega, ?_, ?_, ?_, ?_,
    ordered, bound, torn⟩⟩
  · rw [core.files.activeFile, active]
  · intro n low high
    rw [same n high]
    exact core.files.kept n (by omega) high
  · intro n file small present
    rw [same n (by omega)]
    exact core.files.below n file (by omega) present
  · intro n large
    by_contra present
    obtain ⟨other, held⟩ := Option.ne_none_iff_exists'.mp present
    have above := (core.files.above n other large held).2.1
    rw [above, absent] at held
    cases held

theorem Inv.crash_torn (exact_ : g.lossy = false) (absent : q.disk.files (q.store.active.seq + 1) = none)
    (torn : Torn F g.tail) :
    ∃ c i, g.start ≤ i ∧ i ≤ g.head ∧ Survives g.log i c q.store.active.seq g.tail q.disk :=
  inv.crash_writing exact_ absent torn (fun _ _ => rfl) rfl inv.core.store.ordered inv.core.store.below
    fun _ _ _ _ position => position

theorem Inv.crash_landed (exact_ : g.lossy = false) (absent : q.disk.files (q.store.active.seq + 1) = none)
    {p : Push F} (whole : g.tail = p.record) : ∃ c i, g.start ≤ i ∧ i ≤ g.head ∧
      Survives (g.log ++ [⟨q.store.active.seq, p.item, p.record, p.written⟩]) i c q.store.active.seq []
        q.disk := by
  have below := inv.core.store.below
  refine inv.crash_writing exact_ absent (.inl rfl) ?_ ?_ ?_ ?_ ?_
  · exact fun n closed => content_confirm_other (ne_of_gt closed)
  · rw [content_confirm rfl, whole, append_nil]
  · rw [map_append, pairwise_append]
    refine ⟨inv.core.store.ordered, pairwise_singleton _ _, ?_⟩
    intro s old s' new
    obtain ⟨e, mem, rfl⟩ := mem_map.mp old
    rw [mem_singleton.mp new]
    exact below e mem
  · intro e mem
    rcases mem_append.mp mem with old | new
    · exact below e old
    · rw [mem_singleton.mp new]
  · exact fun s offset i low position => position.append low

theorem Inv.landed {p : Push F} {rest : Bytes} (writing : q.pushing = some (p, .writing rest)) :
    q.landed = if g.tail.length = p.record.length then [p.item] else [] := by
  have length := inv.core.store.lengths q.store.active (by simp [Store.segments])
  have file : q.disk.fileLen q.store.active.seq = q.store.active.len + g.tail.length := by
    rw [Disk.fileLen, inv.core.files.activeFile, Option.getD_some, length_append, length]
  rw [Queue.landed, writing]
  simp [file]

/-- A crash leaves a directory of the accepted records, with the one that had landed. -/
theorem Inv.crash (smooth : Smooth q) (exact_ : g.lossy = false) :
    ∃ log c i top tail, g.log <+: log ∧ log.map Entry.item = g.log.map Entry.item ++ q.landed ∧
      g.start ≤ i ∧ i ≤ g.head ∧ Survives log i c top tail q.disk := by
  cases next : q.disk.files (q.store.active.seq + 1) with
  | some file =>
    obtain ⟨none, c, i, from_, upTo, survives⟩ := inv.crash_rotating exact_ next
    refine ⟨g.log, c, i, _, _, prefix_refl _, ?_, from_, upTo, survives⟩
    rw [none, append_nil]
  | none =>
    have torn (partly : Torn F g.tail) (none : q.landed = []) : ∃ log c i top tail, g.log <+: log ∧
        log.map Entry.item = g.log.map Entry.item ++ q.landed ∧ g.start ≤ i ∧ i ≤ g.head ∧
        Survives log i c top tail q.disk := by
      obtain ⟨c, i, from_, upTo, survives⟩ := inv.crash_torn exact_ next partly
      refine ⟨g.log, c, i, _, _, prefix_refl _, ?_, from_, upTo, survives⟩
      rw [none, append_nil]
    cases repair : q.needsRepair with
    | none => exact torn (.inl (inv.core.handle.torn repair)) (q.landed_of_clean inv repair)
    | some before =>
      obtain ⟨p, rest, writing⟩ := smooth.writing (by rw [repair]; rfl)
      have cut := inv.writing writing
      have landed := inv.landed writing
      by_cases whole : g.tail.length = p.record.length
      · obtain ⟨c, i, from_, upTo, survives⟩ := inv.crash_landed exact_ next (cut.eq_of_length whole)
        refine ⟨_, c, i, _, _, prefix_append _ _, ?_, from_, upTo, survives⟩
        rw [landed, if_pos whole, map_append]
        rfl
      · have shorter := cut.length_le
        exact torn (.inr ⟨p.item, p.record, p.written, smooth.solid p _ writing, cut, by omega⟩)
          (by rw [landed, if_neg whole])

end

/-- A directory from which a spool resumes at an entry of the log: a new one, or what a crash left. -/
inductive Resumes (log : Log F) (low : Nat) : Disk → Prop
  | new (none : log = []) (first : low = 0) : Resumes log low .empty
  | crashed {c : Cursor} {top : Nat} {tail : Bytes} {disk : Disk} :
      Survives log low c top tail disk → Resumes log low disk

theorem Survives.created : Survives ([] : Log F) 0 ⟨0, 0⟩ 0 [] (Disk.empty.create 0) := by
  have files (n : Nat) : (Disk.empty.create 0).files n = if n = 0 then some [] else none := rfl
  refine ⟨.inr ⟨rfl, rfl⟩, ⟨le_refl _, nofun, nofun, rfl⟩, le_refl _, rfl, ?_, ?_, ?_, .nil, nofun, .inl rfl⟩
  · exact fun n _ small => absurd small (not_lt_zero n)
  · exact fun n _ small => absurd small (not_lt_zero n)
  · intro n large
    rw [files, if_neg (by omega)]

theorem Resumes.interrupted (resumes : Resumes log low disk) {ops : List DiskOp}
    (some : ops <+: (disk.find F).ops) : Resumes log low (ops.foldl Disk.apply disk) := by
  cases resumes with
  | crashed survives =>
    obtain ⟨tail, after⟩ := survives.interrupted some
    exact .crashed after
  | new none first =>
    subst none first
    cases ops with
    | nil => exact .new rfl rfl
    | cons op ops =>
      obtain ⟨rfl, rest⟩ := cons_prefix_cons.mp some
      have harmless : ∀ op ∈ ops, Survives.Harmless ([] : Log F) ⟨0, 0⟩ 0 op := by
        intro op mem
        rw [mem_singleton.mp (rest.subset mem)]
        exact rfl
      obtain ⟨tail, after, _⟩ := Survives.created.applied_all harmless
      exact .crashed after

theorem Resumes.inv (resumes : Resumes log low disk) :
    ∃ floor, Inv ⟨floor, false, low, log, low, []⟩ (openQueue F disk) := by
  cases resumes with
  | crashed survives => exact ⟨_, survives.opened⟩
  | new none first =>
    subst none first
    exact ⟨0, Inv.new⟩

/-- A directory with all the items that were ever accepted into it, by sessions that each stopped after
some of their steps, or while opening. -/
inductive Left (F : RecordFormat) : Disk → List F.Item → Prop
  | new : Left F .empty []
  | stopped {cfg : Config} {disk : Disk} {items : List F.Item} {obs : List (Obs F)} {q : Queue F} :
      Left F disk items → Runs cfg (fun _ event => event.smooth) (openQueue F disk) obs q →
      Left F q.disk (items ++ (accepted obs ++ q.landed))
  | opening {disk : Disk} {items : List F.Item} {ops : List DiskOp} :
      Left F disk items → ops <+: (disk.find F).ops → Left F (ops.foldl Disk.apply disk) items

/-- A session that stops: where the next one resumes, and what the log gained. -/
theorem Resumes.stopped (resumes : Resumes log low disk)
    (run : Runs cfg (fun _ event => event.smooth) (openQueue F disk) obs q) :
    ∃ log' low', Resumes log' low' q.disk ∧ log'.map Entry.item = log.map Entry.item ++ (accepted obs ++ q.landed) ∧
      low ≤ low' ∧ low' ≤ low + (consumed obs).length ∧
      consumed obs <+: (log'.drop low).map fun e => F.value e.item := by
  obtain ⟨floor, inv⟩ := resumes.inv
  have smooth : Smooth (openQueue F disk) := ⟨rfl, nofun, nofun, nofun⟩
  obtain ⟨g, tells, kept, after, calm⟩ := inv.smooth_runs smooth run
  obtain ⟨log', c, i, top, tail, grown, items, from_, upTo, survives⟩ := after.crash calm kept
  have told := tells.run.items
  have taken := tells.run.taken
  have takes := tells.run.takes
  rw [puts_act] at told
  rw [takes_act] at takes taken
  change g.log.map Entry.item = log.map Entry.item ++ accepted obs at told
  change g.head = low + (consumed obs).length at taken
  change consumed obs <+: ((g.log.map Entry.item).drop low).map F.value at takes
  have start : g.start = low := tells.start
  refine ⟨log', i, .crashed survives, ?_, by omega, by omega, ?_⟩
  · rw [items, told, append_assoc]
  · rw [← map_drop, map_map] at takes
    obtain ⟨more, rfl⟩ := grown
    have bound := inv.core.store.cursor.bound.trans tells.grown.length_le
    refine takes.trans ?_
    rw [drop_append_of_le_length bound, map_append]
    exact prefix_append _ _

theorem Left.resumes {items : List F.Item} (left : Left F disk items) :
    ∃ log low, Resumes log low disk ∧ log.map Entry.item = items := by
  induction left with
  | new => exact ⟨[], 0, .new rfl rfl, rfl⟩
  | stopped _ run ih =>
    obtain ⟨log, low, resumes, rfl⟩ := ih
    obtain ⟨log', low', after, items, _⟩ := resumes.stopped run
    exact ⟨log', low', after, items⟩
  | opening _ some ih =>
    obtain ⟨log, low, resumes, rfl⟩ := ih
    exact ⟨log, low, resumes.interrupted some, rfl⟩

theorem Resumes.drains (resumes : Resumes log low disk) {vs : List F.Value} :
    Drains cfg (openQueue F disk) vs ↔ vs = (log.drop low).map fun e => F.value e.item := by
  obtain ⟨floor, inv⟩ := resumes.inv
  constructor
  · exact inv.drains_eq
  · rintro rfl
    obtain ⟨vs, drains⟩ : ∃ vs, Drains cfg (openQueue F disk) vs := inv.drains rfl rfl
    have same := inv.drains_eq drains
    exact same ▸ drains

/-- What a session leaves to the next: its own resume point moved past records it consumed. -/
theorem Resumes.handedOver (resumes : Resumes log low disk)
    (run : Runs cfg (fun _ event => event.smooth) (openQueue F disk) obs q) {cfg' : Config}
    {vs : List F.Value} (drains : Drains cfg' (openQueue F q.disk) vs) :
    ∃ done, done <+: consumed obs ∧ done ++ vs = (log.drop low).map (fun e => F.value e.item) ++
        (accepted obs ++ q.landed).map F.value := by
  obtain ⟨log', low', after, items, from_, upTo, takes⟩ := resumes.stopped run
  obtain ⟨floor, inv⟩ := resumes.inv
  have bound := inv.core.store.cursor.bound
  have values : (log'.drop low).map (fun e => F.value e.item) =
      (log.drop low).map (fun e => F.value e.item) ++ (accepted obs ++ q.landed).map F.value := by
    have all := congrArg (fun l => (l.drop low).map F.value) items
    simpa [drop_append_of_le_length, bound, Function.comp_def] using all
  refine ⟨((log'.drop low).map fun e => F.value e.item).take (low' - low), ?_, ?_⟩
  · have front := prefix_iff_eq_take.mp takes
    rw [front]
    exact take_prefix_take_left (by omega)
  · rw [after.drains.mp drains, ← values, ← map_take, ← map_append]
    have rest : log'.drop low' = (log'.drop low).drop (low' - low) := by rw [drop_drop, Nat.add_sub_cancel' from_]
    rw [rest, take_append_drop]

theorem values_drop_suffix (log : Log F) (low : Nat) :
    ((log.drop low).map fun e => F.value e.item) <:+ (log.map Entry.item).map F.value := by
  rw [map_map]
  exact (drop_suffix low log).map _

/-- Whatever a spool's sessions left, opening it and consuming to the end yields, in push order, the
last of all the records ever accepted. Stopping while opening changes nothing of that. After another
session that stops anywhere, they are what they were before it and what it accepted, less records that
it consumed. -/
theorem crash_recovery (X : Externals) (Z : BlockCodec) (compression : Compression) {disk : Disk}
    {items : List (Spoolable X)} (left : Left (hopRecords X Z compression) disk items) :
    ∃ vs, vs <:+ items.map Spoolable.value ∧
      (∀ cfg vs', Drains cfg (openQueue (hopRecords X Z compression) disk) vs' ↔ vs' = vs) ∧
      (∀ ops, ops <+: (disk.find (hopRecords X Z compression)).ops → ∀ cfg vs',
        Drains cfg (openQueue (hopRecords X Z compression) (ops.foldl Disk.apply disk)) vs' ↔ vs' = vs) ∧
      ∀ cfg obs q, Runs cfg (fun _ event => event.smooth)
          (openQueue (hopRecords X Z compression) disk) obs q →
        ∃ vs', (∀ cfg' vs'', Drains cfg' (openQueue (hopRecords X Z compression) q.disk) vs'' ↔ vs'' = vs') ∧
          ∃ done, done <+: consumed obs ∧ done ++ vs' = vs ++ (accepted obs ++ q.landed).map Spoolable.value := by
  obtain ⟨log, low, resumes, rfl⟩ := left.resumes
  refine ⟨_, values_drop_suffix log low, fun cfg vs' => resumes.drains, ?_, ?_⟩
  · exact fun ops some cfg vs' => (resumes.interrupted some).drains
  · intro cfg obs q run
    obtain ⟨log', low', after, _⟩ := resumes.stopped run
    refine ⟨_, fun cfg' vs'' => after.drains, ?_⟩
    have drains : Drains cfg (openQueue (hopRecords X Z compression) q.disk) _ := after.drains.mpr rfl
    exact resumes.handedOver run drains

variable {X : Externals} {Z : BlockCodec}

/-- The frame's magic is nowhere past the start of the record's own frame. -/
def magicOnce (record : Bytes) : Bool :=
  (List.range record.length).all fun k => k = 0 || fieldAt record (k + contextLen) 4 ≠ magic

theorem solid_of_magicOnce {compression : Compression} {record : Bytes} (once : magicOnce record = true) :
    Solid (hopRecords X Z compression) record := by
  intro k m positive v parsed
  have found := parseRecord_magic parsed
  rw [fieldAt, drop_drop, drop_take, take_take] at found
  have four := congrArg length found
  rw [length_take, length_magic] at four
  rw [min_eq_left (by omega)] at found
  rw [length_drop] at four
  rw [magicOnce, all_eq_true] at once
  have other := once k (mem_range.mpr (by omega))
  simp only [Bool.or_eq_true, decide_eq_true_eq] at other
  rcases other with first | other
  · omega
  · exact other found

theorem smooth_push {compression : Compression} {item : Spoolable X}
    (once : ((hopRecords X Z compression).record item).toOption.all magicOnce = true) :
    (Event.push item : Event (hopRecords X Z compression)).smooth := by
  intro record written
  rw [written] at once
  exact solid_of_magicOnce once

/-- An accepted push, and a crash after the first byte of a second one is written. -/
def crashEvents (first second : Spoolable Externals.plain) : List (Event plainRecords) :=
  [.push first, .poll true false, .poolDone true, .poll true false, .push second, .poolWrite 1]

theorem crash_recovery_sample : ∃ obs q, Runs ⟨1000, 1000, .block⟩ (fun _ event => event.smooth)
      (openQueue plainRecords Disk.empty) obs q ∧
    q.needsRepair.isSome ∧ (accepted obs).length = 1 ∧
    ∃ vs, vs.length = 1 ∧ Drains ⟨1000, 1000, .block⟩ (openQueue plainRecords q.disk) vs := by
  have counts : ((openQueue plainRecords Disk.empty).run
      ⟨1000, 1000, .block⟩ (crashEvents (.empty 1 (by decide)) (.empty 2 (by decide)))).map
        (fun r => (r.1.needsRepair.isSome, (accepted r.2).length, (consumed r.2).length, r.1.landed.length)) =
          some (true, 1, 0, 0) := by decide +kernel
  obtain ⟨⟨q, obs⟩, made, counted⟩ := Option.map_eq_some_iff.mp counts
  simp only [Prod.mk.injEq] at counted
  obtain ⟨torn, one, none, unfinished⟩ := counted
  have run : Runs ⟨1000, 1000, .block⟩ (fun _ event => event.smooth)
      (openQueue plainRecords Disk.empty) obs q := by
    refine .of_run (fun q e member => ?_) made
    simp only [crashEvents, mem_cons, not_mem_nil, or_false] at member
    rcases member with rfl | rfl | rfl | rfl | rfl | rfl
    · exact smooth_push (by decide +kernel)
    · rfl
    · rfl
    · rfl
    · exact smooth_push (by decide +kernel)
    · rfl
  obtain ⟨vs, suffix, _, _, next⟩ := crash_recovery plain BlockCodec.plain .none .new
  obtain ⟨vs', drains, done, taken, whole⟩ := next ⟨1000, 1000, .block⟩ obs q run
  refine ⟨obs, q, run, torn, one, vs', ?_, (drains _ vs').mpr rfl⟩
  have length : (done ++ vs').length = vs.length + ((accepted obs).length + q.landed.length) :=
    (congrArg length whole).trans (length_append.trans (congrArg _ ((length_map _).trans length_append)))
  have before : vs.length ≤ 0 := suffix.length_le
  have gone := taken.length_le
  rw [length_append] at length
  omega

end Logit.Spool
