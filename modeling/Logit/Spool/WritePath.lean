import Logit.Spool.Refinement

namespace Logit.Spool

open ByteCodec Native Logit.Frame List Option Externals

variable {F : RecordFormat} {cfg : Config} {g : Ghost F} {q : Queue F} {obs : List (Obs F)}
  {log : Log F} {n : Nat}

/-- Records of accepted items, one after another. -/
def HoldsAccepted (obs : List (Obs F)) (bytes : Bytes) : Prop :=
  ∃ items, items.Sublist (accepted obs) ∧ IsRecords items bytes

theorem isRecords_map (entries : Log F) :
    IsRecords (entries.map Entry.item) (entries.flatMap Entry.bytes) := by
  induction entries with
  | nil => exact ⟨[], .nil, rfl⟩
  | cons e entries ih => exact ih.cons e.written

theorem items_of_tells (tells : Tells Ghost.new obs g) : g.log.map Entry.item = accepted obs := by
  have items := tells.run.items
  rw [puts_act] at items
  exact items

theorem holdsAccepted_content (tells : Tells Ghost.new obs g) (n : Nat) : HoldsAccepted obs (content g.log n) := by
  refine ⟨(g.log.filter fun e => e.seg = n).map Entry.item, ?_, isRecords_map _⟩
  rw [← items_of_tells tells]
  exact filter_sublist.map _

theorem holdsAccepted_nil : HoldsAccepted obs [] := ⟨[], nil_sublist _, [], .nil, rfl⟩

theorem Core.tracked_file (core : Core g q) {segment : Segment} (mem : segment ∈ q.store.segments) :
    ∃ more, q.disk.files segment.seq = some (content g.log segment.seq ++ more) ∧
      segment.len = (content g.log segment.seq).length ∧
      (more ≠ [] → segment.seq = q.store.active.seq ∧ q.needsRepair.isSome) := by
  have len := core.store.lengths segment mem
  by_cases active : segment.seq = q.store.active.seq
  · refine ⟨g.tail, ?_, len, fun torn => ⟨active, ?_⟩⟩
    · rw [active]
      exact core.files.activeFile
    · rw [isSome_iff_ne_none]
      exact fun clean => torn (core.handle.torn clean)
  · refine ⟨[], ?_, len, fun none => absurd rfl none⟩
    rw [core.trackedFile (mem_map_of_mem mem) active, append_nil]

/-- A file that another comes after is of whole records: the active segment is followed by another
only while a rotation is under way, and none is while its tail is torn. -/
theorem Core.closed_file (core : Core g q) {file : Bytes} {later : Nat}
    (present : q.disk.files n = some file) (after : n < later)
    (follows : (q.disk.files later).isSome) : file = content g.log n ∨ file = [] := by
  rcases Nat.lt_trichotomy n q.store.active.seq with below | rfl | above
  · exact core.files.below n file below present
  · obtain ⟨next, found⟩ := isSome_iff_exists.mp follows
    have started := (core.files.above later next after found).2.2
    rw [core.files.activeFile, core.handle.torn (core.rotation started), append_nil] at present
    cases present
    exact .inl rfl
  · exact .inr (core.files.above n file above present).1

/-- A record being written has no bytes before it but the tracked ones. -/
theorem Inv.writing (inv : Inv g q) {p : Push F} {rest : Bytes}
    (writing : q.pushing = some (p, .writing rest)) : g.tail <+: p.record := by
  obtain ⟨torn, writes⟩ := inv.stage p (.writing rest) writing
  obtain ⟨before, marked⟩ := isSome_iff_exists.mp torn
  obtain ⟨h, held⟩ := isSome_iff_exists.mp (inv.core.handle.repair before marked).2
  have goes := writes h held
  cases io : h.io with
  | idle => rw [io] at goes; exact ⟨rest, goes⟩
  | busy op =>
    rw [io] at goes
    cases op with
    | write sent => exact ⟨sent ++ rest, goes⟩
    | setLen size => exact goes.elim
  | done result =>
    rw [io] at goes
    cases result with
    | true => exact ⟨rest, goes⟩
    | false => exact goes

/-- The write path under cancellation and failure, in every run in which no create fails while a
cancelled rotation's create of the same segment may still land. Tracked bytes are whole accepted
records; bytes past them are in the active segment only, and only until they are repaired; a write
starts after the tracked bytes, and no rotation is under way while a repair is due; and no segment that
another follows ends in a torn record. -/
theorem write_path (X : Externals) (Z : BlockCodec) (compression : Compression) (cfg : Config)
    {obs : List (Obs (hopRecords X Z compression))} {q : Queue (hopRecords X Z compression)}
    (run : Runs cfg CreateClear (openQueue (hopRecords X Z compression) Disk.empty) obs q) :
    (∀ segment ∈ q.store.segments, ∃ file, q.disk.files segment.seq = some file ∧
      segment.len ≤ file.length ∧ HoldsAccepted obs (file.take segment.len) ∧
      (segment.len < file.length → segment.seq = q.store.active.seq ∧ q.needsRepair.isSome)) ∧
    (∀ p rest, q.pushing = some (p, .writing rest) → ∃ file, q.disk.files q.store.active.seq = some file ∧
      file.drop q.store.active.len <+: p.record) ∧
    (q.rotationStarted = true → q.needsRepair = none) ∧
    ∀ n file later, q.disk.files n = some file → n < later → (q.disk.files later).isSome →
      HoldsAccepted obs file ∧ (walkSegment (parseRecord (X := X) Z) file 0).goodLen = file.length := by
  obtain ⟨g, tells, inv⟩ := Inv.new.runs run fun q e clear => clear
  have core := inv.core
  refine ⟨?_, ?_, core.rotation, ?_⟩
  · intro segment member
    obtain ⟨more, present, len, torn⟩ := core.tracked_file member
    refine ⟨_, present, ?_, ?_, ?_⟩
    · rw [length_append, len]
      exact Nat.le_add_right _ _
    · rw [len, take_left]
      exact holdsAccepted_content tells _
    · intro longer
      refine torn ?_
      rintro rfl
      rw [append_nil, len] at longer
      exact lt_irrefl _ longer
  · intro p rest writing
    refine ⟨_, core.files.activeFile, ?_⟩
    rw [core.store.active_len, drop_left]
    exact inv.writing writing
  · intro n file later present after follows
    have whole : HoldsAccepted obs file := by
      rcases core.closed_file present after follows with rfl | rfl
      · exact holdsAccepted_content tells n
      · exact holdsAccepted_nil
    refine ⟨whole, ?_⟩
    obtain ⟨items, _, records⟩ := whole
    exact walkSegment_records records

/-- An accepted push, and a second one whose write fails after its first byte. -/
def tornEvents (first second : Spoolable Externals.plain) : List (Event plainRecords) :=
  [.push first, .poll true false, .poolDone true, .poll true false,
    .push second, .poolWrite 1, .poolDone false, .poll true false]

theorem write_path_sample : ∃ obs q, Runs ⟨1000, 1000, .block⟩ CreateClear
      (openQueue plainRecords Disk.empty) obs q ∧
    (accepted obs).length = 1 ∧ q.needsRepair.isSome ∧
    (q.rotationStarted = true → q.needsRepair = none) := by
  have counts : ((openQueue plainRecords Disk.empty).run
      ⟨1000, 1000, .block⟩ (tornEvents (.empty 1 (by decide)) (.empty 2 (by decide)))).map
        (fun r => ((accepted r.2).length, r.1.needsRepair.isSome)) = some (1, true) := by decide +kernel
  obtain ⟨⟨q, obs⟩, made, counted⟩ := map_eq_some_iff.mp counts
  simp only [Prod.mk.injEq] at counted
  have run : Runs ⟨1000, 1000, .block⟩ CreateClear (openQueue plainRecords Disk.empty) obs q := by
    refine .of_run (fun q e member => ?_) made
    simp only [tornEvents, mem_cons, not_mem_nil, or_false] at member
    rcases member with rfl | rfl | rfl | rfl | rfl | rfl | rfl | rfl <;> trivial
  exact ⟨obs, q, run, counted.1, counted.2, (write_path _ _ _ ⟨1000, 1000, .block⟩ run).2.2.1⟩

/-- A rotation is cancelled while its create waits in the pool. The next push's own create fails, so
the push goes back to the old segment; there its write fails after one byte, and the first create
lands. -/
def staleCreateEvents (first second third : Spoolable Externals.plain) : List (Event plainRecords) :=
  [.push first, .poll true false, .poolDone true, .poll true false, .push second, .poll true false, .cancel,
    .push third, .poll true false, .poll false false, .poolWrite 1, .poolDone false, .poll false false,
    .orphanDone 1 true]

/-- A segment that another follows can end in a torn record. -/
theorem write_path_fails : ∃ obs q, Runs ⟨1000, 1, .block⟩ (fun _ _ => True)
      (openQueue plainRecords Disk.empty) obs q ∧
    q.pushing.isNone ∧ q.orphans = [] ∧ ∃ file, q.disk.files 0 = some file ∧ (q.disk.files 1).isSome ∧
      (walkSegment (parseRecord (X := Externals.plain) BlockCodec.plain) file 0).goodLen ≠ file.length := by
  have facts : ((openQueue plainRecords Disk.empty).run ⟨1000, 1, .block⟩
      (staleCreateEvents (.empty 1 (by decide)) (.empty 2 (by decide)) (.empty 3 (by decide)))).map
        (fun r => (r.1.pushing.isNone, r.1.orphans, (r.1.disk.files 1).isSome,
          (r.1.disk.files 0).map fun file => decide
            ((walkSegment (parseRecord (X := plain) BlockCodec.plain) file 0).goodLen ≠
              file.length))) = some (true, [], true, some true) := by decide +kernel
  obtain ⟨⟨q, obs⟩, made, found⟩ := map_eq_some_iff.mp facts
  simp only [Prod.mk.injEq, map_eq_some_iff, decide_eq_true_eq] at found
  obtain ⟨idle, none, follows, file, present, torn⟩ := found
  exact ⟨obs, q, .of_run (fun _ _ _ => trivial) made, idle, none, file, present, follows, torn⟩

end Logit.Spool
