import Logit.Spool.Smooth
import Logit.Spool.WritePath

namespace Logit.Spool

open ByteCodec Native Logit.Frame List Nat Disk

variable {F : RecordFormat} {log : Log F} {low top : Nat} {c : Cursor} {tail : Bytes}
  {disk : Disk}

/-- The bytes that a crash leaves of a record: none, or a part of one that holds no other record. -/
def Torn (F : RecordFormat) (tail : Bytes) : Prop :=
  tail = [] ∨ ∃ item record, F.record item = .ok record ∧ Solid F record ∧ tail <+: record ∧
    tail.length < record.length

/-- A walk ends where the whole records do, whatever a crash left of another. -/
theorem walkSegment_torn {items : List F.Item} {bytes : Bytes} (records : IsRecords items bytes)
    (torn : Torn F tail) : (walkSegment F.parse (bytes ++ tail) 0).goodLen = bytes.length := by
  obtain ⟨rounds, _, walked⟩ := walkSegment_past records tail
  rw [walked, walkLoop]
  rcases torn with rfl | ⟨item, record, written, solid, cut, proper⟩
  · rw [append_nil, if_neg (Nat.lt_irrefl _)]
    rfl
  · by_cases more : bytes.length < (bytes ++ tail).length
    · obtain ⟨needed, _, fails⟩ := F.parse_short written cut proper
      have none : resyncAfter F.parse (bytes ++ tail) bytes.length = none :=
        resyncLoop_plain (fun k => prefix_iff_eq_take.mp cut ▸ solid k _) bytes _ _ (lt_succ_self _)
      rw [if_pos more, drop_left, fails, none]
      rfl
    · rw [if_neg more]
      rfl

/-- A directory that a crash can leave. From the persisted cursor's segment to the highest, every file
is there with what the log left in it, and only the highest can have more, of a torn record. -/
structure Survives (log : Log F) (low : Nat) (c : Cursor) (top : Nat) (tail : Bytes)
    (disk : Disk) : Prop where
  cursor : disk.cursor = some c ∨ disk.cursor = none ∧ c = ⟨0, 0⟩
  position : (spoolLog F).At log c.segment c.offset low
  reach : c.segment ≤ top
  topFile : disk.files top = some (content log top ++ tail)
  kept : ∀ n, c.segment ≤ n → n < top → disk.files n = some (content log n)
  below : ∀ n file, n < c.segment → disk.files n = some file → file = content log n ∨ file = []
  above : ∀ n, top < n → disk.files n = none
  ordered : (log.map Entry.seg).Pairwise (· ≤ ·)
  bound : ∀ e ∈ log, e.seg ≤ top
  torn : Torn F tail

theorem getLast?_of_max {l : List Nat} {m : Nat} (sorted : l.Pairwise (· < ·)) (mem : m ∈ l)
    (max : ∀ n ∈ l, n ≤ m) : l.getLast? = some m := by
  obtain ⟨last, found⟩ : ∃ last, l.getLast? = some last :=
    ⟨_, getLast?_eq_some_getLast (ne_nil_of_mem mem)⟩
  obtain ⟨others, rfl⟩ := getLast?_eq_some_iff.mp found
  rcases mem_append.mp mem with old | new
  · have above := (pairwise_append.mp sorted).2.2 m old last (by simp)
    have below := max last (by simp)
    omega
  · rw [found, mem_singleton.mp new]

theorem dropWhile_lt {l : List Nat} (sorted : l.Pairwise (· < ·)) (s : Nat) :
    l.dropWhile (fun n => n < s) = l.filter (s ≤ ·) := by
  induction l with
  | nil => rfl
  | cons n others ih =>
    rw [pairwise_cons] at sorted
    by_cases small : n < s
    · rw [dropWhile_cons_of_pos (by simpa using small), filter_cons_of_neg (by simpa using small), ih sorted.2]
    · have all : ∀ m ∈ n :: others, decide (s ≤ m) = true := by
        intro m mem
        rcases mem_cons.mp mem with rfl | later
        · simpa using small
        · have above := sorted.1 m later
          simp only [decide_eq_true_eq]
          omega
      rw [dropWhile_cons_of_neg (by simpa using small), filter_eq_self.mpr all]

namespace Survives

theorem getLast? (survives : Survives log low c top tail disk) : disk.listSegments.getLast? = some top := by
  refine getLast?_of_max disk.listSegments_sorted ?_ fun n mem => ?_
  · rw [mem_listSegments, survives.topFile]
    rfl
  · rw [mem_listSegments] at mem
    by_contra above
    rw [survives.above n (by omega)] at mem
    cases mem

variable {n : Nat}

section

variable (survives : Survives log low c top tail disk)
include survives

theorem listed (low : c.segment ≤ n) (high : n ≤ top) : n ∈ disk.listSegments := by
  rw [mem_listSegments]
  rcases eq_or_lt_of_le high with rfl | below
  · rw [survives.topFile]
    rfl
  · rw [survives.kept n low below]
    rfl

theorem split : disk.listSegments = disk.listSegments.dropLast ++ [top] := by
  obtain ⟨others, same⟩ := getLast?_eq_some_iff.mp survives.getLast?
  rw [same, dropLast_concat]

theorem mem_dropLast : n ∈ disk.listSegments.dropLast ↔ n ∈ disk.listSegments ∧ n < top := by
  have sorted := disk.listSegments_sorted
  rw [survives.split, pairwise_append] at sorted
  constructor
  · intro mem
    exact ⟨mem_of_mem_dropLast mem, sorted.2.2 n mem top (by simp)⟩
  · rintro ⟨mem, below⟩
    rw [survives.split] at mem
    rcases mem_append.mp mem with old | new
    · exact old
    · rw [mem_singleton.mp new] at below
      exact absurd below (lt_irrefl top)

theorem goodLen : (walkSegment F.parse ((disk.files top).getD []) 0).goodLen = (content log top).length := by
  rw [survives.topFile]
  exact walkSegment_torn (isRecords_map _) survives.torn

theorem fileLen (low : c.segment ≤ n) (high : n < top) : disk.fileLen n = (content log n).length := by
  rw [Disk.fileLen, survives.kept n low high]
  rfl

end

/-- The segments before the highest, as they are found. -/
def closed (disk : Disk) : List Segment := disk.listSegments.dropLast.map fun seq => ⟨seq, disk.fileLen seq⟩

variable {segment : Segment}

section

variable (survives : Survives log low c top tail disk)
include survives

theorem closed_len (mem : segment ∈ closed disk) (reached : c.segment ≤ segment.seq) :
    segment.seq < top ∧ segment.len = (content log segment.seq).length := by
  obtain ⟨n, listed, rfl⟩ := mem_map.mp mem
  have below := (survives.mem_dropLast.mp listed).2
  exact ⟨below, survives.fileLen reached below⟩

theorem segmentLen_closed : segmentLen (closed disk ++ [Segment.mk top (content log top).length]) c.segment =
      some (content log c.segment).length := by
  obtain ⟨found, search⟩ : ∃ found, (closed disk ++ [Segment.mk top (content log top).length]).find?
      (fun g => g.seq = c.segment) = some found := by
    rw [← Option.isSome_iff_exists, find?_isSome]
    rcases eq_or_lt_of_le survives.reach with same | below
    · exact ⟨_, mem_append_right _ (mem_singleton.mpr rfl), by simpa using same.symm⟩
    · refine ⟨⟨c.segment, disk.fileLen c.segment⟩, mem_append_left _ (mem_map.mpr ?_), by simp⟩
      exact ⟨c.segment, survives.mem_dropLast.mpr ⟨survives.listed (le_refl _) below.le, below⟩, rfl⟩
  have here : found.seq = c.segment := by simpa using find?_some search
  rw [segmentLen, search, Option.map_some]
  rcases mem_append.mp (mem_of_find?_eq_some search) with old | new
  · rw [(survives.closed_len old here.ge).2, here]
  · rw [mem_singleton.mp new] at here ⊢
    rw [← here]

theorem resume : resumeFrom disk.listSegments (closed disk ++ [Segment.mk top (content log top).length])
      (disk.listSegments.headD top) disk.cursor = c := by
  rcases survives.cursor with found | ⟨none, rfl⟩
  · have present := survives.listed (le_refl _) survives.reach
    have offset : c.offset ≤ (content log c.segment).length := survives.position.le_content
    rw [found, resumeFrom, if_pos present, survives.segmentLen_closed, Option.getD_some, min_eq_left offset]
  · have present := survives.listed (le_refl _) survives.reach
    have sorted := disk.listSegments_sorted
    rw [none, resumeFrom]
    cases segments : disk.listSegments with
    | nil =>
      rw [segments] at present
      cases present
    | cons first others =>
      rw [segments] at present sorted
      rcases mem_cons.mp present with same | later
      · rw [headD_cons, ← same]
      · exact absurd ((pairwise_cons.mp sorted).1 0 later) (not_lt_zero first)

theorem find_eq : disk.find F = ⟨closed disk, ⟨top, (content log top).length⟩, c,
      if (content log top).length < disk.fileLen top then [.setLen top (content log top).length]
      else []⟩ := by
  have resume := survives.resume
  rw [closed] at resume
  simp only [find, survives.getLast?, survives.goodLen, resume, closed]

theorem mem_older : segment ∈ (disk.find F).older ↔ segment ∈ closed disk ∧ c.segment ≤ segment.seq := by
  have sorted := disk.listSegments_sorted.sublist (dropLast_sublist _)
  rw [Found.older, survives.find_eq, closed, dropWhile_map]
  change _ ∈ map _ (dropWhile (fun n => decide (n < c.segment)) _) ↔ _
  rw [dropWhile_lt sorted]
  simp only [mem_map, mem_filter, decide_eq_true_eq]
  constructor
  · rintro ⟨n, ⟨mem, reached⟩, rfl⟩
    exact ⟨⟨n, mem, rfl⟩, reached⟩
  · rintro ⟨⟨n, mem, rfl⟩, reached⟩
    exact ⟨n, ⟨mem, reached⟩, rfl⟩

theorem cut : Survives log low c top [] (disk.setLen top (content log top).length) := by
  have other {n : Nat} (different : n ≠ top) :
      (disk.setLen top (content log top).length).files n = disk.files n := setLen_other different
  have reach := survives.reach
  refine ⟨?_, survives.position, reach, ?_, ?_, ?_, ?_, survives.ordered, survives.bound, .inl rfl⟩
  · rw [setLen_cursor]
    exact survives.cursor
  · rw [setLen_self survives.topFile (by rw [length_append]; omega), take_left, append_nil]
  · intro n low high
    rw [other (by omega)]
    exact survives.kept n low high
  · intro n file small present
    rw [other (by omega)] at present
    exact survives.below n file small present
  · intro n large
    rw [other (by omega)]
    exact survives.above n large

theorem persist : Survives log low c top tail { disk with cursor := some c } := { survives with cursor := .inl rfl }

theorem unlink {seq : Nat} (left : seq < c.segment) : Survives log low c top tail (disk.unlink seq) := by
  have reach := survives.reach
  refine { survives with topFile := ?_, kept := ?_, below := ?_, above := ?_ }
  · exact unlink_files.mpr ⟨by omega, survives.topFile⟩
  · exact fun n low high => unlink_files.mpr ⟨by omega, survives.kept n low high⟩
  · exact fun n file small present => survives.below n file small (unlink_files.mp present).2
  · exact fun n large => (set_other (by omega)).trans (survives.above n large)

end

/-- The changes that opening makes to a directory of a crash. -/
def Harmless (log : Log F) (c : Cursor) (top : Nat) : DiskOp → Prop
  | .create _ => False
  | .setLen seq size => seq = top ∧ size = (content log top).length
  | .persist c' => c' = c
  | .unlink seq => seq < c.segment

variable (survives : Survives log low c top tail disk)
include survives

theorem applied {op : DiskOp} (harmless : Harmless log c top op) :
    ∃ tail', Survives log low c top tail' (disk.apply op) ∧ (tail = [] → tail' = []) ∧
      (disk.cursor = some c → (disk.apply op).cursor = some c) := by
  cases op with
  | create seq => exact harmless.elim
  | setLen seq size =>
    obtain ⟨rfl, rfl⟩ := harmless
    refine ⟨[], survives.cut, fun _ => rfl, fun found => ?_⟩
    rw [apply, setLen_cursor]
    exact found
  | persist c' =>
    obtain rfl : c' = c := harmless
    exact ⟨tail, survives.persist, id, fun _ => rfl⟩
  | unlink seq => exact ⟨tail, survives.unlink harmless, id, id⟩

theorem applied_all {ops : List DiskOp} (harmless : ∀ op ∈ ops, Harmless log c top op) :
    ∃ tail', Survives log low c top tail' (ops.foldl apply disk) ∧ (tail = [] → tail' = []) ∧
      (disk.cursor = some c → (ops.foldl apply disk).cursor = some c) := by
  induction ops generalizing disk tail with
  | nil => exact ⟨tail, survives, id, id⟩
  | cons op ops ih =>
    obtain ⟨middle, first, whole, cursor⟩ := survives.applied (harmless op mem_cons_self)
    obtain ⟨last, rest, whole', cursor'⟩ := ih first fun op mem =>
      harmless op (mem_cons_of_mem _ mem)
    exact ⟨last, rest, fun none => whole' (whole none), fun found => cursor' (cursor found)⟩

theorem harmless_repair : ∀ op ∈ (disk.find F).repair, Harmless log c top op := by
  intro op mem
  rw [survives.find_eq] at mem
  split at mem
  · rw [mem_singleton.mp mem]
    exact ⟨rfl, rfl⟩
  · cases mem

theorem harmless_unlink : ∀ op ∈ (disk.find F).leaked.map fun g => DiskOp.unlink g.seq, Harmless log c top op := by
  intro op mem
  obtain ⟨segment, leaked, rfl⟩ := mem_map.mp mem
  rw [survives.find_eq] at leaked
  have small := mem_takeWhile_imp leaked
  rw [decide_eq_true_eq] at small
  exact small

theorem repaired : Survives log low c top [] ((disk.find F).repair.foldl apply disk) := by
  rw [survives.find_eq]
  split
  · exact survives.cut
  · rename_i short
    rw [Disk.fileLen, survives.topFile, Option.getD_some, length_append] at short
    obtain rfl : tail = [] := length_eq_zero_iff.mp (by omega)
    exact survives

theorem found_resume : (disk.find F).resume = c := by
  rw [survives.find_eq]

/-- Opening can stop after any of its changes, and leaves a directory of the same crash. -/
theorem interrupted {ops : List DiskOp} (some : ops <+: (disk.find F).ops) :
    ∃ tail', Survives log low c top tail' (ops.foldl apply disk) := by
  have harmless : ∀ op ∈ ops, Harmless log c top op := by
    intro op mem
    have listed := some.subset mem
    rw [Found.ops, survives.found_resume, mem_append, mem_cons] at listed
    rcases listed with repair | rfl | unlink
    · exact survives.harmless_repair op repair
    · exact rfl
    · exact survives.harmless_unlink op unlink
  obtain ⟨tail', after, _⟩ := survives.applied_all harmless
  exact ⟨tail', after⟩

/-- Once opened, the directory is whole, and its cursor file is there. -/
theorem finished : Survives log low c top [] ((disk.find F).ops.foldl apply disk) ∧
      ((disk.find F).ops.foldl apply disk).cursor = some c := by
  obtain ⟨tail', after, whole, cursor⟩ := survives.repaired.persist.applied_all survives.harmless_unlink
  obtain rfl := whole rfl
  rw [Found.ops, survives.found_resume, foldl_append]
  exact ⟨after, cursor rfl⟩

theorem opened_active : (openQueue F disk).store.active = ⟨top, (content log top).length⟩ := by
  rw [openQueue, survives.find_eq]

theorem opened_segments : segment ∈ (openQueue F disk).store.segments ↔
      segment ∈ closed disk ∧ c.segment ≤ segment.seq ∨ segment = ⟨top, (content log top).length⟩ := by
  rw [Store.segments, mem_append, survives.opened_active, mem_singleton]
  exact or_congr survives.mem_older Iff.rfl

theorem opened_seqs : n ∈ (openQueue F disk).store.seqs ↔ c.segment ≤ n ∧ n ≤ top := by
  rw [Store.seqs, mem_map]
  constructor
  · rintro ⟨segment, mem, rfl⟩
    rcases survives.opened_segments.mp mem with ⟨old, reached⟩ | rfl
    · exact ⟨reached, (survives.closed_len old reached).1.le⟩
    · exact ⟨survives.reach, le_refl _⟩
  · rintro ⟨reached, high⟩
    rcases eq_or_lt_of_le high with rfl | below
    · exact ⟨_, survives.opened_segments.mpr (.inr rfl), rfl⟩
    · have listed := survives.mem_dropLast.mpr ⟨survives.listed reached high, below⟩
      have old : Segment.mk n (disk.fileLen n) ∈ closed disk := mem_map.mpr ⟨n, listed, rfl⟩
      exact ⟨_, survives.opened_segments.mpr (.inl ⟨old, reached⟩), rfl⟩

theorem opened_sorted : (openQueue F disk).store.seqs.Pairwise (· < ·) := by
  have older : ((disk.find F).older.map Segment.seq).Sublist disk.listSegments.dropLast := by
    have found := (dropWhile_sublist (fun g : Segment => decide (g.seq < c.segment))
      (l := closed disk)).map Segment.seq
    have seqs : (closed disk).map Segment.seq = disk.listSegments.dropLast := by
      rw [closed, map_map]
      exact map_id _
    rw [survives.find_eq]
    rw [seqs] at found
    exact found
  have sorted := disk.listSegments_sorted
  rw [survives.split] at sorted
  refine sorted.sublist ?_
  rw [Store.seqs, Store.segments, survives.opened_active, map_append]
  exact older.append (List.Sublist.refl _)

theorem opened_store : StoreInv c.segment low log low (openQueue F disk).store := by
  have reads : (openQueue F disk).store.readSeq = c.segment := congrArg Cursor.segment survives.found_resume
  have offset : (openQueue F disk).store.readOffset = c.offset := congrArg Cursor.offset survives.found_resume
  refine ⟨⟨survives.opened_sorted, survives.ordered, ?_, ?_⟩, ?_, ?_, ?_, ?_, nofun, le_refl _, ?_, nofun, .nil⟩
  · rw [survives.opened_active]
    exact survives.bound
  · intro segment mem
    rcases survives.opened_segments.mp mem with ⟨old, reached⟩ | rfl
    · exact (survives.closed_len old reached).2
    · rfl
  · rw [reads, offset]
    exact survives.position
  · rw [reads, survives.opened_seqs]
    exact ⟨le_refl _, survives.reach⟩
  · intro n mem
    rw [reads]
    exact (survives.opened_seqs.mp mem).1
  · intro e mem
    rw [survives.opened_seqs]
    exact ⟨survives.position.after e mem, survives.bound e (mem_of_mem_drop mem)⟩
  · rw [reads]

theorem opened_files : FilesInv ⟨c.segment, false, low, log, low, []⟩ (openQueue F disk).disk
      (openQueue F disk).store.active.seq false := by
  obtain ⟨after, cursor⟩ := survives.finished
  rw [survives.opened_active]
  refine ⟨after.topFile, after.kept, ?_, ?_, ?_⟩
  · intro n file small present
    by_cases reached : c.segment ≤ n
    · rw [openQueue, after.kept n reached small] at present
      exact .inl (Option.some.inj present).symm
    · exact after.below n file (by omega) present
  · intro n file large present
    rw [openQueue, after.above n large] at present
    cases present
  · exact ⟨c, low, cursor, le_refl _, le_refl _, le_refl _, survives.position, fun _ => rfl⟩

/-- The spool that is opened on what a crash left resumes at the persisted cursor. -/
theorem opened : Inv ⟨c.segment, false, low, log, low, []⟩ (openQueue F disk) :=
  .opened survives.opened_store survives.opened_files rfl

end Survives

end Logit.Spool
