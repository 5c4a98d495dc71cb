import Logit.Lib.SegmentedLog
import Logit.Spool.State

namespace Logit.Spool

open ByteCodec Native List Nat Store

variable (F : RecordFormat)

/-- An accepted record, and the segment that took it. -/
structure Entry where
  seg : Nat
  item : F.Item
  bytes : Bytes
  written : F.record item = .ok bytes

/-- The accepted records, in order. -/
abbrev Log := List (Entry F)

/-- Accepted records as a log over the spool's segments. -/
def spoolLog : SegmentedLog (Entry F) UInt8 where
  segment := Entry.seg
  contents := Entry.bytes
  nonempty e := F.nonempty e.written

variable {F} {log : Log F} {seq : Nat} {st : Store F} {e : Entry F}

/-- The bytes that accepted records left in a segment. -/
def content (log : Log F) (seq : Nat) : Bytes := (spoolLog F).content log seq

theorem content_confirm (here : e.seg = seq) : content (log ++ [e]) seq = content log seq ++ e.bytes := by
  rw [content, SegmentedLog.content_append, SegmentedLog.content_cons_here here, SegmentedLog.content_nil,
    append_nil]
  rfl

theorem content_confirm_other (elsewhere : e.seg ≠ seq) : content (log ++ [e]) seq = content log seq := by
  rw [content, SegmentedLog.content_append, SegmentedLog.content_cons_elsewhere elsewhere,
    SegmentedLog.content_nil, append_nil]
  rfl

namespace Store

def seqs (st : Store F) : List Nat := st.segments.map Segment.seq

theorem mem_seqs_active (st : Store F) : st.active.seq ∈ st.seqs := by
  simp [seqs, segments]

end Store

/-- What a store knows of the log that its segments hold. -/
structure Tracks (log : Log F) (st : Store F) : Prop where
  sorted : st.seqs.Pairwise (· < ·)
  ordered : (log.map Entry.seg).Pairwise (· ≤ ·)
  below : ∀ e ∈ log, e.seg ≤ st.active.seq
  lengths : ∀ g ∈ st.segments, g.len = (content log g.seq).length

namespace Tracks

theorem le_active (tracks : Tracks log st) {n : Nat} (mem : n ∈ st.seqs) : n ≤ st.active.seq := by
  have sorted := tracks.sorted
  rw [seqs, segments, map_append, pairwise_append] at sorted
  rw [seqs, segments, map_append, mem_append] at mem
  rcases mem with old | new
  · exact (sorted.2.2 n old st.active.seq (by simp)).le
  · simp only [map_cons, map_nil, mem_singleton] at new
    exact new.le

theorem active_len (tracks : Tracks log st) : st.active.len = (content log st.active.seq).length :=
  tracks.lengths st.active (by simp [segments])

theorem segmentLen (tracks : Tracks log st) {n : Nat} (mem : n ∈ st.seqs) :
    segmentLen st.segments n = some (content log n).length := by
  obtain ⟨g, tracked, here⟩ := mem_map.mp mem
  obtain ⟨found, search⟩ : ∃ found, st.segments.find? (fun g => g.seq = n) = some found := by
    rw [← Option.isSome_iff_exists, find?_isSome]
    exact ⟨g, tracked, by simpa using here⟩
  have same : found.seq = n := by simpa using find?_some search
  rw [Spool.segmentLen, search, Option.map_some, tracks.lengths found (mem_of_find?_eq_some search), same]

end Tracks

theorem find?_gt_least {l : List Nat} (sorted : l.Pairwise (· < ·)) {seq next : Nat}
    (found : l.find? (fun s => seq < s) = some next) : next ∈ l ∧ seq < next ∧ ∀ m ∈ l, seq < m → next ≤ m := by
  obtain ⟨above, before, after, rfl, skipped⟩ := find?_eq_some_iff_append.mp found
  refine ⟨by simp, by simpa using above, ?_⟩
  intro m mem larger
  rcases mem_append.mp mem with old | rest
  · have small := skipped m old
    simp only [Bool.not_eq_true', decide_eq_false_iff_not] at small
    omega
  · rcases mem_cons.mp rest with rfl | later
    · exact le_refl _
    · exact ((pairwise_cons.mp (pairwise_append.mp sorted).2.1).1 m later).le

/-- Where a position of the log goes when it leaves finished segments: to the same entry, past every
segment it lists, and no further than the active one or more bytes. -/
structure RollsTo (log : Log F) (st : Store F) (seq i : Nat)
    (rolled : List Nat × Nat × Nat) : Prop where
  position : (spoolLog F).At log rolled.2.1 rolled.2.2 i
  tracked : rolled.2.1 ∈ st.seqs
  forward : seq ≤ rolled.2.1
  passed : ∀ n, n ∈ rolled.1 ↔ n ∈ st.seqs ∧ seq ≤ n ∧ n < rolled.2.1
  stops : rolled.2.1 = st.active.seq ∨ rolled.2.2 < (content log rolled.2.1).length

theorem length_filter_lt {l : List Nat} {seq next : Nat} (mem : seq ∈ l) (above : seq < next) :
    (l.filter (next ≤ ·)).length < (l.filter (seq ≤ ·)).length := by
  have nested : l.filter (next ≤ ·) = (l.filter (seq ≤ ·)).filter (next ≤ ·) := by
    rw [filter_filter]
    refine filter_congr fun m _ => ?_
    simp only [← Bool.decide_and, decide_eq_decide]
    omega
  rw [nested, length_filter_lt_length_iff_exists]
  refine ⟨seq, mem_filter.mpr ⟨mem, by simp⟩, ?_⟩
  simpa using above

/-- The induction is on the rounds, of which each leaves one segment behind for good. -/
theorem Store.rollLoop_rollsTo (tracks : Tracks log st) {i : Nat}
    (pending : ∀ e ∈ log.drop i, e.seg ∈ st.seqs) (rounds seq offset : Nat)
    (here : (spoolLog F).At log seq offset i) (mem : seq ∈ st.seqs)
    (enough : (st.seqs.filter (seq ≤ ·)).length ≤ rounds) :
    RollsTo log st seq i (st.rollLoop rounds seq offset) := by
  induction rounds generalizing seq offset with
  | zero =>
    have none := length_eq_zero_iff.mp (le_zero.mp enough)
    have inside : seq ∈ st.seqs.filter (seq ≤ ·) := mem_filter.mpr ⟨mem, by simp⟩
    rw [none] at inside
    cases inside
  | succ rounds ih =>
    rw [rollLoop, tracks.segmentLen mem]
    by_cases stop : st.active.seq = seq ∨ offset < (content log seq).length
    · simp only [if_pos stop]
      refine ⟨here, mem, le_refl _, ?_, stop.imp Eq.symm id⟩
      intro n
      simp only [not_mem_nil, false_iff, not_and, not_lt]
      exact fun _ le => le
    · simp only [if_neg stop]
      obtain ⟨inactive, finished⟩ := not_or.mp stop
      have small := tracks.le_active mem
      obtain ⟨next, search⟩ : ∃ next, st.seqs.find? (fun s => seq < s) = some next := by
        rw [← Option.isSome_iff_exists, find?_isSome]
        exact ⟨st.active.seq, st.mem_seqs_active, by simp; omega⟩
      obtain ⟨listed, above, least⟩ := find?_gt_least tracks.sorted search
      have full := not_lt.mp finished
      have later : ∀ e ∈ log.drop i, next ≤ e.seg := fun e inside =>
        least e.seg (pending e inside) (here.later_of_end full e inside)
      have end_ : offset - (content log seq).length = 0 := Nat.sub_eq_zero_of_le here.le_content
      have shrinks := length_filter_lt mem above
      have rest := ih next 0 (here.roll above later) listed (by omega)
      rw [seqs] at search
      simp only [search, end_]
      refine ⟨rest.position, rest.tracked, above.le.trans rest.forward, ?_, rest.stops⟩
      intro n
      simp only [mem_cons, rest.passed n]
      constructor
      · rintro (rfl | ⟨listed, low, high⟩)
        · exact ⟨mem, le_refl _, above.trans_le rest.forward⟩
        · exact ⟨listed, above.le.trans low, high⟩
      · rintro ⟨listed, low, high⟩
        rcases eq_or_lt_of_le low with same | strict
        · exact .inl same.symm
        · exact .inr ⟨listed, least n listed strict, high⟩

theorem Store.rollLoop_segments (tracks : Tracks log st) {i seq offset : Nat}
    (pending : ∀ e ∈ log.drop i, e.seg ∈ st.seqs) (here : (spoolLog F).At log seq offset i)
    (mem : seq ∈ st.seqs) : RollsTo log st seq i (st.rollLoop st.segments.length seq offset) := by
  refine rollLoop_rollsTo tracks pending _ seq offset here mem ?_
  have bound := length_filter_le (seq ≤ ·) st.seqs
  rwa [seqs, length_map] at bound

end Logit.Spool
