import Logit.Core.Event
import Logit.Lib.RangeMap

namespace Logit.Kafka.Consumer

open ByteCodec List Nat

inductive TimestampType
  | createTime | logAppendTime
deriving DecidableEq

structure Record where
  offset : Int
  timestamp : Int64
  timestampType : TimestampType
  key : Option Bytes
  value : Option Bytes
  headers : List (Bytes × Option Bytes)

/-- A run of records from one partition, in offset order, and the span of offsets they cover. -/
structure Fetched where
  epoch : Nat
  records : List Record
  span : Int × Int
  inside : ∀ record ∈ records, span.1 ≤ record.offset ∧ record.offset < span.2
  increasing : records.Pairwise (·.offset < ·.offset)
  forward : span.1 ≤ span.2

namespace Fetched

def past (f : Fetched) (i : Nat) : Int := ((f.records[i]?).map (·.offset + 1)).getD f.span.2

/-- Where a batch that starts with the record at an index begins. -/
def bound (f : Fetched) : Nat → Int
  | 0 => f.span.1
  | i + 1 => f.past i

/-- The offsets that a batch of the records of an index range covers. -/
def cut (f : Fetched) (first last : Nat) : Int × Int :=
  (f.bound first, if f.records.length ≤ last then f.span.2 else f.past (last - 1))

end Fetched

/-- One record's outcome. -/
inductive Decoded (X : Externals)
  | batches (decoded : List (EventBatch X))
  | skipped (reason : String)
  | undecodable (why : String)

/-- One run of a fetch's records, decoded: what goes downstream together and is marked accepted
together. -/
structure Cut (X : Externals) where
  range : Int × Int
  batches : List (EventBatch X)

/-- The settings that decoding reads. Whether two batches have the same resource and scope may
depend on which allocation they share, so any test stands for it. -/
structure KafkaInput (X : Externals) where
  batchMaxEvents : Nat
  batchMaxBytes : Nat
  sameResource : Resource X → Resource X → Bool
  sameScope : Scope X → Scope X → Bool

/-- What the cutting loop holds between records. -/
structure Cutter (X : Externals) where
  cuts : List (Cut X)
  start : Nat
  batches : List (EventBatch X)
  events : Nat
  bytes : Nat

namespace KafkaInput

variable {X : Externals} (input : KafkaInput X) (decoder : Record → Decoded X)

def sameGroup (last next : EventBatch X) : Bool := input.sameResource last.resource next.resource &&
    match last.scope, next.scope with
    | none, none => true
    | some a, some b => input.sameScope a b
    | _, _ => false

/-- Appends a batch, or its events to the last batch of the same group. -/
def join (batches : List (EventBatch X)) (batch : EventBatch X) : List (EventBatch X) :=
  match batches.getLast? with
  | some last =>
    if input.sameGroup last batch then
      batches.dropLast ++ [{ last with events := last.events ++ batch.events }]
    else batches ++ [batch]
  | none => batches ++ [batch]

/-- Ends the run before a record that would take it over a bound; a record is never split. -/
def close (f : Fetched) (c : Cutter X) (i n size : Nat) : Cutter X :=
  if 0 < c.events ∧ (max input.batchMaxEvents 1 < c.events + n ∨ max input.batchMaxBytes 1 < c.bytes + size) then
    { cuts := c.cuts ++ [⟨f.cut c.start i, c.batches⟩], start := i, batches := [], events := 0, bytes := 0 }
  else c

def cutRecord (f : Fetched) (c : Cutter X) (entry : Record × Nat) : Cutter X :=
  match decoder entry.1 with
  | .batches decoded =>
    let n := (decoded.map (·.events.length)).sum
    let size := (entry.1.value.map List.length).getD 0
    let c := input.close f c entry.2 n size
    { c with batches := decoded.foldl input.join c.batches, events := c.events + n, bytes := c.bytes + size }
  | .skipped _ => c
  | .undecodable _ => c

/-- Decodes every record of a run and cuts the events into bounded batches. -/
def decode (f : Fetched) : List (Cut X) :=
  let c := f.records.zipIdx.foldl (input.cutRecord decoder f) ⟨[], 0, [], 0, 0⟩
  c.cuts ++ [⟨f.cut c.start f.records.length, c.batches⟩]

end KafkaInput

def Record.within (range : Int × Int) (record : Record) : Bool := range.1 ≤ record.offset ∧ record.offset < range.2

@[simp]
theorem Record.within_iff {range : Int × Int} {record : Record} :
    record.within range = true ↔ range.1 ≤ record.offset ∧ record.offset < range.2 := by simp [Record.within]

namespace Fetched

variable (f : Fetched)

/-- The start of a cut lies between the records before it and those from its first on. -/
theorem bound_splits {i : Nat} (known : i ≤ f.records.length) :
    (∀ record ∈ f.records.take i, record.offset < f.bound i) ∧
      ∀ record ∈ f.records.drop i, f.bound i ≤ record.offset := by
  cases i with
  | zero => exact ⟨by simp, fun record mem => (f.inside record mem).1⟩
  | succ i =>
    have split := f.increasing
    rw [← take_append_drop i f.records, drop_eq_getElem_cons known] at split
    obtain ⟨_, later, earlier⟩ := pairwise_append.mp split
    have here : f.bound (i + 1) = (f.records[i]).offset + 1 := by simp [bound, past, getElem?_eq_getElem known]
    rw [take_succ_eq_append_getElem known]
    constructor
    · intro record mem
      rcases mem_append.mp mem with before | last
      · have low := earlier record before _ mem_cons_self
        omega
      · rw [mem_singleton.mp last]
        omega
    · intro record mem
      have high := (pairwise_cons.mp later).1 record mem
      omega

/-- The end of a cut lies between its last record and those after it. -/
theorem cut_splits (first : Nat) {last : Nat} (known : last ≤ f.records.length)
    (ended : last < f.records.length → 0 < last) :
    (∀ record ∈ f.records.take last, record.offset < (f.cut first last).2) ∧
      ∀ record ∈ f.records.drop last, (f.cut first last).2 ≤ record.offset := by
  rcases lt_or_ge last f.records.length with short | whole
  · have positive := ended short
    obtain ⟨i, rfl⟩ := exists_eq_succ_of_ne_zero positive.ne'
    have same : (f.cut first (i + 1)).2 = f.bound (i + 1) := by simp [cut, bound, not_le.mpr short]
    rw [same]
    exact f.bound_splits known
  · have all : last = f.records.length := by omega
    subst all
    simp only [cut, le_refl, take_length]
    exact ⟨fun record mem => (f.inside record mem).2, by simp⟩

theorem filter_cut {first last : Nat} (order : first ≤ last) (known : last ≤ f.records.length)
    (ended : last < f.records.length → 0 < last) :
    f.records.filter (Record.within (f.cut first last)) = (f.records.take last).drop first := by
  obtain ⟨before, after⟩ := f.cut_splits first known ended
  obtain ⟨early, late⟩ := f.bound_splits (order.trans known)
  have parts : f.records = f.records.take first ++ ((f.records.take last).drop first ++ f.records.drop last) := by
    have front : f.records.take first = (f.records.take last).take first := by rw [take_take, min_eq_left order]
    rw [front, ← append_assoc, take_append_drop, take_append_drop]
  have none_early : (f.records.take first).filter (Record.within (f.cut first last)) = [] := by
    refine filter_eq_nil_iff.mpr fun record mem => ?_
    have low := early record mem
    simp only [Record.within_iff, cut]
    omega
  have none_late : (f.records.drop last).filter (Record.within (f.cut first last)) = [] := by
    refine filter_eq_nil_iff.mpr fun record mem => ?_
    have high := after record mem
    simp only [Record.within_iff]
    omega
  have all_between : ((f.records.take last).drop first).filter (Record.within (f.cut first last)) =
      (f.records.take last).drop first := by
    refine filter_eq_self.mpr fun record mem => ?_
    have low := before record (mem_of_mem_drop mem)
    have high := late record ((take_sublist last f.records).drop first |>.subset mem)
    exact Record.within_iff.mpr ⟨high, low⟩
  conv_lhs => rw [parts]
  rw [filter_append, filter_append, none_early, none_late, all_between, nil_append, append_nil]

theorem bound_le_cut {first last : Nat} (order : first < last) (known : last ≤ f.records.length) :
    f.bound first ≤ (f.cut first last).2 := by
  have here := order.trans_le known
  have low := (f.bound_splits here.le).2 f.records[first]
    (mem_drop_iff_getElem.mpr ⟨0, by simpa using here, by simp⟩)
  have high := (f.cut_splits first known fun _ => zero_lt_of_lt order).1 f.records[first]
    (mem_take_iff_getElem.mpr ⟨first, by omega, rfl⟩)
  omega

end Fetched

namespace KafkaInput

variable {X : Externals} (input : KafkaInput X) (decoder : Record → Decoded X)

def eventsOf (record : Record) : List (Event X) :=
  match decoder record with
  | .batches decoded => decoded.flatMap (·.events)
  | .skipped _ => []
  | .undecodable _ => []

theorem flatMap_join (batches : List (EventBatch X)) (batch : EventBatch X) :
    (input.join batches batch).flatMap (·.events) = batches.flatMap (·.events) ++ batch.events := by
  unfold join
  split
  case h_1 last held =>
    split
    · have parts := dropLast_append_getLast? last held
      conv_rhs => rw [← parts]
      simp
    · simp
  case h_2 => simp

theorem flatMap_foldl_join (decoded batches : List (EventBatch X)) :
    (decoded.foldl input.join batches).flatMap (·.events) =
      batches.flatMap (·.events) ++ decoded.flatMap (·.events) := by
  induction decoded generalizing batches with
  | nil => simp
  | cons batch decoded ih => rw [foldl_cons, ih, flatMap_join, flatMap_cons, append_assoc]

/-- A cut whose batches hold the events of exactly the records that its range covers. -/
def Carries (f : Fetched) (cut : Cut X) : Prop :=
  cut.batches.flatMap (·.events) = (f.records.filter (Record.within cut.range)).flatMap (eventsOf decoder)

/-- The cutting loop after a number of records. -/
structure CutUpTo (f : Fetched) (k : Nat) (c : Cutter X) : Prop where
  order : c.start ≤ k
  known : c.start = 0 ∨ c.start < f.records.length
  begun : 0 < c.events → c.start < k
  tiles : RangeMap.Tiles f.span.1 (f.bound c.start) (c.cuts.map (·.range))
  carries : ∀ cut ∈ c.cuts, Carries decoder f cut
  held : c.batches.flatMap (·.events) = ((f.records.take k).drop c.start).flatMap (eventsOf decoder)

variable {decoder} {f : Fetched} {c : Cutter X} {k : Nat}

theorem CutUpTo.start (f : Fetched) : CutUpTo decoder f 0 ⟨[], 0, [], 0, 0⟩ :=
  ⟨le_rfl, .inl rfl, by simp, .nil _, by simp, by simp⟩

omit input in
theorem CutUpTo.carries_next (upTo : CutUpTo decoder f k c) (bounded : k ≤ f.records.length)
    (ended : k < f.records.length → 0 < k) : Carries decoder f ⟨f.cut c.start k, c.batches⟩ := by
  rw [Carries, upTo.held, f.filter_cut upTo.order bounded ended]

theorem CutUpTo.close (upTo : CutUpTo decoder f k c) (inside : k < f.records.length) (n size : Nat) :
    CutUpTo decoder f k (input.close f c k n size) := by
  unfold KafkaInput.close
  split
  case isFalse => exact upTo
  case isTrue full =>
    have begun := upTo.begun full.1
    have range : f.cut c.start k = (f.bound c.start, f.bound k) := by
      obtain ⟨i, rfl⟩ := exists_eq_succ_of_ne_zero (ne_zero_of_lt begun)
      simp [Fetched.cut, Fetched.bound, not_le.mpr inside]
    have forward := f.bound_le_cut begun inside.le
    rw [range] at forward
    refine ⟨le_rfl, .inr inside, by simp, ?_, ?_, by simp⟩
    · simp only [map_append, range]
      exact upTo.tiles.snoc forward
    · intro cut mem
      rcases mem_append.mp mem with old | new
      · exact upTo.carries cut old
      · rw [mem_singleton.mp new]
        exact upTo.carries_next inside.le fun _ => zero_lt_of_lt begun

/-- One more record: skipped, dropped, or its events joined to the run's. -/
theorem CutUpTo.next (upTo : CutUpTo decoder f k c) {record : Record} (here : f.records[k]? = some record) :
    CutUpTo decoder f (k + 1) (input.cutRecord decoder f c (record, k)) := by
  obtain ⟨inside, same⟩ := List.getElem?_eq_some_iff.mp here
  have grown : ∀ start ≤ k, ((f.records.take (k + 1)).drop start).flatMap (eventsOf decoder) =
      ((f.records.take k).drop start).flatMap (eventsOf decoder) ++ eventsOf decoder record := by
    intro start order
    have short : start ≤ (f.records.take k).length := by
      rw [length_take]
      omega
    rw [take_succ_eq_append_getElem inside, same, drop_append_of_le_length short, flatMap_append, flatMap_singleton]
  have passed : eventsOf decoder record = [] → CutUpTo decoder f (k + 1) c := by
    intro empty
    refine ⟨upTo.order.trans (le_succ k), upTo.known, ?_, upTo.tiles, upTo.carries, ?_⟩
    · intro some_
      exact (upTo.begun some_).trans (lt_succ_self k)
    · rw [grown c.start upTo.order, empty, append_nil]
      exact upTo.held
  cases outcome : decoder record with
  | skipped reason | undecodable why => simpa [cutRecord, outcome] using passed (by simp [eventsOf, outcome])
  | batches decoded =>
    simp only [cutRecord, outcome]
    generalize (decoded.map (·.events.length)).sum = n
    generalize (record.value.map length).getD 0 = size
    obtain ⟨order, known, -, tiles, carries, held⟩ := upTo.close input inside n size
    refine ⟨order.trans (le_succ k), known, fun _ => lt_succ_of_le order, tiles, carries, ?_⟩
    rw [flatMap_foldl_join, held, grown _ order]
    simp [eventsOf, outcome]

/-- The loop keeps its invariant from any record on to the end of the run. -/
theorem CutUpTo.foldl (seen rest : List Record) (all : f.records = seen ++ rest)
    (upTo : CutUpTo decoder f seen.length c) :
    CutUpTo decoder f f.records.length ((rest.zipIdx seen.length).foldl (input.cutRecord decoder f) c) := by
  induction rest generalizing seen c with
  | nil =>
    rw [append_nil] at all
    rw [all]
    exact upTo
  | cons record rest ih =>
    have here : f.records[seen.length]? = some record := by simp [all]
    have next := upTo.next input here
    have onward := ih (seen ++ [record]) (by simp [all]) (by simpa using next)
    simpa using onward

theorem decode_upTo (f : Fetched) : ∃ c, CutUpTo decoder f f.records.length c ∧
      input.decode decoder f = c.cuts ++ [⟨f.cut c.start f.records.length, c.batches⟩] :=
  ⟨_, CutUpTo.foldl input [] f.records rfl (.start f), rfl⟩

theorem decode_tiles (f : Fetched) : RangeMap.Tiles f.span.1 f.span.2 ((input.decode decoder f).map (·.range)) := by
  obtain ⟨c, upTo, same⟩ := input.decode_upTo f
  have forward : f.bound c.start ≤ f.span.2 := by
    rcases upTo.known with first | inside
    · rw [first]
      exact f.forward
    · have reached := f.bound_le_cut inside le_rfl
      simpa [Fetched.cut] using reached
  have last : f.cut c.start f.records.length = (f.bound c.start, f.span.2) := by simp [Fetched.cut]
  rw [same, map_append, last]
  exact upTo.tiles.snoc forward

/-- Every cut's batches hold the events of the records its range covers, in order. -/
theorem decode_carries (f : Fetched) : ∀ cut ∈ input.decode decoder f, Carries decoder f cut := by
  obtain ⟨c, upTo, same⟩ := input.decode_upTo f
  rw [same]
  intro cut mem
  rcases mem_append.mp mem with old | last
  · exact upTo.carries cut old
  · rw [mem_singleton.mp last]
    exact upTo.carries_next le_rfl fun short => absurd short (lt_irrefl _)

end KafkaInput

end Logit.Kafka.Consumer
