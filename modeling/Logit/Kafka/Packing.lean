import Logit.Frame
import Logit.Lib.LongestRun
import Logit.Otlp.Send

namespace Logit.Kafka.Encode

open ByteCodec LongestRun List Nat Option

/-- What one candidate encode of a run of events gave. -/
inductive Fit where
  | fits (value : Bytes)
  | empty
  | tooLong
  deriving DecidableEq

def Fit.value? : Fit → Option Bytes
  | .fits value => some value
  | _ => none

structure RecordMeta where
  key : Option Bytes
  timestamp : Int
  signal : Option Otlp.Signal

variable {ε γ ρ : Type}

/-- A run's encoding against the budget. With `skips` a run without one has no record of the signal. -/
def fits (skips : Bool) (budget : Nat) (encode : List ε → Option Bytes) (run : List ε) : Fit :=
  match encode run with
  | some value => if value.length ≤ budget then .fits value else .tooLong
  | none => if skips then .empty else .tooLong

/-- The records of the rest of the events, each the longest run that the search finds, and how many events are
oversize. `knownOver` is a length known not to fit. -/
def cutRest (fit : List ε → Fit) (emit : ε → Bytes → γ) : Option Nat → List ε → List γ × Nat
  | _, [] => ([], 0)
  | knownOver, first :: later =>
    match found : fit [first] with
    | .fits value =>
      let best := longest (later.length + 1)
        (⟨1, value, Nat.one_pos, congrArg Fit.value? found⟩ : Best fun n => (fit ((first :: later).take n)).value?)
        (knownOver.getD (later.length + 2))
      let others := cutRest fit emit none ((first :: later).drop best.fit)
      (emit first best.value :: others.1, others.2)
    | .empty => cutRest fit emit none later
    | .tooLong =>
      let others := cutRest fit emit none later
      (others.1, others.2 + 1)
termination_by _ rest => rest.length
decreasing_by
  · simp only [List.length_drop, List.length_cons]
    exact Nat.sub_lt (Nat.succ_pos _) best.pos
  all_goals simp

/-- One record when all the events fit, else the records of the runs they are cut into. -/
def cutBySize (fit : List ε → Fit) (emit : ε → Bytes → γ) : List ε → List γ × Nat
  | [] => ([], 0)
  | first :: later =>
    match fit (first :: later) with
    | .fits value => ([emit first value], 0)
    | .empty => ([], 0)
    | .tooLong => cutRest fit emit (some (later.length + 1)) (first :: later)

def nativeFrame (Z : Frame.BlockCodec) (payload : List ε → Bytes) (events : List ε) : Option Bytes :=
  (Frame.writeFrame Z 1 .none (payload events)).toOption

def nativeRecord (timestamp : ε → Int) (first : ε) (frame : Bytes) : Bytes × RecordMeta :=
  (frame, ⟨none, timestamp first / 1000000, none⟩)

/-- `payload` encodes events under the batch's resource and scope. -/
def nativePacked (Z : Frame.BlockCodec) (payload : List ε → Bytes) (timestamp : ε → Int) (budget : Nat)
    (events : List ε) : List (Bytes × RecordMeta) × Nat :=
  cutBySize (fits false budget (nativeFrame Z payload)) (nativeRecord timestamp) events

/-- The OTLP mapping under the batch's resource and scope: the records an event yields, and a request's bytes in
the sink's format. -/
structure Requests (ε ρ : Type) where
  records : ε → List ρ
  bytes : List ρ → Bytes

def Requests.request (R : Requests ε ρ) (events : List ε) : Option Bytes :=
  if events.flatMap R.records = [] then none else some (R.bytes (events.flatMap R.records))

structure Group (ε : Type) where
  key : Option Bytes
  missing : Bool
  events : List ε

/-- What a record of the group has beside its key. -/
def Group.budget (group : Group ε) (budget : Nat) : Nat := budget - (group.key.map List.length).getD 0

def Group.record (group : Group ε) (signal : Otlp.Signal) (timestamp : Int) (_ : ε) (value : Bytes) :
    Bytes × RecordMeta :=
  (value, ⟨group.key, timestamp, some signal⟩)

/-- The group's records, how many of its events are oversize, and how many records lack the key. -/
def otlpGroup (R : Requests ε ρ) (signal : Otlp.Signal) (timestamp : Int) (budget : Nat) (group : Group ε) :
    (List (Bytes × RecordMeta) × Nat) × Nat :=
  let cut := cutBySize (fits true (group.budget budget) R.request) (group.record signal timestamp) group.events
  (cut, if group.missing then cut.1.length else 0)

/-- The events cut in order into runs, each one record and the longest that is within the budget, events that are
oversize alone, and with `skips` events without an encoding. -/
inductive Cuts (skips : Bool) (budget : Nat) (encode : List ε → Option Bytes) (emit : ε → Bytes → γ) :
    List ε → List γ × Nat → Prop
  | nil : Cuts skips budget encode emit [] ([], 0)
  | record {first : ε} {more : List ε} (rest : List ε) {value : Bytes} {out : List γ × Nat}
      (encoded : encode (first :: more) = some value) (within : value.length ≤ budget)
      (longest : ∀ next, next <+: rest → next ≠ [] →
        ∀ longer, encode (first :: more ++ next) = some longer → budget < longer.length)
      (others : Cuts skips budget encode emit rest out) :
      Cuts skips budget encode emit (first :: more ++ rest) (emit first value :: out.1, out.2)
  | oversize {event : ε} {rest : List ε} {out : List γ × Nat} (yields : ¬ (skips = true ∧ encode [event] = none))
      (alone : ∀ value, encode [event] = some value → budget < value.length)
      (others : Cuts skips budget encode emit rest out) :
      Cuts skips budget encode emit (event :: rest) (out.1, out.2 + 1)
  | skipped {event : ε} {rest : List ε} {out : List γ × Nat} (skipped : skips = true ∧ encode [event] = none)
      (others : Cuts skips budget encode emit rest out) : Cuts skips budget encode emit (event :: rest) out

/-- Appending an event never shrinks a run, and a run is empty only when its events are. -/
structure Grows (fit : List ε → Fit) : Prop where
  stays : ∀ run event, fit run = .tooLong → fit (run ++ [event]) = .tooLong
  each : ∀ run, fit run = .empty → ∀ event ∈ run, fit [event] = .empty

theorem Fit.value?_eq_some {fit : Fit} {value : Bytes} : fit.value? = some value ↔ fit = .fits value := by
  cases fit <;> simp [Fit.value?]

section

variable {fit : List ε → Fit} {first : ε} {later : List ε} {value : Bytes} (grows : Grows fit)
include grows

theorem Grows.stays_append {run : List ε} (long : fit run = .tooLong) (next : List ε) :
    fit (run ++ next) = .tooLong := by
  induction next using reverseRecOn with
  | nil => rwa [append_nil]
  | append_singleton next event ih =>
    rw [← append_assoc]
    exact grows.stays _ event ih

theorem Grows.closed (found : fit [first] = .fits value) :
    Closed (fun n => (fit ((first :: later).take n)).value?) (later.length + 1) := by
  intro m n pos below inside fails
  obtain ⟨k, rfl⟩ := Nat.exists_eq_add_of_le below
  have long : fit ((first :: later).take m) = .tooLong := by
    cases tried : fit ((first :: later).take m) with
    | fits value => simp [tried, Fit.value?] at fails
    | tooLong => rfl
    | empty =>
      obtain ⟨m, rfl⟩ := exists_eq_succ_of_ne_zero pos.ne'
      cases found.symm.trans (grows.each _ tried first (by simp))
  simp [take_add, grows.stays_append long, Fit.value?]

/-- The search starts from the first event and the length that is known not to fit. -/
theorem Grows.bracket {knownOver : Option Nat} (found : fit [first] = .fits value)
    (known : ∀ n, knownOver = some n → n = (first :: later).length ∧ fit (first :: later) = .tooLong) :
    Bracket (later.length + 1) (⟨1, value, one_pos, congrArg Fit.value? found⟩ :
        Best fun n => (fit ((first :: later).take n)).value?)
      (knownOver.getD (later.length + 2)) := by
  cases knownOver with
  | none => exact ⟨le_add_left 1 _, by simp, le_refl _, by simp⟩
  | some n =>
    obtain ⟨rfl, long⟩ := known n rfl
    have fails : (fit ((first :: later).take (later.length + 1))).value? = none := by
      rw [← length_cons, take_length, long]
      rfl
    refine ⟨le_add_left 1 _, ?_, le_succ _, fun _ => fails⟩
    exact Best.lt_of_none (grows.closed found) (succ_pos _) (le_add_left 1 _) fails

end

section

variable {skips : Bool} {budget : Nat} {encode : List ε → Option Bytes} {run : List ε}

theorem fits_eq_fits {value : Bytes} :
    fits skips budget encode run = .fits value ↔ encode run = some value ∧ value.length ≤ budget := by
  unfold fits
  cases encode run <;> grind

theorem fits_eq_empty : fits skips budget encode run = .empty ↔ skips = true ∧ encode run = none := by
  unfold fits
  cases encode run <;> grind

theorem fits_eq_tooLong : fits skips budget encode run = .tooLong ↔
      ¬ (skips = true ∧ encode run = none) ∧ ∀ value, encode run = some value → budget < value.length := by
  unfold fits
  cases encode run <;> grind

variable (grows : Grows (fits skips budget encode)) {emit : ε → Bytes → γ}
include grows

theorem cutRest_cuts {knownOver : Option Nat} {rest : List ε}
    (known : ∀ n, knownOver = some n → n = rest.length ∧ fits skips budget encode rest = .tooLong) :
    Cuts skips budget encode emit rest (cutRest (fits skips budget encode) emit knownOver rest) := by
  fun_induction cutRest (fits skips budget encode) emit knownOver rest with
  | case1 => exact .nil
  | case2 knownOver first later value found best others ih =>
    obtain ⟨inside, longest⟩ : best.fit ≤ later.length + 1 ∧ ∀ n, best.fit < n → n ≤ later.length + 1 →
        (fits skips budget encode ((first :: later).take n)).value? = none :=
      longest_longest (grows.closed found) (grows.bracket found known)
    obtain ⟨k, size⟩ := exists_eq_add_one.mpr best.pos
    have run : (first :: later).take best.fit = first :: later.take k := by rw [size, take_succ_cons]
    obtain ⟨encoded, within⟩ := fits_eq_fits.mp (Fit.value?_eq_some.mp best.fits_eq)
    rw [run] at encoded
    have cut := Cuts.record ((first :: later).drop best.fit) encoded within ?_ (ih (by simp))
    · rwa [← run, take_append_drop] at cut
    · intro next front some longer made
      by_contra short
      have more := length_pos_iff.mpr some
      have room := front.length_le
      rw [length_drop, length_cons] at room
      have fails := longest (best.fit + next.length) (by omega) (by omega)
      rw [take_add, run, ← prefix_iff_eq_take.mp front, fits_eq_fits.mpr ⟨made, Nat.le_of_not_lt short⟩] at fails
      cases fails
  | case3 knownOver first later found ih => exact .skipped (fits_eq_empty.mp found) (ih (by simp))
  | case4 knownOver first later found others ih =>
    obtain ⟨yields, alone⟩ := fits_eq_tooLong.mp found
    exact .oversize yields alone (ih (by simp))

theorem cutBySize_cuts (events : List ε) :
    Cuts skips budget encode emit events (cutBySize (fits skips budget encode) emit events) := by
  cases events with
  | nil => exact .nil
  | cons first later =>
    rw [cutBySize]
    split
    next value found =>
      obtain ⟨encoded, within⟩ := fits_eq_fits.mp found
      have cut : Cuts skips budget encode emit (first :: later ++ []) _ :=
        .record [] encoded within (fun next front some => absurd (prefix_nil.mp front) some) .nil
      rwa [append_nil] at cut
    next found =>
      have none := grows.each _ found
      generalize first :: later = events at none
      induction events with
      | nil => exact .nil
      | cons event events ih =>
        rw [forall_mem_cons] at none
        exact .skipped (fits_eq_empty.mp none.1) (ih none.2)
    next found => exact cutRest_cuts grows fun n known => ⟨(some.inj known).symm, found⟩

end

theorem nativeFrame_grows (Z : Frame.BlockCodec) (budget : Nat) {payload : List ε → Bytes}
    (longer : ∀ run event, (payload run).length ≤ (payload (run ++ [event])).length) :
    Grows (fits false budget (nativeFrame Z payload)) := by
  have long : ∀ run, fits false budget (nativeFrame Z payload) run = .tooLong ↔
      Frame.maxSaneUncompressedLen < (payload run).length ∨ budget < Frame.headerLen + (payload run).length := by
    intro run
    rw [fits_eq_tooLong, nativeFrame, Frame.writeFrame, Frame.writeFrameWithFlags]
    split
    next capped => exact iff_of_true ⟨by simp, fun value made => by cases made⟩ (.inl capped)
    next small =>
      rw [or_iff_right small]
      show _ ∧ (∀ value, some ((Frame.headerOf Z 1 .none 0 _ (payload run)).write ++ payload run) = _ → _) ↔ _
      simp
  refine ⟨fun run event before => ?_, fun run empty => ?_⟩
  · have grown := longer run event
    rw [long] at before ⊢
    omega
  · cases (fits_eq_empty.mp empty).1

theorem request_grows (budget : Nat) {R : Requests ε ρ}
    (longer : ∀ run event old new, R.request run = some old → R.request (run ++ [event]) = some new →
      old.length ≤ new.length) : Grows (fits true budget R.request) := by
  have none : ∀ run, R.request run = none ↔ ∀ event ∈ run, R.records event = [] := by
    intro run
    rw [Requests.request]
    simp
  refine ⟨fun run event before => ?_, fun run empty one mem => ?_⟩
  · obtain ⟨yields, long⟩ := fits_eq_tooLong.mp before
    have some : R.request run ≠ Option.none := fun gone => yields ⟨rfl, gone⟩
    obtain ⟨old, made⟩ := ne_none_iff_exists'.mp some
    refine fits_eq_tooLong.mpr ⟨fun gone => some ((none run).mpr fun one mem => ?_), fun new next => ?_⟩
    · exact (none _).mp gone.2 one (mem_append_left _ mem)
    · exact (long old made).trans_le (longer run event old new made next)
  · rw [fits_eq_empty, none]
    exact ⟨rfl, by simpa using (none run).mp (fits_eq_empty.mp empty).2 one mem⟩

/-- The records of a native batch and of an OTLP group: consecutive runs, in order, that with the oversize events
and the events that no record of the signal comes of are all the events. Each is within the budget and the longest
that is, and an oversize event is over it alone, or over the cap of a frame. -/
theorem records_cut (Z : Frame.BlockCodec) (payload : List ε → Bytes) (timestamp : ε → Int) (budget : Nat)
    (events : List ε) (R : Requests ε ρ) (signal : Otlp.Signal) (now : Int) (group : Group ε)
    (framed : ∀ run event, (payload run).length ≤ (payload (run ++ [event])).length)
    (requested : ∀ run event old new, R.request run = some old → R.request (run ++ [event]) = some new →
      old.length ≤ new.length) : Cuts false budget (nativeFrame Z payload) (nativeRecord timestamp) events
        (nativePacked Z payload timestamp budget events) ∧
      Cuts true (group.budget budget) R.request (group.record signal now) group.events
        (otlpGroup R signal now budget group).1 :=
  ⟨cutBySize_cuts (nativeFrame_grows Z budget framed) events,
    cutBySize_cuts (request_grows (group.budget budget) requested) group.events⟩

/-- An event of `n` yields `n` records of a byte. -/
def byteRequests : Requests Nat UInt8 := ⟨fun n => List.replicate n 0, id⟩

theorem byteRequests_longer (run : List Nat) (event : Nat) (old new : Bytes)
    (before : byteRequests.request run = some old) (after : byteRequests.request (run ++ [event]) = some new) :
    old.length ≤ new.length := by
  simp only [Requests.request, ite_none_left_eq_some, some.injEq] at before after
  simp [← before.2, ← after.2, byteRequests]

def byteGroup : Group Nat := ⟨some [7, 7], false, [0, 20, 8, 1, 99]⟩

theorem records_cut_sample :
    Cuts false 30 (nativeFrame .plain (·.flatMap byteRequests.records)) (nativeRecord fun _ => 0) [1, 2, 3, 9]
        (nativePacked .plain (·.flatMap byteRequests.records) (fun _ => 0) 30 [1, 2, 3, 9]) ∧
      Cuts true 28 byteRequests.request (byteGroup.record .metrics 0) byteGroup.events
        (otlpGroup byteRequests .metrics 0 30 byteGroup).1 :=
  records_cut .plain (·.flatMap byteRequests.records) (fun _ => 0) 30 [1, 2, 3, 9] byteRequests .metrics 0 byteGroup
    (by simp) byteRequests_longer

theorem Cuts.length_of_no_record {budget : Nat} {encode : List ε → Option Bytes} {emit : ε → Bytes → γ}
    {events : List ε} {out : List γ × Nat} (cut : Cuts false budget encode emit events out) (none : out.1 = []) :
    events.length = out.2 := by
  induction cut with
  | nil => rfl
  | record => cases none
  | oversize _ _ _ ih => rw [length_cons, ih none]
  | skipped left => cases left.1

/-- An event without a record before an oversize one is in no record and is not counted. -/
theorem skipped_event_uncounted :
    (∀ run event old new, byteRequests.request run = some old → byteRequests.request (run ++ [event]) = some new →
      old.length ≤ new.length) ∧
    (otlpGroup byteRequests .metrics 0 1 ⟨none, false, [0, 2]⟩).1 = ([], 1) ∧
    ¬ Cuts false 1 byteRequests.request (Group.record ⟨none, false, [0, 2]⟩ .metrics 0) [0, 2] ([], 1) := by
  refine ⟨byteRequests_longer, ?_, fun cut => by cases cut.length_of_no_record rfl⟩
  simp [otlpGroup, cutBySize, cutRest, fits, Requests.request, byteRequests, Group.budget]

end Logit.Kafka.Encode
