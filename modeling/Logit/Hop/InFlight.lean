import Mathlib

namespace Logit.Hop

open List Option

/-- The name of a frame: its sender's identity and its number. -/
structure SeqId (ι : Type) where
  id : ι
  seq : Nat
deriving DecidableEq

/-- A frame written whole and not yet committed. -/
structure InFlight (ι : Type) where
  seq : SeqId ι
  acked : Bool
deriving DecidableEq

/-- An answer that the connection cannot be trusted after. -/
inductive AckError (ι : Type) where
  | ackedNone (seq : Nat)
  | ackedOther (id oldest : ι)
  | ackedUnnamed (ack : SeqId ι)
  | rejectedOther (named oldest : SeqId ι)
  | rejectedNone (seq : Nat)
deriving DecidableEq

variable {ι : Type}

/-- An entry keeps its name, and is marked only when the `Ack` covers it. -/
def Marks (ack : SeqId ι) (before after : InFlight ι) :
    Prop := after.seq = before.seq ∧ (after.acked = before.acked ∨
    after.acked = true ∧ before.seq.id = ack.id ∧ before.seq.seq ≤ ack.seq)

/-- A list of marked entries has the same names, and what was marked in it still is. -/
theorem Marks.names {ack : SeqId ι} {before after : List (InFlight ι)}
    (marked : List.Forall₂ (Marks ack) before after) :
    after.map InFlight.seq = before.map InFlight.seq ∧ ∀ frame, ⟨frame, true⟩ ∈ before → ⟨frame, true⟩ ∈ after := by
  induction marked with
  | nil => exact ⟨rfl, fun _ mem => mem⟩
  | @cons entry entry' _ _ head _ ih =>
    refine ⟨by rw [map_cons, map_cons, head.1, ih.1], fun frame mem => ?_⟩
    rcases mem_cons.mp mem with rfl | later
    · have acked := head.2.elim (fun same => same) fun covered => covered.1
      exact mem_cons.mpr (.inl (congrArg₂ InFlight.mk head.1.symm acked.symm))
    · exact mem_cons_of_mem _ (ih.2 frame later)

theorem marks_refl (ack : SeqId ι) (inFlight : List (InFlight ι)) : List.Forall₂ (Marks ack) inFlight inFlight :=
  forall₂_same.mpr fun _ _ => ⟨rfl, .inl rfl⟩

variable [DecidableEq ι]

/-- The entries after the loop that marks them, and whether one of them carries the number. -/
def markLoop (ack : SeqId ι) : List (InFlight ι) → Bool × List (InFlight ι)
  | [] => (false, [])
  | entry :: rest =>
    if entry.seq.id ≠ ack.id ∨ ack.seq < entry.seq.seq then (false, entry :: rest)
    else
      let (named, rest) := markLoop ack rest
      (entry.seq.seq = ack.seq || named, { entry with acked := true } :: rest)

variable (inFlight : List (InFlight ι))

def markAcked (ack : SeqId ι) : Except (AckError ι) Unit × List (InFlight ι) :=
  match inFlight.head? with
  | none => (.error (.ackedNone ack.seq), inFlight)
  | some front =>
    if front.seq.id ≠ ack.id then (.error (.ackedOther ack.id front.seq.id), inFlight)
    else
      let (named, inFlight) := markLoop ack inFlight
      (if named then .ok () else .error (.ackedUnnamed ack), inFlight)

def settleRejected (named : SeqId ι) : Except (AckError ι) Unit × List (InFlight ι) :=
  match inFlight with
  | front :: rest =>
    if front.seq = named ∧ front.acked = false then (.ok (), rest)
    else (.error (.rejectedOther named front.seq), front :: rest)
  | [] => (.error (.rejectedNone named.seq), [])

inductive Answer where
  | acked
  | rejected
deriving DecidableEq

inductive AckCall (ι : Type) where
  | ack (named : SeqId ι)
  | reject (named : SeqId ι)
  | pop

/-- The frames in flight, and those that left it with the answer they had. -/
structure Window (ι : Type) where
  inFlight : List (InFlight ι)
  settled : List (SeqId ι × Answer)

namespace Window

variable (window : Window ι)

def step : AckCall ι → Window ι
  | .ack named => { window with inFlight := (markAcked window.inFlight named).2 }
  | .reject named =>
    match settleRejected window.inFlight named with
    | (.ok (), inFlight) => ⟨inFlight, window.settled ++ [(named, .rejected)]⟩
    | (.error _, inFlight) => { window with inFlight }
  | .pop =>
    match window.inFlight with
    | [] => window
    | front :: rest => ⟨rest, if front.acked then window.settled ++ [(front.seq, .acked)] else window.settled⟩

def run (calls : List (AckCall ι)) : Window ι := calls.foldl step window

def outcome (frame : SeqId ι) : Option Answer :=
  (window.settled.lookup frame).or (if ⟨frame, true⟩ ∈ window.inFlight then some .acked else none)

end Window

theorem marks_markLoop (ack : SeqId ι) (inFlight : List (InFlight ι)) :
    List.Forall₂ (Marks ack) inFlight (markLoop ack inFlight).2 := by
  induction inFlight with
  | nil => exact .nil
  | cons entry rest ih =>
    simp only [markLoop]
    split
    · exact marks_refl ack _
    next covered =>
      rw [not_or, not_not, not_lt] at covered
      exact .cons ⟨rfl, .inr ⟨rfl, covered⟩⟩ ih

theorem marks_markAcked (ack : SeqId ι) (inFlight : List (InFlight ι)) :
    List.Forall₂ (Marks ack) inFlight (markAcked inFlight ack).2 := by
  unfold markAcked
  split
  · exact marks_refl ack _
  · split
    · exact marks_refl ack _
    · exact marks_markLoop ack _

theorem settleRejected_cases (named : SeqId ι) :
    (∃ rest, inFlight = ⟨named, false⟩ :: rest ∧ settleRejected inFlight named = (.ok (), rest)) ∨
      inFlight.head? ≠ some ⟨named, false⟩ ∧ ∃ e, settleRejected inFlight named = (.error e, inFlight) := by
  rcases inFlight with _ | ⟨⟨seq, acked⟩, rest⟩
  · exact .inr ⟨by simp, _, rfl⟩
  · by_cases front : seq = named ∧ acked = false
    · obtain ⟨rfl, rfl⟩ := front
      exact .inl ⟨rest, rfl, by simp [settleRejected]⟩
    · exact .inr ⟨by simpa using front, _, by simp only [settleRejected, if_neg front]; rfl⟩

namespace Window

/-- An outcome is set because the frame has left, or because its entry is marked. -/
theorem outcome_grows {before after : Window ι} (grown : ∃ more, after.settled = before.settled ++ more)
    (marked : ∀ frame, ⟨frame, true⟩ ∈ before.inFlight → before.settled.lookup frame = none →
      after.outcome frame = some .acked) (frame : SeqId ι) (answer : Answer)
    (known : before.outcome frame = some answer) : after.outcome frame = some answer := by
  obtain ⟨more, grown⟩ := grown
  cases found : before.settled.lookup frame with
  | some given =>
    simp only [outcome, found, some_or] at known
    simp [outcome, grown, lookup_append, found, some_or, known]
  | none =>
    simp only [outcome, found] at known
    split at known
    next mem => exact (marked frame mem found).trans known
    · cases known

theorem step_keeps (window : Window ι) (distinct : (window.inFlight.map InFlight.seq).Nodup)
    (call : AckCall ι) : ((window.step call).inFlight.map InFlight.seq).Nodup ∧
      ∀ frame answer, window.outcome frame = some answer → (window.step call).outcome frame = some answer := by
  obtain ⟨inFlight, settled⟩ := window
  cases call with
  | ack named =>
    have names := Marks.names (marks_markAcked named inFlight)
    refine ⟨names.1.symm ▸ distinct, outcome_grows ⟨[], (append_nil _).symm⟩ fun frame mem found => ?_⟩
    simp only [step, outcome, found]
    exact if_pos (names.2 frame mem)
  | reject named =>
    rcases settleRejected_cases inFlight named with ⟨rest, rfl, popped⟩ | ⟨-, e, failed⟩
    · have apart := nodup_cons.mp distinct
      simp only [step, popped]
      refine ⟨apart.2, outcome_grows ⟨_, rfl⟩ fun frame mem found => ?_⟩
      have later : ⟨frame, true⟩ ∈ rest := by simpa using mem
      have other : frame ≠ named := fun same => apart.1 (mem_map.mpr ⟨_, later, same⟩)
      simp [outcome, found, lookup_append, lookup, beq_eq_false_iff_ne.mpr other, later]
    · simp only [step, failed]
      exact ⟨distinct, fun _ _ known => known⟩
  | pop =>
    rcases inFlight with _ | ⟨⟨seq, acked⟩, rest⟩
    · exact ⟨distinct, fun _ _ known => known⟩
    · have apart := nodup_cons.mp distinct
      simp only [step]
      refine ⟨apart.2, outcome_grows ?_ fun frame mem found => ?_⟩
      · cases acked with
        | true => exact ⟨_, rfl⟩
        | false => exact ⟨[], (append_nil _).symm⟩
      · rcases mem_cons.mp mem with front | later
        · obtain ⟨rfl, rfl⟩ := InFlight.mk.inj front
          simp [outcome, found, lookup_append]
        · have other : frame ≠ seq := fun same => apart.1 (mem_map.mpr ⟨_, later, same⟩)
          cases acked with
          | true => simp [outcome, found, lookup_append, lookup, beq_eq_false_iff_ne.mpr other, later]
          | false => simp [outcome, found, later]

theorem run_keeps (window : Window ι) (distinct : (window.inFlight.map InFlight.seq).Nodup)
    (calls : List (AckCall ι)) : ((window.run calls).inFlight.map InFlight.seq).Nodup ∧
      ∀ frame answer, window.outcome frame = some answer → (window.run calls).outcome frame = some answer := by
  induction calls generalizing window with
  | nil => exact ⟨distinct, fun _ _ known => known⟩
  | cons call calls ih =>
    obtain ⟨apart, kept⟩ := window.step_keeps distinct call
    obtain ⟨last, still⟩ := ih (window.step call) apart
    exact ⟨last, fun frame answer known => still frame answer (kept frame answer known)⟩

end Window

/-- An `Ack` marks only the frames of its identity that it covers. A rejected one settles the oldest frame when
it names that frame and no `Ack` did, and changes nothing otherwise. No outcome that is set changes. -/
theorem answers_settle (increasing : inFlight.Pairwise fun earlier later =>
      earlier.seq.id = later.seq.id → earlier.seq.seq < later.seq.seq) :
    (∀ ack, List.Forall₂ (Marks ack) inFlight (markAcked inFlight ack).2) ∧
    (∀ named, (inFlight.head? = some ⟨named, false⟩ ∧ settleRejected inFlight named = (.ok (), inFlight.tail) ∧
        ∀ frame, ((⟨inFlight, []⟩ : Window ι).step (.reject named)).outcome frame =
          if frame = named then some .rejected else (⟨inFlight, []⟩ : Window ι).outcome frame) ∨
      inFlight.head? ≠ some ⟨named, false⟩ ∧ ∃ e, settleRejected inFlight named = (.error e, inFlight)) ∧
    ∀ calls more frame answer, ((⟨inFlight, []⟩ : Window ι).run calls).outcome frame = some answer →
      ((⟨inFlight, []⟩ : Window ι).run (calls ++ more)).outcome frame = some answer := by
  have distinct : (inFlight.map InFlight.seq).Nodup := by
    rw [List.Nodup, pairwise_map]
    refine increasing.imp fun {earlier later} ordered same => ?_
    have below := ordered (congrArg SeqId.id same)
    rw [same] at below
    exact lt_irrefl _ below
  refine ⟨fun ack => marks_markAcked ack inFlight, fun named => ?_, fun calls more => ?_⟩
  · refine (settleRejected_cases inFlight named).imp_left ?_
    rintro ⟨rest, rfl, popped⟩
    refine ⟨rfl, popped, fun frame => ?_⟩
    simp only [Window.step, popped, Window.outcome, nil_append, lookup]
    by_cases same : frame = named
    · simp [same]
    · simp [same, beq_eq_false_iff_ne.mpr same]
  · have joined : (⟨inFlight, []⟩ : Window ι).run (calls ++ more) = (Window.run ⟨inFlight, []⟩ calls).run more :=
      foldl_append
    rw [joined]
    exact (Window.run_keeps _ (Window.run_keeps _ distinct calls).1 more).2

theorem answers_settle_two :
    ((⟨[⟨⟨0, 1⟩, false⟩, ⟨⟨1, 1⟩, false⟩], []⟩ : Window Nat).run ([.ack ⟨0, 1⟩] ++ [.pop, .reject ⟨1, 1⟩])).outcome
      ⟨0, 1⟩ = some .acked :=
  (answers_settle [⟨⟨0, 1⟩, false⟩, ⟨⟨1, 1⟩, false⟩] (by decide)).2.2 _ _ _ _ (by decide)

/-- A frame in flight behind the oldest one is not settled when it is rejected. -/
theorem rejected_behind_oldest : settleRejected [⟨⟨0, 1⟩, false⟩, ⟨⟨0, 2⟩, false⟩] ⟨0, 2⟩ =
        (.error (.rejectedOther ⟨0, 2⟩ ⟨0, 1⟩), [⟨⟨0, 1⟩, false⟩, ⟨⟨0, 2⟩, false⟩]) ∧
      ((⟨[⟨⟨0, 1⟩, false⟩, ⟨⟨0, 2⟩, false⟩], []⟩ : Window Nat).step (.reject ⟨0, 2⟩)).outcome ⟨0, 2⟩ = none := by
  decide

end Logit.Hop
