import Logit.Lib.Quiet

namespace ByteCodec

open List

/-- What a journal's charges add up to. -/
def spent : List Meter → Nat
  | [] => 0
  | .charged bytes :: others => bytes + spent others
  | .refused _ :: others => spent others
  | .slots _ _ :: others => spent others
  | .reserved _ _ :: others => spent others

theorem spent_append (a b : List Meter) : spent (a ++ b) = spent a + spent b := by
  induction a with
  | nil => simp [spent]
  | cons entry others ih => cases entry <;> simp [cons_append, spent, ih, Nat.add_assoc]

/-- Every list's slots come directly after a charge that covers them, where `credit` is the charge
directly before the journal, if there is one. -/
def Paid (price : Nat → Nat → Nat) : Option Nat → List Meter → Prop
  | _, [] => True
  | credit, .slots count size :: others => (∃ bytes ∈ credit, price count size ≤ bytes) ∧ Paid price none others
  | _, .charged bytes :: others => Paid price (some bytes) others
  | _, .refused _ :: others => Paid price none others
  | _, .reserved _ _ :: others => Paid price none others

variable {ε α β : Type}

/-- What a list of so many elements of a size has to be charged, what room may be made ahead of any
charge, the error of a charge that does not fit, and the kind of the errors. -/
structure Tariff (ε : Type) where
  price : Nat → Nat → Nat
  ahead : Nat → Nat → Prop
  exceeded : ε
  kind : ε → Prop

/-- The journals of runs that start with so much to spend and end with so much left, or with an
error: each charge fits, a charge that does not ends the run, a list's slots come directly after a
charge that covers them, and only some room is made ahead of any charge. -/
inductive Settles (T : Tariff ε) : Option Nat → Nat → List Meter → Except ε Nat → Prop
  | done {credit left} : Settles T credit left [] (.ok left)
  | failed {credit left e} : T.kind e → Settles T credit left [] (.error e)
  | refused {credit left bytes} : left < bytes →
      Settles T credit left [.refused bytes] (.error T.exceeded)
  | charged {credit left bytes journal outcome} :
      Settles T (some bytes) left journal outcome →
      Settles T credit (left + bytes) (.charged bytes :: journal) outcome
  | slots {left bytes count size journal outcome} : T.price count size ≤ bytes →
      Settles T none left journal outcome →
      Settles T (some bytes) left (.slots count size :: journal) outcome
  | reserved {credit left count size journal outcome} : T.ahead count size →
      Settles T none left journal outcome →
      Settles T credit left (.reserved count size :: journal) outcome

variable {T : Tariff ε} {credit : Option Nat}

namespace Settles

variable {left : Nat} {journal : List Meter} {outcome : Except ε Nat}

/-- What settles without a charge before it settles after any. -/
theorem credited (settles : Settles T none left journal outcome) : Settles T credit left journal outcome := by
  cases settles with
  | done => exact .done
  | failed holds => exact .failed holds
  | refused above => exact .refused above
  | charged later => exact .charged later
  | reserved allowed later => exact .reserved allowed later

theorem append {left' : Nat} {later : List Meter} {first : Except ε Nat}
    (settles : Settles T credit left journal first) (done : first = .ok left')
    (rest : Settles T none left' later outcome) : Settles T credit left (journal ++ later) outcome := by
  induction settles with
  | done => cases done; exact rest.credited
  | failed => cases done
  | refused => cases done
  | charged _ ih => exact .charged (ih done)
  | slots covered _ ih => exact .slots covered (ih done)
  | reserved allowed _ ih => exact .reserved allowed (ih done)

variable (settles : Settles T credit left journal outcome)
include settles

theorem spends {left' : Nat} (done : outcome = .ok left') : spent journal + left' = left := by
  induction settles with
  | done => cases done; simp [spent]
  | failed => cases done
  | refused => cases done
  | charged _ ih =>
    have rest := ih done
    simp only [spent]
    omega
  | slots _ _ ih => exact ih done
  | reserved _ _ ih => exact ih done

/-- Whatever part of a run is over, its charges did not pass what there was to spend. -/
theorem spent_le {before after : List Meter} (split : journal = before ++ after) : spent before ≤ left := by
  have whole : spent journal ≤ left := by
    clear split
    induction settles with
    | done | failed | refused => exact Nat.zero_le _
    | charged _ ih => simp only [spent]; omega
    | slots _ _ ih => exact ih
    | reserved _ _ ih => exact ih
  rw [split, spent_append] at whole
  omega

theorem paid : Paid T.price credit journal := by
  induction settles with
  | done | failed | refused => trivial
  | charged _ ih => exact ih
  | slots covered _ ih => exact ⟨⟨_, rfl, covered⟩, ih⟩
  | reserved _ _ ih => exact ih

theorem reserves {count size : Nat} (mem : .reserved count size ∈ journal) : T.ahead count size := by
  induction settles with
  | done | failed => cases mem
  | refused => simp at mem
  | charged _ ih => exact ih (by simpa using mem)
  | slots _ _ ih => exact ih (by simpa using mem)
  | reserved allowed _ ih =>
    rcases mem_cons.mp mem with same | later
    · cases same
      exact allowed
    · exact ih later

theorem refuses {amount : Nat} (mem : .refused amount ∈ journal) :
    left < spent journal + amount ∧ outcome = .error T.exceeded := by
  induction settles with
  | done | failed => cases mem
  | refused above =>
    cases mem_singleton.mp mem
    exact ⟨by simpa [spent] using above, rfl⟩
  | charged _ ih =>
    obtain ⟨above, failed⟩ := ih (by simpa using mem)
    exact ⟨by simp only [spent]; omega, failed⟩
  | slots _ _ ih => exact ih (by simpa using mem)
  | reserved _ _ ih => exact ih (by simpa using mem)

theorem fails {e : ε} (fatal : T.kind T.exceeded) (failed : outcome = .error e) : T.kind e := by
  induction settles with
  | done => cases failed
  | failed holds => cases failed; exact holds
  | refused => cases failed; exact fatal
  | charged _ ih => exact ih failed
  | slots _ _ ih => exact ih failed
  | reserved _ _ ih => exact ih failed

end Settles

namespace Decoder

/-- A reader that spends nothing. -/
class Frugal (read : Decoder ε α) : Prop where
  keeps : ∀ bytes left a rest left', read.run bytes left = .ok (a, rest, left') → left' = left

instance (valid : Bool) (e : ε) : Frugal (ensure valid e) :=
  ⟨fun _ _ _ _ _ run => congrArg (·.2.2) (ensure_eq_ok.mp run).2⟩

/-- What a run leaves of the counter, or its error. -/
def outcome (read : Decoder ε α) (bytes : Bytes) (left : Nat) : Except ε Nat :=
  (read.run bytes left).map fun out => out.2.2

theorem outcome_of_ok {read : Decoder ε α} {bytes rest : Bytes} {left left' : Nat} {a : α}
    (run : read.run bytes left = .ok (a, rest, left')) : read.outcome bytes left = .ok left' := by
  rw [outcome, run]
  rfl

theorem outcome_eq_error {read : Decoder ε α} {bytes : Bytes} {left : Nat} {e : ε} :
    read.outcome bytes left = .error e ↔ read.run bytes left = .error e := by
  rw [outcome]
  cases read.run bytes left <;> simp [Except.map]

variable (T credit) in
/-- A reader all of whose journals settle. -/
class Accounted (read : Decoder ε α) : Prop where
  settles : ∀ bytes left,
    Settles T credit left (read.journal bytes left) (read.outcome bytes left)

namespace Accounted

variable {read : Decoder ε α} {next : α → Decoder ε β}

/-- Two readers in a row: after the first's own journal, the second starts with what the first left,
and with its last charge if that is directly before it. -/
theorem bind {later : Option Nat} (first : Accounted T credit read) (second : ∀ a, Accounted T later (next a))
    (joins : ∀ bytes left a rest left', read.run bytes left = .ok (a, rest, left') → ∀ journal outcome,
      Settles T later left' journal outcome →
      Settles T credit left (read.journal bytes left ++ journal) outcome) :
    Accounted T credit (read >>= next) := by
  refine ⟨fun bytes left => ?_⟩
  rcases run_cases read bytes left with ⟨e, run⟩ | ⟨a, rest, left', run⟩
  · have settles := first.settles bytes left
    simp only [bind_journal, outcome, bind_apply, run, append_nil] at settles ⊢
    exact settles
  · have settles := joins _ _ _ _ _ run _ _ ((second a).settles rest left')
    simpa only [bind_journal, outcome, bind_apply, run] using settles

instance [first : Accounted T credit read] [second : ∀ a, Accounted T none (next a)] :
    Accounted T credit (read >>= next) :=
  first.bind second fun bytes left _ _ _ run _ _ settles =>
    (first.settles bytes left).append (outcome_of_ok run) settles

/-- A charge, and what may start with the slots it covers. -/
theorem funding {bytes : Nat} (first : Accounted T credit read) (second : ∀ a, Accounted T (some bytes) (next a))
    (charges : ∀ input left a rest left', read.run input left = .ok (a, rest, left') →
      left = left' + bytes ∧ read.journal input left = [.charged bytes]) :
    Accounted T credit (read >>= next) := by
  refine first.bind second fun input left a rest left' run journal outcome settles => ?_
  obtain ⟨rfl, noted⟩ := charges _ _ _ _ _ run
  rw [noted]
  exact .charged settles

instance (priority := low) [quiet : Quiet T.kind read] : Accounted T credit read := by
  refine ⟨fun bytes left => ?_⟩
  rw [quiet.silent]
  rcases run_cases read bytes left with ⟨e, run⟩ | ⟨a, rest, left', run⟩
  · rw [outcome_eq_error.mpr run]
    exact .failed (quiet.failed _ _ _ run)
  · rw [outcome_of_ok run, quiet.keeps _ _ _ _ _ run]
    exact .done

instance (f : α → β) [Accounted T credit read] :
    Accounted T credit (f <$> read) :=
  inferInstanceAs (Accounted T credit (read >>= fun a => pure (f a)))

instance {condition : Prop} [Decidable condition] {yes no : Decoder ε α}
    [Accounted T credit yes] [Accounted T credit no] :
    Accounted T credit (if condition then yes else no) := by
  split <;> infer_instance

instance (slice : Bytes) [inner : Accounted T credit read] :
    Accounted T credit (within slice read) := by
  refine ⟨fun bytes left => ?_⟩
  have settles := inner.settles slice left
  rcases run_cases read slice left with ⟨e, run⟩ | ⟨a, rest, left', run⟩ <;>
    simpa only [outcome, within, run, Except.map] using settles

instance (slice : Bytes) [Accounted T credit read] :
    Accounted T credit (onSlice slice read) := by
  unfold onSlice
  infer_instance

instance (slice : Bytes) (trailing : Nat → ε) [∀ n, Fact (T.kind (trailing n))] [Accounted T credit read] :
    Accounted T credit (inside slice trailing read) := by
  unfold inside
  infer_instance

instance [inner : Accounted T none read] (count : Nat) : Accounted T none (times read count) := by
  induction count with
  | zero => exact inferInstanceAs (Accounted T none (pure []))
  | succ count ih => unfold times; infer_instance

/-- Room for a list's elements, directly after a charge that covers them. -/
instance {bytes count size : Nat} [covered : Fact (T.price count size ≤ bytes)] :
    Accounted T (some bytes) (note (.slots count size) : Decoder ε Unit) :=
  ⟨fun _ _ => .slots covered.out .done⟩

/-- Room made ahead of any charge. -/
instance {count size : Nat} [allowed : Fact (T.ahead count size)] :
    Accounted T credit (note (.reserved count size) : Decoder ε Unit) :=
  ⟨fun _ _ => .reserved allowed.out .done⟩

end Accounted

end Decoder

end ByteCodec
