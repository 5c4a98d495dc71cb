import Logit.Lib.Decoder

namespace ByteCodec.Decoder

variable {ε α β : Type}

/-- A reader that leaves the counter alone, notes nothing, and fails only with errors of a kind. -/
class Quiet (kind : ε → Prop) (read : Decoder ε α) : Prop where
  keeps : ∀ bytes left a rest left', read.run bytes left = .ok (a, rest, left') → left' = left
  silent : ∀ bytes left, read.journal bytes left = []
  failed : ∀ bytes left e, read.run bytes left = .error e → kind e

namespace Quiet

variable {kind : ε → Prop} {read : Decoder ε α}

theorem bind {next : α → Decoder ε β} (first : Quiet kind read) (second : ∀ a, Quiet kind (next a)) :
    Quiet kind (read >>= next) := by
  refine ⟨fun bytes left b rest left' run => ?_, fun bytes left => ?_, fun bytes left e run => ?_⟩
  · obtain ⟨a, middle, left₁, runFirst, runSecond⟩ := bind_eq_ok.mp run
    rw [(second a).keeps _ _ _ _ _ runSecond, first.keeps _ _ _ _ _ runFirst]
  · rw [bind_journal, first.silent, List.nil_append]
    split
    · exact (second _).silent _ _
    · rfl
  · rw [bind_apply] at run
    split at run
    · exact (second _).failed _ _ _ run
    · cases run
      exact first.failed _ _ _ ‹_›

instance {next : α → Decoder ε β} [first : Quiet kind read] [second : ∀ a, Quiet kind (next a)] :
    Quiet kind (read >>= next) :=
  first.bind second

/-- A reader that leaves the counter alone, or fails. -/
theorem of_cases (step : ∀ bytes left, (∃ a rest, read.run bytes left = .ok (a, rest, left)) ∨
    ∃ e, read.run bytes left = .error e ∧ kind e) (silent : read.journal = fun _ _ => [] := by rfl) :
    Quiet kind read := by
  refine ⟨fun bytes left a rest left' run => ?_, fun bytes left => by rw [silent], fun bytes left e run => ?_⟩ <;>
    rcases step bytes left with ⟨_, _, done⟩ | ⟨_, done, holds⟩ <;> rw [done] at run <;> cases run
  · rfl
  · exact holds

instance (a : α) : Quiet kind (pure a : Decoder ε α) := of_cases fun _ _ => .inl ⟨_, _, rfl⟩

instance (f : α → β) [Quiet kind read] : Quiet kind (f <$> read) :=
  inferInstanceAs (Quiet kind (read >>= fun a => pure (f a)))

instance (e : ε) [holds : Fact (kind e)] : Quiet kind (fail e : Decoder ε α) :=
  of_cases fun _ _ => .inr ⟨_, rfl, holds.out⟩

instance {condition : Prop} [Decidable condition] {yes no : Decoder ε α} [Quiet kind yes]
    [Quiet kind no] : Quiet kind (if condition then yes else no) := by
  split <;> infer_instance

instance (valid : Bool) (e : ε) [Fact (kind e)] : Quiet kind (ensure valid e) := by
  unfold ensure
  infer_instance

instance (short : ε) [holds : Fact (kind short)] : Quiet kind (byte short) := by
  refine of_cases fun bytes left => ?_
  cases bytes with
  | nil => exact .inr ⟨_, rfl, holds.out⟩
  | cons b rest => exact .inl ⟨_, _, rfl⟩

instance (len : Nat) (short : Nat → ε) [holds : ∀ n, Fact (kind (short n))] : Quiet kind (carve len short) := by
  refine of_cases fun bytes left => ?_
  by_cases few : bytes.length < len
  · exact .inr ⟨_, if_pos few, (holds _).out⟩
  · exact .inl ⟨_, _, if_neg few⟩

instance : Quiet kind (takeAll : Decoder ε Bytes) := of_cases fun _ _ => .inl ⟨_, _, rfl⟩

instance : Quiet kind (atEnd : Decoder ε Bool) := of_cases fun _ _ => .inl ⟨_, _, rfl⟩

instance (slice : Bytes) [inner : Quiet kind read] : Quiet kind (within slice read) := by
  refine ⟨fun bytes left a rest left' run => ?_, fun _ left => inner.silent slice left,
    fun bytes left e run => ?_⟩ <;>
    simp only [within] at run <;> split at run <;> cases run
  · exact inner.keeps _ _ _ _ _ ‹_›
  · exact inner.failed _ _ _ ‹_›

instance (slice : Bytes) (trailing : Nat → ε) [∀ n, Fact (kind (trailing n))] [Quiet kind read] :
    Quiet kind (inside slice trailing read) := by
  unfold inside
  infer_instance

instance (f : ε → ε) [holds : ∀ e, Fact (kind (f e))] [inner : Quiet kind read] : Quiet kind (mapError f read) := by
  refine ⟨fun bytes left a rest left' run => inner.keeps _ _ _ _ _ (mapError_eq_ok.mp run), inner.silent,
    fun bytes left e run => ?_⟩
  simp only [mapError] at run
  split at run <;> cases run
  exact (holds _).out

end Quiet

end ByteCodec.Decoder
