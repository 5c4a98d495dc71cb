import Mathlib

namespace ByteCodec

open List

/-- A byte buffer, front first. -/
abbrev Bytes := List UInt8

/-- What a reader does about memory, in order: it takes from its counter or is refused, and makes
room for the elements of a list, against what it took or ahead of it. -/
inductive Meter
  | charged (bytes : Nat)
  | refused (bytes : Nat)
  | slots (count size : Nat)
  | reserved (count size : Nat)
  deriving DecidableEq, Repr

/-- A reader takes bytes off the front of a buffer and spends from a counter. It returns its value,
the bytes it left and what it left of the counter. Its journal is what the same run does about
memory, up to where the run ends or fails. -/
@[ext] structure Decoder (ε α : Type) where
  run : Bytes → Nat → Except ε (α × Bytes × Nat)
  journal : Bytes → Nat → List Meter := fun _ _ => []

namespace Decoder

variable {ε α β : Type}

instance : Monad (Decoder ε) where
  pure a := { run := fun bytes left => .ok (a, bytes, left) }
  bind read next :=
    { run := fun bytes left =>
        match read.run bytes left with
        | .ok (a, rest, left') => (next a).run rest left'
        | .error e => .error e
      journal := fun bytes left => read.journal bytes left ++
        match read.run bytes left with
        | .ok (a, rest, left') => (next a).journal rest left'
        | .error _ => [] }

def fail (e : ε) : Decoder ε α where
  run _ _ := .error e

/-- A step about memory alone. -/
def note (entry : Meter) : Decoder ε Unit where
  run bytes left := .ok ((), bytes, left)
  journal _ _ := [entry]

def ensure (valid : Bool) (e : ε) : Decoder ε Unit := if valid then pure () else fail e

/-- One byte off the front. -/
def byte (short : ε) : Decoder ε UInt8 where
  run
    | [], _ => .error short
    | b :: rest, left => .ok (b, rest, left)

/-- The first `len` bytes, split off the front. -/
def carve (len : Nat) (short : Nat → ε) : Decoder ε Bytes where
  run bytes left := if bytes.length < len then .error (short bytes.length)
    else .ok (bytes.take len, bytes.drop len, left)

/-- All bytes that are left. -/
def takeAll : Decoder ε Bytes where
  run bytes left := .ok (bytes, [], left)

def atEnd : Decoder ε Bool where
  run bytes left := .ok (bytes.isEmpty, bytes, left)

/-- Runs a reader on a carved slice, and returns what it left of the slice. -/
def within (slice : Bytes) (read : Decoder ε α) : Decoder ε (α × Bytes) where
  run bytes left :=
    match read.run slice left with
    | .ok (a, unread, left') => .ok ((a, unread), bytes, left')
    | .error e => .error e
  journal _ left := read.journal slice left

/-- Runs a reader on a carved slice, whatever it leaves of it. -/
def onSlice (slice : Bytes) (read : Decoder ε α) : Decoder ε α := do
  let result ← within slice read
  pure result.1

/-- Runs a reader on a carved slice that it has to consume whole. -/
def inside (slice : Bytes) (trailing : Nat → ε) (read : Decoder ε α) : Decoder ε α := do
  let (a, unread) ← within slice read
  ensure unread.isEmpty (trailing unread.length)
  pure a

def mapError {δ : Type} (f : ε → δ) (read : Decoder ε α) : Decoder δ α where
  run bytes left :=
    match read.run bytes left with
    | .ok out => .ok out
    | .error e => .error (f e)
  journal := read.journal

/-- Runs a reader `count` times. -/
def times (read : Decoder ε α) : Nat → Decoder ε (List α)
  | 0 => pure []
  | count + 1 => do
    let a ← read
    let others ← times read count
    pure (a :: others)

@[simp] theorem pure_apply (a : α) (bytes : Bytes) (left : Nat) :
    (pure a : Decoder ε α).run bytes left = .ok (a, bytes, left) := rfl

@[simp] theorem note_apply (entry : Meter) (bytes : Bytes) (left : Nat) :
    (note entry : Decoder ε Unit).run bytes left = .ok ((), bytes, left) := rfl

variable (e : ε)

@[simp] theorem fail_apply (bytes : Bytes) (left : Nat) : (fail e : Decoder ε α).run bytes left = .error e := rfl

variable (read : Decoder ε α) (next : α → Decoder ε β)

theorem bind_apply (bytes : Bytes) (left : Nat) :
    (read >>= next).run bytes left = match read.run bytes left with
      | .ok (a, rest, left') => (next a).run rest left'
      | .error e => .error e := rfl

/-- A reader fails or succeeds. -/
theorem run_cases (bytes : Bytes) (left : Nat) : (∃ e, read.run bytes left = .error e) ∨
      ∃ a rest left', read.run bytes left = .ok (a, rest, left') := by
  cases run : read.run bytes left with
  | error e => exact .inl ⟨e, rfl⟩
  | ok out => exact .inr ⟨out.1, out.2.1, out.2.2, rfl⟩

theorem bind_journal (bytes : Bytes) (left : Nat) :
    (read >>= next).journal bytes left = read.journal bytes left ++ match read.run bytes left with
      | .ok (a, rest, left') => (next a).journal rest left'
      | .error _ => [] := rfl

variable {read : Decoder ε α} {left left' : Nat} {a : α} {bytes : Bytes} {left : Nat} {next : α → Decoder ε β}

theorem bind_of_ok {bytes rest : Bytes} (run : read.run bytes left = .ok (a, rest, left'))
    (next : α → Decoder ε β) : (read >>= next).run bytes left = (next a).run rest left' := by rw [bind_apply, run]

/-- Inversion of a sequence of two readers. -/
theorem bind_eq_ok {out : β × Bytes × Nat} : (read >>= next).run bytes left = .ok out ↔
      ∃ a rest left', read.run bytes left = .ok (a, rest, left') ∧ (next a).run rest left' = .ok out := by
  rw [bind_apply]
  constructor
  · intro run
    split at run
    · exact ⟨_, _, _, ‹_›, run⟩
    · cases run
  · rintro ⟨a, rest, left', first, second⟩
    rw [first]
    exact second

theorem bind_assoc {γ : Type} (last : β → Decoder ε γ) :
    (read >>= next) >>= last = read >>= fun a => next a >>= last := by
  ext1 <;> funext bytes left <;> rcases run_cases read bytes left with ⟨e, run⟩ | ⟨a, rest, left', run⟩ <;>
    simp [bind_apply, bind_journal, run]

@[simp] theorem ensure_true : ensure true e = pure () := rfl

@[simp] theorem ensure_false : ensure false e = fail e := rfl

theorem ensure_eq_ok {valid : Bool} {e : ε} {out : Unit × Bytes × Nat} :
    (ensure valid e).run bytes left = .ok out ↔ valid = true ∧ out = ((), bytes, left) := by
  cases valid <;> simp [eq_comm]

theorem byte_cons (short : ε) (b : UInt8) (rest : Bytes) (left : Nat) :
    (byte short).run (b :: rest) left = .ok (b, rest, left) := rfl

theorem atEnd_cons (b : UInt8) (rest : Bytes) (left : Nat) :
    (atEnd : Decoder ε Bool).run (b :: rest) left = .ok (false, b :: rest, left) := rfl

variable (slice : Bytes)

theorem carve_append (rest : Bytes) (short : Nat → ε) (left : Nat) :
    (carve slice.length short).run (slice ++ rest) left = .ok (slice, rest, left) := by simp [carve]

theorem carve_eq_ok {len : Nat} {short : Nat → ε} {bytes slice rest : Bytes} :
    (carve len short).run bytes left = .ok (slice, rest, left') ↔
      bytes = slice ++ rest ∧ slice.length = len ∧ left' = left := by
  simp only [carve]
  constructor
  · intro run
    split at run
    · cases run
    · cases run
      exact ⟨(take_append_drop len bytes).symm, by simp; omega, rfl⟩
  · rintro ⟨rfl, rfl, rfl⟩
    simp

theorem within_of_ok {slice unread : Bytes} (run : read.run slice left = .ok (a, unread, left')) (bytes : Bytes) :
    (within slice read).run bytes left = .ok ((a, unread), bytes, left') := by simp [within, run]

theorem inside_of_ok {slice : Bytes} (run : read.run slice left = .ok (a, [], left')) (trailing : Nat → ε)
    (bytes : Bytes) : (inside slice trailing read).run bytes left = .ok (a, bytes, left') := by
  unfold inside
  rw [bind_of_ok (within_of_ok run bytes)]
  rfl

theorem onSlice_of_ok {slice rest : Bytes} (run : read.run slice left = .ok (a, rest, left')) (bytes : Bytes) :
    (onSlice slice read).run bytes left = .ok (a, bytes, left') := by
  unfold onSlice
  rw [bind_of_ok (within_of_ok run bytes)]
  rfl

theorem length_of_times {n : Nat} {bytes rest : Bytes} {items : List α}
    (run : (times read n).run bytes left = .ok (items, rest, left')) : items.length = n := by
  induction n generalizing bytes left items with
  | zero =>
    cases run
    rfl
  | succ n ih =>
    obtain ⟨a, bytes₁, left₁, _, others⟩ := bind_eq_ok.mp run
    obtain ⟨items', bytes₂, left₂, run', last⟩ := bind_eq_ok.mp others
    cases last
    rw [length_cons, ih run']

theorem mapError_eq_ok {δ : Type} {f : ε → δ} {out : α × Bytes × Nat} :
    (mapError f read).run bytes left = .ok out ↔ read.run bytes left = .ok out := by
  simp only [mapError]
  cases read.run bytes left <;> simp

/-- A reader that succeeds on a buffer succeeds alike on any longer one, and leaves what it was
longer by. -/
class Extends (read : Decoder ε α) : Prop where
  longer : ∀ bytes left a rest left', read.run bytes left = .ok (a, rest, left') →
    ∀ more, read.run (bytes ++ more) left = .ok (a, rest ++ more, left')

namespace Extends

theorem bind (first : Extends read) (second : ∀ a, Extends (next a)) : Extends (read >>= next) := by
  refine ⟨fun bytes left b rest left' run more => ?_⟩
  obtain ⟨a, middle, left₁, runFirst, runSecond⟩ := bind_eq_ok.mp run
  rw [bind_of_ok (first.longer _ _ _ _ _ runFirst more)]
  exact (second a).longer _ _ _ _ _ runSecond more

instance [first : Extends read] [second : ∀ a, Extends (next a)] : Extends (read >>= next) := first.bind second

instance (a : α) : Extends (pure a : Decoder ε α) := ⟨by rintro _ _ _ _ _ ⟨⟩ _; rfl⟩

instance : Extends (fail e : Decoder ε α) := ⟨by rintro _ _ _ _ _ ⟨⟩⟩

instance (f : α → β) [Extends read] : Extends (f <$> read) :=
  inferInstanceAs (Extends (read >>= fun a => pure (f a)))

instance {condition : Prop} [Decidable condition] {yes no : Decoder ε α} [Extends yes] [Extends no] :
    Extends (if condition then yes else no) := by
  split <;> infer_instance

instance (valid : Bool) (e : ε) : Extends (ensure valid e) := by unfold ensure; infer_instance

instance (entry : Meter) : Extends (note entry : Decoder ε Unit) := ⟨by rintro _ _ _ _ _ ⟨⟩ _; rfl⟩

instance (short : ε) : Extends (byte short) := by
  refine ⟨fun bytes left a rest left' run more => ?_⟩
  cases bytes with
  | nil => cases run
  | cons b others => cases run; rfl

instance (len : Nat) (short : Nat → ε) : Extends (carve len short) := by
  refine ⟨fun bytes left slice rest left' run more => ?_⟩
  obtain ⟨rfl, rfl, rfl⟩ := carve_eq_ok.mp run
  exact carve_eq_ok.mpr ⟨List.append_assoc _ _ _, rfl, rfl⟩

/-- A carved slice is read alike whatever follows it, so its reader may be any. -/
instance (read : Decoder ε α) : Extends (within slice read) := by
  refine ⟨fun bytes left a rest left' run more => ?_⟩
  simp only [within] at run ⊢
  split at run
  · cases run
    simp only [*]
  · cases run

instance (read : Decoder ε α) : Extends (onSlice slice read) := by unfold onSlice; infer_instance

instance {δ : Type} (f : ε → δ) [inner : Extends read] : Extends (mapError f read) :=
  ⟨fun _ _ _ _ _ run more => mapError_eq_ok.mpr (inner.longer _ _ _ _ _ (mapError_eq_ok.mp run) more)⟩

instance [each : Extends read] (count : Nat) : Extends (times read count) := by
  induction count with
  | zero => exact inferInstanceAs (Extends (pure []))
  | succ count ih => exact each.bind fun _ => ih.bind fun _ => inferInstance

end Extends

/-- A reader that takes nothing off the buffer. -/
class Untouched (read : Decoder ε α) : Prop where
  whole : ∀ bytes left a rest left', read.run bytes left = .ok (a, rest, left') → rest = bytes

namespace Untouched

instance (a : α) : Untouched (pure a : Decoder ε α) := ⟨by rintro _ _ _ _ _ ⟨⟩; rfl⟩

instance : Untouched (fail e : Decoder ε α) := ⟨by rintro _ _ _ _ _ ⟨⟩⟩

instance (entry : Meter) : Untouched (note entry : Decoder ε Unit) := ⟨by rintro _ _ _ _ _ ⟨⟩; rfl⟩

instance (valid : Bool) (e : ε) : Untouched (ensure valid e) := by
  cases valid with
  | false => exact inferInstanceAs (Untouched (fail e))
  | true => exact inferInstanceAs (Untouched (pure ()))

instance bind [first : Untouched read] [second : ∀ a, Untouched (next a)] : Untouched (read >>= next) := by
  refine ⟨fun bytes left b rest left' run => ?_⟩
  obtain ⟨a, middle, left₁, runFirst, runSecond⟩ := bind_eq_ok.mp run
  rw [(second a).whole _ _ _ _ _ runSecond, first.whole _ _ _ _ _ runFirst]

instance (f : α → β) [Untouched read] : Untouched (f <$> read) :=
  inferInstanceAs (Untouched (read >>= fun a => pure (f a)))

instance (read : Decoder ε α) : Untouched (within slice read) := by
  refine ⟨fun bytes left a rest left' run => ?_⟩
  simp only [within] at run
  split at run
  · cases run
    rfl
  · cases run

instance (read : Decoder ε α) : Untouched (onSlice slice read) := by unfold onSlice; infer_instance

end Untouched

/-- When a reader accepts a buffer that starts with `part`, it takes exactly that part. -/
def Delimits (part : Bytes) (read : Decoder ε α) : Prop :=
  ∀ rest left a rest' left', read.run (part ++ rest) left = .ok (a, rest', left') → rest' = rest

/-- As `Delimits`, and the value read is `a`. -/
def Determines (part : Bytes) (read : Decoder ε α) (a : α) : Prop :=
  ∀ rest left b rest' left', read.run (part ++ rest) left = .ok (b, rest', left') → b = a ∧ rest' = rest

theorem Untouched.delimits [inner : Untouched read] : Delimits [] read := inner.whole

variable {part : Bytes}

theorem Determines.bind {part other : Bytes} (first : Determines part read a) (second : Delimits other (next a)) :
    Delimits (part ++ other) (read >>= next) := by
  intro rest left b rest' left' run
  obtain ⟨a', middle, left₁, runFirst, runSecond⟩ := bind_eq_ok.mp run
  rw [append_assoc] at runFirst
  obtain ⟨rfl, rfl⟩ := first _ _ _ _ _ runFirst
  exact second _ _ _ _ _ runSecond

theorem Delimits.bind {part other : Bytes} (first : Delimits part read) (second : ∀ a, Delimits other (next a)) :
    Delimits (part ++ other) (read >>= next) := by
  intro rest left b rest' left' run
  obtain ⟨a, middle, left₁, runFirst, runSecond⟩ := bind_eq_ok.mp run
  rw [append_assoc] at runFirst
  obtain rfl := first _ _ _ _ _ runFirst
  exact second a _ _ _ _ _ runSecond

theorem Delimits.andThen (first : Delimits part read) [∀ a, Untouched (next a)] :
    Delimits part (read >>= next) := by
  have nothing (a : α) : Delimits [] (next a) := Untouched.delimits
  have both := first.bind nothing
  rwa [append_nil] at both

/-- A reader that takes nothing, and what follows it. -/
theorem Delimits.after [Untouched read] (second : ∀ a, Delimits part (next a)) : Delimits part (read >>= next) :=
  Untouched.delimits.bind second

theorem carve_delimits (short : Nat → ε) : Delimits slice (carve slice.length short) := by
  intro rest left a rest' left' run
  rw [carve_append] at run
  cases run
  rfl

end Decoder

end ByteCodec
