import Logit.Influx.Encode

namespace Logit.Influx

open ByteCodec Escape List
open Decimal (byte isDigit)

/-- The splitter reads a text from one state to another, whatever follows it. -/
def Passes (s : Split) (text : Bytes) (s' : Split) : Prop :=
  ∀ rest, rest ≠ [] → lineEnd s (text ++ rest) = (text ++ (lineEnd s' rest).1, (lineEnd s' rest).2)

namespace Passes

variable {s s' s'' : Split} {b : UInt8} {text more : Bytes}

theorem nil (s : Split) : Passes s [] s := fun _ _ => rfl

theorem append (first : Passes s text s') (second : Passes s' more s'') : Passes s (text ++ more) s'' := by
  intro rest some
  have inner : more ++ rest ≠ [] := by simp [some]
  rw [append_assoc, first _ inner, second _ some, append_assoc]

theorem step (plain : b ≠ backslash) (steps : s.step b = some s') : Passes s [b] s' := by
  intro rest some
  obtain ⟨c, rest, rfl⟩ := exists_cons_of_ne_nil some
  show lineEnd s (b :: c :: rest) = _
  rw [lineEnd, if_neg (fun escapes => plain escapes.1), steps]
  rfl

theorem pair (s : Split) (b : UInt8) : Passes s [backslash, b] s := by
  intro rest some
  show lineEnd s (backslash :: b :: rest) = _
  rw [lineEnd, if_pos ⟨rfl, some⟩]
  rfl

theorem cons (plain : b ≠ backslash) (steps : s.step b = some s') (rest : Passes s' text s'') :
    Passes s (b :: text) s'' := (step plain steps).append rest

theorem cons_pair (rest : Passes s text s') (b : UInt8) : Passes s (backslash :: b :: text) s' :=
  (pair s b).append rest

theorem still (quiet : ∀ b ∈ text, b ≠ backslash ∧ s.step b = some s) : Passes s text s := by
  induction text with
  | nil => exact nil s
  | cons b text ih =>
    obtain ⟨⟨plain, steps⟩, others⟩ := forall_mem_cons.mp quiet
    exact cons plain steps (ih others)

/-- Text with its special bytes escaped. A special byte after a backslash is read alone, as the two
backslashes before it are a pair. -/
theorem escaped {special : UInt8 → Bool} (free : special backslash = false) :
    ∀ {text : Bytes}, (∀ b ∈ text, special b = false → b ≠ backslash → s.step b = some s) →
      text.IsChain (fun a b => a = backslash → special b = true → s.step b = some s) →
      text.getLast? ≠ some backslash → Passes s (escape backslash special text) s
  | [], _, _, _ => nil s
  | [a], quiet, _, last => by
    have other : a ≠ backslash := by
      rintro rfl
      exact last rfl
    cases is : special a with
    | true =>
      rw [escape_special is]
      exact pair s a
    | false =>
      rw [escape_plain is]
      exact step other (quiet a mem_cons_self is other)
  | a :: b :: text, quiet, apart, last => by
    obtain ⟨here, apart'⟩ := isChain_cons_cons.mp apart
    have quiet' := (forall_mem_cons.mp quiet).2
    cases is : special a with
    | true =>
      rw [escape_special is]
      exact cons_pair (escaped free quiet' apart' last) a
    | false =>
      by_cases mark : a = backslash
      · subst mark
        -- the pair takes `b` along, or the mark before it
        have last' : text.getLast? ≠ some backslash := by
          cases text with
          | nil => simp
          | cons c text => rwa [getLast?_cons_cons] at last
        have rest := escaped free (forall_mem_cons.mp quiet').2 apart'.tail last'
        rw [escape_plain is]
        cases is_b : special b with
        | true =>
          have other : b ≠ backslash := by
            rintro rfl
            rw [free] at is_b
            cases is_b
          rw [escape_special is_b]
          exact cons_pair (cons other (here rfl is_b) rest) backslash
        | false =>
          rw [escape_plain is_b]
          exact cons_pair rest b
      · rw [escape_plain is]
        exact cons mark (quiet a mem_cons_self is mark) (escaped free quiet' apart' last)

theorem escaped_marks {special : UInt8 → Bool} (marks : special backslash = true)
    (quiet : ∀ b ∈ text, special b = false → s.step b = some s) :
    Passes s (escape backslash special text) s := by
  induction text with
  | nil => exact nil s
  | cons a text ih =>
    obtain ⟨first, others⟩ := forall_mem_cons.mp quiet
    cases is : special a with
    | true =>
      rw [escape_special is]
      exact cons_pair (ih others) a
    | false =>
      have other : a ≠ backslash := by
        rintro rfl
        rw [marks] at is
        cases is
      rw [escape_plain is]
      exact cons other (first is) (ih others)

end Passes

variable {b : UInt8} {s : Split}

theorem step_start (notSpace : b ≠ space) (notNewline : b ≠ newline) : Split.start.step b = some Split.start := by
  simp [Split.step, Split.start, notSpace, notNewline]

theorem step_space (s : Split) : s.step space = some { s with fields := true } := by
  have facts : space ≠ equal ∧ space ≠ comma ∧ space ≠ quote ∧ space ≠ newline := by decide
  simp [Split.step, facts.1, facts.2.1, facts.2.2.1, facts.2.2.2]

section

variable (inFields : s.fields = true)
include inFields

theorem step_plain (plain : b ≠ equal ∧ b ≠ comma ∧ b ≠ quote ∧ b ≠ newline) : s.step b = some s := by
  obtain ⟨_, _, _, _⟩ := s
  cases inFields
  simp [Split.step, plain.1, plain.2.1, plain.2.2.1, plain.2.2.2]

theorem step_quoted (inQuotes : s.quoted = true) (plain : b ≠ quote) : s.step b = some s := by
  obtain ⟨_, _, _, _⟩ := s
  cases inFields
  cases inQuotes
  simp [Split.step, plain]

theorem step_equal (bare : s.quoted = false) : s.step equal = some { s with equals := s.equals + 1 } := by
  obtain ⟨_, _, _, _⟩ := s
  cases inFields
  cases bare
  simp [Split.step]

theorem step_comma (bare : s.quoted = false) : s.step comma = some { s with commas := s.commas + 1 } := by
  obtain ⟨_, _, _, _⟩ := s
  cases inFields
  cases bare
  have other : comma ≠ equal := by decide
  simp [Split.step, other]

theorem step_quote (owed : s.commas < s.equals) : s.step quote = some { s with quoted := !s.quoted } := by
  obtain ⟨_, _, _, _⟩ := s
  cases inFields
  have other : quote ≠ equal ∧ quote ≠ comma := by decide
  simp [Split.step, other.1, other.2, owed]

end

theorem step_newline (bare : s.quoted = false) : s.step newline = none := by
  obtain ⟨_, _, _, _⟩ := s
  cases bare
  have other : newline ≠ equal ∧ newline ≠ comma ∧ newline ≠ quote ∧ newline ≠ space := by decide
  simp [Split.step, other.1, other.2.1, other.2.2.1]

theorem lineEnd_newline (bare : s.quoted = false) (rest : Bytes) :
    lineEnd s (newline :: rest) = ([], some rest) := by
  have other : newline ≠ backslash := by decide
  cases rest with
  | nil => rw [lineEnd, step_newline bare]
  | cons c rest => rw [lineEnd, if_neg (fun escapes => other escapes.1), step_newline bare]

end Logit.Influx
