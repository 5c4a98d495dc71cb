import Mathlib

namespace Escape

open List

variable {α : Type} {mark : α} {special : α → Bool}

/-- Puts the mark before every special element. -/
def escape (mark : α) (special : α → Bool) : List α → List α
  | [] => []
  | a :: text => if special a then mark :: a :: escape mark special text else a :: escape mark special text

theorem escape_special {a : α} (is : special a = true) (text : List α) :
    escape mark special (a :: text) = mark :: a :: escape mark special text := by rw [escape, if_pos is]

theorem escape_plain {a : α} (is : special a = false) (text : List α) :
    escape mark special (a :: text) = a :: escape mark special text := by rw [escape, if_neg (by simp [is])]

theorem escape_eq_self {text : List α} (plain : ∀ a ∈ text, special a = false) :
    escape mark special text = text := by
  induction text with
  | nil => rfl
  | cons a text ih =>
    obtain ⟨first, others⟩ := forall_mem_cons.mp plain
    rw [escape_plain first, ih others]

/-- Text that is not empty begins with the mark or with what is not special. -/
theorem head_escape (free : special mark = false) {text : List α} (some : text ≠ []) :
    ∃ a more, escape mark special text = a :: more ∧ special a = false := by
  cases text with
  | nil => exact absurd rfl some
  | cons a text =>
    cases is : special a
    · exact ⟨a, _, escape_plain is text, is⟩
    · exact ⟨mark, _, escape_special is text, free⟩

variable [DecidableEq α]

/-- Drops a mark before a special element; any other mark stays. -/
def unescape (mark : α) (special : α → Bool) : List α → List α
  | [] => []
  | [a] => [a]
  | a :: b :: text =>
    if a = mark ∧ special b then b :: unescape mark special text
    else a :: unescape mark special (b :: text)

/-- Splits text at its first stop that has no mark right before it. -/
def scanUntil (mark : α) (stop : α → Bool) : α → List α → List α × List α
  | _, [] => ([], [])
  | last, a :: text =>
    if stop a ∧ last ≠ mark then ([], a :: text)
    else (a :: (scanUntil mark stop a text).1, (scanUntil mark stop a text).2)

theorem unescape_marked {b : α} (is : special b = true) (text : List α) :
    unescape mark special (mark :: b :: text) = b :: unescape mark special text := by
      rw [unescape, if_pos ⟨rfl, is⟩]

theorem unescape_cons {a : α} {text : List α} (other : ∀ b, text.head? = some b → ¬(a = mark ∧ special b = true)) :
    unescape mark special (a :: text) = a :: unescape mark special text := by
  cases text with
  | nil => rfl
  | cons b text => rw [unescape, if_neg (other b rfl)]

/-- The reader may know more special elements than the writer, if no mark stands before one of those. -/
theorem unescape_escape {known : α → Bool} (knows : ∀ a, special a = true → known a = true)
    (free : known mark = false) {text : List α}
    (apart : text.IsChain fun a b => ¬(a = mark ∧ known b = true ∧ special b = false)) :
    unescape mark known (escape mark special text) = text := by
  induction text with
  | nil => rfl
  | cons a text ih =>
    have rest := ih apart.tail
    cases is : special a with
    | true => rw [escape_special is, unescape_marked (knows a is), rest]
    | false =>
      rw [escape_plain is, unescape_cons, rest]
      rintro b head ⟨rfl, known_b⟩
      cases text with
      | nil => cases head
      | cons c text =>
        have first := (isChain_cons_cons.mp apart).1
        cases is_c : special c with
        | true =>
          rw [escape_special is_c] at head
          cases head
          rw [free] at known_b
          cases known_b
        | false =>
          rw [escape_plain is_c] at head
          cases head
          exact first ⟨rfl, known_b, is_c⟩

/-- Where the mark is special too, whatever was written is read. -/
theorem unescape_escape_marks (marks : special mark = true) (text : List α) :
    unescape mark special (escape mark special text) = text := by
  induction text with
  | nil => rfl
  | cons a text ih =>
    cases is : special a with
    | true => rw [escape_special is, unescape_marked is, ih]
    | false =>
      rw [escape_plain is, unescape_cons, ih]
      rintro b - ⟨rfl, -⟩
      rw [marks] at is
      cases is

theorem scanUntil_past {stop : α → Bool} {last a : α} (past : ¬(stop a = true ∧ last ≠ mark)) (text : List α) :
    scanUntil mark stop last (a :: text) =
      (a :: (scanUntil mark stop a text).1, (scanUntil mark stop a text).2) := by
  rw [scanUntil, if_neg past]

theorem scanUntil_stop {stop : α → Bool} {last a : α} (stops : stop a = true) (bare : last ≠ mark) (text : List α) :
    scanUntil mark stop last (a :: text) = ([], a :: text) := by rw [scanUntil, if_pos ⟨stops, bare⟩]

/-- The scan stops right after text in which every stop is special. -/
theorem scanUntil_escape {stop : α → Bool} (stops : ∀ a, stop a = true → special a = true)
    (free : stop mark = false) {text : List α} {last : α} {end' : α} {rest : List α} (ends : stop end' = true)
    (bare : (last :: text).getLast? ≠ some mark) :
    scanUntil mark stop last (escape mark special text ++ end' :: rest) =
      (escape mark special text, end' :: rest) := by
  induction text generalizing last with
  | nil =>
    refine scanUntil_stop ends ?_ rest
    rintro rfl
    exact bare rfl
  | cons a text ih =>
    have rest' := @ih a (by rwa [getLast?_cons_cons] at bare)
    cases is : special a with
    | true =>
      have unmarked : ¬(stop mark = true ∧ last ≠ mark) := by simp [free]
      have marked : ¬(stop a = true ∧ mark ≠ mark) := by simp
      rw [escape_special is, cons_append, cons_append, scanUntil_past unmarked, scanUntil_past marked, rest']
    | false =>
      have past : ¬(stop a = true ∧ last ≠ mark) := by
        rintro ⟨stop_a, -⟩
        rw [stops a stop_a] at is
        cases is
      rw [escape_plain is, cons_append, scanUntil_past past, rest']

end Escape
