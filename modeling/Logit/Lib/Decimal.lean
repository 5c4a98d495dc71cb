import Mathlib

namespace Decimal

open Nat List Bool

/-- The byte of an ASCII character. -/
def byte (c : Char) : UInt8 := c.toNat.toUInt8

def isDigit (b : UInt8) : Bool := byte '0' ≤ b && b ≤ byte '9'

def print (n : Nat) : List UInt8 := (Nat.toDigits 10 n).map byte

/-- The number that digits spell. -/
def value (digits : List UInt8) : Nat := digits.foldl (fun n b => 10 * n + (b.toNat - 48)) 0

def printInt (z : Int) : List UInt8 := if z < 0 then byte '-' :: print z.natAbs else print z.natAbs

/-- Text without its leading minus sign. -/
def unsigned : List UInt8 → List UInt8
  | [] => []
  | b :: text => if b = byte '-' then text else b :: text

/-- The number that digits spell, after a minus sign or without one. -/
def valueInt (text : List UInt8) : Int :=
  if text.head? = some (byte '-') then -(value (unsigned text)) else value (unsigned text)

variable (n : Nat)

theorem print_ne_nil : print n ≠ [] := by
  rw [print, ne_eq, map_eq_nil_iff]
  exact toDigits_ne_nil

theorem byte_toNat {c : Char} (digit : c.isDigit = true) :
    (byte c).toNat = c.toNat ∧ 48 ≤ c.toNat ∧ c.toNat ≤ 57 := by
  simp only [Char.isDigit, and_eq_true, decide_eq_true_eq] at digit
  obtain ⟨low, high⟩ := digit
  have low' := low
  have high' : c.toNat ≤ 57 := high
  refine ⟨?_, low', high'⟩
  rw [byte, UInt8.toNat_ofNat']
  omega

theorem isDigit_byte {c : Char} (digit : c.isDigit = true) : isDigit (byte c) = true := by
  obtain ⟨same, low, high⟩ := byte_toNat digit
  simp only [isDigit, and_eq_true, decide_eq_true_eq, UInt8.le_iff_toNat_le, same]
  exact ⟨low, high⟩

theorem isDigit_of_mem_print {n : Nat} {b : UInt8} (mem : b ∈ print n) : isDigit b = true := by
  obtain ⟨c, inside, rfl⟩ := mem_map.mp mem
  exact isDigit_byte (isDigit_of_mem_toDigits (by omega) (by omega) inside)

theorem value_map_byte (text : List Char) (digits : ∀ c ∈ text, c.isDigit = true) (n : Nat) :
    (text.map byte).foldl (fun n b => 10 * n + (b.toNat - 48)) n = ofDigitChars 10 text n := by
  induction text generalizing n with
  | nil => rfl
  | cons c text ih =>
    obtain ⟨first, others⟩ := forall_mem_cons.mp digits
    rw [map_cons, foldl_cons, ih others, (byte_toNat first).1]
    rfl

theorem value_print : value (print n) = n := by
  rw [value, print, value_map_byte _ fun c mem => isDigit_of_mem_toDigits (by omega) (by omega) mem,
    ofDigitChars_toDigits (by omega) (by omega)]

theorem head?_print_ne : (print n).head? ≠ some (byte '-') := by
  intro head
  have digit := isDigit_of_mem_print (mem_of_mem_head? head)
  cases digit

theorem unsigned_print : unsigned (print n) = print n := by
  cases shape : print n with
  | nil => rfl
  | cons b text =>
    have other : b ≠ byte '-' := by
      intro same
      exact head?_print_ne n (by rw [shape, same]; rfl)
    rw [unsigned, if_neg other]

theorem unsigned_printInt (z : Int) : unsigned (printInt z) = print z.natAbs := by
  rw [printInt]
  split
  · rw [unsigned, if_pos rfl]
  · exact unsigned_print _

theorem valueInt_printInt (z : Int) : valueInt (printInt z) = z := by
  rw [valueInt, unsigned_printInt, value_print, printInt]
  by_cases negative : z < 0
  · rw [if_pos negative, if_pos head?_cons]
    omega
  · rw [if_neg negative, if_neg (head?_print_ne _)]
    omega

end Decimal
