import Logit.Core.Value
import Logit.Lib.Decimal

namespace Logit

open ByteCodec List String

def utf8Bytes (s : String) : Bytes := s.toByteArray.data.toList

def fromUtf8 (b : Bytes) : Option String := fromUTF8? ⟨b.toArray⟩

theorem fromUtf8_utf8Bytes (s : String) : fromUtf8 (utf8Bytes s) = some s := by
  exact dif_pos s.isValidUTF8

theorem utf8Bytes_of_fromUtf8 {raw : Bytes} {text : String} (read : fromUtf8 raw = some text) :
    utf8Bytes text = raw := by
  simp only [fromUtf8, fromUTF8?] at read
  split at read
  · cases read
    simp [utf8Bytes, fromUTF8]
  · cases read

theorem utf8Bytes_ofList (text : List Char) :
    utf8Bytes (ofList text) = text.flatMap utf8EncodeChar := by
  simp [utf8Bytes, utf8Encode]

theorem utf8Bytes_eq (s : String) : utf8Bytes s = s.toList.flatMap utf8EncodeChar := by
  rw [← utf8Bytes_ofList, ofList_toList]

def decimal (n : Nat) : String := ofList (Nat.toDigits 10 n)

theorem utf8Bytes_digits {text : List Char} (digits : ∀ c ∈ text, c.isDigit = true) :
    utf8Bytes (ofList text) = text.map Decimal.byte := by
  rw [utf8Bytes_ofList]
  induction text with
  | nil => rfl
  | cons c text ih =>
    obtain ⟨first, others⟩ := forall_mem_cons.mp digits
    have ascii := (Decimal.byte_toNat first).2
    have single : c.utf8Size = 1 := by
      rw [Char.utf8Size_eq_one_iff]
      show c.toNat ≤ 127
      omega
    rw [flatMap_cons, ih others, utf8EncodeChar_eq_singleton single]
    rfl

theorem utf8Bytes_decimal (n : Nat) : utf8Bytes (decimal n) = Decimal.print n :=
  utf8Bytes_digits fun _ mem => Nat.isDigit_of_mem_toDigits (by omega) (by omega) mem

end Logit
