import Logit.Lib.Decoder

namespace ByteCodec

/-- Little-endian bytes of a fixed number. -/
def toLeBytes : Nat → Nat → Bytes
  | 0, _ => []
  | count + 1, v => UInt8.ofNat (v % 256) :: toLeBytes count (v / 256)

def fromLeBytes : Bytes → Nat
  | [] => 0
  | b :: others => b.toNat + 256 * fromLeBytes others

@[simp] theorem length_toLeBytes (count v : Nat) : (toLeBytes count v).length = count := by
  induction count generalizing v with
  | zero => rfl
  | succ count ih => simp [toLeBytes, ih]

theorem fromLeBytes_toLeBytes {count v : Nat} (fits : v < 256 ^ count) : fromLeBytes (toLeBytes count v) = v := by
  induction count generalizing v with
  | zero =>
    have none : v = 0 := by simpa using fits
    rw [none]
    rfl
  | succ count ih =>
    have high := Nat.div_lt_of_lt_mul (by rwa [Nat.pow_succ'] at fits)
    have low : (UInt8.ofNat (v % 256)).toNat = v % 256 := UInt8.toNat_ofNat_of_lt' (Nat.mod_lt _ (by decide))
    rw [toLeBytes, fromLeBytes, ih high]
    omega

end ByteCodec
