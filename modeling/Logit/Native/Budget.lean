import Logit.Lib.Endian
import Logit.Native.Varint
import Logit.Core.Event
import Logit.Core.Text

namespace Logit.Native

open ByteCodec

variable {X : Externals}

def u64Max : Nat := 2 ^ 64 - 1

/-- Symbols in the order of their indices. -/
abbrev Symbols (X : Externals) := List X.Symbol

/-- The decode-side dictionary. It carries the limit of the payload's budget, of which what remains
is the counter every reader spends from. -/
structure Dict (X : Externals) where
  symbols : Symbols X
  limit : Nat

variable (limit : Nat)

/-- Takes bytes from the budget, or fails naming its limit. -/
def charge (bytes : Nat) : Read Unit where
  run input remaining :=
    if bytes > remaining then .error (.budgetExceeded limit) else .ok ((), input, remaining - bytes)
  journal _ remaining := if bytes > remaining then [.refused bytes] else [.charged bytes]

/-- Charges `count` elements of `size` bytes, after checking the count against the bytes left at
`minWire` bytes an element. -/
def chargeList (what : String) (count minWire size : Nat) : Read Unit where
  run input remaining := if count > input.length / minWire then
      .error (.malformed
        s!"{what} declares {count} entries but only {input.length} bytes remain")
    else (charge limit (min (count * size) u64Max)).run input remaining
  journal input remaining := if count > input.length / minWire then []
    else (charge limit (min (count * size) u64Max)).journal input remaining

/-- A count, charged for before anything of the list is read, then that many elements. Room for the
first 4096 is made at once and for the others as they come, all of it after the charge. -/
def readCounted {α : Type} (what : String) (minWire size : Nat) (read : Read α) : Read (List α) := do
  let count ← readUvarint
  chargeList limit what count minWire size
  .note (.slots count size)
  .times read count

theorem charge_of_le {limit bytes remaining : Nat} (enough : bytes ≤ remaining) (input : Bytes) :
    (charge limit bytes).run input remaining = .ok ((), input, remaining - bytes) := by
  simp only [charge]
  rw [if_neg (by omega)]

theorem chargeList_of_le {limit count minWire size remaining : Nat} {what : String} {input : Bytes}
    (wire : 0 < minWire) (held : count * minWire ≤ input.length) (enough : count * size ≤ remaining)
    (bounded : remaining ≤ u64Max) :
    (chargeList limit what count minWire size).run input remaining = .ok ((), input, remaining - count * size) := by
  have counted := (Nat.le_div_iff_mul_le wire).mpr held
  have exact : min (count * size) u64Max = count * size := by omega
  simp only [chargeList]
  rw [if_neg (by omega), exact, charge_of_le enough]

instance (bytes : Nat) : Decoder.Extends (charge limit bytes) := by
  refine ⟨fun input remaining u rest remaining' run more => ?_⟩
  simp only [charge] at run ⊢
  split at run
  · cases run
  · rename_i enough
    cases run
    rw [if_neg enough]

instance (what : String) (count minWire size : Nat) :
    Decoder.Extends (chargeList limit what count minWire size) := by
  refine ⟨fun input remaining u rest remaining' run more => ?_⟩
  simp only [chargeList] at run ⊢
  split at run
  · cases run
  · rename_i held
    have longer : input.length / minWire ≤ (input ++ more).length / minWire := Nat.div_le_div_right (by simp)
    rw [if_neg (by omega)]
    exact Decoder.Extends.longer _ _ _ _ _ run more

def u32Bytes (v : UInt32) : Bytes := toLeBytes 4 v.toNat

def u64Bytes (v : UInt64) : Bytes := toLeBytes 8 v.toNat

def i64Bytes (v : Int64) : Bytes := u64Bytes v.toUInt64

def f64Bytes (v : F64) : Bytes := u64Bytes v.bits

def u32FromBytes (b : Bytes) : UInt32 := UInt32.ofNat (fromLeBytes b)

def u64FromBytes (b : Bytes) : UInt64 := UInt64.ofNat (fromLeBytes b)

def i64FromBytes (b : Bytes) : Int64 := (u64FromBytes b).toInt64

def f64FromBytes (b : Bytes) : F64 := ⟨u64FromBytes b⟩

@[simp] theorem u32FromBytes_u32Bytes (v : UInt32) : u32FromBytes (u32Bytes v) = v := by
  rw [u32FromBytes, u32Bytes, fromLeBytes_toLeBytes v.toNat_lt, UInt32.ofNat_toNat]

@[simp] theorem u64FromBytes_u64Bytes (v : UInt64) : u64FromBytes (u64Bytes v) = v := by
  rw [u64FromBytes, u64Bytes, fromLeBytes_toLeBytes v.toNat_lt, UInt64.ofNat_toNat]

@[simp] theorem i64FromBytes_i64Bytes (v : Int64) : i64FromBytes (i64Bytes v) = v := by
  rw [i64FromBytes, i64Bytes, u64FromBytes_u64Bytes]
  rfl

@[simp] theorem f64FromBytes_f64Bytes (v : F64) : f64FromBytes (f64Bytes v) = v := by
  rw [f64FromBytes, f64Bytes, u64FromBytes_u64Bytes]

@[simp] theorem length_u32Bytes (v : UInt32) : (u32Bytes v).length = 4 := length_toLeBytes 4 _

@[simp] theorem length_u64Bytes (v : UInt64) : (u64Bytes v).length = 8 := length_toLeBytes 8 _

@[simp] theorem length_i64Bytes (v : Int64) : (i64Bytes v).length = 8 := length_toLeBytes 8 _

@[simp] theorem length_f64Bytes (v : F64) : (f64Bytes v).length = 8 := length_toLeBytes 8 _

end Logit.Native
