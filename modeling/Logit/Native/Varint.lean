import Logit.Lib.Writer

namespace Logit

open ByteCodec List Nat Decoder

/-- Why a payload is refused. -/
inductive CodecError
  | malformed (what : String)
  | unsupported (what : String)
  | truncated (needed : Nat)
  | budgetExceeded (limit : Nat)
deriving DecidableEq

/-- What a fallible call of the codec returns. -/
abbrev Result := Except CodecError

namespace Native

/-- A reader of a payload, which draws on its budget. -/
abbrev Read := Decoder CodecError

/-- Writes an unsigned LEB128 varint: seven payload bits a byte, the high bit set on every byte but
the last. Lengths and counts of the model are unbounded naturals; the code's fit 64 bits. -/
def writeUvarint (v : Nat) : Bytes :=
  if v / 128 ≠ 0 then UInt8.ofNat (v % 128 + 128) :: writeUvarint (v / 128)
  else [UInt8.ofNat (v % 128)]
termination_by v

/-- How many bytes `writeUvarint` writes: the value's bits, in groups of seven. -/
def uvarintLen (v : Nat) : Nat := (Nat.log2 (v ||| 1) + 1 + 6) / 7

variable (byte : UInt8)

def tenthByteOverflows : CodecError :=
  let hex : String := .ofList [digitChar (byte.toNat / 16), digitChar (byte.toNat % 16)]
  .malformed s!"varint's 10th byte 0x{hex} overflows a u64 (only bit 63 is left)"

/-- The loop of `readUvarint` with this many of its ten rounds left. -/
def readUvarintLoop : Nat → Nat → Read Nat
  | 0, _ => .fail (.malformed "varint longer than 10 bytes")
  | rounds + 1, result => do
    let byte ← .byte (.malformed "truncated varint")
    let result := result ||| ((byte &&& 0x7f).toNat <<< ((9 - rounds) * 7))
    if byte &&& 0x80 = 0 then
      if rounds = 0 ∧ 1 < byte then .fail (tenthByteOverflows byte) else pure result
    else readUvarintLoop rounds result

def readUvarint : Read Nat := readUvarintLoop 10 0

theorem toNat_and_low : (byte &&& 0x7f).toNat = byte.toNat % 128 := by
  exact and_two_pow_sub_one_eq_mod byte.toNat 7

theorem and_high_eq_zero : byte &&& 0x80 = 0 ↔ byte.toNat < 128 := by
  have bound := byte.toNat_lt
  have bit : byte.toNat &&& 2 ^ 7 = (byte.toNat.testBit 7).toNat * 2 ^ 7 := and_two_pow _ _
  rw [testBit_eq_decide_div_mod_eq] at bit
  rw [← UInt8.toNat_inj]
  constructor
  · intro clear
    by_contra high
    rw [decide_eq_true (by omega)] at bit
    exact absurd (bit.symm.trans clear) (by decide)
  · intro low
    rw [decide_eq_false (by omega)] at bit
    exact bit

theorem or_group {result group shift : Nat} (low : result < 2 ^ shift) :
    result ||| (group <<< shift) = result + group * 2 ^ shift := by
  rw [Nat.or_comm, ← shiftLeft_add_eq_or_of_lt low, shiftLeft_eq, add_comm]

/-- The bytes start with this many base-128 groups, the high bit set on each but the last; their value
and the bytes after them. -/
inductive Groups : Nat → Nat → Bytes → Bytes → Prop
  | last {byte : UInt8} {rest : Bytes} : byte.toNat < 128 → Groups 1 byte.toNat (byte :: rest) rest
  | more {byte : UInt8} {bytes rest : Bytes} {count v : Nat} : 128 ≤ byte.toNat → Groups count v bytes rest →
      Groups (count + 1) (byte.toNat - 128 + 128 * v) (byte :: bytes) rest

theorem Groups.functional {bytes rest rest' : Bytes} {count count' v v' : Nat} (first : Groups count v bytes rest)
    (second : Groups count' v' bytes rest') : v' = v ∧ rest' = rest := by
  induction first generalizing count' v' with
  | last low =>
    cases second with
    | last => exact ⟨rfl, rfl⟩
    | more high => omega
  | more high _ ih =>
    cases second with
    | last low => omega
    | more _ others =>
      obtain ⟨value, tail⟩ := ih others
      rw [value]
      exact ⟨rfl, tail⟩

variable {rounds result v : Nat}

/-- One round of the loop on a byte that is there. -/
theorem readUvarintLoop_cons (rest : Bytes) (left : Nat) (low : result < 2 ^ ((9 - rounds) * 7)) :
    (readUvarintLoop (rounds + 1) result).run (byte :: rest) left =
      if byte.toNat < 128 then
        if rounds = 0 ∧ 1 < byte.toNat then .error (tenthByteOverflows byte)
        else .ok (result + byte.toNat * 2 ^ ((9 - rounds) * 7), rest, left)
      else (readUvarintLoop rounds (result + (byte.toNat - 128) * 2 ^ ((9 - rounds) * 7))).run rest left := by
  have bound := byte.toNat_lt
  have above : 1 < byte ↔ 1 < byte.toNat := UInt8.lt_iff_toNat_lt
  rw [readUvarintLoop, bind_of_ok (byte_cons _ _ _ _)]
  simp only [and_high_eq_zero, toNat_and_low, or_group low, above]
  by_cases small : byte.toNat < 128
  · rw [if_pos small, mod_eq_of_lt small]
    split <;> rfl
  · rw [if_neg small, if_neg small, (by omega : byte.toNat % 128 = byte.toNat - 128)]

/-- The loop accepts the groups its rounds and the bits left of the 64 have room for, and no others. -/
theorem readUvarintLoop_eq_ok {a left left' : Nat} {bytes rest : Bytes} (room : rounds ≤ 10)
    (low : result < 2 ^ ((10 - rounds) * 7)) :
    (readUvarintLoop rounds result).run bytes left = .ok (a, rest, left') ↔
      ∃ count v, Groups count v bytes rest ∧ count ≤ rounds ∧ v < 2 ^ (7 * rounds - 6) ∧
        a = result + v * 2 ^ ((10 - rounds) * 7) ∧ left' = left := by
  induction rounds generalizing result bytes with
  | zero =>
    constructor
    · intro run
      cases run
    · rintro ⟨count, v, groups, few, _⟩
      cases groups <;> omega
  | succ rounds ih =>
    cases bytes with
    | nil =>
      constructor
      · intro run
        cases run
      · rintro ⟨count, v, groups, _⟩
        cases groups
    | cons byte bytes =>
      have bound := byte.toNat_lt
      rw [(by omega : 10 - (rounds + 1) = 9 - rounds)] at low ⊢
      rw [readUvarintLoop_cons byte bytes left low]
      by_cases small : byte.toNat < 128
      · have fits : byte.toNat < 2 ^ (7 * (rounds + 1) - 6) ↔ ¬(rounds = 0 ∧ 1 < byte.toNat) := by
          cases rounds with
          | zero => omega
          | succ rounds =>
            have wide : 2 ^ 8 ≤ 2 ^ (7 * (rounds + 1 + 1) - 6) := Nat.pow_le_pow_right (by decide) (by omega)
            omega
        rw [if_pos small]
        constructor
        · intro run
          split at run
          · cases run
          · cases run
            exact ⟨1, _, .last small, by omega, fits.mpr ‹_›, rfl, rfl⟩
        · rintro ⟨count, v, groups, _, inside, value, same⟩
          cases groups with
          | last => rw [if_neg (fits.mp inside), value, same]
          | more high => omega
      · have next : (10 - rounds) * 7 = (9 - rounds) * 7 + 7 := by omega
        have grown : result + (byte.toNat - 128) * 2 ^ ((9 - rounds) * 7) < 2 ^ ((10 - rounds) * 7) := by
          have scaled := mul_le_mul_right (2 ^ ((9 - rounds) * 7)) (by omega : byte.toNat - 128 + 1 ≤ 128)
          rw [next, pow_add]
          rw [add_mul] at scaled
          omega
        have value (v : Nat) : result + (byte.toNat - 128 + 128 * v) * 2 ^ ((9 - rounds) * 7) =
            result + (byte.toNat - 128) * 2 ^ ((9 - rounds) * 7) + v * 2 ^ ((10 - rounds) * 7) := by
          rw [next]
          ring
        have fits {count v : Nat} (groups : Groups count v bytes rest) (few : count ≤ rounds) :
            byte.toNat - 128 + 128 * v < 2 ^ (7 * (rounds + 1) - 6) ↔ v < 2 ^ (7 * rounds - 6) := by
          have some : 0 < count := by cases groups <;> omega
          rw [(by omega : 7 * (rounds + 1) - 6 = 7 * rounds - 6 + 7), pow_add]
          omega
        rw [if_neg small, ih (by omega) grown]
        constructor
        · rintro ⟨count, v, groups, few, inside, sum, same⟩
          refine ⟨count + 1, _, .more (by omega) groups, by omega, (fits groups few).mpr inside, ?_, same⟩
          rw [sum, value]
        · rintro ⟨count, v, groups, few, inside, sum, same⟩
          cases groups with
          | last low => omega
          | @more _ _ _ count v _ groups =>
            have few : count ≤ rounds := by omega
            exact ⟨count, v, groups, few, (fits groups few).mp inside, sum.trans (value v), same⟩

theorem readUvarint_eq_ok {a left left' : Nat} {bytes rest : Bytes} :
    readUvarint.run bytes left = .ok (a, rest, left') ↔
      (∃ count ≤ 10, Groups count a bytes rest) ∧ a < 2 ^ 64 ∧ left' = left := by
  rw [readUvarint, readUvarintLoop_eq_ok (le_refl 10) (by decide)]
  constructor
  · rintro ⟨count, v, groups, few, fits, value, same⟩
    have equal : a = v := by omega
    rw [equal]
    exact ⟨⟨count, few, groups⟩, fits, same⟩
  · rintro ⟨⟨count, few, groups⟩, fits, same⟩
    exact ⟨count, a, groups, few, fits, by omega, same⟩

theorem writeUvarint_last {v : Nat} (small : v < 128) : writeUvarint v = [UInt8.ofNat v] := by
  rw [writeUvarint, if_neg (by omega), mod_eq_of_lt small]

theorem writeUvarint_more {v : Nat} (large : 128 ≤ v) :
    writeUvarint v = UInt8.ofNat (v % 128 + 128) :: writeUvarint (v / 128) := by
      rw [writeUvarint, if_pos (by omega)]

theorem writeUvarint_ne_nil (v : Nat) : writeUvarint v ≠ [] := by
  rw [writeUvarint]
  split <;> simp

theorem one_le_length_writeUvarint (v : Nat) : 1 ≤ (writeUvarint v).length :=
  length_pos_iff.mpr (writeUvarint_ne_nil v)

theorem log2_or_one {n : Nat} (positive : n ≠ 0) : log2 (n ||| 1) = log2 n := by
  have odd : n ||| 1 ≠ 0 := by
    have above : n ≤ n ||| 1 := left_le_or
    omega
  refine (log2_eq_iff odd).mpr ⟨?_, ?_⟩
  · exact (log2_self_le positive).trans left_le_or
  · exact or_lt_two_pow lt_log2_self (Nat.one_lt_two_pow (by omega))

theorem log2_div_group {n : Nat} (large : 128 ≤ n) : log2 n = log2 (n / 128) + 7 := by
  have positive : n / 128 ≠ 0 := by omega
  have low := log2_self_le positive
  have high := @lt_log2_self (n / 128)
  refine (log2_eq_iff (by omega)).mpr ⟨?_, ?_⟩
  · rw [pow_add]
    omega
  · rw [add_right_comm, pow_add]
    omega

theorem length_writeUvarint (v : Nat) : (writeUvarint v).length = uvarintLen v := by
  induction v using Nat.strongRecOn with
  | ind v ih =>
    by_cases small : v < 128
    · have bits : log2 (v ||| 1) < 7 := by
        have odd : v ||| 1 ≠ 0 := by
          have above : 1 ≤ v ||| 1 := right_le_or
          omega
        exact (log2_lt odd).mpr (or_lt_two_pow small (by decide))
      rw [writeUvarint_last small, uvarintLen, length_singleton]
      omega
    · have rest := ih (v / 128) (by omega)
      have bits := log2_div_group (by omega : 128 ≤ v)
      rw [writeUvarint_more (by omega), length_cons, rest, uvarintLen, uvarintLen,
        log2_or_one (by omega), log2_or_one (by omega)]
      omega

theorem uvarintLen_le {v k : Nat} (small : v < 2 ^ k) (wide : 0 < k) : uvarintLen v ≤ (k + 6) / 7 := by
  have odd : v ||| 1 ≠ 0 := by
    have above : 1 ≤ v ||| 1 := right_le_or
    omega
  have one : 1 < 2 ^ k := Nat.one_lt_two_pow (by omega)
  have bits := (log2_lt odd).mpr (or_lt_two_pow small one)
  rw [uvarintLen]
  omega

theorem groups_writeUvarint (v : Nat) (rest : Bytes) :
    Groups (writeUvarint v).length v (writeUvarint v ++ rest) rest := by
  induction v using Nat.strongRecOn with
  | ind v ih =>
    by_cases small : v < 128
    · have byte : (UInt8.ofNat v).toNat = v := by simp; omega
      have last : Groups 1 (UInt8.ofNat v).toNat (UInt8.ofNat v :: rest) rest := .last (by omega)
      rw [byte] at last
      rw [writeUvarint_last small]
      exact last
    · have byte : (UInt8.ofNat (v % 128 + 128)).toNat = v % 128 + 128 := by simp; omega
      have more := Groups.more (by omega : 128 ≤ (UInt8.ofNat (v % 128 + 128)).toNat) (ih (v / 128) (by omega))
      rw [byte, (by omega : v % 128 + 128 - 128 + 128 * (v / 128) = v)] at more
      rw [writeUvarint_more (by omega)]
      exact more

theorem readUvarint_write {v : Nat} (fits : v < 2 ^ 64) (rest : Bytes) (left : Nat) :
    readUvarint.run (writeUvarint v ++ rest) left = .ok (v, rest, left) := by
  have few : (writeUvarint v).length ≤ 10 := by
    rw [length_writeUvarint]
    exact uvarintLen_le fits (by decide)
  exact readUvarint_eq_ok.mpr ⟨⟨_, few, groups_writeUvarint v rest⟩, fits, rfl⟩

/-- Whatever value was written, if a value is read back it is that one and the whole of it. -/
theorem readUvarint_write_eq_ok {v a : Nat} {rest rest' : Bytes} {left left' : Nat}
    (run : readUvarint.run (writeUvarint v ++ rest) left = .ok (a, rest', left')) : a = v ∧ rest' = rest := by
  obtain ⟨⟨_, _, groups⟩, _⟩ := readUvarint_eq_ok.mp run
  exact (groups_writeUvarint v rest).functional groups

instance (rounds result : Nat) : Decoder.Extends (readUvarintLoop rounds result) := by
  induction rounds generalizing result with
  | zero => exact inferInstanceAs (Decoder.Extends (.fail _))
  | succ rounds ih => unfold readUvarintLoop; infer_instance

instance : Decoder.Extends readUvarint := inferInstanceAs (Decoder.Extends (readUvarintLoop 10 0))

/-- Maps a signed value so that a small negative one stays small. -/
def zigzagEncode (v : Int64) : UInt64 := ((v <<< 1) ^^^ (v >>> 63)).toUInt64

/-- The sign is the lowest bit. -/
def zigzagDecode (v : UInt64) : Int64 := (v >>> 1).toInt64 ^^^ -(v &&& 1).toInt64

/-- The sign spread over a word. -/
def signMask (negative : Bool) : BitVec 64 := if negative then BitVec.allOnes 64 else 0#64

theorem getLsbD_signMask (negative : Bool) {i : Nat} (bound : i < 64) :
    (signMask negative).getLsbD i = negative := by
  cases negative with
  | false => exact BitVec.getLsbD_zero
  | true =>
    rw [signMask, if_pos rfl, BitVec.getLsbD_allOnes]
    exact decide_eq_true bound

variable (x : BitVec 64)

theorem sshiftRight_eq_signMask : x.sshiftRight 63 = signMask x.msb := by
  apply BitVec.eq_of_getLsbD_eq
  intro i bound
  rw [getLsbD_signMask _ bound, BitVec.getLsbD_sshiftRight]
  by_cases first : i = 0
  · subst first
    simp [BitVec.msb_eq_getLsbD_last]
  · rw [if_neg (by omega)]
    simp; omega

theorem neg_low_bit (negative : Bool) : -((x <<< 1 ^^^ signMask negative) &&& 1#64) = signMask negative := by
  have low : (x <<< 1 ^^^ signMask negative) &&& 1#64 = if negative then 1#64 else 0#64 := by
    apply BitVec.eq_of_getLsbD_eq
    intro i bound
    by_cases first : i = 0
    · subst first
      cases negative <;> simp [signMask]
    · cases negative <;> simp [first]
  rw [low]
  cases negative <;> decide

theorem zigzag_bits :
    ((x <<< 1 ^^^ x.sshiftRight 63) >>> 1) ^^^ -((x <<< 1 ^^^ x.sshiftRight 63) &&& 1#64) = x := by
  rw [sshiftRight_eq_signMask, neg_low_bit]
  apply BitVec.eq_of_getLsbD_eq
  intro i bound
  rw [BitVec.getLsbD_xor, getLsbD_signMask _ bound, BitVec.getLsbD_ushiftRight, BitVec.getLsbD_xor]
  by_cases top : i = 63
  · subst top
    simp [BitVec.msb_eq_getLsbD_last]
  · rw [getLsbD_signMask _ (by omega), BitVec.getLsbD_shiftLeft]
    have : 1 + i < 64 := by omega
    simp [this]

theorem zigzagDecode_encode (v : Int64) : zigzagDecode (zigzagEncode v) = v := by
  apply Int64.toBitVec_inj.mp
  simp only [zigzagDecode, zigzagEncode]
  simpa using zigzag_bits v.toBitVec

def writeIvarint (v : Int64) : Bytes := writeUvarint (zigzagEncode v).toNat

def readIvarint : Read Int64 := do
  let v ← readUvarint
  pure (zigzagDecode (UInt64.ofNat v))

theorem readIvarint_write (v : Int64) (rest : Bytes) (left : Nat) :
    readIvarint.run (writeIvarint v ++ rest) left = .ok (v, rest, left) := by
  rw [readIvarint, writeIvarint, bind_of_ok (readUvarint_write (zigzagEncode v).toNat_lt rest left)]
  simp [zigzagDecode_encode]

/-- A varint of any 64-bit value has the length its writer reserves and is read back in front of
anything, the reader accepts the varints of at most ten groups that fit 64 bits and nothing else,
and signed values survive too. -/
theorem varints_exact :
    (∀ (v : UInt64) (rest : Bytes) (left : Nat), (writeUvarint v.toNat).length = uvarintLen v.toNat ∧
      readUvarint.run (writeUvarint v.toNat ++ rest) left = .ok (v.toNat, rest, left)) ∧
    (∀ (bytes rest : Bytes) (v left left' : Nat), readUvarint.run bytes left = .ok (v, rest, left') ↔
      (∃ count ≤ 10, Groups count v bytes rest) ∧ v < 2 ^ 64 ∧ left' = left) ∧
    ∀ (v : Int64) (rest : Bytes) (left : Nat),
      readIvarint.run (writeIvarint v ++ rest) left = .ok (v, rest, left) := by
  have unsigned (v : UInt64) (rest : Bytes) (left : Nat) := readUvarint_write v.toNat_lt rest left
  exact ⟨fun v rest left => ⟨length_writeUvarint _, unsigned v rest left⟩, fun _ _ _ _ _ => readUvarint_eq_ok,
    readIvarint_write⟩

theorem Groups.shortest {count v : Nat} {bytes rest : Bytes} (groups : Groups count v bytes rest) :
    (writeUvarint v ++ rest).length ≤ bytes.length := by
  induction groups with
  | last low => rw [writeUvarint_last low]; rfl
  | @more byte _ _ _ v _ _ ih =>
    have value : (byte.toNat - 128 + 128 * v) / 128 = v := by have := byte.toNat_lt; omega
    rw [writeUvarint, value]
    rw [length_append] at ih
    split <;> simp <;> omega

/-- A number is written in the fewest bytes that are read as it. -/
theorem written_shortest (v : UInt64) (rest : Bytes) (left : Nat) :
    IsLeast {n | ∃ bytes : Bytes, n = bytes.length ∧ readUvarint.run bytes left = .ok (v.toNat, rest, left)}
      (writeUvarint v.toNat ++ rest).length := by
  refine ⟨⟨_, rfl, readUvarint_write v.toNat_lt rest left⟩, ?_⟩
  rintro _ ⟨bytes, rfl, read⟩
  obtain ⟨⟨_, _, groups⟩, _⟩ := readUvarint_eq_ok.mp read
  exact groups.shortest

def trailingBytes (what : String) (left : Nat) : CodecError :=
  .malformed s!"{what} had trailing bytes ({left} left over)"

/-- Fails if a carved slice has bytes its reader did not consume. -/
def ensureConsumed (what : String) : Read Unit where
  run bytes left := if bytes.isEmpty then .ok ((), bytes, left) else .error (trailingBytes what bytes.length)

theorem ensureConsumed_eq_ok {what : String} {bytes rest : Bytes} {left left' : Nat} {u : Unit} :
    (ensureConsumed what).run bytes left = .ok (u, rest, left') ↔ bytes = [] ∧ rest = [] ∧ left' = left := by
  cases bytes with
  | nil =>
    constructor
    · intro run
      cases run
      exact ⟨rfl, rfl, rfl⟩
    · rintro ⟨_, rfl, rfl⟩
      rfl
  | cons b others => simp [ensureConsumed]

def readU8 : Read UInt8 := .byte (.malformed "unexpected end of input reading a byte")

end Native

end Logit
