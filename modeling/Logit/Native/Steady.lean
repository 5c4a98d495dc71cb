import Logit.Lib.Meter
import Logit.Native.Hop

namespace Logit.Native

open ByteCodec ByteCodec.Decoder

variable {X : Externals} {α σ : Type}

/-- An error that more bytes do not take back. -/
def Final (e : CodecError) : Prop := ∀ needed, e ≠ .truncated needed

variable (what : String)

instance : Fact (Final (.malformed what)) := ⟨by rintro _ ⟨⟩⟩

instance (b : UInt8) : Fact (Final (tenthByteOverflows b)) := ⟨by rintro _ ⟨⟩⟩

instance (n : Nat) : Fact (Final (trailingBytes what n)) := ⟨by rintro _ ⟨⟩⟩

/-- A reader that spends nothing and never asks for more bytes. -/
abbrev Steady (read : Read α) : Prop := Quiet Final read

instance (rounds result : Nat) : Steady (readUvarintLoop rounds result) := by
  induction rounds generalizing result with
  | zero => exact inferInstanceAs (Steady (.fail _))
  | succ rounds ih => unfold readUvarintLoop; infer_instance

instance : Steady readUvarint := inferInstanceAs (Steady (readUvarintLoop 10 0))

instance : Steady readIvarint := by unfold readIvarint; infer_instance

instance : Steady readU8 := by unfold readU8; infer_instance

instance : Steady readU64 := by unfold readU64; infer_instance

instance : Steady readI32 := by unfold readI32; infer_instance

instance : Steady readF64 := by unfold readF64; infer_instance

instance : Steady (ensureConsumed what) := by
  refine .of_cases fun bytes left => ?_
  cases bytes with
  | nil => exact .inl ⟨_, _, rfl⟩
  | cons b others => exact .inr ⟨_, rfl, Fact.out⟩

instance (len : Nat) (wrong : Nat → CodecError) (convert : Bytes → α) [∀ n, Fact (Final (wrong n))] :
    Steady (readExact len wrong convert) := by
  refine .of_cases fun bytes left => ?_
  by_cases other : bytes.length ≠ len
  · exact .inr ⟨_, if_pos other, Fact.out⟩
  · exact .inl ⟨_, _, if_neg other⟩

instance (n : Nat) (wrong : CodecError) [Fact (Final wrong)] : Steady (readId n wrong) := by
  refine .of_cases fun bytes left => ?_
  by_cases size : bytes.length = n
  · exact .inl ⟨_, _, dif_pos size⟩
  · exact .inr ⟨_, dif_neg size, Fact.out⟩

instance (n : Nat) (short : Nat → CodecError) [∀ n, Fact (Final (short n))] : Steady (takeId n short) := by
  refine .of_cases fun bytes left => ?_
  by_cases size : (bytes.take n).length = n
  · exact .inl ⟨_, _, dif_pos size⟩
  · exact .inr ⟨_, dif_neg size, Fact.out⟩

instance : Steady readF64Payload := by
  refine .of_cases fun payload left => ?_
  by_cases other : payload.length ≠ 8
  · exact .inr ⟨_, if_pos other, Fact.out⟩
  · exact .inl ⟨_, _, if_neg other⟩

instance : Steady readExactU32 := by unfold readExactU32; infer_instance

instance : Steady readExactI64 := by unfold readExactI64; infer_instance

instance : Steady takeField := by unfold takeField; infer_instance

instance {visit : σ → UInt8 → Read σ} [∀ fields tag, Steady (visit fields tag)] (fields : σ) :
    Steady (forEachField visit fields) := by
  have loop (rounds : Nat) : ∀ fields, Steady (forEachFieldLoop visit rounds fields) := by
    induction rounds with
    | zero => exact fun fields => inferInstanceAs (Steady (pure fields))
    | succ rounds ih => intro fields; unfold forEachFieldLoop; infer_instance
  exact ⟨fun body left => (loop body.length fields).keeps body left,
    fun body left => (loop body.length fields).silent body left,
    fun body left => (loop body.length fields).failed body left⟩

instance (fields : σ) : Steady (clear fields) := by unfold clear; infer_instance

instance (fromBytes : Bytes → Except String α) : Steady (readBlob what fromBytes) :=
  .bind inferInstance fun _ => by split <;> infer_instance

instance (o : Option α) : Steady (require what o) := by
  unfold require; split <;> infer_instance

instance {fromTag : UInt8 → Read α} [∀ tag, Steady (fromTag tag)] : Steady (readTag fromTag) := by
  unfold readTag; infer_instance

instance : Steady readScalar := by unfold readScalar; infer_instance

instance : Steady readTemporality := by unfold readTemporality temporalityFromTag; infer_instance

instance : Steady readOptionF64 := by unfold readOptionF64; infer_instance

instance : Steady readSum := by unfold readSum; infer_instance

instance : Steady readSetMember := by unfold readSetMember; infer_instance

instance : Steady readBucket := by unfold readBucket; infer_instance

instance : Steady readQuantile := by unfold readQuantile; infer_instance

instance : Steady readTraceRef := by unfold readTraceRef readSpanPresence; infer_instance

variable (dict : Dict X) (tag : UInt8)

instance (idx : UInt32) : Steady (dict.get idx) := by unfold Dict.get; split <;> infer_instance

instance : Steady (readKey dict) := by unfold readKey; infer_instance

instance : Steady (readSymbolField dict) := by unfold readSymbolField; infer_instance

instance : Steady (severityFromTag tag) := by unfold severityFromTag; infer_instance

instance : Steady (bodyFormatFromTag tag) := by unfold bodyFormatFromTag; infer_instance

instance : Steady (spanKindFromTag tag) := by unfold spanKindFromTag; infer_instance

instance : Steady (spanStatusFromTag tag) := by unfold spanStatusFromTag; infer_instance

instance (fields : SpanExt) : Steady (visitSpanExt fields tag) := by unfold visitSpanExt; infer_instance

instance : Steady readSpanExt := by unfold readSpanExt; infer_instance

instance {read : Read α} [steady : Steady read] : Frugal read := ⟨steady.keeps⟩

end Logit.Native
