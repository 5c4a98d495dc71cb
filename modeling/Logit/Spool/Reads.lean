import Logit.Native.Metering
import Logit.Spool.Cut

namespace Logit.Spool

open ByteCodec Native Logit.Frame List Nat

variable {X : Externals} {Z : BlockCodec} {V : Type}

variable {part : Bytes}

/-- A parser that has decided on an answer gives it over any longer buffer. -/
theorem parseRecord_append
    (decided : ∀ needed, (parseRecord Z part : Result (StoreItem X × Nat)) ≠ .error (.truncated needed))
    (more : Bytes) :
    (parseRecord Z (part ++ more) : Result (StoreItem X × Nat)) = parseRecord Z part := by
  by_cases long : contextLen ≤ part.length
  · have long' : contextLen ≤ (part ++ more).length := by
      rw [length_append]
      omega
    have context : decodeContext (part ++ more) long' = decodeContext part long := by
      have size : 16 + 8 ≤ part.length := long
      simp [decodeContext, take_append_of_le_length (show 16 ≤ part.length by omega),
        drop_append_of_le_length (show 16 ≤ part.length by omega),
          take_append_of_le_length (show 8 ≤ (part.drop 16).length by rw [length_drop]; omega)]
    rw [parseRecord_frame long] at decided ⊢
    have clear (needed : Nat) : readFrameWithHeader Z (part.drop contextLen) ≠ .error (.truncated needed) := by
      intro cut
      rw [cut] at decided
      exact decided needed rfl
    rw [parseRecord_frame long', context, drop_append_of_le_length long, readFrameWithHeader_append clear more]
    cases readFrameWithHeader Z (part.drop contextLen) with
    | error e => rfl
    | ok out => simp [Except.map, Nat.add_sub_add_right]
  · rw [parseRecord, dif_neg long] at decided
    exact absurd rfl (decided _)

theorem parseRecord_truncated {needed : Nat}
    (cut : (parseRecord Z part : Result (StoreItem X × Nat)) = .error (.truncated needed)) :
      0 < needed := by
  by_cases long : contextLen ≤ part.length
  · rw [parseRecord_frame long] at cut
    cases frame : readFrameWithHeader Z (part.drop contextLen) with
    | error e =>
      rw [frame] at cut
      cases cut
      exact (readFrameWithHeader_truncated frame).1
    | ok out =>
      rw [frame] at cut
      simp only at cut
      split at cut
      · cases cut
      · cases decoded : (decodeHopBatch out.2.1 u64Max : Result (EventBatch X × HopContext X)) with
        | error e =>
          rw [decoded] at cut
          cases cut
          exact absurd rfl (decodeHopBatch_final decoded needed)
        | ok found =>
          rw [decoded] at cut
          cases cut
  · rw [parseRecord, dif_neg long] at cut
    cases cut
    omega

/-- What is read of a segment's remainder in one piece: its record, or the first one past what is
corrupt. -/
def readWhole (parse : Bytes → Result (V × Nat)) (remainder : Bytes) : ReadOutcome V :=
  match parse remainder with
  | .ok (v, consumed) => .record v consumed
  | .error _ =>
    match (walkSegment parse remainder 0).records with
    | (pos, v, len) :: _ => .record v (pos + len)
    | [] => .skip remainder.length

section

variable {parse : Bytes → Result (V × Nat)}
  (stable : ∀ part, (∀ needed, parse part ≠ .error (.truncated needed)) → ∀ more, parse (part ++ more) = parse part)
  (asks : ∀ {part needed}, parse part = .error (.truncated needed) → 0 < needed)
  (rest : Bytes) {remaining : Nat}
include asks

/-- Every round of a growing read adds a byte, so rounds past those for each byte are never taken. -/
theorem readLoop_rounds {rounds more chunkLen : Nat} (within : chunkLen ≤ remaining)
    (enough : remaining < chunkLen + rounds) (enough' : remaining < chunkLen + more) :
    readLoop parse rest remaining rounds chunkLen = readLoop parse rest remaining more chunkLen := by
  induction rounds generalizing more chunkLen with
  | zero => omega
  | succ rounds ih =>
    obtain ⟨more, rfl⟩ : ∃ n, more = n + 1 := Nat.exists_eq_add_of_le' (by omega)
    simp only [readLoop]
    split
    · rfl
    · split
      · rfl
      · rename_i needed cut
        have grown := asks cut
        split
        · exact ih (by omega) (by omega) (by omega)
        · rfl
      · rfl

include stable

/-- A growing read ends with the record of the remainder, with bytes that are not one, or where the file does. -/
theorem readLoop_whole {rounds chunkLen : Nat} (within : chunkLen ≤ remaining)
    (enough : remaining < chunkLen + rounds) :
    (∃ r, parse (rest.take remaining) = .ok r ∧ readLoop parse rest remaining rounds chunkLen =
      .ok (.record r.1 r.2)) ∨
    (∃ e k, parse (rest.take remaining) = .error e ∧ k ≤ remaining ∧ k ≤ rest.length ∧
      readLoop parse rest remaining rounds chunkLen = .error (rest.take k)) ∨
    rest.length < remaining ∧ readLoop parse rest remaining rounds chunkLen = .ok .unavailable := by
  induction rounds generalizing chunkLen with
  | zero => omega
  | succ rounds ih =>
    simp only [readLoop]
    have front : rest.take remaining = rest.take chunkLen ++ (rest.drop chunkLen).take (remaining - chunkLen) := by
      rw [← take_add, Nat.add_sub_cancel' within]
    by_cases short : (rest.take chunkLen).length < chunkLen
    · rw [if_pos short]
      rw [length_take] at short
      exact .inr (.inr ⟨by omega, rfl⟩)
    rw [if_neg short]
    rw [length_take] at short ⊢
    have decided (clear : ∀ needed, parse (rest.take chunkLen) ≠ .error (.truncated needed)) :
        parse (rest.take remaining) = parse (rest.take chunkLen) := by
      rw [front]
      exact stable _ clear _
    cases parsed : parse (rest.take chunkLen) with
    | ok r => exact .inl ⟨r, (decided (by simp [parsed])).trans parsed, rfl⟩
    | error e =>
      cases e with
      | truncated needed =>
        have grown := asks parsed
        by_cases left : min chunkLen rest.length < remaining
        · simp only [if_pos left]
          exact ih (by omega) (by omega)
        · simp only [if_neg left]
          rw [show remaining = chunkLen by omega]
          exact .inr (.inl ⟨_, chunkLen, parsed, le_refl _, by omega, rfl⟩)
      | _ => exact .inr (.inl ⟨_, chunkLen, (decided (by simp [parsed])).trans parsed, within, by omega, rfl⟩)

theorem readRecordAt_whole (file : Bytes) (len offset : Nat) : readRecordAt parse (some file) (some len) offset =
        (if len ≤ offset then .unavailable else readWhole parse ((file.drop offset).take (len - offset))) ∨
      file.length < len ∧ readRecordAt parse (some file) (some len) offset = .unavailable := by
  simp only [readRecordAt]
  by_cases done : len ≤ offset
  · rw [if_pos done, if_pos (Nat.sub_eq_zero_of_le done)]
    exact .inl rfl
  rw [if_neg done, if_neg (by omega)]
  have size := length_drop (i := offset) (l := file)
  have room : min readChunkInitial (len - offset) ≤ len - offset := min_le_right _ _
  rcases readLoop_whole stable asks (file.drop offset) room (Nat.lt_add_left _ (lt_succ_self (len - offset))) with
    ⟨r, parsed, read⟩ | ⟨e, k, parsed, small, held, read⟩ | ⟨short, read⟩ <;> simp only [read]
  · exact .inl (by rw [readWhole, parsed])
  · have cut : ((file.drop offset).take k).length = k := by
      rw [length_take]
      omega
    have whole : (if ((file.drop offset).take k).length = len - offset then (file.drop offset).take k
        else (file.drop offset).take (len - offset)) = (file.drop offset).take (len - offset) := by
      rw [cut]
      split
      · rename_i same
        rw [same]
      · rfl
    rw [whole]
    by_cases full : ((file.drop offset).take (len - offset)).length = len - offset
    · refine .inl ((if_pos full).trans ?_)
      cases found : (walkSegment parse ((file.drop offset).take (len - offset)) 0).records <;>
        simp [readWhole, parsed, found, full]
    · rw [if_neg full]
      rw [length_take] at full
      exact .inr ⟨by omega, rfl⟩
  · exact .inr ⟨by omega, trivial⟩

end

/-- A read that grows comes to an end, and with what one read of the whole remainder gives. Only where the file is
shorter than the length it is tracked with may it find nothing instead. -/
theorem readRecordAt_eq_readWhole (X : Externals) (Z : BlockCodec) (file : Bytes) (len offset : Nat) :
    let parse : Bytes → Except CodecError (StoreItem X × Nat) := parseRecord Z
    let remaining := len - offset
    (∀ rounds, remaining < rounds →
      readLoop parse (file.drop offset) remaining rounds (min readChunkInitial remaining) =
        readLoop parse (file.drop offset) remaining (remaining + 1) (min readChunkInitial remaining)) ∧
    (readRecordAt parse (some file) (some len) offset =
        (if len ≤ offset then .unavailable else readWhole parse ((file.drop offset).take remaining)) ∨
      file.length < len ∧ readRecordAt parse (some file) (some len) offset = .unavailable) := by
  intro parse remaining
  refine ⟨fun rounds enough => ?_, readRecordAt_whole (fun _ => parseRecord_append) parseRecord_truncated file
    len offset⟩
  exact readLoop_rounds parseRecord_truncated _ (min_le_right _ _) (Nat.lt_add_left _ enough)
    (Nat.lt_add_left _ (lt_succ_self _))

end Logit.Spool
