import Logit.Native.BatchRoundTrip
import Logit.Native.Steady

namespace Logit.Native

open ByteCodec
open ByteCodec.Decoder

variable {X : Externals} {α σ : Type}

/-- What a list of `count` elements of `size` bytes is charged, in saturating 64-bit arithmetic. -/
def price (count size : Nat) : Nat := min (count * size) u64Max

/-- The only room made ahead of any charge: for the first symbols of a dictionary. -/
def ahead (count size : Nat) : Prop := count ≤ 4096 ∧ size = sizeOfSymbol

/-- The decoder's own prices. -/
abbrev tariff (limit : Nat) : Tariff CodecError := ⟨price, ahead, .budgetExceeded limit, Final⟩

/-- A reader whose journals settle a budget of `limit`. -/
abbrev Metered (limit : Nat) (read : Read α) : Prop := Accounted (tariff limit) none read

section Charges

variable {limit bytes left left' count minWire size : Nat} {input rest : Bytes} {what : String} {u : Unit}

theorem charge_ok (run : (charge limit bytes).run input left = .ok (u, rest, left')) :
    left = left' + bytes ∧ (charge limit bytes).journal input left = [.charged bytes] := by
  simp only [charge] at run ⊢
  split at run
  · cases run
  · rename_i enough
    cases run
    exact ⟨by omega, if_neg enough⟩

theorem chargeList_ok (run : (chargeList limit what count minWire size).run input left = .ok (u, rest, left')) :
    left = left' + price count size ∧
      (chargeList limit what count minWire size).journal input left = [.charged (price count size)] := by
  simp only [chargeList] at run ⊢
  split at run
  · cases run
  · rename_i held
    rw [if_neg held]
    exact charge_ok run

instance meterCharge : Metered limit (charge limit bytes) := by
  refine ⟨fun input left => ?_⟩
  by_cases above : bytes > left
  · simp only [charge, outcome, if_pos above]
    exact .refused above
  · have charged : (charge limit bytes).run input left = .ok ((), input, left - bytes) := if_neg above
    obtain ⟨enough, noted⟩ := charge_ok charged
    rw [noted, outcome, charged, enough, Nat.add_sub_cancel]
    exact .charged .done

instance meterChargeList : Metered limit (chargeList limit what count minWire size) := by
  refine ⟨fun input left => ?_⟩
  have settles := (meterCharge : Metered limit (charge limit (price count size))).settles input left
  by_cases short : count > input.length / minWire
  · simp only [chargeList, outcome, if_pos short]
    exact .failed (by rintro _ ⟨⟩)
  · simp only [chargeList, outcome, if_neg short]
    exact settles

/-- A list's slots are paid for by its declared count. -/
instance {next : Unit → Read α} [second : ∀ u, Accounted (tariff limit) (some (price count size)) (next u)] :
    Metered limit (chargeList limit what count minWire size >>= next) :=
  meterChargeList.funding second fun _ _ _ _ _ => chargeList_ok

end Charges

instance (count size : Nat) : Fact (price count size ≤ price count size) := ⟨Nat.le_refl _⟩

variable (limit : Nat) (dict : Dict X) (tag : UInt8)

instance (minWire size : Nat) (what : String) {read : Read α} [Metered limit read] :
    Metered limit (readCounted limit what minWire size read) := by
  unfold readCounted; infer_instance

instance {readOne : Read α} [Metered limit readOne] (size : Nat) :
    Metered limit (readRecordList limit size readOne) := by
  unfold readRecordList readListEntry; infer_instance

instance {visit : σ → UInt8 → Read σ} [∀ fields tag, Metered limit (visit fields tag)] (fields : σ) :
    Metered limit (forEachField visit fields) := by
  have loop (rounds : Nat) : ∀ fields, Metered limit (forEachFieldLoop visit rounds fields) := by
    induction rounds with
    | zero => exact fun fields => inferInstanceAs (Metered limit (pure fields))
    | succ rounds ih => intro fields; unfold forEachFieldLoop; infer_instance
  exact ⟨fun body left => (loop body.length fields).settles body left⟩

instance : Metered limit (readExpHistogram limit) := by
  unfold readExpHistogram readExponentialBuckets; infer_instance

instance (kindTag : UInt8) : Metered limit (readMetricKindBody limit kindTag : Read (MetricKind X)) := by
  unfold readMetricKindBody readSamples readSetMembers readHistogram readSummary; infer_instance

instance {readInner : Read (Value X)} [Metered dict.limit readInner] :
    Metered dict.limit (readAttrMapWith dict readInner) := by
  unfold readAttrMapWith readEntry; infer_instance

instance {readInner : Read (Value X)} [Metered dict.limit readInner] (payload : Bytes) :
    Metered dict.limit (readValuePayload dict readInner tag payload) := by
  unfold readValuePayload
  cases fromUtf8 payload <;> infer_instance

instance (levels : Nat) : Metered dict.limit (readValueLevels dict levels) := by
  induction levels with
  | zero => exact inferInstanceAs (Metered dict.limit (.fail _))
  | succ levels ih => unfold readValueLevels; infer_instance

instance : Metered dict.limit (readValue dict) := by unfold readValue readValueAt; infer_instance

instance : Metered dict.limit (readAttrMap dict) := by unfold readAttrMap readValueAt; infer_instance

instance (fields : Exemplar X) : Metered dict.limit (visitExemplar dict fields tag) := by
  unfold visitExemplar; infer_instance

instance (fields : MetricFields X) : Metered dict.limit (visitMetricRecord dict fields tag) := by
  unfold visitMetricRecord readExemplar readMetricKind; infer_instance

instance (fields : LogFields X) : Metered dict.limit (visitLogRecord dict fields tag) := by
  unfold visitLogRecord; infer_instance

instance (fields : SpanEventFields X) : Metered dict.limit (visitSpanEvent dict fields tag) := by
  unfold visitSpanEvent; infer_instance

instance (fields : SpanLinkFields X) : Metered dict.limit (visitSpanLink dict fields tag) := by
  unfold visitSpanLink; infer_instance

instance (fields : SpanFields X) : Metered dict.limit (visitSpanRecord dict fields tag) := by
  unfold visitSpanRecord readSpanEvent readSpanLink; infer_instance

instance (fields : Event X) : Metered dict.limit (visitEvent dict fields tag) := by
  unfold visitEvent readLogRecord readMetricRecord readSpanRecord; infer_instance

instance (fields : Resource X) : Metered dict.limit (visitResource dict fields tag) := by
  unfold visitResource; infer_instance

instance (fields : Scope X) :
    Metered dict.limit (visitScope dict fields tag) := by unfold visitScope; infer_instance

instance : Metered dict.limit (readResourceSection dict) := by
    unfold readResourceSection readResource; infer_instance

instance : Metered dict.limit (readScopeSection dict) := by unfold readScopeSection readScope; infer_instance

instance : Metered dict.limit (readEventEntry dict) := by unfold readEventEntry readEvent; infer_instance

instance : Metered dict.limit (readEvents dict) := by unfold readEvents; infer_instance

instance meterSections : Metered dict.limit (readSections dict) := by unfold readSections; infer_instance

/-- One symbol of the dictionary, charged with its text. -/
instance : Metered limit (readDictEntry X limit) := by
  have symbol (len : Nat) : Fact ((tariff limit).price 1 sizeOfSymbol ≤ len + sizeOfSymbol) :=
    ⟨Nat.le_trans (Nat.min_le_left _ _) (by omega)⟩
  have rest (len : Nat) (raw : Bytes) : Metered limit (charge limit (len + sizeOfSymbol) >>= fun _ =>
      match fromUtf8 raw with
      | some text => (do .note (.slots 1 sizeOfSymbol); pure (X.intern text) : Read X.Symbol)
      | none => .fail (.malformed "dictionary entry not utf-8")) :=
    meterCharge.funding (fun _ => by split <;> infer_instance) fun _ _ _ _ _ => charge_ok
  unfold readDictEntry
  infer_instance

def readDictSymbols (X : Externals) (limit : Nat) : Read (Symbols X) := do
  let count ← readUvarint
  .ensure (count ≤ maxSaneDictEntries) (.malformed
    s!"dictionary declares {count} entries, over the {maxSaneDictEntries} sanity cap")
  .note (.reserved (min count 4096) sizeOfSymbol)
  .times (readDictEntry X limit) count

theorem decodeBatchBody_eq (X : Externals) (limit : Nat) :
    decodeBatchBody X limit = readDictSymbols X limit >>= fun symbols => readSections ⟨symbols, limit⟩ := by
  simp only [decodeBatchBody, Dict.read, readDictSymbols, bind_assoc]
  rfl

instance (count : Nat) : Fact (ahead (min count 4096) sizeOfSymbol) := ⟨Nat.min_le_right count 4096, rfl⟩

instance : Metered limit (decodeBatchBody X limit) := by
  have sections (symbols : Symbols X) : Metered limit (readSections ⟨symbols, limit⟩) :=
    meterSections ⟨symbols, limit⟩
  rw [decodeBatchBody_eq]
  unfold readDictSymbols
  infer_instance

instance (field : Bytes) : Steady (splitHopTrace field) := by
  refine .of_cases fun bytes left => ?_
  by_cases size : field.length = hopTraceLen
  · exact .inl ⟨_, _, dif_pos size⟩
  · exact .inr ⟨_, dif_neg size, Fact.out⟩

instance (field : Bytes) : Steady (trailerSymbol field : Read X.Symbol) := by
  unfold trailerSymbol; split <;> infer_instance

instance (fields : TrailerFields X) (field : Bytes) : Steady (visitTrailerField fields tag field) := by
  unfold visitTrailerField; infer_instance

instance (rounds : Nat) (fields : TrailerFields X) : Steady (readTrailerLoop rounds fields) := by
  induction rounds generalizing fields with
  | zero => exact inferInstanceAs (Steady (pure fields))
  | succ rounds ih => unfold readTrailerLoop; infer_instance

instance : Metered limit (decodeHopBody X limit) := by unfold decodeHopBody readTrailer; infer_instance

instance : Metered limit (decodeHopReader X limit) := by
  have prefixed : Steady readHopPrefix := by unfold readHopPrefix; infer_instance
  unfold decodeHopReader
  infer_instance

theorem decodeHopBatch_final {payload : Bytes} {limit : Nat} {e : CodecError}
    (failed : decodeHopBatch payload limit = (.error e : Result (EventBatch X × HopContext X))) :
    Final e := by
  have metered : Metered limit (decodeHopReader X limit) := inferInstance
  refine (metered.settles payload limit).fails (by rintro _ ⟨⟩) (outcome_eq_error.mpr ?_)
  unfold decodeHopBatch decodeWith at failed
  rcases run_cases (decodeHopReader X limit) payload limit with ⟨e', run⟩ | ⟨_, _, _, run⟩ <;>
    rw [run] at failed <;> cases failed
  exact run

end Logit.Native
