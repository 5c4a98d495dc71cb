import Logit.Native.Relay

namespace Logit.Native

open ByteCodec
open ByteCodec.Decoder

variable {X : Externals}

/-- What decoding a payload does about memory, under a budget. -/
def decodeJournal (X : Externals) (payload : Bytes) (limit : UInt64) : List Meter :=
  (decodeBatchBody X limit.toNat).journal payload limit.toNat

/-- Whatever the payload and the budget, and whether or not it is accepted: at no point of the run
have the charges passed the budget; a list's slots come directly after the charge for its declared
count, and so does a dictionary entry's after its own; room made ahead of that is for at most 4096
symbols of the dictionary; a charge that would pass the budget fails the payload. What is accepted
has its charges add up to what it spent, and the dictionary's entries and all lists and maps of the
batch take no more, but for the bins and registers that a sketch's own decoder makes room for. -/
theorem decode_budget (payload : Bytes) (limit : UInt64) :
    (∀ before after, decodeJournal X payload limit = before ++ after → spent before ≤ limit.toNat) ∧
    Paid price none (decodeJournal X payload limit) ∧
    (∀ count size, .reserved count size ∈ decodeJournal X payload limit → ahead count size) ∧
    (∀ amount, .refused amount ∈ decodeJournal X payload limit →
      limit.toNat < spent (decodeJournal X payload limit) + amount ∧
      (decodeBatchBody X limit.toNat).run payload limit.toNat = .error (.budgetExceeded limit.toNat)) ∧
    (∀ batch rest left, (decodeBatchBody X limit.toNat).run payload limit.toNat = .ok (batch, rest, left) →
      spent (decodeJournal X payload limit) + left = limit.toNat ∧
      ∃ symbols after remaining, (Dict.read X limit.toNat).run payload limit.toNat =
          .ok (⟨symbols, limit.toNat⟩, after, remaining) ∧
        dictCost symbols + sectionsCost batch ≤ spent (decodeJournal X payload limit)) := by
  have bounded := Nat.le_pred_of_lt limit.toNat_lt
  have metered : Metered limit.toNat (decodeBatchBody X limit.toNat) := inferInstance
  have settles := metered.settles payload limit.toNat
  refine ⟨fun before after split => settles.spent_le split, settles.paid, fun count size => settles.reserves,
    fun amount member => ?_, fun batch rest left run => ?_⟩
  · obtain ⟨above, failed⟩ := settles.refuses member
    exact ⟨above, outcome_eq_error.mp failed⟩
  have spends := settles.spends (outcome_of_ok run)
  obtain ⟨symbols, after, remaining, dict, _, _, paid⟩ := decodeBatchBody_yields bounded run
  refine ⟨spends, symbols, after, remaining, dict, ?_⟩
  rw [decodeJournal]
  omega

/-- A journal in which all room is made after its charge. -/
def ChargedFirst (journal : List Meter) : Prop :=
  Paid price none journal ∧ ∀ count size, .reserved count size ∉ journal

/-- A payload that ends after a dictionary's count of five has room made for five symbols, and is
charged nothing. -/
theorem decode_budget_fails :
    ¬ ∀ (payload : Bytes) (limit : UInt64), ChargedFirst (decodeJournal Externals.plain payload limit) := by
  intro charged
  refine (charged [5] 0).2 5 4 ?_
  exact List.mem_singleton_self _

end Logit.Native
