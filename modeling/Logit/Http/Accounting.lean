import Logit.Http.Outcome
import Logit.Lib.WordSet

namespace Logit.Http

open Sink (Fault DeliveryPosture isRetryable)

def final (posture : DeliveryPosture) : Answer → Bool
  | .ok () => true
  | .error fault => !isRetryable fault posture

/-- The memory that a sink keeps for a batch: which of its encode units were counted, and which of
its requests the destination settled. -/
structure BatchAccounting where
  posture : DeliveryPosture
  armed : Bool
  counted : BitVec 32
  accepted : WordSet 64
  rejected : WordSet 64

namespace BatchAccounting

variable (a : BatchAccounting)

def observe : BatchAccounting := { a with armed := true, counted := 0, accepted := .empty, rejected := .empty }

def settle (request : Nat) (accepted : Bool) : BatchAccounting :=
  if a.armed then
    if accepted then { a with accepted := a.accepted.set request }
    else { a with rejected := a.rejected.set request }
  else a

def settled (request : Nat) : Bool := a.armed && (a.accepted.get request || a.rejected.get request)

def anyAccepted : Bool := a.armed && a.accepted.any

/-- Runs one encode of a unit: whether it is the first one of the batch, whose counters are live. -/
def encode (unit : Nat) : Bool × BatchAccounting :=
  let first := !a.armed || !a.counted.getLsbD unit
  (first, if a.armed then { a with counted := a.counted ||| BitVec.twoPow 32 unit } else a)

def isFinal (result : Answer) : Bool := final a.posture result

def finish (result : Answer) :
    BatchAccounting := if a.isFinal result then { a with armed := false } else a

/-- Applies the verdicts that an attempt recorded. -/
def replay (a : BatchAccounting) : List (Nat × Bool) → BatchAccounting
  | [] => a
  | (request, accepted) :: journal => (a.settle request accepted).replay journal

/-- Encodes units in turn: the accounting after them, and which were live. -/
def encodeAll (a : BatchAccounting) : List Nat → List (Nat × Bool) × BatchAccounting
  | [] => ([], a)
  | unit :: units =>
    let next := (a.encode unit).2.encodeAll units
    ((unit, (a.encode unit).1) :: next.1, next.2)

section

variable {a}

/-- The numbers that the armed accounting has as accepted and as rejected. -/
def Knows (a : BatchAccounting) (accepted rejected : Nat → Prop) : Prop :=
  a.armed = true ∧ (∀ n, a.accepted.get n = true ↔ accepted n) ∧ ∀ n, a.rejected.get n = true ↔ rejected n

variable {accepted rejected : Nat → Prop}

theorem Knows.settled_iff (knows : a.Knows accepted rejected) (n : Nat) :
    a.settled n = true ↔ accepted n ∨ rejected n := by
  obtain ⟨armed, inAccepted, inRejected⟩ := knows
  simp [settled, armed, inAccepted, inRejected]

theorem Knows.anyAccepted_iff (knows : a.Knows accepted rejected) : a.anyAccepted = true ↔ ∃ n, accepted n := by
  obtain ⟨armed, inAccepted, -⟩ := knows
  simp [anyAccepted, armed, WordSet.any_iff (by omega : 0 < 64), inAccepted]

theorem observe_knows (a : BatchAccounting) : a.observe.Knows (fun _ => False) fun _ => False := by
  refine ⟨rfl, fun n => ?_, fun n => ?_⟩ <;> simp [observe]

theorem Knows.replay {journal : List (Nat × Bool)} (knows : a.Knows accepted rejected) :
    (a.replay journal).Knows (fun n => accepted n ∨ (n, true) ∈ journal)
        (fun n => rejected n ∨ (n, false) ∈ journal) ∧
      (a.replay journal).posture = a.posture ∧ (a.replay journal).counted = a.counted := by
  induction journal generalizing a accepted rejected with
  | nil => simpa [BatchAccounting.replay] using knows
  | cons entry journal ih =>
    obtain ⟨request, verdict⟩ := entry
    obtain ⟨armed, inAccepted, inRejected⟩ := knows
    have next : (a.settle request verdict).Knows (fun n => accepted n ∨ (n, true) = (request, verdict))
        (fun n => rejected n ∨ (n, false) = (request, verdict)) := by
      refine ⟨?_, fun n => ?_, fun n => ?_⟩ <;> cases verdict <;>
        simp [settle, armed, WordSet.get_set (by omega : 0 < 64), inAccepted, inRejected, or_comm]
    have later := ih next
    simp only [or_assoc] at later
    cases verdict <;> simpa [BatchAccounting.replay, settle, armed] using later

/-- What encodes leave of an armed accounting: the units counted, and the ones that were live. -/
theorem encodeAll_spec {units : List Nat} (armed : a.armed = true) (distinct : units.Nodup)
    (few : ∀ unit ∈ units, unit < 32) :
    (∀ accepted rejected, a.Knows accepted rejected → (a.encodeAll units).2.Knows accepted rejected) ∧
      (a.encodeAll units).2.posture = a.posture ∧
      (∀ n, (a.encodeAll units).2.counted.getLsbD n = (a.counted.getLsbD n || decide (n ∈ units))) ∧
      (a.encodeAll units).1 = units.map fun unit => (unit, !a.counted.getLsbD unit) := by
  induction units generalizing a with
  | nil => exact ⟨fun _ _ knows => knows, rfl, by simp [encodeAll], rfl⟩
  | cons unit units ih =>
    obtain ⟨fresh, distinct⟩ := List.nodup_cons.mp distinct
    obtain ⟨small, few⟩ := List.forall_mem_cons.mp few
    have shape : a.encode unit =
        (!a.counted.getLsbD unit, { a with counted := a.counted ||| BitVec.twoPow 32 unit }) := by
      simp [encode, armed]
    have bits : ∀ n, (a.counted ||| BitVec.twoPow 32 unit).getLsbD n =
        (a.counted.getLsbD n || decide (n = unit)) := by
      intro n
      simp [small, eq_comm]
    obtain ⟨knows, posture, counted, lives⟩ := @ih
      { a with counted := a.counted ||| BitVec.twoPow 32 unit } armed distinct few
    simp only [encodeAll, shape]
    refine ⟨fun accepted rejected known => knows accepted rejected known, posture, fun n => ?_, ?_⟩
    · rw [counted n, bits n]
      simp [Bool.or_assoc]
    · rw [lives]
      refine congrArg _ (List.map_congr_left fun other mem => ?_)
      have different : other ≠ unit := by
        rintro rfl
        exact fresh mem
      rw [bits, decide_eq_false different, Bool.or_false]

end

end BatchAccounting

end Logit.Http
