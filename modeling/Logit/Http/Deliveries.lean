import Logit.Http.Attempts

namespace Logit.Http

open List Prod

open Sink (Fault DeliveryPosture)

/-- A request was accepted in one of the attempts. -/
def Accepted {ι : Type} (log : List (Attempt ι)) (n : Nat) : Prop := ∃ x ∈ log, (n, .ok ()) ∈ x.posted

/-- A request was rejected in one of the attempts. -/
def Rejected {ι : Type} (log : List (Attempt ι)) (n : Nat) : Prop := ∃ x ∈ log, (n, .error .rejected) ∈ x.posted

variable {ι : Type}

theorem accepted_cons {x : Attempt ι} {log : List (Attempt ι)} {n : Nat} :
    Accepted (x :: log) n ↔ (n, .ok ()) ∈ x.posted ∨ Accepted log n := by simp [Accepted]

theorem rejected_cons {x : Attempt ι} {log : List (Attempt ι)} {n : Nat} :
    Rejected (x :: log) n ↔ (n, .error .rejected) ∈ x.posted ∨ Rejected log n := by simp [Rejected]

/-- The final result of attempts, when some requests were settled before them. -/
def Verdict {ι : Type} (numbers : List Nat) (accepted rejected : Nat → Prop) (log : List (Attempt ι))
    (result : Answer) : Prop :=
  (result = .ok () ↔ (∀ n ∈ numbers, accepted n ∨ rejected n ∨ Accepted log n ∨ Rejected log n) ∧
    (numbers = [] ∨ (∃ n, accepted n) ∨ ∃ n, Accepted log n)) ∧
  (result = .error .rejected ↔ numbers ≠ [] ∧ ∀ n ∈ numbers, rejected n ∨ Rejected log n)

/-- What a batch's memory is between two attempts: a request is not both accepted and rejected, and
one of them is still open. -/
structure Pending (numbers : List Nat) (accepted rejected : Nat → Prop) : Prop where
  apart : ∀ n, accepted n → ¬rejected n
  within : ∀ n, accepted n → n ∈ numbers
  open_ : numbers = [] ∨ ∃ n ∈ numbers, ¬accepted n ∧ ¬rejected n

section

variable {numbers : List Nat} {accepted rejected : Nat → Prop}
  {posted : List (Nat × Answer)} {result : Answer}

theorem Tried.verdict {ι : Type} {x : Attempt ι} (tried : Tried numbers accepted rejected x.posted x.result)
    (pending : Pending numbers accepted rejected) : Verdict numbers accepted rejected [x] x.result := by
  have inAccepted : ∀ n, Accepted [x] n ↔ (n, .ok ()) ∈ x.posted := by simp [Accepted]
  have inRejected : ∀ n, Rejected [x] n ↔ (n, .error .rejected) ∈ x.posted := by simp [Rejected]
  simp only [Verdict, inAccepted, inRejected]
  rcases tried.ends with ⟨n, fault, stopped, other, failed⟩ | ⟨all, ⟨ok, why⟩ | ⟨failed, unaccepted, every, some⟩⟩
  · obtain ⟨inside, untaken, undropped⟩ := tried.fresh n _ stopped
    have notOk : (n, .ok ()) ∉ x.posted := fun wrong => by cases tried.once n _ _ stopped wrong
    have notRejected : (n, .error .rejected) ∉ x.posted := fun wrong => by
      cases tried.once n _ _ stopped wrong
      exact other rfl
    rw [failed]
    refine ⟨⟨fun wrong => (by cases wrong), fun ⟨settled, _⟩ => ?_⟩,
      ⟨fun wrong => (by cases wrong; exact absurd rfl other), fun ⟨_, dropped⟩ => ?_⟩⟩
    · have := settled n inside
      tauto
    · have := dropped n inside
      tauto
  · have left : x.posted = [] → numbers = [] := fun none => by
      rcases pending.open_ with empty | ⟨n, inside, untaken, undropped⟩
      · exact empty
      · have := all n inside
        simp only [none] at this
        tauto
    rw [ok]
    refine ⟨⟨fun _ => ⟨all, ?_⟩, fun _ => rfl⟩, ⟨fun wrong => (by cases wrong), fun ⟨many, dropped⟩ => ?_⟩⟩
    · rcases why with taken | taken | none
      · exact .inr (.inl taken)
      · exact .inr (.inr taken)
      · exact .inl (left none)
    · exfalso
      rcases why with ⟨n, taken⟩ | ⟨n, taken⟩ | none
      · rcases dropped n (pending.within n taken) with known | new
        · exact pending.apart n taken known
        · exact (tried.fresh n _ new).2.1 taken
      · obtain ⟨inside, -, undropped⟩ := tried.fresh n _ taken
        rcases dropped n inside with known | new
        · exact undropped known
        · cases tried.once n _ _ taken new
      · exact many (left none)
  · obtain ⟨⟨n, r⟩, mem⟩ := exists_mem_of_ne_nil _ some
    have inside := (tried.fresh n r mem).1
    have many := ne_nil_of_mem inside
    rw [failed]
    refine ⟨⟨fun wrong => (by cases wrong), fun ⟨_, why⟩ => ?_⟩, ⟨fun _ => ⟨many, fun m there => ?_⟩, fun _ => rfl⟩⟩
    · exfalso
      rcases why with empty | ⟨m, taken⟩ | ⟨m, taken⟩
      · exact many empty
      · exact unaccepted m taken
      · cases every m _ taken
    · rcases all m there with taken | known | taken | new
      · exact absurd taken (unaccepted m)
      · exact .inl known
      · cases every m _ taken
      · exact .inr new

theorem Tried.pending {posture : DeliveryPosture} (tried : Tried numbers accepted rejected posted result)
    (pending : Pending numbers accepted rejected) (again : final posture result = false) :
    Pending numbers (fun n => accepted n ∨ (n, .ok ()) ∈ posted)
      (fun n => rejected n ∨ (n, .error .rejected) ∈ posted) := by
  refine ⟨?_, ?_, ?_⟩
  · rintro n (taken | taken) (dropped | dropped)
    · exact pending.apart n taken dropped
    · exact (tried.fresh n _ dropped).2.1 taken
    · exact (tried.fresh n _ taken).2.2 dropped
    · cases tried.once n _ _ taken dropped
  · rintro n (taken | taken)
    · exact pending.within n taken
    · exact (tried.fresh n _ taken).1
  · rcases tried.ends with ⟨n, fault, stopped, other, failed⟩ | ⟨-, ⟨ok, -⟩ | ⟨failed, -⟩⟩
    · obtain ⟨inside, untaken, undropped⟩ := tried.fresh n _ stopped
      refine .inr ⟨n, inside, ?_, ?_⟩
      · rintro (taken | taken)
        · exact untaken taken
        · cases tried.once n _ _ stopped taken
      · rintro (dropped | dropped)
        · exact undropped dropped
        · cases tried.once n _ _ stopped dropped
          exact other rfl
    · rw [ok] at again
      cases again
    · rw [failed] at again
      cases again

end

section

variable {ι : Type} {numbers : List Nat} {accepted rejected : Nat → Prop}

/-- The verdict on later attempts is the one on all of them, after an attempt that is retried. -/
theorem Verdict.cons {x : Attempt ι} {log : List (Attempt ι)} {result : Answer}
    (verdict : Verdict numbers (fun n => accepted n ∨ (n, .ok ()) ∈ x.posted)
      (fun n => rejected n ∨ (n, .error .rejected) ∈ x.posted) log result) :
    Verdict numbers accepted rejected (x :: log) result := by
  obtain ⟨ok, failed⟩ := verdict
  refine ⟨ok.trans (and_congr ?_ (or_congr_right ?_)), failed.trans (and_congr_right fun _ => ?_)⟩
  · refine forall₂_congr fun n _ => ?_
    rw [accepted_cons, rejected_cons]
    tauto
  · simp [accepted_cons, exists_or, or_assoc]
  · refine forall₂_congr fun n _ => ?_
    rw [rejected_cons, or_assoc]

/-- What holds over the attempts at a batch of which some requests were settled before. -/
structure Unrepeated (units : List Nat) (requests : List (Nat × ι)) (a : BatchAccounting)
    (accepted rejected : Nat → Prop) (log : List (Attempt ι)) : Prop where
  same : ∀ x ∈ log, x.requests = requests
  encoded : ∀ x later, log = x :: later → x.units = units.map (fun unit => (unit, !a.counted.getLsbD unit)) ∧
      ∀ y ∈ later, y.units = units.map fun unit => (unit, false)
  fresh : ∀ x ∈ log, ∀ n r, (n, r) ∈ x.posted → n ∈ requests.map Prod.fst ∧ ¬accepted n ∧ ¬rejected n
  distinct : ∀ x ∈ log, (x.posted.map Prod.fst).Nodup
  settled : log.Pairwise fun x y => ∀ n r, (n, r) ∈ x.posted → Settles r → n ∉ y.posted.map Prod.fst
  ambiguous : a.posture = .atMostOnce → log.Pairwise fun x y =>
    ∀ n, (n, .error .ambiguous) ∈ x.posted → n ∉ y.posted.map Prod.fst
  verdict : ∀ x, log.getLast? = some x → final a.posture x.result = true →
    Verdict (requests.map Prod.fst) accepted rejected log x.result

variable {units : List Nat} {requests : List (Nat × ι)} {a : BatchAccounting}

/-- By induction on the attempts: each starts from what the last one learned. -/
theorem BatchAccounting.deliver_unrepeated (distinct : (requests.map fst).Nodup)
    (distinctUnits : units.Nodup) (few : ∀ unit ∈ units, unit < 32) (answers : List Answers)
    (knows : a.Knows accepted rejected) (pending : Pending (requests.map fst) accepted rejected) :
    Unrepeated units requests a accepted rejected (deliver units requests answers a) := by
  induction answers generalizing a accepted rejected with
  | nil => exact ⟨by simp [deliver], by simp [deliver], by simp [deliver], by simp [deliver], .nil,
      fun _ => .nil, by simp [deliver]⟩
  | cons answer later ih =>
    obtain ⟨tried, next⟩ := attempt_tried answer knows distinct distinctUnits few
    obtain ⟨-, -, marks, lives⟩ := encodeAll_spec knows.1 distinctUnits few
    rw [deliver]
    cases ends : a.isFinal (a.attempt units requests answer).1.result with
    | true =>
      simp only [if_true]
      refine ⟨forall_mem_singleton.mpr rfl, ?_, forall_mem_singleton.mpr tried.fresh,
        forall_mem_singleton.mpr tried.distinct, pairwise_singleton ..,
        fun _ => pairwise_singleton .., ?_⟩
      · rintro x later ⟨⟩
        exact ⟨lives, by simp⟩
      · rintro x last -
        rw [getLast?_singleton, Option.some.injEq] at last
        subst last
        exact tried.verdict pending
    | false =>
      simp only [Bool.false_eq_true, if_false]
      obtain ⟨learned, posture, counts⟩ := next ends
      have rest := ih learned (tried.pending pending ends)
      refine ⟨forall_mem_cons.mpr ⟨rfl, rest.same⟩, ?_, forall_mem_cons.mpr ⟨tried.fresh, ?_⟩,
        forall_mem_cons.mpr ⟨tried.distinct, rest.distinct⟩,
        pairwise_cons.mpr ⟨?_, rest.settled⟩,
        fun most => pairwise_cons.mpr ⟨?_, rest.ambiguous (posture.trans most)⟩, ?_⟩
      · rintro x log ⟨⟩
        refine ⟨lives, ?_⟩
        -- every unit is counted by the first attempt
        have muted : ∀ unit ∈ units, (a.attempt units requests answer).2.counted.getLsbD unit = true := by
          intro unit mem
          rw [counts, marks, decide_eq_true mem, Bool.or_true]
        cases shape : deliver units requests later (a.attempt units requests answer).2 with
        | nil => simp
        | cons y ys =>
          obtain ⟨first, others⟩ := rest.encoded y ys shape
          refine forall_mem_cons.mpr ⟨first.trans (map_congr_left fun unit mem => ?_), others⟩
          rw [muted unit mem, Bool.not_true]
      · rintro x mem n r posted
        obtain ⟨inside, untaken, undropped⟩ := rest.fresh x mem n r posted
        exact ⟨inside, fun known => untaken (.inl known), fun known => undropped (.inl known)⟩
      · rintro y mem n r posted settles again
        obtain ⟨⟨m, r'⟩, posted', rfl⟩ := mem_map.mp again
        obtain ⟨-, untaken, undropped⟩ := rest.fresh y mem m r' posted'
        rcases settles with rfl | rfl
        · exact untaken (.inr posted)
        · exact undropped (.inr posted)
      · -- an ambiguous answer ends the batch under this posture
        intro y _ n posted
        have failed := tried.stops n _ posted (by decide)
        rw [failed, isFinal, most] at ends
        cases ends
      · intro x last ended
        refine Verdict.cons (rest.verdict x ?_ (posture ▸ ended))
        rw [getLast?_cons] at last
        cases tail : (deliver units requests later (a.attempt units requests answer).2).getLast? with
        | none =>
          rw [tail, Option.getD_none, Option.some.injEq] at last
          subst last
          rw [← isFinal, ends] at ended
          cases ended
        | some y =>
          rw [tail] at last
          exact last

end

/-- The attempts at one batch settle each of its requests once: a number names the same request in
every attempt, a settled request is not posted again, each encode unit is live in the first attempt
only, and a final result is the verdict on all requests. -/
structure SettledOnce {ι : Type} (posture : DeliveryPosture) (log : List (Attempt ι)) : Prop where
  numbered : ∀ x ∈ log, (x.requests.map Prod.fst).Nodup
  same : ∀ x ∈ log, ∀ y ∈ log, x.requests = y.requests
  within : ∀ x ∈ log, (x.posted.map Prod.fst).Nodup ∧ x.posted.map Prod.fst ⊆ x.requests.map Prod.fst
  settled : log.Pairwise fun x y => ∀ n r, (n, r) ∈ x.posted → Settles r → n ∉ y.posted.map Prod.fst
  ambiguous : posture = .atMostOnce → log.Pairwise fun x y =>
    ∀ n, (n, .error .ambiguous) ∈ x.posted → n ∉ y.posted.map Prod.fst
  live : ∀ x later, log = x :: later → (∀ unit ∈ x.units, unit.2 = true) ∧ (x.units.map Prod.fst).Nodup ∧
      ∀ y ∈ later, y.units.map Prod.fst = x.units.map Prod.fst ∧ ∀ unit ∈ y.units, unit.2 = false
  verdict : ∀ x, log.getLast? = some x → final posture x.result = true →
    (x.result = .ok () ↔ (∀ n ∈ x.requests.map Prod.fst, Accepted log n ∨ Rejected log n) ∧
      (x.requests = [] ∨ ∃ n, Accepted log n)) ∧
    (x.result = .error .rejected ↔ x.requests ≠ [] ∧ ∀ n ∈ x.requests.map Prod.fst, Rejected log n)

/-- The attempts after one observation of a batch, when each has the same units and requests. -/
theorem BatchAccounting.deliver_settledOnce {units : List Nat} {requests : List (Nat × ι)}
    (distinct : (requests.map fst).Nodup) (distinctUnits : units.Nodup) (few : ∀ unit ∈ units, unit < 32)
    (answers : List Answers) (a : BatchAccounting) :
    SettledOnce a.posture (deliver units requests answers a.observe) := by
  have pending : Pending (requests.map fst) (fun _ => False) (fun _ => False) := by
    refine ⟨fun _ wrong => wrong.elim, fun _ wrong => wrong.elim, ?_⟩
    rcases eq_nil_or_concat (requests.map fst) with empty | ⟨rest, n, split⟩
    · exact .inl empty
    · exact .inr ⟨n, by simp [split], not_false, not_false⟩
  have knows := observe_knows a
  have whole := deliver_unrepeated distinct distinctUnits few answers knows pending
  have items := whole.same
  refine ⟨?_, ?_, ?_, whole.settled, whole.ambiguous, ?_, ?_⟩
  · intro x mem
    rw [items x mem]
    exact distinct
  · intro x left y right
    rw [items x left, items y right]
  · intro x mem
    refine ⟨whole.distinct x mem, fun n again => ?_⟩
    obtain ⟨⟨n, r⟩, posted, rfl⟩ := mem_map.mp again
    rw [items x mem]
    exact (whole.fresh x mem n r posted).1
  · intro x later shape
    obtain ⟨first, muted⟩ := whole.encoded x later shape
    have names : ∀ live : Nat → Bool, (units.map fun unit => (unit, live unit)).map fst = units := by
      intro live
      simp [Function.comp_def]
    refine ⟨?_, ?_, fun y mem => ?_⟩
    · rw [first]
      simp [observe]
    · rw [first, names]
      exact distinctUnits
    · rw [first, muted y mem, names, names]
      simp
  · intro x last ends
    obtain ⟨ok, failed⟩ := whole.verdict x last ends
    have shape := items x (mem_of_getLast? last)
    rw [shape]
    simpa using And.intro ok failed

end Logit.Http
