import Logit.Http.Accounting

namespace Logit.Http

open List

open Sink (Fault DeliveryPosture isRetryable)

/-- What the requests of one attempt came to: those posted with their answers, the verdicts recorded,
and the result of the attempt. -/
structure Ran where
  posted : List (Nat × Answer)
  journal : List (Nat × Bool)
  result : Answer

/-- What each request of an attempt is answered. -/
abbrev Answers := Nat → Answer

/-- Posts requests in order: an accepted or rejected one is recorded and the next is posted, any other
fault stops the attempt. -/
def run (answers : Answers) : List Nat → Outcomes → Ran
  | [], outcomes => ⟨[], [], outcomes.finish⟩
  | request :: rest, outcomes =>
    match outcomes.note (answers request) with
    | .error fault => ⟨[(request, answers request)], [], .error fault⟩
    | .ok outcomes =>
      let ran := run answers rest outcomes
      ⟨(request, answers request) :: ran.posted, (request, (answers request).isOk) :: ran.journal, ran.result⟩

/-- One attempt at a batch: its requests by number, its encode units and whether each was live, the
requests posted with their answers, and the result. -/
structure Attempt (ι : Type) where
  requests : List (Nat × ι)
  units : List (Nat × Bool)
  posted : List (Nat × Answer)
  result : Answer

namespace BatchAccounting

variable {ι : Type}

/-- Encodes the units, posts the requests that are not settled, and records the verdicts. -/
def attempt (a : BatchAccounting) (units : List Nat) (requests : List (Nat × ι))
    (answers : Answers) : Attempt ι × BatchAccounting :=
  let encoded := a.encodeAll units
  let left := (requests.map Prod.fst).filter fun n => !encoded.2.settled n
  let ran := run answers left (.new encoded.2.anyAccepted)
  (⟨requests, encoded.1, ran.posted, ran.result⟩, (encoded.2.replay ran.journal).finish ran.result)

/-- Attempts at a batch, each with its answers, up to a final result. -/
def deliver (units : List Nat) (requests : List (Nat × ι)) :
    List Answers → BatchAccounting → List (Attempt ι)
  | [], _ => []
  | answers :: later, a =>
    let next := a.attempt units requests answers
    if a.isFinal next.1.result then [next.1] else next.1 :: deliver units requests later next.2

end BatchAccounting

/-- Whether an answer settles its request. -/
def Settles (answer : Answer) : Prop := answer = .ok () ∨ answer = .error .rejected

variable (answers : Answers) (requests : List Nat)

/-- The entries of an attempt that posted these requests. -/
def answered : List (Nat × Answer) :=
  requests.map fun n => (n, answers n)

theorem mem_answered {answers : Answers} {requests : List Nat} {n : Nat}
    {r : Answer} : (n, r) ∈ answered answers requests ↔ n ∈ requests ∧ r = answers n := by
  simp only [answered, mem_map, Prod.mk.injEq]
  constructor
  · rintro ⟨m, mem, rfl, rfl⟩
    exact ⟨mem, rfl⟩
  · rintro ⟨mem, rfl⟩
    exact ⟨n, mem, rfl, rfl⟩

/-- What the verdicts of requests that were all settled come to. -/
def Concludes (o : Outcomes) (result : Answer) : Prop :=
  result = .ok () ∧ (o.accepted = true ∨ (∃ n ∈ requests, answers n = .ok ()) ∨
      o.firstRejected = none ∧ requests = []) ∨
    result = .error .rejected ∧ o.accepted = false ∧ (∀ n ∈ requests, answers n = .error .rejected) ∧
      (o.firstRejected ≠ none ∨ requests ≠ [])

/-- The first requests were posted and those settled are in the journal; the attempt stopped at a request
that was not settled, or posted all. -/
structure Runs (answers : Answers) (requests : List Nat) (o : Outcomes) (ran : Ran) : Prop where
  posted : ∃ done, done <+: requests ∧ ran.posted = answered answers done
  accepted : ∀ n, (n, true) ∈ ran.journal ↔ (n, .ok ()) ∈ ran.posted
  rejected : ∀ n, (n, false) ∈ ran.journal ↔ (n, .error .rejected) ∈ ran.posted
  stops : ∀ n fault, (n, .error fault) ∈ ran.posted → fault ≠ .rejected → ran.result = .error fault
  ends : (∃ n fault, (n, .error fault) ∈ ran.posted ∧ fault ≠ .rejected ∧ ran.result = .error fault) ∨
    ran.posted = answered answers requests ∧ (∀ n ∈ requests, Settles (answers n)) ∧
      Concludes answers requests o ran.result

theorem Runs.cons {answers : Answers} {request : Nat} {rest : List Nat} {o next : Outcomes}
    {ran : Ran} (runs : Runs answers rest next ran) (settles : Settles (answers request))
    (concludes : ∀ result, Concludes answers rest next result → Concludes answers (request :: rest) o result) :
    Runs answers (request :: rest) o ⟨(request, answers request) :: ran.posted,
      (request, (answers request).isOk) :: ran.journal, ran.result⟩ where
  posted := by
    obtain ⟨done, front, posted⟩ := runs.posted
    exact ⟨request :: done, cons_prefix_cons.mpr ⟨rfl, front⟩, by rw [posted]; rfl⟩
  accepted n := by rcases settles with answer | answer <;> simp [answer, runs.accepted n, Except.toBool]
  rejected n := by rcases settles with answer | answer <;> simp [answer, runs.rejected n, Except.toBool]
  stops n fault mem other := by
    rcases mem_cons.mp mem with now | later
    · obtain ⟨-, now⟩ := Prod.mk.inj now
      rcases settles with answer | answer
      · cases now.trans answer
      · cases now.trans answer
        exact absurd rfl other
    · exact runs.stops n fault later other
  ends := by
    rcases runs.ends with ⟨n, fault, later, failed⟩ | ⟨posted, all, result⟩
    · exact .inl ⟨n, fault, mem_cons_of_mem _ later, failed⟩
    · exact .inr ⟨by rw [posted]; rfl, forall_mem_cons.mpr ⟨settles, all⟩, concludes _ result⟩

theorem runs_run (o : Outcomes) (plain : o.firstRejected = none ∨ o.firstRejected = some .rejected) :
    Runs answers requests o (run answers requests o) := by
  induction requests generalizing o with
  | nil =>
    refine ⟨⟨[], prefix_rfl, rfl⟩, by simp [run], by simp [run], by simp [run], .inr ⟨rfl, by simp, ?_⟩⟩
    rcases o with ⟨accepted, first⟩
    rcases plain with absent | present
    · obtain rfl := absent
      exact .inl ⟨rfl, .inr (.inr ⟨rfl, rfl⟩)⟩
    · obtain rfl := present
      cases accepted with
      | true => exact .inl ⟨rfl, .inl rfl⟩
      | false => exact .inr ⟨rfl, rfl, by simp, .inl (by simp)⟩
  | cons request rest ih =>
    rcases answer : answers request with fault | ⟨⟩
    · by_cases rejected : fault = .rejected
      · subst rejected
        have noted : o.note (answers request) = .ok { o with firstRejected := some .rejected } := by
          rw [answer]
          rcases plain with absent | present
          · simp [Outcomes.note, absent]
          · simp [Outcomes.note, present]
        simp only [run, noted]
        refine (ih _ (.inr rfl)).cons (.inr answer) fun result concludes => ?_
        rcases concludes with ⟨ok, accepted | ⟨n, mem, accepted⟩ | ⟨wrong, -⟩⟩ | ⟨failed, unaccepted, all, -⟩
        · exact .inl ⟨ok, .inl accepted⟩
        · exact .inl ⟨ok, .inr (.inl ⟨n, mem_cons_of_mem _ mem, accepted⟩)⟩
        · cases wrong
        · exact .inr ⟨failed, unaccepted, forall_mem_cons.mpr ⟨answer, all⟩, .inr (by simp)⟩
      · have noted : o.note (answers request) = .error fault := by
          rw [answer]
          cases fault <;> first | rfl | exact absurd rfl rejected
        simp only [run, noted]
        rw [answer]
        refine ⟨⟨[request], by simp, by rw [answered, map_singleton, answer]⟩, by simp, ?_, ?_,
          .inl ⟨request, fault, mem_singleton_self _, rejected, rfl⟩⟩
        · simp [Ne.symm rejected]
        · rintro n raised mem -
          obtain ⟨-, ⟨⟩⟩ := Prod.mk.inj (mem_singleton.mp mem)
          rfl
    · have noted : o.note (answers request) = .ok { o with accepted := true } := by
        rw [answer]
        rfl
      simp only [run, noted]
      refine (ih { o with accepted := true } plain).cons (.inl answer) fun result concludes => ?_
      rcases concludes with ⟨ok, -⟩ | ⟨-, unaccepted, -⟩
      · exact .inl ⟨ok, .inr (.inl ⟨request, mem_cons_self, answer⟩)⟩
      · cases unaccepted

/-- What one attempt posts and comes to, when some of the requests are known to be accepted and
rejected. -/
structure Tried (numbers : List Nat) (accepted rejected : Nat → Prop)
    (posted : List (Nat × Answer)) (result : Answer) : Prop where
  /-- Only requests that are not settled are posted, each once. -/
  fresh : ∀ n r, (n, r) ∈ posted → n ∈ numbers ∧ ¬accepted n ∧ ¬rejected n
  distinct : (posted.map Prod.fst).Nodup
  once : ∀ n r r', (n, r) ∈ posted → (n, r') ∈ posted → r = r'
  stops : ∀ n fault, (n, .error fault) ∈ posted → fault ≠ .rejected → result = .error fault
  /-- It stops at a request that stays open, or settles all. -/
  ends : (∃ n fault, (n, .error fault) ∈ posted ∧ fault ≠ .rejected ∧ result = .error fault) ∨
    (∀ n ∈ numbers, accepted n ∨ rejected n ∨ (n, .ok ()) ∈ posted ∨ (n, .error .rejected) ∈ posted) ∧
      (result = .ok () ∧ ((∃ n, accepted n) ∨ (∃ n, (n, .ok ()) ∈ posted) ∨ posted = []) ∨
        result = .error .rejected ∧ (∀ n, ¬accepted n) ∧
          (∀ n r, (n, r) ∈ posted → r = .error .rejected) ∧ posted ≠ [])

theorem run_tried {numbers left : List Nat} {accepted rejected : Nat → Prop} {before : Bool}
    (distinct : left.Nodup) (open_ : ∀ n, n ∈ left ↔ n ∈ numbers ∧ ¬accepted n ∧ ¬rejected n)
    (earlier : before = true ↔ ∃ n, accepted n) :
    Tried numbers accepted rejected (run answers left (.new before)).posted
      (run answers left (.new before)).result := by
  have runs := runs_run answers left (.new before) (.inl rfl)
  obtain ⟨done, front, posted⟩ := runs.posted
  refine ⟨fun n r mem => ?_, ?_, fun n r r' first second => ?_, runs.stops, runs.ends.imp_right ?_⟩
  · rw [posted] at mem
    exact (open_ n).mp (front.subset (mem_answered.mp mem).1)
  · rw [posted]
    simpa only [answered, map_map, Function.comp_def, map_id'] using distinct.sublist front.sublist
  · rw [posted] at first second
    rw [(mem_answered.mp first).2, (mem_answered.mp second).2]
  · rintro ⟨all, settles, concludes⟩
    rw [all]
    refine ⟨fun n mem => ?_, ?_⟩
    · by_cases taken : accepted n
      · exact .inl taken
      · by_cases dropped : rejected n
        · exact .inr (.inl dropped)
        · have inside := (open_ n).mpr ⟨mem, taken, dropped⟩
          exact .inr (.inr ((settles n inside).imp (fun ok => mem_answered.mpr ⟨inside, ok.symm⟩)
            fun refused => mem_answered.mpr ⟨inside, refused.symm⟩))
    · rcases concludes with ⟨ok, why⟩ | ⟨failed, unaccepted, all, some⟩
      · refine .inl ⟨ok, ?_⟩
        rcases why with known | ⟨n, inside, accepted⟩ | ⟨-, none⟩
        · exact .inl (earlier.mp known)
        · exact .inr (.inl ⟨n, mem_answered.mpr ⟨inside, accepted.symm⟩⟩)
        · exact .inr (.inr (by rw [none]; rfl))
      · refine .inr ⟨failed, fun n taken => ?_, fun n r mem => ?_, ?_⟩
        · have : before = false := unaccepted
          rw [earlier.mpr ⟨n, taken⟩] at this
          cases this
        · obtain ⟨inside, rfl⟩ := mem_answered.mp mem
          exact all n inside
        · rcases some with wrong | some
          · exact absurd rfl wrong
          · simpa [answered] using some

namespace BatchAccounting

variable {ι : Type} {a : BatchAccounting} {accepted rejected : Nat → Prop}

theorem finish_knows {e : BatchAccounting} {ran : Ran} (known : e.Knows accepted rejected)
    {answers : Answers} {requests : List Nat} {o : Outcomes} (runs : Runs answers requests o ran)
    (again : e.isFinal ran.result = false) :
    ((e.replay ran.journal).finish ran.result).Knows (fun n => accepted n ∨ (n, .ok ()) ∈ ran.posted)
        (fun n => rejected n ∨ (n, .error .rejected) ∈ ran.posted) ∧
      ((e.replay ran.journal).finish ran.result).posture = e.posture ∧
      ((e.replay ran.journal).finish ran.result).counted = e.counted := by
  obtain ⟨⟨armed, inAccepted, inRejected⟩, posture, counted⟩ := @Knows.replay e accepted rejected ran.journal known
  have same : (e.replay ran.journal).isFinal ran.result = e.isFinal ran.result := by
    rcases ran.result with fault | ⟨⟩
    · simp [isFinal, posture]
    · simp [isFinal, posture]
  have kept : (e.replay ran.journal).finish ran.result = e.replay ran.journal := by
    rw [finish, same, again]
    rfl
  rw [kept]
  refine ⟨⟨armed, fun n => ?_, fun n => ?_⟩, posture, counted⟩
  · exact (inAccepted n).trans (or_congr Iff.rfl (runs.accepted n))
  · exact (inRejected n).trans (or_congr Iff.rfl (runs.rejected n))

theorem encodeAll_frame (a : BatchAccounting) (units : List Nat) :
    ∃ counted, (a.encodeAll units).2 = { a with counted := counted } := by
  induction units generalizing a with
  | nil => exact ⟨a.counted, rfl⟩
  | cons unit units ih =>
    obtain ⟨counted, last⟩ := ih (a.encode unit).2
    refine ⟨counted, last.trans ?_⟩
    simp only [encode]
    split <;> rfl

theorem replay_frame (a : BatchAccounting) (journal : List (Nat × Bool)) :
    ∃ accepted rejected, a.replay journal = { a with accepted := accepted, rejected := rejected } := by
  induction journal generalizing a with
  | nil => exact ⟨a.accepted, a.rejected, rfl⟩
  | cons entry journal ih =>
    obtain ⟨accepted, rejected, last⟩ := ih (a.settle entry.1 entry.2)
    refine ⟨accepted, rejected, last.trans ?_⟩
    simp only [settle]
    split
    · split <;> rfl
    · rfl

/-- A result that is retried leaves the accounting as armed as it was. -/
theorem attempt_armed (a : BatchAccounting) (units : List Nat) (requests : List (Nat × ι))
    (answers : Answers)
    (again : a.isFinal (a.attempt units requests answers).1.result = false) :
    (a.attempt units requests answers).2.armed = a.armed := by
  obtain ⟨counted, encoded⟩ := encodeAll_frame a units
  simp only [attempt, encoded] at again ⊢
  obtain ⟨accepted, rejected, replayed⟩ := replay_frame { a with counted := counted } (run answers
    ((requests.map Prod.fst).filter fun n => !{ a with counted := counted }.settled n)
    (.new { a with counted := counted }.anyAccepted)).journal
  rw [replayed, finish, if_neg]
  rw [Bool.not_eq_true]
  exact again

/-- What one attempt does and, unless it is final, leaves for the next one. -/
theorem attempt_tried {units : List Nat} {requests : List (Nat × ι)}
    (knows : a.Knows accepted rejected) (distinct : (requests.map Prod.fst).Nodup)
    (distinctUnits : units.Nodup) (few : ∀ unit ∈ units, unit < 32) :
    let next := a.attempt units requests answers
    Tried (requests.map Prod.fst) accepted rejected next.1.posted next.1.result ∧
      (a.isFinal next.1.result = false → next.2.Knows (fun n => accepted n ∨ (n, .ok ()) ∈ next.1.posted)
          (fun n => rejected n ∨ (n, .error .rejected) ∈ next.1.posted) ∧
        next.2.posture = a.posture ∧ next.2.counted = (a.encodeAll units).2.counted) := by
  intro next
  obtain ⟨keeps, posture, -, -⟩ := encodeAll_spec knows.1 distinctUnits few
  have known := keeps accepted rejected knows
  have left : ∀ n, n ∈ (requests.map Prod.fst).filter (fun n => !(a.encodeAll units).2.settled n) ↔
      n ∈ requests.map Prod.fst ∧ ¬accepted n ∧ ¬rejected n := by
    intro n
    rw [mem_filter, Bool.not_eq_true', ← Bool.not_eq_true, known.settled_iff, not_or]
  refine ⟨run_tried answers (distinct.filter _) left known.anyAccepted_iff, fun again => ?_⟩
  have open_ : (a.encodeAll units).2.isFinal next.1.result = false := by simpa only [isFinal, posture] using again
  obtain ⟨learned, same, counted⟩ := finish_knows known (runs_run answers _ _ (.inl rfl)) open_
  exact ⟨learned, same.trans posture, counted⟩

end BatchAccounting

end Logit.Http
