import Logit.Sink.Buffer

namespace Logit.Sink.InMemoryBuffer

open List Prod Nat

variable {T : Type}

def total (b : InMemoryBuffer T) : Nat := (b.items.map Prod.snd).sum

def unreserved (b : InMemoryBuffer T) : List (T × Nat) := b.items.drop b.reserved

/-- A buffer without so many of its oldest unreserved items. -/
def without (b : InMemoryBuffer T) (n : Nat) : InMemoryBuffer T :=
  { b with
    items := b.items.take b.reserved ++ b.unreserved.drop n
    weight := b.weight - ((b.unreserved.take n).map Prod.snd).sum }

variable {b : InMemoryBuffer T}

theorem without_zero : b.without 0 = b := by
  simp [without, unreserved]

theorem total_without (n : Nat) : (b.without n).total + ((b.unreserved.take n).map snd).sum = b.total := by
  have whole : b.items = b.items.take b.reserved ++ (b.unreserved.take n ++ b.unreserved.drop n) := by
    rw [take_append_drop, unreserved, take_append_drop]
  rw [total, total, congrArg (List.map snd) whole]
  simp only [without, map_append, sum_append_nat]
  omega

theorem without_succ {first : T × Nat} (found : b.items[b.reserved]? = some first) :
    let evicted := { b with items := b.items.eraseIdx b.reserved, weight := b.weight - first.2 }
    b.unreserved = first :: evicted.unreserved ∧ ∀ n, evicted.without n = b.without (n + 1) := by
  intro evicted
  obtain ⟨bound, here⟩ := List.getElem?_eq_some_iff.mp found
  have front := length_take_of_le bound.le
  have items : evicted.items = b.items.take b.reserved ++ b.items.drop (b.reserved + 1) :=
    eraseIdx_eq_take_drop_succ ..
  have rest : evicted.unreserved = b.items.drop (b.reserved + 1) := by rw [unreserved, items, drop_left' front]
  have split : b.unreserved = first :: evicted.unreserved := by
    rw [rest, unreserved, drop_eq_getElem_cons bound, here]
  refine ⟨split, fun n => ?_⟩
  have kept : evicted.items.take evicted.reserved = b.items.take b.reserved := by rw [items, take_left' front]
  simp only [without, split, kept, take_succ_cons, map_cons, sum_cons, ← Nat.sub_sub]
  rfl

theorem evictLoop_spec (weight : Nat) {rounds : Nat} (enough : b.unreserved.length ≤ rounds) :
    ∃ n ≤ b.unreserved.length, evictLoop weight rounds b = (b.without n, (b.unreserved.take n).map fst) ∧
      (∀ m < n, (b.without m).wouldOverflow weight) ∧
      (n = b.unreserved.length ∨ (b.without n).wouldOverflow weight = false) := by
  induction rounds generalizing b with
  | zero =>
    refine ⟨0, zero_le _, ?_, by simp, .inl (le_zero.mp enough).symm⟩
    rw [without_zero]
    rfl
  | succ rounds ih =>
    rw [evictLoop]
    split
    · cases found : b.items[b.reserved]? with
      | none =>
        have all : b.unreserved = [] := drop_eq_nil_iff.mpr (getElem?_eq_none_iff.mp found)
        refine ⟨0, zero_le _, ?_, by simp, .inl (by rw [all]; rfl)⟩
        rw [without_zero]
        rfl
      | some first =>
        obtain ⟨rest, next⟩ := without_succ found
        have shorter := enough
        rw [rest] at shorter
        obtain ⟨n, few, same, before, done⟩ := ih (le_of_succ_le_succ shorter)
        simp only [next] at same before done
        refine ⟨n + 1, ?_, ?_, fun m less => ?_, ?_⟩
        · rw [rest]
          exact succ_le_succ few
        · rw [rest, take_succ_cons, map_cons]
          simp [same]
        · cases m with
          | zero => rwa [without_zero]
          | succ m => exact before m (lt_of_succ_lt_succ less)
        · rw [rest]
          exact done.imp_left (congrArg (· + 1))
    · rename_i fits
      refine ⟨0, zero_le _, ?_, by simp, .inr ?_⟩
      · rw [without_zero]
        rfl
      · rw [without_zero]
        exact Bool.eq_false_iff.mpr fits

theorem push_full (item : T) {weight : Nat} (full : b.wouldOverflow weight) (policy : b.overflow = .dropOldest) :
    ∃ n ≤ b.unreserved.length, b.push item weight =
        ((b.without n).pushBack item weight, .evicted ((b.unreserved.take n).map fst)) ∧
      (∀ m < n, (b.without m).wouldOverflow weight) ∧
      (n = b.unreserved.length ∨ (b.without n).wouldOverflow weight = false) := by
  obtain ⟨n, few, same, spec⟩ := evictLoop_spec weight (length_drop ..).le
  refine ⟨n, few, ?_, spec⟩
  rw [push, full, policy]
  simp [evictToFit, same]

theorem push_cases (b : InMemoryBuffer T) (item : T) (weight : Nat) :
    (b.push item weight).1 = b ∨ ∃ n, (b.push item weight).1 = (b.without n).pushBack item weight := by
  by_cases full : b.wouldOverflow weight = true
  · cases policy : b.overflow with
    | dropOldest =>
      obtain ⟨n, _, same, _⟩ := push_full item full policy
      exact .inr ⟨n, by rw [same]⟩
    | dropNewest => exact .inl (by simp [push, full, policy])
  · exact .inr ⟨0, by simp [push, full, without_zero]⟩

section

variable (held : b.reserved ≤ b.items.length)
include held

theorem push_held (item : T) (weight : Nat) :
    (b.push item weight).1.reserved ≤ (b.push item weight).1.items.length := by
  rcases push_cases b item weight with same | ⟨n, same⟩ <;> rw [same]
  · exact held
  · simp only [pushBack, without, length_append, length_take_of_le held]
    omega

theorem peekAt_held (n : Nat) : (b.peekAt n).1.reserved ≤ (b.peekAt n).1.items.length := by
  rw [peekAt]
  split
  · exact held
  · rename_i found
    obtain ⟨bound, _⟩ := List.getElem?_eq_some_iff.mp found
    exact Nat.max_le.mpr ⟨held, bound⟩

theorem commit_held : b.commit.1.reserved ≤ b.commit.1.items.length := by
  rw [commit]
  split
  · simp only at held ⊢
    omega
  · rename_i some
    rw [some, length_cons] at held
    simp only
    omega

theorem commit_empty (none : b.items = []) : b.commit = (b, Option.none) := by
  have free : b.reserved = 0 := by simpa [none] using held
  obtain ⟨items, maxLen, maxWeight, weight, overflow, reserved⟩ := b
  cases none
  cases free
  rfl

end

theorem commit_peekAt {b' : InMemoryBuffer T} {item : T} (found : b.peekAt 0 = (b', some item)) :
    b'.commit = b.commit := by
  obtain ⟨items, maxLen, maxWeight, weight, overflow, reserved⟩ := b
  cases items with
  | nil => cases found
  | cons first rest =>
    cases found
    simp only [commit]
    congr 2
    omega

/-- A call on the buffer. -/
inductive Op (T : Type)
  | push (item : T) (weight : Nat)
  | peekAt (n : Nat)
  | commit

def apply (b : InMemoryBuffer T) : Op T → InMemoryBuffer T
  | .push item weight => (b.push item weight).1
  | .peekAt n => (b.peekAt n).1
  | .commit => b.commit.1

def after (b : InMemoryBuffer T) (ops : List (Op T)) : InMemoryBuffer T := ops.foldl apply b

def Op.commits : Op T → Nat
  | .push .. => 0
  | .peekAt .. => 0
  | .commit => 1

theorem apply_held (held : b.reserved ≤ b.items.length) (op : Op T) :
    (b.apply op).reserved ≤ (b.apply op).items.length := by
  cases op with
  | push item weight => exact push_held held item weight
  | peekAt n => exact peekAt_held held n
  | commit => exact commit_held held

theorem after_held (held : b.reserved ≤ b.items.length) (ops : List (Op T)) :
    (b.after ops).reserved ≤ (b.after ops).items.length := by
  induction ops generalizing b with
  | nil => exact held
  | cons op ops ih => exact ih (apply_held held op)

/-- What is reserved moves up with each commit, and with nothing else. -/
theorem apply_reserved (held : b.reserved ≤ b.items.length) {i : Nat} (op : Op T)
    (inside : op.commits + i < b.reserved) :
    i < (b.apply op).reserved ∧ (b.apply op).items[i]? = b.items[op.commits + i]? := by
  cases op with
  | push item weight =>
    rw [Op.commits, zero_add] at inside ⊢
    rcases push_cases b item weight with same | ⟨n, same⟩ <;> rw [apply, same]
    · exact ⟨inside, rfl⟩
    · refine ⟨inside, ?_⟩
      have front : i < (b.items.take b.reserved).length := by
        rw [length_take_of_le held]
        exact inside
      simp only [pushBack, without, append_assoc]
      rw [getElem?_append_left front, getElem?_take_of_lt inside]
  | peekAt n =>
    rw [Op.commits, zero_add] at inside ⊢
    rw [apply, peekAt]
    split
    · exact ⟨inside, rfl⟩
    · exact ⟨inside.trans_le (le_max_left _ _), rfl⟩
  | commit =>
    rw [add_comm] at inside ⊢
    rw [apply, commit]
    split
    · rename_i none
      rw [none] at held
      simp only [length_nil] at held
      omega
    · rename_i some
      rw [some]
      exact ⟨lt_sub_of_add_lt inside, rfl⟩

theorem after_reserved (held : b.reserved ≤ b.items.length) {i : Nat} (ops : List (Op T))
    (inside : (ops.map Op.commits).sum + i < b.reserved) :
    (b.after ops).items[i]? = b.items[(ops.map Op.commits).sum + i]? := by
  induction ops generalizing b with
  | nil => simp [after]
  | cons op ops ih =>
    rw [map_cons, sum_cons, add_assoc] at inside ⊢
    obtain ⟨still, same⟩ := apply_reserved held op inside
    rw [← same]
    exact ih (apply_held held op) still

theorem total_pushBack (b : InMemoryBuffer T) (item : T) (weight : Nat) :
    (b.pushBack item weight).total = b.total + weight := by simp [total, pushBack]

/-- The tracked weight falls behind the items' weights only where their sum does not fit. -/
theorem apply_weight (op : Op T) (below : b.weight ≤ b.total) : (b.apply op).weight ≤ (b.apply op).total ∧
      (b.weight = b.total → (b.apply op).total ≤ u64Limit → (b.apply op).weight = (b.apply op).total) := by
  cases op with
  | push item weight =>
    rcases push_cases b item weight with same | ⟨n, same⟩ <;> rw [apply, same]
    · exact ⟨below, fun exact_ _ => exact_⟩
    · have rest := b.total_without n
      have weight_eq : ((b.without n).pushBack item weight).weight =
          min (b.weight - ((b.unreserved.take n).map snd).sum + weight) u64Limit := rfl
      rw [total_pushBack]
      omega
  | peekAt n =>
    rw [apply, peekAt]
    split <;> exact ⟨below, fun exact_ _ => exact_⟩
  | commit =>
    rw [apply, commit]
    split
    · exact ⟨below, fun exact_ _ => exact_⟩
    · rename_i rest some
      simp only [total, some, map_cons, sum_cons] at below ⊢
      omega

theorem after_weight (ops : List (Op T)) (below : b.weight ≤ b.total) : (b.after ops).weight ≤ (b.after ops).total ∧
      (b.weight = b.total → (∀ earlier, earlier <+: ops → (b.after earlier).total ≤ u64Limit) →
        (b.after ops).weight = (b.after ops).total) := by
  induction ops generalizing b with
  | nil => exact ⟨below, fun same _ => same⟩
  | cons op ops ih =>
    obtain ⟨one, exactly⟩ := apply_weight op below
    obtain ⟨all, exactlyAll⟩ := ih one
    refine ⟨all, fun same small => exactlyAll (exactly same (small [op] (by simp))) fun earlier first => ?_⟩
    exact small (op :: earlier) (cons_prefix_cons.mpr ⟨rfl, first⟩)

/-- Over every run: the reserved items are there and stay where they are until commits remove them;
`DropOldest` evicts the shortest run of the oldest unreserved items that makes room, or all of them;
and the weight is the sum of the items' weights, as long as that fits, and never more. -/
theorem buffer_reserves (maxLen maxWeight : Nat) (overflow : DropPolicy) (ops : List (Op T)) :
    let b := (new maxLen maxWeight overflow).after ops
    b.reserved ≤ b.items.length ∧
    (∀ n item, (b.peekAt n).2 = some item → ∀ later : List (Op T), (later.map Op.commits).sum ≤ n →
      ((b.peekAt n).1.after later).items[n - (later.map Op.commits).sum]?.map fst = some item) ∧
    (∀ item weight, b.overflow = .dropOldest → b.wouldOverflow weight →
      ∃ n ≤ b.unreserved.length, b.push item weight =
          ((b.without n).pushBack item weight, .evicted ((b.unreserved.take n).map fst)) ∧
        (∀ m < n, (b.without m).wouldOverflow weight) ∧
        (n = b.unreserved.length ∨ (b.without n).wouldOverflow weight = false)) ∧
    ((∀ earlier, earlier <+: ops → ((new maxLen maxWeight overflow).after earlier).total ≤ u64Limit) →
      b.weight = b.total) ∧
    b.weight ≤ b.total ∧ (b.items = [] → b.weight = 0) := by
  intro b
  have held : b.reserved ≤ b.items.length := after_held (zero_le _) ops
  obtain ⟨below, exactly⟩ := after_weight (b := new maxLen maxWeight overflow) ops le_rfl
  refine ⟨held, fun n item found later few => ?_, fun item weight policy full => push_full item full policy,
    exactly rfl, below, fun none => ?_⟩
  · have again := peekAt_held held n
    rw [peekAt] at found again ⊢
    split at found
    · cases found
    · rename_i here
      cases found
      simp only [here] at again ⊢
      have place : (later.map Op.commits).sum + (n - (later.map Op.commits).sum) = n := by omega
      rw [after_reserved again later (place.trans_lt (lt_succ_self n |>.trans_le (Nat.le_max_right _ _))), place]
      exact congrArg (Option.map fst) here
  · have nothing : b.total = 0 := by rw [total, none]; rfl
    exact le_zero.mp (nothing ▸ below)

def Op.pushed : Op T → List T
  | .push item _ => [item]
  | .peekAt _ | .commit => []

/-- The items a call commits, and those it drops and names to its caller. -/
def left (b : InMemoryBuffer T) : Op T → List T × List T
  | .push item weight => ([], match (b.push item weight).2 with
    | .accepted => []
    | .evicted items => items
    | .rejected item => [item])
  | .peekAt _ => ([], [])
  | .commit => (b.commit.2.toList, [])

def lefts : InMemoryBuffer T → List (Op T) → List T × List T
  | _, [] => ([], [])
  | b, op :: ops => ((b.left op).1 ++ (lefts (b.apply op) ops).1, (b.left op).2 ++ (lefts (b.apply op) ops).2)

theorem apply_conserves (op : Op T) :
    (b.left op).1 ++ ((b.left op).2 ++ (b.apply op).items.map fst) ~ b.items.map fst ++ op.pushed ∧
      (b.left op).1 ++ (b.apply op).items.map fst <+ b.items.map fst ++ op.pushed := by
  cases op with
  | peekAt n => cases found : b.items[n]? <;> simp [left, apply, Op.pushed, peekAt, found]
  | commit => cases held : b.items <;> simp [left, apply, Op.pushed, commit, held]
  | push item weight =>
    by_cases full : b.wouldOverflow weight
    · cases policy : b.overflow with
      | dropNewest => simpa [left, apply, push, full, policy, Op.pushed] using (perm_append_singleton item _).symm
      | dropOldest =>
        obtain ⟨n, _, same, _⟩ := push_full item full policy
        have whole : b.items = b.items.take b.reserved ++ (b.unreserved.take n ++ b.unreserved.drop n) := by
          rw [take_append_drop, unreserved, take_append_drop]
        rw [congrArg (List.map fst) whole]
        simp only [left, apply, same, Op.pushed, pushBack, without, map_append, append_assoc, nil_append]
        exact ⟨perm_append_comm_assoc _ _ _, (sublist_append_right _ _).append_left _⟩
    · simp [left, apply, push, full, Op.pushed, pushBack]

/-- Every item pushed is committed, dropped by name or still there, and the drops apart they leave in
the order they came. -/
theorem items_conserved (b : InMemoryBuffer T) (ops : List (Op T)) :
    (b.lefts ops).1 ++ ((b.lefts ops).2 ++ (b.after ops).items.map fst) ~ b.items.map fst ++ ops.flatMap Op.pushed ∧
      (b.lefts ops).1 ++ (b.after ops).items.map fst <+ b.items.map fst ++ ops.flatMap Op.pushed := by
  induction ops generalizing b with
  | nil => simp [lefts, after]
  | cons op ops ih =>
    obtain ⟨same, ordered⟩ := apply_conserves (b := b) op
    obtain ⟨rest, restOrdered⟩ := ih (b.apply op)
    constructor
    · simp only [lefts, after, flatMap_cons, foldl_cons, ← Multiset.coe_eq_coe, ← Multiset.coe_add] at *
      rw [← add_assoc (b.items.map fst : Multiset T), ← same]
      simp only [add_assoc, ← rest]
      abel
    · have longer := ordered.append_right (ops.flatMap Op.pushed)
      simp only [append_assoc] at longer
      simpa [lefts, after] using (restOrdered.append_left _).trans longer

end Logit.Sink.InMemoryBuffer
