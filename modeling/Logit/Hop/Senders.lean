import Mathlib

namespace Logit.Hop

open List Option AList Nat

structure Entry where
  mark : Nat
  lastSeen : Nat
deriving DecidableEq, Repr

/-- The high-water marks of the senders, and a clock that every touch advances. -/
structure SenderTable (ι : Type) where
  capacity : Nat
  entries : AList fun _ : ι => Entry
  tick : Nat

inductive Call (ι : Type) where
  | isResend (id : ι) (seq : Nat)
  | raise (id : ι) (seq : Nat)
  | marks (ids : List ι)
deriving DecidableEq

namespace SenderTable

variable {ι : Type}

def empty (capacity : Nat) : SenderTable ι := ⟨capacity, ∅, 0⟩

def new (maxConnections : Nat) : SenderTable ι := empty (max (maxConnections + maxConnections / 4) 1)

theorem new_capacity_pos (maxConnections : Nat) : 0 < (new maxConnections : SenderTable ι).capacity :=
  le_max_right _ 1

variable (table : SenderTable ι)

def oldest : Option ι := (table.entries.entries.argmin (·.2.lastSeen)).map (·.1)

variable [DecidableEq ι]

def isResend (id : ι) (seq : Nat) : Bool × SenderTable ι :=
  let tick := table.tick + 1
  match table.entries.lookup id with
  | some entry =>
    (seq ≤ entry.mark, { table with tick, entries := table.entries.insert id { entry with lastSeen := tick } })
  | none => (false, { table with tick })

def makeRoom : AList fun _ : ι => Entry :=
  if table.capacity ≤ table.entries.keys.length then table.oldest.elim table.entries table.entries.erase
  else table.entries

def raise (id : ι) (seq : Nat) : SenderTable ι :=
  let tick := table.tick + 1
  match table.entries.lookup id with
  | some entry => { table with tick, entries := table.entries.insert id ⟨max entry.mark seq, tick⟩ }
  | none => { table with tick, entries := table.makeRoom.insert id ⟨seq, tick⟩ }

def marks (ids : List ι) : List (ι × Nat) :=
  ids.filterMap fun id => (table.entries.lookup id).map fun entry => (id, entry.mark)

def apply : Call ι → SenderTable ι
  | .isResend id seq => (table.isResend id seq).2
  | .raise id seq => table.raise id seq
  | .marks _ => table

/-- The table after some calls, the latest one first. -/
def run (capacity : Nat) : List (Call ι) → SenderTable ι
  | [] => empty capacity
  | call :: calls => (run capacity calls).apply call

/-- The identities that calls asked about or raised, the latest first. -/
def named : List (Call ι) → List ι
  | [] => []
  | .isResend id _ :: calls => id :: named calls
  | .raise id _ :: calls => id :: named calls
  | .marks _ :: calls => named calls

/-- The numbers raised for an identity since it was last put into the table. -/
def raisedSince (capacity : Nat) : List (Call ι) → ι → List Nat
  | .raise id seq :: calls, other =>
    if id = other then
      seq :: if other ∈ (run capacity calls).entries then raisedSince capacity calls other else []
    else raisedSince capacity calls other
  | _ :: calls, other => raisedSince capacity calls other
  | [], _ => []

/-- An entry's time tells how far back the last call that names it is, and its mark is the highest
number raised since it was put in. -/
structure Follows (capacity : Nat) (calls : List (Call ι)) (table : SenderTable ι) : Prop where
  sized : table.capacity = capacity
  small : table.entries.keys.length ≤ capacity
  seen : ∀ id entry, table.entries.lookup id = some entry →
    id ∈ named calls ∧ entry.lastSeen + (named calls).idxOf id = table.tick
  highest : ∀ id entry, table.entries.lookup id = some entry →
    entry.mark ∈ raisedSince capacity calls id ∧ ∀ seq ∈ raisedSince capacity calls id, seq ≤ entry.mark

variable {capacity : Nat} {table : SenderTable ι} {calls : List (Call ι)} {call : Call ι} {id : ι}

theorem mem_of_lookup {entry : Entry} (found : table.entries.lookup id = some entry) : id ∈ table.entries :=
  lookup_isSome.mp (by rw [found]; rfl)

omit [DecidableEq ι] in
theorem mem_of_oldest {victim : ι} (found : table.oldest = some victim) : victim ∈ table.entries := by
  obtain ⟨e, first, rfl⟩ := map_eq_some_iff.mp found
  exact mem_map_of_mem (argmin_mem first)

theorem makeRoom_cases (positive : 0 < table.capacity) :
    table.makeRoom = table.entries ∧ table.entries.keys.length < table.capacity ∨
      ∃ victim, table.oldest = some victim ∧ table.makeRoom = table.entries.erase victim ∧
        table.capacity ≤ table.entries.keys.length := by
  by_cases full : table.capacity ≤ table.entries.keys.length
  · cases least : table.oldest with
    | none =>
      have none := argmin_eq_none.mp (map_eq_none_iff.mp least)
      simp [AList.keys, none] at full
      omega
    | some victim => exact .inr ⟨victim, rfl, by rw [makeRoom, if_pos full, least, elim_some], full⟩
  · exact .inl ⟨if_neg full, by omega⟩

/-- Whoever is put out of the table was named before everyone else it holds. -/
theorem Follows.oldest (follows : Follows capacity calls table) {victim : ι} (found : table.oldest = some victim) :
    ∀ other ∈ table.entries, other ≠ victim → (named calls).idxOf other < (named calls).idxOf victim := by
  intro other held different
  obtain ⟨⟨_, least⟩, first, rfl⟩ := map_eq_some_iff.mp found
  obtain ⟨entry, here⟩ := isSome_iff_exists.mp (lookup_isSome.mpr held)
  have least_le := le_of_mem_argmin (mem_lookup_iff.mp here) first
  obtain ⟨mem, time⟩ := follows.seen _ _ (mem_lookup_iff.mpr (argmin_mem first))
  obtain ⟨_, time'⟩ := follows.seen _ _ here
  have apart : (named calls).idxOf other ≠ (named calls).idxOf _ := fun same =>
    different (idxOf_inj mem |>.mp same.symm).symm
  simp only at least_le time apart ⊢
  omega

/-- A call that names an identity the table then holds, beside some of those it held. -/
theorem Follows.insert {kept : AList fun _ : ι => Entry} {mark : Nat} (follows : Follows capacity calls table)
    (names : named (call :: calls) = id :: named calls)
    (old : ∀ other entry, kept.lookup other = some entry → table.entries.lookup other = some entry)
    (room : (kept.keys.erase id).length < capacity)
    (same : ∀ other, other ≠ id → raisedSince capacity (call :: calls) other = raisedSince capacity calls other)
    (highest : mark ∈ raisedSince capacity (call :: calls) id ∧
      ∀ seq ∈ raisedSince capacity (call :: calls) id, seq ≤ mark) : Follows capacity (call :: calls)
      { table with tick := table.tick + 1, entries := kept.insert id ⟨mark, table.tick + 1⟩ } := by
  refine ⟨follows.sized, ?_, fun other entry found => ?_, fun other entry found => ?_⟩
  · rw [keys_insert]
    exact room
  · by_cases here : other = id
    · rw [here, lookup_insert] at found
      cases found
      simp [names, here]
    · rw [lookup_insert_ne here] at found
      obtain ⟨mem, time⟩ := follows.seen other entry (old other entry found)
      rw [names, idxOf_cons_ne _ (Ne.symm here)]
      exact ⟨.tail _ mem, congrArg succ time⟩
  · by_cases here : other = id
    · rw [here, lookup_insert] at found
      cases found
      exact here ▸ highest
    · rw [lookup_insert_ne here] at found
      rw [same other here]
      exact follows.highest other entry (old other entry found)

/-- One call keeps the table in step with the calls. -/
theorem Follows.apply (follows : Follows capacity calls table) (positive : 0 < capacity)
    (reached : run capacity calls = table) : Follows capacity (call :: calls) (table.apply call) := by
  have room {id : ι} (held : id ∈ table.entries) : (table.entries.keys.erase id).length < capacity := by
    have small := follows.small
    rw [length_erase_of_mem held]
    omega
  cases call with
  | marks ids => exact { follows with }
  | isResend id seq =>
    rw [SenderTable.apply, isResend]
    cases found : table.entries.lookup id with
    | none =>
      refine ⟨follows.sized, follows.small, fun other entry here => ?_, follows.highest⟩
      obtain ⟨mem, time⟩ := follows.seen other entry here
      have different : id ≠ other := by
        rintro rfl
        cases found.symm.trans here
      rw [named, idxOf_cons_ne _ different]
      exact ⟨.tail _ mem, congrArg succ time⟩
    | some entry =>
      exact follows.insert rfl (fun _ _ found => found) (room (mem_of_lookup found)) (fun _ _ => rfl)
        (follows.highest id entry found)
  | raise id seq =>
    have same : ∀ other, other ≠ id →
        raisedSince capacity (.raise id seq :: calls) other = raisedSince capacity calls other :=
      fun other different => by rw [raisedSince, if_neg different.symm]
    rw [SenderTable.apply, raise]
    cases found : table.entries.lookup id with
    | some entry =>
      have held := mem_of_lookup found
      obtain ⟨mem, highest⟩ := follows.highest id entry found
      refine follows.insert rfl (fun _ _ found => found) (room held) same ?_
      rw [raisedSince, if_pos rfl, reached, if_pos held]
      refine ⟨?_, forall_mem_cons.mpr ⟨le_max_right _ _, fun other inside => ?_⟩⟩
      · rcases max_choice entry.mark seq with same | same <;> rw [same]
        · exact .tail _ mem
        · exact .head _
      · exact (highest other inside).trans (le_max_left _ _)
    | none =>
      have vacant := lookup_eq_none.mp found
      have own : seq ∈ raisedSince capacity (.raise id seq :: calls) id ∧
          ∀ other ∈ raisedSince capacity (.raise id seq :: calls) id, other ≤ seq := by
        rw [raisedSince, reached, if_neg vacant]
        simp
      rcases makeRoom_cases (follows.sized ▸ positive) with ⟨kept, less⟩ | ⟨victim, least, kept, _⟩
      · rw [kept]
        refine follows.insert rfl (fun _ _ found => found) ?_ same own
        rw [erase_of_not_mem vacant]
        exact follows.sized ▸ less
      · rw [kept]
        refine follows.insert rfl (fun other entry found => ?_) ?_ same own
        · by_cases here : other = victim
          · rw [here, lookup_erase] at found
            cases found
          · rwa [lookup_erase_ne here] at found
        · rw [keys_erase]
          exact (length_erase_le).trans_lt (room (mem_of_oldest least))

theorem follows_run (positive : 0 < capacity) (calls : List (Call ι)) :
    Follows capacity calls (run capacity calls) := by
  induction calls with
  | nil => exact ⟨rfl, zero_le _, nofun, nofun⟩
  | cons call calls ih => exact ih.apply positive rfl

/-- Nobody leaves but the oldest, and only for a new identity when the table is full. -/
theorem Follows.evicted (follows : Follows capacity calls table) (positive : 0 < capacity) {victim : ι}
    (held : victim ∈ table.entries) (gone : victim ∉ (table.apply call).entries) :
    (∃ id seq, call = .raise id seq ∧ id ∉ table.entries) ∧ table.entries.keys.length = capacity ∧
      table.oldest = some victim := by
  cases call with
  | marks ids => exact absurd held gone
  | isResend id seq =>
    rw [SenderTable.apply, isResend] at gone
    split at gone
    · exact absurd (mem_insert _ |>.mpr (.inr held)) gone
    · exact absurd held gone
  | raise id seq =>
    rw [SenderTable.apply, raise] at gone
    split at gone
    · exact absurd (mem_insert _ |>.mpr (.inr held)) gone
    · rename_i found
      refine ⟨⟨id, seq, rfl, lookup_eq_none.mp found⟩, ?_⟩
      rw [mem_insert, not_or] at gone
      rcases makeRoom_cases (follows.sized ▸ positive) with ⟨kept, _⟩ | ⟨other, least, kept, full⟩
      · exact absurd held (kept ▸ gone.2)
      · have same : victim = other := by
          by_contra different
          exact gone.2 (kept ▸ mem_erase.mpr ⟨different, held⟩)
        exact ⟨le_antisymm follows.small (follows.sized ▸ full), same ▸ least⟩

theorem raisedSince_subset (held : id ∈ (run capacity calls).entries) (call : Call ι) :
    raisedSince capacity calls id ⊆ raisedSince capacity (call :: calls) id := by
  intro seq mem
  cases call with
  | marks ids | isResend other n => exact mem
  | raise other n =>
    rw [raisedSince]
    split
    · exact .tail _ mem
    · exact mem

/-- The table of a run of calls: it is bounded, an entry's mark is the highest raised since its identity came in,
marks only rise, a resend is a number at or under its identity's mark, and only an identity that comes in to a full
table puts one out, the one named longest ago. -/
theorem table_recency (positive : 0 < capacity) (calls : List (Call ι)) :
    (run capacity calls).entries.keys.length ≤ capacity ∧
    (∀ id entry, (run capacity calls).entries.lookup id = some entry →
      entry.mark ∈ raisedSince capacity calls id ∧ ∀ seq ∈ raisedSince capacity calls id, seq ≤ entry.mark) ∧
    (∀ call id before after, (run capacity calls).entries.lookup id = some before →
      (run capacity (call :: calls)).entries.lookup id = some after → before.mark ≤ after.mark) ∧
    (∀ id seq, ((run capacity calls).isResend id seq).1 ↔
      ∃ entry, (run capacity calls).entries.lookup id = some entry ∧ seq ≤ entry.mark) ∧
    (∀ call, ∀ victim ∈ (run capacity calls).entries, victim ∉ (run capacity (call :: calls)).entries →
      (∃ id seq, call = .raise id seq ∧ id ∉ (run capacity calls).entries) ∧
      (run capacity calls).entries.keys.length = capacity ∧
      ∀ other ∈ (run capacity calls).entries, other ≠ victim →
        (named calls).idxOf other < (named calls).idxOf victim) ∧
    ∀ ids, run capacity (.marks ids :: calls) = run capacity calls := by
  have follows := follows_run positive calls
  refine ⟨follows.small, follows.highest, fun call id before after held stays => ?_, fun id seq => ?_,
    fun call victim held gone => ?_, fun _ => rfl⟩
  · have earlier := (follows.highest id before held).1
    exact ((follows_run positive (call :: calls)).highest id after stays).2 _
      (raisedSince_subset (mem_of_lookup held) call earlier)
  · rw [isResend]
    cases found : (run capacity calls).entries.lookup id <;> simp
  · obtain ⟨raised, full, least⟩ := follows.evicted positive held gone
    exact ⟨raised, full, follows.oldest least⟩

theorem table_recency_two :
    let calls : List (Call Nat) := [.raise 1 4, .raise 0 5, .raise 1 7]
    0 ∈ (run 2 calls).entries ∧ 0 ∉ (run 2 (.raise 2 9 :: calls)).entries ∧
      (named calls).idxOf 1 < (named calls).idxOf 0 := by
  intro calls
  have held : 0 ∈ (run 2 calls).entries := by decide
  have gone : 0 ∉ (run 2 (.raise 2 9 :: calls)).entries := by decide
  obtain ⟨-, -, -, -, evicted, -⟩ := table_recency (by decide : 0 < 2) calls
  exact ⟨held, gone, (evicted _ 0 held gone).2.2 1 (by decide) (by decide)⟩

/-- Being asked about keeps an identity as much as being raised does. -/
theorem asked_outlives_raised :
    let table : SenderTable Nat := run 2 [.isResend 0 1, .raise 1 1, .raise 0 1]
    (table.raise 2 1).entries.keys = [2, 0] := by decide

theorem raised_of_mem {seq : Nat} (mem : seq ∈ raisedSince capacity calls id) : .raise id seq ∈ calls := by
  induction calls with
  | nil => cases mem
  | cons call calls ih =>
    unfold raisedSince at mem
    grind

theorem mem_named_of_idxOf_lt {recent : List (Call ι)} {seq : Nat} {other : ι}
    (later : (named (recent ++ .raise id seq :: calls)).idxOf other <
      (named (recent ++ .raise id seq :: calls)).idxOf id) : other ∈ named recent := by
  induction recent with
  | nil => simp [named] at later
  | cons call recent ih => cases call <;> grind [named]

/-- To put an identity out, the calls since its last raise must name as many others as the table holds. -/
theorem held_among {others : Finset ι} (few : others.card < capacity) (seq : Nat) (recent : List (Call ι))
    (only : ∀ other ∈ named recent, other ≠ id → other ∈ others) :
    id ∈ (run capacity (recent ++ .raise id seq :: calls)).entries ∧
      seq ∈ raisedSince capacity (recent ++ .raise id seq :: calls) id := by
  induction recent with
  | nil =>
    simp only [nil_append, run, apply, raise, raisedSince]
    split <;> simp
  | cons call recent ih =>
    obtain ⟨held, raised⟩ := ih fun other here => only other (by cases call <;> simp [named, here])
    refine ⟨by_contra fun gone => few.not_ge ?_, raisedSince_subset held call raised⟩
    have follows := follows_run few.pos (recent ++ .raise id seq :: calls)
    obtain ⟨⟨other, n, rfl, fresh⟩, full, least⟩ := follows.evicted few.pos held gone
    have distinct := nodup_cons.mpr ⟨fun here => fresh (mem_of_mem_erase here), (keys_nodup _).erase id⟩
    rw [← full, ← length_erase_add_one held, ← length_cons, ← toFinset_card_of_nodup distinct]
    -- Everyone else in the table was named after the identity, and so is the one that comes in.
    refine Finset.card_le_card fun x here => ?_
    rcases mem_cons.mp (mem_toFinset.mp here) with rfl | here
    · exact only x (.head _) fun same => fresh (same ▸ held)
    · obtain ⟨different, here⟩ := (keys_nodup _).mem_erase_iff.mp here
      exact only x (.tail _ (mem_named_of_idxOf_lt (follows.oldest least x here different))) different

/-- Nothing counts as sent again that was not raised, and a raised number is remembered as long as
fewer other identities than the table has room for are named. -/
theorem resends_detected (maxConnections : Nat) (calls : List (Call ι)) (id : ι) :
    let capacity := (new maxConnections : SenderTable ι).capacity
    (∀ seq, ((run capacity calls).isResend id seq).1 → ∃ mark, seq ≤ mark ∧ .raise id mark ∈ calls) ∧
    ∀ (recent : List (Call ι)) (others : Finset ι) (mark : Nat), others.card < capacity →
      (∀ other ∈ named recent, other ≠ id → other ∈ others) →
      ∀ seq ≤ mark, ((run capacity (recent ++ .raise id mark :: calls)).isResend id seq).1 := by
  intro capacity
  refine ⟨fun seq resend => ?_, fun recent others mark few only seq below => ?_⟩
  · rw [isResend] at resend
    split at resend
    · rename_i entry found
      have highest := (follows_run (@new_capacity_pos ι maxConnections) calls).highest id entry found
      exact ⟨_, of_decide_eq_true resend, raised_of_mem highest.1⟩
    · cases resend
  · obtain ⟨held, raised⟩ := held_among few mark recent only
    obtain ⟨entry, found⟩ := isSome_iff_exists.mp (lookup_isSome.mpr held)
    have highest := ((follows_run few.pos _).highest id entry found).2 mark raised
    rw [isResend, found]
    exact decide_eq_true (below.trans highest)

end SenderTable

end Logit.Hop
