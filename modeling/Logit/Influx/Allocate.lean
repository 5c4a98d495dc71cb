import Logit.Influx.Encode

namespace Logit.Influx

open Int64 List Option

variable {nextFree : NextFree}

/-- Whether an instant is taken. -/
def Taken (nextFree : NextFree) (t : Int64) : Prop := (nextFree t).isSome = true

/-- A taken instant points to a later one, past taken instants only. -/
def Points (nextFree : NextFree) : Prop := ∀ t n, nextFree t = some n → t.toInt < n.toInt ∧
    ∀ u : Int64, t.toInt ≤ u.toInt → u.toInt < n.toInt → Taken nextFree u

theorem points_none : Points fun _ => none := fun _ _ found => nomatch found

/-- `t` is the first free instant from `cur` on, and what was visited lies between the two. -/
structure Ends (nextFree : NextFree) (cur : Int64) (visited : List Int64) (t : Int64) : Prop where
  passed : ∀ u ∈ visited, cur.toInt ≤ u.toInt ∧ u.toInt < t.toInt
  low : cur.toInt ≤ t.toInt
  free : nextFree t = none
  first : ∀ u : Int64, cur.toInt ≤ u.toInt → u.toInt < t.toInt → Taken nextFree u

/-- With a step for each instant that is left, the walk ends at the first free one. -/
theorem walk_ends (points : Points nextFree) {n : Nat} {cur : Int64} (enough : 2 ^ 63 - cur.toInt ≤ n) :
    Ends nextFree cur (walk nextFree n cur).1 (walk nextFree n cur).2 := by
  induction n generalizing cur with
  | zero =>
    have below := toInt_lt cur
    omega
  | succ n ih =>
    simp only [walk]
    cases found : nextFree cur with
    | none =>
      show Ends nextFree cur [] cur
      exact ⟨by simp, by omega, found, fun u low high => by omega⟩
    | some next =>
      show Ends nextFree cur (cur :: (walk nextFree n next).1) (walk nextFree n next).2
      obtain ⟨later, between⟩ := points cur next found
      have rest := @ih next (by omega)
      have low := rest.low
      refine ⟨?_, by omega, rest.free, ?_⟩
      · intro u mem
        rcases mem_cons.mp mem with own | further
        · subst own
          omega
        · have passed := rest.passed u further
          omega
      · intro u below above
        by_cases past : next.toInt ≤ u.toInt
        · exact rest.first u past above
        · exact between u below (by omega)

/-- What an allocation gives: the first free instant from the requested one on, which is taken then and
nothing else. -/
structure Allocated (nextFree : NextFree) (requested t : Int64) (after : NextFree) : Prop where
  low : requested.toInt ≤ t.toInt
  high : t.toInt < 2 ^ 63 - 1
  free : nextFree t = none
  first : ∀ u : Int64, requested.toInt ≤ u.toInt → u.toInt < t.toInt → Taken nextFree u
  points : Points after
  taken : ∀ u, Taken after u ↔ u = t ∨ Taken nextFree u

theorem Ends.taken {cur t : Int64} {visited : List Int64} (ends : Ends nextFree cur visited t) (u : Int64) :
    Taken (fun u => if u = t ∨ u ∈ visited then some (t + 1) else nextFree u) u ↔ u = t ∨ Taken nextFree u := by
  simp only [Taken]
  by_cases own : u = t ∨ u ∈ visited
  · rw [if_pos own]
    refine ⟨fun _ => own.imp_right fun mem => ?_, fun _ => rfl⟩
    exact ends.first u (ends.passed u mem).1 (ends.passed u mem).2
  · rw [if_neg own]
    have other : u ≠ t := fun same => own (.inl same)
    simp [other]

theorem Ends.points {cur t : Int64} {visited : List Int64} (ends : Ends nextFree cur visited t)
    (points : Points nextFree) (next : (t + 1).toInt = t.toInt + 1) :
    Points fun u => if u = t ∨ u ∈ visited then some (t + 1) else nextFree u := by
  intro u n found
  simp only at found
  by_cases own : u = t ∨ u ∈ visited
  · rw [if_pos own] at found
    cases found
    have range : cur.toInt ≤ u.toInt ∧ u.toInt ≤ t.toInt := by
      rcases own with same | mem
      · subst same
        exact ⟨ends.low, by omega⟩
      · have passed := ends.passed u mem
        omega
    refine ⟨by omega, fun v low high => (ends.taken v).mpr ?_⟩
    by_cases same : v = t
    · exact .inl same
    · have apart : v.toInt ≠ t.toInt := fun equal => same (toInt_inj.mp equal)
      exact .inr (ends.first v (by omega) (by omega))
  · rw [if_neg own] at found
    obtain ⟨later, between⟩ := points u n found
    exact ⟨later, fun v low high => (ends.taken v).mpr (.inr (between v low high))⟩

/-- What an allocator gives: an allocation, or nothing where no instant below the highest is free. -/
def Answers (nextFree : NextFree) (requested : Int64) : Option (Int64 × NextFree) → Prop
  | none => ∀ u : Int64, requested.toInt ≤ u.toInt → u.toInt < 2 ^ 63 - 1 → Taken nextFree u
  | some (t, after) => Allocated nextFree requested t after

/-- Reserves a slot and points `slots` past it. -/
def reserve (nextFree : NextFree) (slots : List Int64) (cur : Int64) : Option (Int64 × NextFree) :=
  if cur = Int64.maxValue then none
  else some (cur, fun t => if t = cur ∨ t ∈ slots then some (cur + 1) else nextFree t)

theorem Ends.answers {requested cur : Int64} {slots : List Int64} (ends : Ends nextFree requested slots cur)
    (points : Points nextFree) : Answers nextFree requested (reserve nextFree slots cur) := by
  have last : maxValue.toInt = 2 ^ 63 - 1 := by decide
  unfold reserve
  split
  · rename_i top
    subst top
    exact fun u low high => ends.first u low (by omega)
  · rename_i notLast
    have low := le_toInt cur
    have bound := toInt_lt cur
    have apart : cur.toInt ≠ maxValue.toInt := fun equal => notLast (toInt_inj.mp equal)
    have next : (cur + 1).toInt = cur.toInt + 1 := by
      rw [toInt_add, toInt_one]
      exact Int.bmod_eq_of_le (by omega) (by omega)
    exact ⟨ends.low, by omega, ends.free, ends.first, ends.points points next, ends.taken⟩

theorem walk_request (points : Points nextFree) (requested : Int64) :
    Ends nextFree requested (walk nextFree (2 ^ 64) requested).1 (walk nextFree (2 ^ 64) requested).2 := by
  have start := le_toInt requested
  exact walk_ends points (by omega)

theorem allocateTimestamp_answers (points : Points nextFree) (requested : Int64) :
    Answers nextFree requested (allocateTimestamp nextFree requested) :=
      (walk_request points requested).answers points

theorem allocate_some (points : Points nextFree) {requested t : Int64} {after : NextFree}
    (allocated : allocateTimestamp nextFree requested = some (t, after)) :
    Allocated nextFree requested t after := by
  have answers := allocateTimestamp_answers points requested
  rwa [allocated] at answers

/-- The allocator without path compression: only the reserved slot gets an entry. -/
def allocateUncompressed (nextFree : NextFree) (requested : Int64) : Option (Int64 × NextFree) :=
  reserve nextFree [] (walk nextFree (2 ^ 64) requested).2

theorem allocateUncompressed_answers (points : Points nextFree) (requested : Int64) :
    Answers nextFree requested (allocateUncompressed nextFree requested) := by
  have ends := walk_request points requested
  exact Ends.answers ⟨by simp, ends.low, ends.free, ends.first⟩ points

/-- A series in a batch: the instants that were returned, and the slots. -/
structure Slots where
  returned : List Int64
  nextFree : NextFree

/-- The least instant from the request on that was not returned before, if there is one below the highest. -/
def Least (returned : List Int64) (requested : Int64) : Option Int64 → Prop
  | none => ∀ u : Int64, requested.toInt ≤ u.toInt → u.toInt < 2 ^ 63 - 1 → u ∈ returned
  | some t => requested.toInt ≤ t.toInt ∧ t.toInt < 2 ^ 63 - 1 ∧ t ∉ returned ∧
      ∀ u : Int64, requested.toInt ≤ u.toInt → u.toInt < t.toInt → u ∈ returned

theorem Least.unique {returned : List Int64} {requested : Int64} {a b : Option Int64}
    (one : Least returned requested a) (other : Least returned requested b) : a = b := by
  cases a with
  | none =>
    cases b with
    | none => rfl
    | some t => exact absurd (one t other.1 other.2.1) other.2.2.1
  | some t =>
    obtain ⟨low, high, free, first⟩ := one
    cases b with
    | none => exact absurd (other t low high) free
    | some u =>
      obtain ⟨low', _, free', first'⟩ := other
      have notAbove : ¬ u.toInt < t.toInt := fun below => free' (first u low' below)
      have notBelow : ¬ t.toInt < u.toInt := fun below => free (first' t low below)
      rw [toInt_inj.mp (show t.toInt = u.toInt by omega)]

structure Slots.Good (s : Slots) : Prop where
  points : Points s.nextFree
  taken : ∀ u, Taken s.nextFree u ↔ u ∈ s.returned
  distinct : s.returned.Nodup

section Requests

variable (allocate : NextFree → Int64 → Option (Int64 × NextFree))

def Slots.request (s : Slots) (requested : Int64) : Slots where
  returned := s.returned ++ ((allocate s.nextFree requested).map Prod.fst).toList
  nextFree := ((allocate s.nextFree requested).map Prod.snd).getD s.nextFree

/-- A series after a sequence of requests. -/
def Slots.after (requests : List Int64) : Slots := requests.foldl (Slots.request allocate) ⟨[], fun _ => none⟩

def Slots.answer (earlier : List Int64) (requested : Int64) : Option Int64 :=
  (allocate (Slots.after allocate earlier).nextFree requested).map Prod.fst

variable {allocate} (answers : ∀ {nextFree}, Points nextFree → ∀ requested,
  Answers nextFree requested (allocate nextFree requested))
include answers

theorem Slots.Good.request {s : Slots} (good : s.Good) (requested : Int64) :
    Least s.returned requested ((allocate s.nextFree requested).map Prod.fst) ∧
      (s.request allocate requested).Good := by
  have answer := answers good.points requested
  unfold Slots.request
  cases found : allocate s.nextFree requested with
  | none =>
    rw [found] at answer
    simp only [map_none, toList_none, append_nil]
    exact ⟨fun u low high => (good.taken u).mp (answer u low high), good⟩
  | some result =>
    rw [found] at answer
    obtain ⟨low, high, free, first, points, taken⟩ := answer
    have unused : result.1 ∉ s.returned := by simp [← good.taken, Taken, free]
    refine ⟨⟨low, high, unused, fun u above below => (good.taken u).mp (first u above below)⟩, points,
      fun u => ?_, ?_⟩
    · simp [taken, good.taken, or_comm]
    · exact good.distinct.append (by simp) (by simpa using unused)

theorem Slots.good_after (requests : List Int64) : (Slots.after allocate requests).Good := by
  induction requests using reverseRecOn with
  | nil => exact ⟨points_none, by simp [Slots.after, Taken], nodup_nil⟩
  | append_singleton earlier requested ih =>
    rw [Slots.after, foldl_concat]
    exact (ih.request answers requested).2

end Requests

theorem Slots.returned_uncompressed (requests : List Int64) :
    (Slots.after allocateUncompressed requests).returned = (Slots.after allocateTimestamp requests).returned := by
  induction requests using reverseRecOn with
  | nil => rfl
  | append_singleton earlier requested ih =>
    have plain :=
      ((Slots.good_after allocateUncompressed_answers earlier).request allocateUncompressed_answers requested).1
    have least :=
      ((Slots.good_after allocateTimestamp_answers earlier).request allocateTimestamp_answers requested).1
    rw [ih] at plain
    have same := plain.unique least
    simp only [Slots.after, foldl_concat] at ih same ⊢
    exact congrArg₂ (· ++ toList ·) ih same

/-- After any requests in a series of a batch: the next one's answer is the least instant that was not
returned before, and the same without path compression; what was returned is distinct; the walk ends at a
free slot. -/
theorem allocateTimestamp_least (earlier : List Int64) (requested : Int64) :
    Least (Slots.after allocateTimestamp earlier).returned requested
        (Slots.answer allocateTimestamp earlier requested) ∧
      Slots.answer allocateUncompressed earlier requested = Slots.answer allocateTimestamp earlier requested ∧
      (Slots.after allocateTimestamp earlier).returned.Nodup ∧
      let nextFree := (Slots.after allocateTimestamp earlier).nextFree
      nextFree (walk nextFree (2 ^ 64) requested).2 = none := by
  have good := Slots.good_after allocateTimestamp_answers earlier
  have plainly := Slots.good_after allocateUncompressed_answers earlier
  have least := (good.request allocateTimestamp_answers requested).1
  have plainLeast := (plainly.request allocateUncompressed_answers requested).1
  rw [Slots.returned_uncompressed earlier] at plainLeast
  exact ⟨least, plainLeast.unique least, good.distinct, (walk_request good.points requested).free⟩

end Logit.Influx
