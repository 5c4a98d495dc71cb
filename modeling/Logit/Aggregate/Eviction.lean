import Logit.Aggregate.Window

namespace Logit.Aggregate

open List Option Aggregator Trays

variable {X : Externals} {groups : List (ResourceGroup X)} {order : List (Candidate X)}

/-- A candidate that was absorbed into or evicted since it was noted. -/
def Stale (groups : List (ResourceGroup X)) (c : Candidate X) : Prop :=
  ∀ state, Trays.get groups c.group c.key = some state → state.updatedThisWindow = true

/-- An order of eviction for these groups: by rank, with every series that was not updated this window
under its own rank, and the groups that the indices were taken for. -/
structure Ordered (groups : List (ResourceGroup X)) (order : List (Candidate X)) : Prop where
  sorted : order.Pairwise fun a b => a.rank ≤ b.rank
  complete : ∀ i k state, Trays.get groups i k = some state → state.updatedThisWindow = false →
    ∃ c ∈ order, c.group = i ∧ c.key = k
  right : ∀ c ∈ order, ∀ state, Trays.get groups c.group c.key = some state →
    state.updatedThisWindow = false → c.rank = rankOf state c.key
  taken : ∀ c ∈ order, groups[c.group]?.map Tray.label = some c.taken

/-- A series in a group of the list is a candidate of the order that is built, unless it was updated. -/
theorem mem_candidates {c : Candidate X} : c ∈ groups.zipIdx.flatMap (fun g => candidates g.2 g.1) ↔
    ∃ g state, groups[c.group]? = some g ∧ g.label = c.taken ∧ get groups c.group c.key = some state ∧
      state.updatedThisWindow = false ∧ c.rank = rankOf state c.key := by
  simp only [mem_flatMap, Prod.exists, candidates, mem_filterMap]
  constructor
  · rintro ⟨g, i, there, e, held, noted⟩
    have here := mem_zipIdx_iff_getElem?.mp there
    obtain ⟨idle, ⟨⟩⟩ := ite_none_left_eq_some.mp noted
    refine ⟨g, e.2, here, rfl, ?_, by simpa using idle, rfl⟩
    rw [get_eq here]
    exact AList.mem_lookup_iff.mpr held
  · rintro ⟨g, state, here, taken, held, idle, rank⟩
    rw [get_eq here] at held
    refine ⟨g, c.group, mem_zipIdx_iff_getElem?.mpr here, ⟨c.key, state⟩, AList.mem_lookup_iff.mp held, ?_⟩
    rw [if_neg (by simp [idle])]
    obtain ⟨_, _, _, _⟩ := c
    simp only at rank taken ⊢
    rw [rank, taken]

theorem buildOrder_ordered (s : Aggregator X) : Ordered s.groups s.buildOrder := by
  have same : ∀ c, c ∈ s.buildOrder ↔
      c ∈ s.groups.zipIdx.flatMap fun g => candidates g.2 g.1 := fun c => mem_insertionSort _
  refine ⟨?_, ?_, ?_, ?_⟩
  · exact pairwise_insertionSort _ _
  · intro i k state held idle
    obtain ⟨g, here, -⟩ := get_some held
    refine ⟨⟨rankOf state k, i, k, g.label⟩, (same _).mpr (mem_candidates.mpr ?_), rfl, rfl⟩
    exact ⟨g, state, here, rfl, held, idle, rfl⟩
  · intro c mem state held _
    obtain ⟨g, state', -, -, held', -, rank⟩ := mem_candidates.mp ((same c).mp mem)
    rw [held, some.injEq] at held'
    rw [held']
    exact rank
  · intro c mem
    obtain ⟨g, state, here, taken, -⟩ := mem_candidates.mp ((same c).mp mem)
    rw [here, map_some, taken]

/-- What an order yields: its first candidate that is not stale, and those after it. -/
inductive Pops (groups : List (ResourceGroup X)) :
  List (Candidate X) → Option (Candidate X) × List (Candidate X) → Prop
  | nothing {order : List (Candidate X)} (all : ∀ c ∈ order, Stale groups c) : Pops groups order (none, [])
  | found (skipped : List (Candidate X)) {c : Candidate X} {rest : List (Candidate X)} {state : SeriesState X}
    (all : ∀ c ∈ skipped, Stale groups c) (held : Trays.get groups c.group c.key = some state)
    (idle : state.updatedThisWindow = false) : Pops groups (skipped ++ c :: rest) (some c, rest)

theorem popOrder_pops (groups : List (ResourceGroup X)) (order : List (Candidate X)) :
    Pops groups order (popOrder groups order) := by
  induction order with
  | nil => exact .nothing (by simp)
  | cons c order ih =>
    have skip : Stale groups c → Pops groups (c :: order) (popOrder groups order) := by
      intro stale
      generalize popOrder groups order = popped at ih ⊢
      cases ih with
      | nothing all => exact .nothing (forall_mem_cons.mpr ⟨stale, all⟩)
      | found skipped all held idle => exact .found (c :: skipped) (forall_mem_cons.mpr ⟨stale, all⟩) held idle
    rw [popOrder]
    split
    · rename_i absent
      refine skip fun state there => ?_
      rw [absent] at there
      cases there
    · rename_i state held
      split
      · rename_i updated
        refine skip fun state' there => ?_
        rw [held, some.injEq] at there
        exact there ▸ updated
      · rename_i idle
        exact .found [] (by simp) held (by simpa using idle)

/-- When a series was not updated this window, the order yields the one of least rank, and the rest of
it is an order for the groups without that one. -/
theorem Ordered.pop (ordered : Ordered groups order) {i : Nat} {k : SeriesKey X} {state : SeriesState X}
    (held : get groups i k = some state) (idle : state.updatedThisWindow = false) :
    ∃ c rest victim, popOrder groups order = (some c, rest) ∧
      get groups c.group c.key = some victim ∧ victim.updatedThisWindow = false ∧
      c.rank = rankOf victim c.key ∧ groups[c.group]?.map Tray.label = some c.taken ∧
      (∀ i k state, get groups i k = some state → state.updatedThisWindow = false → c.rank ≤ rankOf state k) ∧
      Ordered (remove c.group c.key groups) rest := by
  have live : ∀ i k state, get groups i k = some state → state.updatedThisWindow = false →
      ∃ c ∈ order, c.group = i ∧ c.key = k ∧ c.rank = rankOf state k ∧ ¬Stale groups c := by
    intro i k state held idle
    obtain ⟨c, mem, rfl, rfl⟩ := ordered.complete i k state held idle
    refine ⟨c, mem, rfl, rfl, ordered.right c mem state held idle, fun stale => ?_⟩
    rw [stale state held] at idle
    cases idle
  have pops := popOrder_pops groups order
  generalize popped : popOrder groups order = result at pops
  cases pops with
  | nothing all =>
    obtain ⟨c, mem, -, -, -, fresh⟩ := live i k state held idle
    exact absurd (all c mem) fresh
  | @found skipped c rest victim all there own =>
    have mem : c ∈ skipped ++ c :: rest := by simp
    obtain ⟨-, tail, -⟩ := pairwise_append.mp ordered.sorted
    obtain ⟨least, sorted⟩ := pairwise_cons.mp tail
    have onward : ∀ d ∈ skipped ++ c :: rest, ¬Stale groups d → d = c ∨ d ∈ rest := by
      intro d inside fresh
      rcases mem_append.mp inside with early | late
      · exact absurd (all d early) fresh
      · exact mem_cons.mp late
    refine ⟨c, rest, victim, rfl, there, own, ordered.right c mem victim there own,
      ordered.taken c mem, ?_, sorted, ?_, ?_, ?_⟩
    · intro i k state held idle
      obtain ⟨d, inside, -, -, rank, fresh⟩ := live i k state held idle
      rw [← rank]
      rcases onward d inside fresh with rfl | later
      · exact le_refl _
      · exact least d later
    · intro i k state held idle
      rw [get_remove] at held
      split at held
      · cases held
      · rename_i other
        obtain ⟨d, inside, rfl, rfl, -, fresh⟩ := live i k state held idle
        refine ⟨d, ?_, rfl, rfl⟩
        rcases onward d inside fresh with rfl | later
        · exact absurd ⟨rfl, rfl⟩ other
        · exact later
    · intro d inside state held idle
      rw [get_remove] at held
      split at held
      · cases held
      · exact ordered.right d (by simp [inside]) state held idle
    · intro d inside
      have kept := congrArg (fun labels => labels[d.group]?) (labels_remove c.group c.key groups)
      simp only [getElem?_map] at kept
      rw [kept]
      exact ordered.taken d (by simp [inside])

theorem Ordered.put (ordered : Ordered groups order) (i : Nat) (k : SeriesKey X) {state : SeriesState X}
    (updated : state.updatedThisWindow = true) : Ordered (Trays.put i k state groups) order := by
  have other : ∀ j l state', Trays.get (Trays.put i k state groups) j l = some state' →
      state'.updatedThisWindow = false → Trays.get groups j l = some state' := by
    intro j l state' held idle
    rw [get_put] at held
    split at held
    · obtain ⟨_, _, rfl⟩ := map_eq_some_iff.mp held
      rw [updated] at idle
      cases idle
    · exact held
  refine ⟨ordered.sorted, fun j l state' held idle => ordered.complete j l state' (other j l state' held idle) idle,
    fun c mem state' held idle => ordered.right c mem state' (other _ _ state' held idle) idle, ?_⟩
  intro c mem
  have kept := congrArg (fun labels => labels[c.group]?) (labels_put i k state groups)
  simp only [getElem?_map] at kept
  rw [kept]
  exact ordered.taken c mem

theorem Ordered.openGroup (ordered : Ordered groups order) (label : Origin X) :
    Ordered (groups ++ [⟨label, ∅⟩]) order := by
  have same : ∀ i k, Trays.get (groups ++ [⟨label, ∅⟩]) i k = Trays.get groups i k := by
    intro i k
    simp only [Trays.get, getElem?_append]
    split
    · rfl
    · rename_i beyond
      rw [getElem?_eq_none (Nat.le_of_not_lt beyond)]
      rcases i - groups.length with _ | n <;> rfl
  refine ⟨ordered.sorted, fun i k state held => ordered.complete i k state (same i k ▸ held),
    fun c mem state held => ordered.right c mem state (same _ _ ▸ held), fun c mem => ?_⟩
  have taken := ordered.taken c mem
  obtain ⟨g, here, -⟩ := map_eq_some_iff.mp taken
  rw [getElem?_append_left (List.getElem?_eq_some_iff.mp here).1]
  exact taken

end Logit.Aggregate
