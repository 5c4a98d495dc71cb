import Mathlib

namespace Grouping

open List Prod

variable {K α β : Type} [LinearOrder K]

/-- Adds to the group of a key, the groups in the order of their keys. -/
def pushGroup (key : K) (a : α) : List (K × List α) → List (K × List α)
  | [] => [(key, [a])]
  | (k, group) :: rest =>
    if key < k then (key, [a]) :: (k, group) :: rest
    else if key = k then (k, group ++ [a]) :: rest
    else (k, group) :: pushGroup key a rest

/-- The items by their keys, each group in the items' order. -/
def groupBy (key : α → K) (items : List α) : List (K × List α) :=
  items.foldl (fun groups a => pushGroup (key a) a groups) []

/-- The groups have distinct keys in order, and each is what the items have of its key. -/
structure Grouped (key : α → K) (items : List α) (groups : List (K × List α)) : Prop where
  sorted : groups.Pairwise fun g h => g.1 < h.1
  group_eq : ∀ g ∈ groups, g.2 = items.filter fun a => key a = g.1
  covered : ∀ a ∈ items, key a ∈ groups.map Prod.fst

theorem mem_keys_pushGroup (key k : K) (a : α) (groups : List (K × List α)) :
    k ∈ (pushGroup key a groups).map fst ↔ k = key ∨ k ∈ groups.map fst := by
  induction groups with
  | nil => simp [pushGroup]
  | cons g rest ih =>
    unfold pushGroup
    split_ifs with before same
    · simp
    · simp [same]
    · simp only [map_cons, mem_cons]
      tauto

theorem pushGroup_sorted (key : K) (a : α) (groups : List (K × List α))
    (sorted : groups.Pairwise fun g h => g.1 < h.1) :
    (pushGroup key a groups).Pairwise fun g h => g.1 < h.1 := by
  induction groups with
  | nil => simp [pushGroup]
  | cons g rest ih =>
    obtain ⟨above, restSorted⟩ := pairwise_cons.mp sorted
    unfold pushGroup
    split_ifs with before same
    · refine pairwise_cons.mpr ⟨?_, sorted⟩
      intro h mem
      rcases mem_cons.mp mem with rfl | later
      · exact before
      · exact before.trans (above h later)
    · exact pairwise_cons.mpr ⟨above, restSorted⟩
    · refine pairwise_cons.mpr ⟨?_, ih restSorted⟩
      intro h mem
      have keys := (mem_keys_pushGroup key h.1 a rest).mp (mem_map_of_mem mem)
      rcases keys with added | old
      · rw [added]
        exact lt_of_le_of_ne (not_lt.mp before) (Ne.symm same)
      · obtain ⟨g', later, keyEq⟩ := mem_map.mp old
        rw [← keyEq]
        exact above g' later

/-- A group after one more item: the old one with the item, an old one as it was, or a new one. -/
theorem mem_pushGroup (key : K) (a : α) (groups : List (K × List α))
    (sorted : groups.Pairwise fun g h => g.1 < h.1) (g : K × List α) (mem : g ∈ pushGroup key a groups) :
    (g.1 = key ∧ ∃ old, (key, old) ∈ groups ∧ g.2 = old ++ [a]) ∨
      (g.1 = key ∧ key ∉ groups.map fst ∧ g.2 = [a]) ∨ (g.1 ≠ key ∧ g ∈ groups) := by
  induction groups with
  | nil =>
    obtain rfl := mem_singleton.mp mem
    simp
  | cons first rest ih =>
    obtain ⟨above, restSorted⟩ := pairwise_cons.mp sorted
    unfold pushGroup at mem
    split_ifs at mem with before same
    · rcases mem_cons.mp mem with rfl | old
      · refine .inr (.inl ⟨rfl, ?_, rfl⟩)
        intro present
        rcases mem_cons.mp present with head | later
        · exact absurd before (by simp [head])
        · obtain ⟨h, memberRest, keyEq⟩ := mem_map.mp later
          exact absurd (before.trans (above h memberRest)) (by simp [keyEq])
      · refine .inr (.inr ⟨?_, old⟩)
        intro keyEq
        rcases mem_cons.mp old with head | later
        · have same : g.1 = first.1 := by rw [head]
          exact absurd before (by simp [← same, keyEq])
        · exact absurd (before.trans (above g later)) (by simp [keyEq])
    · rcases mem_cons.mp mem with rfl | later
      · refine .inl ⟨same.symm, first.2, ?_, rfl⟩
        rw [same]
        exact mem_cons_self
      · refine .inr (.inr ⟨?_, mem_cons_of_mem _ later⟩)
        rw [same]
        exact (above g later).ne'
    · rcases mem_cons.mp mem with rfl | later
      · exact .inr (.inr ⟨Ne.symm same, mem_cons_self⟩)
      · rcases ih restSorted later with ⟨keyEq, old, present, shape⟩ | ⟨keyEq, absent, shape⟩ | ⟨ne, present⟩
        · exact .inl ⟨keyEq, old, mem_cons_of_mem _ present, shape⟩
        · refine .inr (.inl ⟨keyEq, ?_, shape⟩)
          simp only [map_cons, mem_cons, not_or]
          exact ⟨same, absent⟩
        · exact .inr (.inr ⟨ne, mem_cons_of_mem _ present⟩)

theorem Grouped.push {key : α → K} {items : List α} {groups : List (K × List α)}
    (grouped : Grouped key items groups) (a : α) : Grouped key (items ++ [a]) (pushGroup (key a) a groups) where
  sorted := pushGroup_sorted _ _ _ grouped.sorted
  group_eq := by
    intro g mem
    rcases mem_pushGroup _ _ _ grouped.sorted g mem with
      ⟨keyEq, old, present, shape⟩ | ⟨keyEq, absent, shape⟩ | ⟨ne, present⟩
    · have before := grouped.group_eq _ present
      simp only at before
      simp [shape, before, keyEq]
    · have none : items.filter (fun b => key b = key a) = [] := by
        refine filter_eq_nil_iff.mpr fun b inItems => ?_
        intro same
        refine absent ?_
        rw [← of_decide_eq_true same]
        exact grouped.covered b inItems
      simp [shape, keyEq, none]
    · have before := grouped.group_eq _ present
      simp [Ne.symm ne, before]
  covered := by
    intro b mem
    refine (mem_keys_pushGroup _ _ _ _).mpr ?_
    rcases mem_append.mp mem with old | new
    · exact .inr (grouped.covered b old)
    · rw [mem_singleton.mp new]
      exact .inl rfl

theorem grouped_foldl {key : α → K} (rest : List α) : ∀ (items : List α) (groups : List (K × List α)),
    Grouped key items groups →
    Grouped key (items ++ rest) (rest.foldl (fun groups a => pushGroup (key a) a groups) groups) := by
  induction rest with
  | nil =>
    intro items groups grouped
    simpa using grouped
  | cons a rest ih =>
    intro items groups grouped
    have pushed := ih _ _ (grouped.push a)
    simpa using pushed

variable (key : α → K)

theorem grouped_groupBy (items : List α) : Grouped key items (groupBy key items) := by
  have empty : Grouped key [] [] := ⟨List.Pairwise.nil, by simp, by simp⟩
  exact grouped_foldl items [] [] empty

omit [LinearOrder K] in
/-- Where no group yields anything of interest, their yields together have nothing of it. -/
theorem filter_flatMap_eq_nil (f : K × List α → List β) (q : β → Bool) (groups : List (K × List α))
    (nothing : ∀ g ∈ groups, (f g).filter q = []) : (groups.flatMap f).filter q = [] := by
  induction groups with
  | nil => rfl
  | cons g rest ih =>
    rw [flatMap_cons, filter_append, nothing g mem_cons_self,
      ih fun g' mem => nothing g' (mem_cons_of_mem _ mem), nil_append]

/-- What only one key's group can yield is what it yields from that key's items. -/
theorem filter_flatMap_groupBy (items : List α) (k : K) (f : K × List α → List β) (q : β → Bool)
    (others : ∀ k', k' ≠ k → (f (k', items.filter fun a => key a = k')).filter q = [])
    (empty : (f (k, [])).filter q = []) :
    ((groupBy key items).flatMap f).filter q = (f (k, items.filter fun a => key a = k)).filter q := by
  have grouped := grouped_groupBy key items
  have other : ∀ g ∈ groupBy key items, g.1 ≠ k → (f g).filter q = [] := by
    intro g mem ne
    have pair : g = (g.1, items.filter fun a => key a = g.1) := Prod.ext rfl (grouped.group_eq g mem)
    rw [pair]
    exact others g.1 ne
  by_cases present : k ∈ (groupBy key items).map fst
  · obtain ⟨g, mem, keyEq⟩ := mem_map.mp present
    have shape := grouped.group_eq g mem
    rw [keyEq] at shape
    have pair : g = (k, items.filter fun a => key a = k) := Prod.ext keyEq shape
    obtain ⟨front, back, split⟩ := append_of_mem mem
    have sorted := grouped.sorted
    rw [split] at sorted other ⊢
    obtain ⟨-, backSorted, cross⟩ := pairwise_append.mp sorted
    have inFront : (front.flatMap f).filter q = [] := by
      refine filter_flatMap_eq_nil f q front fun h memberFront => ?_
      have below := cross h memberFront g mem_cons_self
      exact other h (mem_append_left _ memberFront) (by rw [← keyEq]; exact below.ne)
    have inBack : (back.flatMap f).filter q = [] := by
      refine filter_flatMap_eq_nil f q back fun h memberBack => ?_
      have above := (pairwise_cons.mp backSorted).1 h memberBack
      exact other h (mem_append_right _ (mem_cons_of_mem _ memberBack)) (by rw [← keyEq]; exact above.ne')
    rw [flatMap_append, flatMap_cons, filter_append, filter_append, inFront, inBack, nil_append, append_nil, pair]
  · have none : items.filter (fun a => key a = k) = [] := by
      refine filter_eq_nil_iff.mpr fun a mem => ?_
      intro same
      exact present (of_decide_eq_true same ▸ grouped.covered a mem)
    rw [none, empty]
    refine filter_flatMap_eq_nil f q _ fun g mem => other g mem ?_
    intro keyEq
    exact present (mem_map.mpr ⟨g, mem, keyEq⟩)

theorem perm_pushGroup (key : K) (a : α) (groups : List (K × List α)) :
    ((pushGroup key a groups).flatMap snd).Perm (groups.flatMap snd ++ [a]) := by
  induction groups with
  | nil => simp [pushGroup]
  | cons g rest ih =>
    unfold pushGroup
    split_ifs with before same
    · exact perm_append_comm
    · simp only [flatMap_cons, append_assoc]
      exact List.Perm.append_left _ perm_append_comm
    · simp only [flatMap_cons, append_assoc]
      exact List.Perm.append_left _ ih

theorem perm_foldl (rest : List α) : ∀ groups : List (K × List α),
    ((rest.foldl (fun groups a => pushGroup (key a) a groups) groups).flatMap snd).Perm
      (groups.flatMap snd ++ rest) := by
  induction rest with
  | nil => simp
  | cons a rest ih =>
    intro groups
    have pushed := (perm_pushGroup (key a) a groups).append_right rest
    simp only [append_assoc] at pushed
    exact (ih _).trans pushed

theorem perm_groupBy (items : List α) : ((groupBy key items).flatMap snd).Perm items := by
  have perm := perm_foldl key items []
  simpa [groupBy] using perm

end Grouping
