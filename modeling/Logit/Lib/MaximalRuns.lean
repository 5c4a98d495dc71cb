import Mathlib

namespace MaximalRuns

open List Prod

variable {κ α : Type}

/-- The groups of the items after the group of key `k` that holds `held`: an item joins the current group
when the test takes its key for the group's. -/
def groupFrom (same : κ → κ → Bool) (k : κ) (held : List α) : List (κ × α) → List (κ × List α)
  | [] => [(k, held)]
  | (key, a) :: items =>
    if same k key then groupFrom same k (held ++ [a]) items else (k, held) :: groupFrom same key [a] items

/-- The items of the groups, each with its group's key. -/
def keyed (groups : List (κ × List α)) : List (κ × α) := groups.flatMap fun g => g.2.map (Prod.mk g.1)

/-- The groups are the items' maximal runs of equal keys. -/
structure Maximal (items : List (κ × α)) (groups : List (κ × List α)) : Prop where
  keyed_eq : keyed groups = items
  filled : ∀ g ∈ groups, g.2 ≠ []
  apart : (groups.map Prod.fst).IsChain (· ≠ ·)

variable {same : κ → κ → Bool}

theorem head_groupFrom (k : κ) (held : List α) (items : List (κ × α)) :
    ((groupFrom same k held items).map fst).head? = some k := by
  induction items generalizing held with
  | nil => rfl
  | cons item items ih =>
    rw [groupFrom]
    split
    · exact ih _
    · rfl

theorem filled_groupFrom (k : κ) {held : List α} (some : held ≠ []) (items : List (κ × α)) :
    ∀ g ∈ groupFrom same k held items, g.2 ≠ [] := by
  induction items generalizing k held with
  | nil => simpa [groupFrom] using some
  | cons item items ih =>
    rw [groupFrom]
    split
    · exact ih k (by simp)
    · intro g mem
      rcases mem_cons.mp mem with rfl | later
      · exact some
      · exact ih _ (by simp) g later

/-- The items a group starts with keep its key. -/
theorem keyed_groupFrom (k : κ) (held : List α) (items : List (κ × α)) :
    ∃ others, keyed (groupFrom same k held items) = held.map (mk k) ++ others := by
  induction items generalizing k held with
  | nil => exact ⟨[], by simp [keyed, groupFrom]⟩
  | cons item items ih =>
    rw [groupFrom]
    split
    · obtain ⟨others, grown⟩ := ih k (held ++ [item.2])
      exact ⟨(k, item.2) :: others, by simp [grown]⟩
    · obtain ⟨others, grown⟩ := ih item.1 [item.2]
      refine ⟨item :: others, ?_⟩
      rw [keyed, flatMap_cons, ← keyed, grown]
      rfl

/-- The groups are the maximal runs exactly when the test tells every two neighbouring keys apart. -/
theorem groupFrom_maximal_iff (k : κ) (held : List α) (items : List (κ × α)) :
    (keyed (groupFrom same k held items) = held.map (mk k) ++ items ∧
        ((groupFrom same k held items).map fst).IsChain (· ≠ ·)) ↔
      (k :: items.map fst).IsChain fun a b => same a b = true ↔ a = b := by
  induction items generalizing k held with
  | nil => simp [groupFrom, keyed]
  | cons item items ih =>
    obtain ⟨key, a⟩ := item
    rw [groupFrom, map_cons, isChain_cons_cons]
    by_cases joins : same k key = true
    · rw [if_pos joins]
      constructor
      · rintro ⟨exact, apart⟩
        obtain ⟨others, grown⟩ := @keyed_groupFrom _ _ same k (held ++ [a]) items
        have heads := grown.symm.trans exact
        rw [map_append, append_assoc, append_cancel_left_eq] at heads
        obtain rfl := congrArg fst (cons.inj heads).1
        rw [show held.map (mk k) ++ (k, a) :: items = (held ++ [a]).map (mk k) ++ items by simp] at exact
        exact ⟨by simp [joins], (ih k _).mp ⟨exact, apart⟩⟩
      · rintro ⟨told, chain⟩
        obtain rfl := told.mp joins
        obtain ⟨exact, apart⟩ := (ih k (held ++ [a])).mpr chain
        exact ⟨by simp [exact], apart⟩
    · rw [if_neg joins, ← ih key [a], keyed, flatMap_cons, ← keyed, map_cons, isChain_cons, head_groupFrom]
      simp [joins, and_left_comm]

end MaximalRuns
