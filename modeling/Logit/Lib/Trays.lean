import Mathlib

/-- A labelled map. -/
structure Tray (γ κ σ : Type) where
  label : γ
  items : AList (fun _ : κ => σ)

namespace Trays

open List AList Function

variable {γ κ σ : Type} {trays : List (Tray γ κ σ)}

/-- The items of one tray, with its label and their keys. -/
def row (t : Tray γ κ σ) : List (γ × κ × σ) := t.items.entries.map fun e => (t.label, e.1, e.2)

/-- Every item with the label of its tray and its key. -/
def entries (trays : List (Tray γ κ σ)) : List (γ × κ × σ) := trays.flatMap row

theorem entries_append (xs ys : List (Tray γ κ σ)) : entries (xs ++ ys) = entries xs ++ entries ys :=
  flatMap_append

theorem entries_open (trays : List (Tray γ κ σ)) (label : γ) : entries (trays ++ [⟨label, ∅⟩]) = entries trays := by
  rw [entries_append]
  exact append_nil _

/-- Empty trays hold nothing, so they can be taken out. -/
theorem entries_filter (trays : List (Tray γ κ σ)) {keep : Tray γ κ σ → Bool}
    (empty : ∀ t ∈ trays, keep t = false → t.items.entries = []) :
    entries (trays.filter keep) = entries trays := by
  induction trays with
  | nil => rfl
  | cons t trays ih =>
    obtain ⟨first, others⟩ := forall_mem_cons.mp empty
    have rest := ih others
    cases kept : keep t with
    | true =>
      rw [filter_cons_of_pos kept]
      exact congrArg (row t ++ ·) rest
    | false =>
      rw [filter_cons_of_neg (by simp [kept]), rest]
      simp [entries, row, first kept]

theorem labels_modify (i : Nat) {f : Tray γ κ σ → Tray γ κ σ} (same : ∀ t, (f t).label = t.label)
    (trays : List (Tray γ κ σ)) : (trays.modify i f).map Tray.label = trays.map Tray.label := by
  apply ext_getElem?
  intro j
  rw [getElem?_map, getElem?_map, getElem?_modify]
  cases trays[j]? with
  | none => rfl
  | some t =>
    by_cases here : i = j
    · simp [here, same]
    · simp [here]

variable {i : Nat} {t : Tray γ κ σ}

/-- The tray at an index, taken out of the row of entries. -/
theorem entries_split (here : trays[i]? = some t) :
    entries trays = entries (trays.take i) ++ (row t ++ entries (trays.drop (i + 1))) := by
  obtain ⟨inside, rfl⟩ := List.getElem?_eq_some_iff.mp here
  conv_lhs => rw [← List.take_append_drop i trays, List.drop_eq_getElem_cons inside]
  rw [entries_append]
  rfl

theorem entries_modify (here : trays[i]? = some t) (f : Tray γ κ σ → Tray γ κ σ) :
    entries (trays.modify i f) = entries (trays.take i) ++ (row (f t) ++ entries (trays.drop (i + 1))) := by
  obtain ⟨inside, rfl⟩ := List.getElem?_eq_some_iff.mp here
  rw [List.modify_eq_take_cons_drop inside, entries_append]
  rfl

variable [DecidableEq κ]

def get (trays : List (Tray γ κ σ)) (i : Nat) (k : κ) : Option σ := trays[i]?.bind fun t => t.items.lookup k

def put (i : Nat) (k : κ) (v : σ) (trays : List (Tray γ κ σ)) : List (Tray γ κ σ) :=
  trays.modify i fun t => { t with items := t.items.insert k v }

def remove (i : Nat) (k : κ) (trays : List (Tray γ κ σ)) : List (Tray γ κ σ) :=
  trays.modify i fun t => { t with items := t.items.erase k }

theorem get_eq (here : trays[i]? = some t) (k : κ) : get trays i k = t.items.lookup k := by
  rw [get, here]
  rfl

variable {k : κ} {v : σ}

theorem get_some (held : get trays i k = some v) : ∃ t, trays[i]? = some t ∧ t.items.lookup k = some v :=
  Option.bind_eq_some_iff.mp held

@[simp] theorem labels_put (i : Nat) (k : κ) (v : σ) (trays : List (Tray γ κ σ)) :
    (put i k v trays).map Tray.label = trays.map Tray.label := by
  rw [put, labels_modify]
  exact fun _ => rfl

@[simp] theorem labels_remove (i : Nat) (k : κ) (trays : List (Tray γ κ σ)) :
    (remove i k trays).map Tray.label = trays.map Tray.label := by
  rw [remove, labels_modify]
  exact fun _ => rfl

/-- What is put into a tray, next to what it held under other keys. -/
theorem entries_put (v : σ) (here : trays[i]? = some t) :
    (entries (put i k v trays)).Perm ((t.label, k, v) :: entries (remove i k trays)) := by
  rw [put, remove, entries_modify here, entries_modify here]
  exact perm_middle

theorem row_erase (held : t.items.lookup k = some v) :
    (row t).Perm ((t.label, k, v) :: row { t with items := t.items.erase k }) := by
  have mem := mem_lookup_iff.mp held
  obtain ⟨w, before, after, absent, shape, erased⟩ := exists_of_kerase (mem_keys_of_mem mem)
  have same : w = v := by
    have other : ⟨k, w⟩ ∈ t.items.entries := by simp [shape]
    exact t.items.nodupKeys.eq_of_mk_mem other mem
  subst same
  have split : t.items.entries.Perm (⟨k, w⟩ :: t.items.entries.kerase k) := by
    rw [erased, shape]
    exact perm_middle
  exact split.map fun e => (t.label, e.1, e.2)

theorem entries_remove (here : trays[i]? = some t) (held : get trays i k = some v) :
    (entries trays).Perm ((t.label, k, v) :: entries (remove i k trays)) := by
  rw [get_eq here] at held
  rw [remove, entries_split here, entries_modify here]
  have inner := (row_erase held).append_right (entries (trays.drop (i + 1)))
  exact (inner.append_left (entries (trays.take i))).trans perm_middle

/-- A key that is not held is not removed. -/
theorem entries_remove_none (vacant : get trays i k = none) : entries (remove i k trays) = entries trays := by
  cases here : trays[i]? with
  | none =>
    have same : remove i k trays = trays := by
      apply ext_getElem?
      intro j
      rw [remove, getElem?_modify]
      by_cases equal : i = j
      · rw [← equal, here]
        rfl
      · simp [equal]
    rw [same]
  | some t =>
    rw [get_eq here] at vacant
    have absent := lookup_eq_none.mp vacant
    rw [remove, entries_modify here, entries_split here]
    have same : (t.items.erase k).entries = t.items.entries := kerase_of_notMem_keys absent
    simp [row, same]

theorem get_put (i j : Nat) (k l : κ) (v : σ) (trays : List (Tray γ κ σ)) : get (put i k v trays) j l =
      if i = j ∧ k = l then trays[j]?.map fun _ => v else get trays j l := by
  rw [get, put, getElem?_modify, get]
  cases trays[j]? with
  | none => simp
  | some t =>
    by_cases here : i = j
    · by_cases equal : k = l
      · simp [here, equal]
      · simp [here, equal, lookup_insert_ne (Ne.symm equal)]
    · simp [here]

theorem get_remove (i j : Nat) (k l : κ) (trays : List (Tray γ κ σ)) :
    get (remove i k trays) j l = if i = j ∧ k = l then none else get trays j l := by
  rw [get, remove, getElem?_modify, get]
  cases trays[j]? with
  | none => simp
  | some t =>
    by_cases here : i = j
    · by_cases equal : k = l
      · simp [here, equal]
      · simp [here, equal, lookup_erase_ne (Ne.symm equal)]
    · simp [here]

theorem mem_entries {label : γ} : (label, k, v) ∈ entries trays ↔
    ∃ i t, trays[i]? = some t ∧ t.label = label ∧ get trays i k = some v := by
  constructor
  · intro mem
    obtain ⟨t, inside, there⟩ := mem_flatMap.mp mem
    obtain ⟨e, held, same⟩ := mem_map.mp there
    obtain ⟨rfl, rfl, rfl⟩ := same
    obtain ⟨i, here⟩ := mem_iff_getElem?.mp inside
    refine ⟨i, t, here, rfl, ?_⟩
    rw [get_eq here]
    exact mem_lookup_iff.mpr held
  · rintro ⟨i, t, here, rfl, held⟩
    rw [get_eq here] at held
    refine mem_flatMap.mpr ⟨t, mem_of_getElem? here, mem_map.mpr ⟨⟨k, v⟩, ?_, rfl⟩⟩
    exact mem_lookup_iff.mp held

/-- Puts items back into the trays they came from. -/
def putAll (items : List (Nat × κ × σ)) (trays : List (Tray γ κ σ)) : List (Tray γ κ σ) :=
  items.foldl (fun trays e => put e.1 e.2.1 e.2.2 trays) trays

theorem labels_putAll (items : List (Nat × κ × σ)) (trays : List (Tray γ κ σ)) :
    (putAll items trays).map Tray.label = trays.map Tray.label := by
  induction items generalizing trays with
  | nil => rfl
  | cons e items ih => exact (ih _).trans (labels_put ..)

/-- Items put back under keys of their own, each in a tray that is there. -/
theorem entries_putAll {items : List (Nat × κ × σ)} {labels : Nat → γ}
    (distinct : (items.map fun e => (e.1, e.2.1)).Nodup)
    (placed : ∀ e ∈ items, trays[e.1]?.map Tray.label = some (labels e.1))
    (vacant : ∀ e ∈ items, get trays e.1 e.2.1 = none) :
    (entries (putAll items trays)).Perm (items.map (fun e => (labels e.1, e.2.1, e.2.2)) ++ entries trays) := by
  induction items generalizing trays with
  | nil => exact .refl _
  | cons e items ih =>
    obtain ⟨fresh, distinct⟩ := nodup_cons.mp distinct
    obtain ⟨first, placed⟩ := forall_mem_cons.mp placed
    obtain ⟨free, vacant⟩ := forall_mem_cons.mp vacant
    obtain ⟨t, here, named⟩ := Option.map_eq_some_iff.mp first
    have inner := @ih (put e.1 e.2.1 e.2.2 trays) distinct ?_ ?_
    · have own := entries_put e.2.2 here (k := e.2.1)
      rw [entries_remove_none free, named] at own
      refine inner.trans ?_
      refine ((own.append_left _)).trans ?_
      exact perm_middle
    · intro other mem
      have kept := congrArg (fun labels => labels[other.1]?) (labels_put e.1 e.2.1 e.2.2 trays)
      simp only [getElem?_map] at kept
      rw [kept]
      exact placed other mem
    · intro other mem
      rw [get_put, if_neg]
      · exact vacant other mem
      · rintro ⟨sameTray, sameKey⟩
        exact fresh (mem_map.mpr ⟨other, mem, by rw [← sameTray, ← sameKey]⟩)

/-- With one tray a label, an item's label and key are its own. -/
theorem entries_distinct {ι : Type} {name : γ → ι} (distinct : (trays.map fun t => name t.label).Nodup) :
    ((entries trays).map fun e => (name e.1, e.2.1)).Nodup := by
  induction trays with
  | nil => exact nodup_nil
  | cons t trays ih =>
    obtain ⟨fresh, distinct⟩ := nodup_cons.mp distinct
    show ((row t ++ entries trays).map _).Nodup
    rw [map_append]
    refine nodup_append'.mpr ⟨?_, ih distinct, ?_⟩
    · have own : (row t).map (fun e => (name e.1, e.2.1)) = t.items.entries.keys.map (Prod.mk (name t.label)) := by
        simp [row, List.keys]
      have keys := t.items.nodupKeys
      rw [own]
      exact keys.map fun _ _ same => (Prod.mk.inj same).2
    · intro place left right
      obtain ⟨e, held, rfl⟩ := mem_map.mp left
      obtain ⟨item, -, rfl⟩ := mem_map.mp held
      obtain ⟨⟨label, k, v⟩, other, same⟩ := mem_map.mp right
      obtain ⟨i, t', here, rfl, -⟩ := mem_entries.mp other
      refine fresh (mem_map.mpr ⟨t', mem_of_getElem? here, ?_⟩)
      exact (Prod.mk.inj same).1

/-- The trays with their places as labels. -/
def numbered (trays : List (Tray γ κ σ)) : List (Tray Nat κ σ) := trays.zipIdx.map fun t => ⟨t.2, t.1.items⟩

/-- Every item with the place of its tray and its key. -/
def indexed (trays : List (Tray γ κ σ)) : List (Nat × κ × σ) := entries (numbered trays)

theorem mem_indexed : (i, k, v) ∈ indexed trays ↔ get trays i k = some v := by
  have numbers : ∀ j, (numbered trays)[j]? = trays[j]?.map fun t => (⟨j, t.items⟩ : Tray Nat κ σ) := by
    intro j
    rw [numbered, getElem?_map]
    simp [comp_def]
  rw [indexed, mem_entries]
  constructor
  · rintro ⟨j, t, here, rfl, held⟩
    rw [numbers] at here
    obtain ⟨own, there, rfl⟩ := Option.map_eq_some_iff.mp here
    rw [get, numbers, there] at held
    rw [get, there]
    exact held
  · intro held
    obtain ⟨t, here, item⟩ := get_some held
    refine ⟨i, ⟨i, t.items⟩, by rw [numbers, here]; rfl, rfl, ?_⟩
    rw [get, numbers, here]
    exact item

theorem indexed_distinct (trays : List (Tray γ κ σ)) : ((indexed trays).map fun e => (e.1, e.2.1)).Nodup := by
  refine @entries_distinct _ _ _ _ _ _ id ?_
  have places : (numbered trays).map (fun t => id t.label) = trays.zipIdx.map Prod.snd := by
    rw [numbered, map_map]
    rfl
  rw [places, zipIdx_map_snd]
  exact nodup_range'

omit [DecidableEq κ] in
/-- The items are the same ones in the same order. -/
theorem indexed_items (trays : List (Tray γ κ σ)) :
    (indexed trays).map Prod.snd = (entries trays).map Prod.snd := by
  have rows : ∀ {δ : Type} (trays : List (Tray δ κ σ)),
      (entries trays).map Prod.snd = trays.flatMap fun t => t.items.entries.map fun e => (e.1, e.2) := by
    intro δ trays
    rw [entries, map_flatMap]
    simp [row, map_map, comp_def]
  rw [indexed, rows, rows, numbered, flatMap_map]
  conv_rhs => rw [← zipIdx_map_fst 0 trays, flatMap_map]

end Trays
