import Mathlib

/-- Entries in numbered slots that are reused when freed, with an index of the slots by hash. -/
structure Slab (α H : Type) where
  slots : List (Option α)
  free : List Nat
  live : Nat
  index : H → List Nat

namespace Slab

open List Option

variable {α H K : Type}

def empty : Slab α H := ⟨[], [], 0, fun _ => []⟩

def get (s : Slab α H) (slot : Nat) : Option α := s.slots[slot]?.join

/-- The slot a new entry takes: the one freed last, or else a new one. -/
def vacancy (s : Slab α H) : Nat := s.free.headD s.slots.length

def update (s : Slab α H) (slot : Nat) (f : α → α) : Slab α H :=
  { s with slots := s.slots.modify slot (Option.map f) }

/-- The first slot under the hash whose entry passes the test. -/
def find (s : Slab α H) (h : H) (test : α → Bool) : Option Nat :=
  (s.index h).find? fun slot => (s.get slot).any test

/-- The index holds each entry's slot under its hash and nothing else, no two entries have one key,
and each free slot is empty and listed once. -/
structure Sound (hash : α → H) (key : α → K) (s : Slab α H) : Prop where
  indexed : ∀ slot a, s.get slot = some a → slot ∈ s.index (hash a)
  held : ∀ h, ∀ slot ∈ s.index h, ∃ a, s.get slot = some a ∧ hash a = h
  distinct : ∀ i j a b, s.get i = some a → s.get j = some b → key a = key b → i = j
  vacant : ∀ slot ∈ s.free, slot < s.slots.length ∧ s.get slot = none
  once : s.free.Nodup

variable {hash : α → H} {key : α → K} {s : Slab α H}

theorem get_lt {slot : Nat} {a : α} (found : s.get slot = some a) : slot < s.slots.length := by
  by_contra outside
  simp [get, getElem?_eq_none (Nat.le_of_not_lt outside)] at found

theorem get_update (slot i : Nat) (f : α → α) :
    (s.update slot f).get i = if i = slot then (s.get i).map f else s.get i := by
  by_cases same : i = slot
  · subst same
    simp only [get, update, getElem?_modify_eq]
    cases s.slots[i]? <;> simp
  · simp [get, update, same, getElem?_modify_ne _ _ (Ne.symm same)]

theorem get_vacancy (sound : s.Sound hash key) : s.get s.vacancy = none := by
  cases shape : s.free with
  | nil => simp [vacancy, shape, get]
  | cons slot free =>
    have empty := (sound.vacant slot (by simp [shape])).2
    simpa [vacancy, shape] using empty

theorem sound_empty : (empty : Slab α H).Sound hash key where
  indexed slot a found := by simp [empty, get] at found
  held h slot mem := by simp [empty] at mem
  distinct i j a b found := by simp [empty, get] at found
  vacant slot mem := by simp [empty] at mem
  once := by simp [empty]

/-- An update that keeps an entry's hash and key keeps the slab sound. -/
theorem Sound.update (sound : s.Sound hash key) (slot : Nat) {f : α → α}
    (sameHash : ∀ a, s.get slot = some a → hash (f a) = hash a)
    (sameKey : ∀ a, s.get slot = some a → key (f a) = key a) : (s.update slot f).Sound hash key := by
  have entry : ∀ i b, (s.update slot f).get i = some b → ∃ a, s.get i = some a ∧ hash b = hash a ∧
    key b = key a := by
    intro i b here
    rw [get_update] at here
    split at here
    · rename_i same
      obtain ⟨a, found, rfl⟩ := map_eq_some_iff.mp here
      exact ⟨a, found, sameHash a (same ▸ found), sameKey a (same ▸ found)⟩
    · exact ⟨b, here, rfl, rfl⟩
  refine ⟨?_, ?_, ?_, ?_, sound.once⟩
  · intro i b here
    obtain ⟨a, found, hashed, _⟩ := entry i b here
    rw [hashed]
    exact sound.indexed i a found
  · intro h i mem
    obtain ⟨a, found, hashed⟩ := sound.held h i mem
    rw [get_update]
    split
    · rename_i same
      exact ⟨f a, by simp [found], by rw [sameHash a (same ▸ found), hashed]⟩
    · exact ⟨a, found, hashed⟩
  · intro i j a b first second same
    obtain ⟨a', found, _, keyA⟩ := entry i a first
    obtain ⟨b', found', _, keyB⟩ := entry j b second
    exact sound.distinct i j a' b' found found' (by rw [← keyA, ← keyB, same])
  · intro i mem
    obtain ⟨inside, empty⟩ := sound.vacant i mem
    refine ⟨by simpa [Slab.update] using inside, ?_⟩
    rw [get_update]
    split <;> simp [empty]

/-- Looking a key up under its hash finds the slot that holds it. -/
theorem find_eq_some {h : H} {k : K} {test : α → Bool}
    (exact : ∀ a, test a = true ↔ key a = k) {slot : Nat} (found : s.find h test = some slot) :
    ∃ a, s.get slot = some a ∧ key a = k := by
  have passed := find?_some found
  cases here : s.get slot with
  | none => simp [here] at passed
  | some a =>
    rw [here] at passed
    exact ⟨a, rfl, (exact a).mp passed⟩

/-- A key that is not found is in no slot. -/
theorem find_eq_none (sound : s.Sound hash key) {h : H} {k : K} {test : α → Bool}
    (exact : ∀ a, test a = true ↔ key a = k) (hashed : ∀ i a, s.get i = some a → key a = k → hash a = h)
    (absent : s.find h test = none) {i : Nat} {a : α} (here : s.get i = some a) : key a ≠ k := by
  intro same
  have mem := sound.indexed i a here
  rw [hashed i a here same] at mem
  have failed := find?_eq_none.mp absent i mem
  simp [here, (exact a).mpr same] at failed

variable [DecidableEq H]

def remove (hash : α → H) (s : Slab α H) (slot : Nat) : Slab α H :=
  match s.get slot with
  | none => s
  | some a =>
    { slots := s.slots.set slot none
      free := slot :: s.free
      live := s.live - 1
      index := fun h => if h = hash a then (s.index h).filter (· ≠ slot) else s.index h }

def insert (hash : α → H) (s : Slab α H) (a : α) : Slab α H where
  slots := if s.free = [] then s.slots ++ [some a] else s.slots.set s.vacancy (some a)
  free := s.free.tail
  live := s.live + 1
  index := fun h => if h = hash a then s.index h ++ [s.vacancy] else s.index h

theorem get_remove (slot i : Nat) : (s.remove hash slot).get i = if i = slot then none else s.get i := by
  unfold remove
  split
  · rename_i empty
    by_cases same : i = slot
    · simp [same, empty]
    · simp [same]
  · rename_i a found
    have inside := get_lt found
    by_cases same : i = slot
    · simp [get, same, inside]
    · simp [get, same, getElem?_set_ne (Ne.symm same)]

theorem get_insert (sound : s.Sound hash key) (a : α) (i : Nat) :
    (s.insert hash a).get i = if i = s.vacancy then some a else s.get i := by
  by_cases full : s.free = []
  · have last : s.vacancy = s.slots.length := by simp [vacancy, full]
    by_cases same : i = s.vacancy
    · simp [get, insert, full, same, last]
    · simp only [get, insert, full, if_true, same, if_false]
      rcases Nat.lt_or_gt_of_ne (last ▸ same) with before | after
      · rw [getElem?_append_left before]
      · have beyond : (s.slots ++ [some a]).length ≤ i := by
          rw [length_append, length_singleton]
          omega
        rw [getElem?_eq_none beyond, getElem?_eq_none (Nat.le_of_lt after)]
  · obtain ⟨slot, free, shape⟩ := exists_cons_of_ne_nil full
    have top : s.vacancy = slot := by simp [vacancy, shape]
    have inside := (sound.vacant slot (by simp [shape])).1
    by_cases same : i = slot
    · simp [get, insert, full, top, same, inside]
    · simp [get, insert, full, top, same, getElem?_set_ne (Ne.symm same)]

theorem Sound.remove (sound : s.Sound hash key) (slot : Nat) : (s.remove hash slot).Sound hash key := by
  cases found : s.get slot with
  | none =>
    have same : s.remove hash slot = s := by simp [Slab.remove, found]
    rw [same]
    exact sound
  | some gone =>
    have index : ∀ h i, i ∈ (s.remove hash slot).index h ↔ i ∈ s.index h ∧ i ≠ slot := by
      intro h i
      simp only [Slab.remove, found]
      by_cases own : h = hash gone
      · simp [own]
      · simp only [own]
        refine ⟨fun mem => ⟨mem, ?_⟩, And.left⟩
        rintro rfl
        obtain ⟨a, here, hashed⟩ := sound.held h i mem
        rw [found, some.injEq] at here
        exact own (by rw [← hashed, here])
    refine ⟨?_, ?_, ?_, ?_, ?_⟩
    · intro i a here
      rw [get_remove] at here
      split at here
      · cases here
      · rename_i other
        exact (index _ i).mpr ⟨sound.indexed i a here, other⟩
    · intro h i mem
      obtain ⟨mem, other⟩ := (index h i).mp mem
      rw [get_remove, if_neg other]
      exact sound.held h i mem
    · intro i j a b first second same
      rw [get_remove] at first second
      split at first
      · cases first
      · split at second
        · cases second
        · exact sound.distinct i j a b first second same
    · intro i mem
      have shape : (s.remove hash slot).free = slot :: s.free := by simp [Slab.remove, found]
      have length : (s.remove hash slot).slots.length = s.slots.length := by simp [Slab.remove, found]
      rw [shape, mem_cons] at mem
      rw [length, get_remove]
      rcases mem with rfl | earlier
      · exact ⟨get_lt found, if_pos rfl⟩
      · obtain ⟨inside, empty⟩ := sound.vacant i earlier
        exact ⟨inside, by simp [empty]⟩
    · have shape : (s.remove hash slot).free = slot :: s.free := by simp [Slab.remove, found]
      rw [shape, nodup_cons]
      refine ⟨fun mem => ?_, sound.once⟩
      have empty := (sound.vacant slot mem).2
      simp [found] at empty

/-- Inserting an entry with a new key keeps the slab sound. -/
theorem Sound.insert (sound : s.Sound hash key) {a : α}
    (fresh : ∀ i b, s.get i = some b → key b ≠ key a) : (s.insert hash a).Sound hash key := by
  have empty := get_vacancy sound
  refine ⟨?_, ?_, ?_, ?_, ?_⟩
  · intro i b here
    rw [get_insert sound] at here
    split at here
    · rename_i same
      cases here
      simp [Slab.insert, same]
    · have mem := sound.indexed i b here
      simp only [Slab.insert]
      split
      · exact mem_append_left _ mem
      · exact mem
  · intro h i mem
    simp only [get_insert sound]
    simp only [Slab.insert] at mem
    by_cases own : h = hash a
    · simp only [own, if_true, mem_append, mem_singleton] at mem
      rcases mem with earlier | new
      · obtain ⟨b, found, hashed⟩ := sound.held _ i earlier
        have other : i ≠ s.vacancy := by
          rintro rfl
          simp [empty] at found
        exact ⟨b, by simp [other, found], by rw [hashed, own]⟩
      · exact ⟨a, by simp [new], own.symm⟩
    · simp only [own] at mem
      obtain ⟨b, found, hashed⟩ := sound.held h i mem
      have other : i ≠ s.vacancy := by
        rintro rfl
        simp [empty] at found
      exact ⟨b, by simp [other, found], hashed⟩
  · intro i j b c first second same
    rw [get_insert sound] at first second
    split at first <;> split at second
    · omega
    · cases first
      exact absurd same.symm (fresh j c second)
    · cases second
      exact absurd same (fresh i b first)
    · exact sound.distinct i j b c first second same
  · intro i mem
    have earlier := mem_of_mem_tail mem
    obtain ⟨inside, vacant⟩ := sound.vacant i earlier
    have some := ne_nil_of_mem earlier
    obtain ⟨slot, free, shape⟩ := exists_cons_of_ne_nil some
    have nodup := sound.once
    simp only [shape, nodup_cons] at nodup
    have rest : i ∈ free := by simpa [Slab.insert, shape] using mem
    have other : i ≠ s.vacancy := by
      rintro rfl
      exact nodup.1 (by simpa [vacancy, shape] using rest)
    refine ⟨by simpa [Slab.insert, some] using inside, ?_⟩
    rw [get_insert sound, if_neg other]
    exact vacant
  · exact sound.once.sublist (tail_sublist _)

end Slab
