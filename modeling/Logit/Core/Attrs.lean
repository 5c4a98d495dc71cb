import Logit.Core.Event
import Logit.Lib.MergeJoin

namespace Logit

open List MergeJoin AttrMap

namespace AttrMap

variable {X : Externals} (m : AttrMap X)

def getSym (key : X.Symbol) : Option (RawValue X) :=
  (m.entries.find? fun e => decide (e.1 = key)).map Prod.snd

def filterKeys (keep : X.Symbol → Bool) : AttrMap X where
  entries := m.entries.filter fun e => keep e.1
  sorted := m.sorted.filter _
  nested e mem := m.nested e (List.mem_filter.mp mem).1

theorem getSym_insertSym (key other : X.Symbol) (v : Value X) :
    (m.insertSym key v).getSym other = if other = key then some v.raw else m.getSym other := by
  show ((insertEntry key v.raw m.entries).find? fun e => decide (e.1 = other)).map Prod.snd = if other = key then
    some v.raw else (m.entries.find? fun e => decide (e.1 = other)).map Prod.snd
  induction m.entries with
  | nil => by_cases same : other = key <;> simp [insertEntry, eq_comm]
  | cons e others ih =>
    rw [insertEntry]
    split
    · rename_i below
      by_cases here : e.1 = other
      · simp [here, show other ≠ key from here ▸ ne_of_lt below]
      · simpa [here] using ih
    · by_cases same : other = key
      · split <;> simp [same]
      · split
        · rename_i equal
          simp [equal, Ne.symm same]
        · simp [Ne.symm same]

/-- The value of a key, and the map without its entry, the only one with that key. -/
def removeSym (key : X.Symbol) : Option (RawValue X) × AttrMap X :=
  (m.getSym key, m.filterKeys fun k => !decide (k = key))

theorem getSym_removeSym (key other : X.Symbol) :
    (m.removeSym key).2.getSym other = if other = key then none else m.getSym other := by
  simp only [removeSym, getSym, filterKeys, find?_filter]
  by_cases same : other = key
  · subst same
    simp
  · rw [if_neg same]
    congr 2
    funext e
    by_cases here : e.1 = other <;> simp [here, same]

/-- The entries, in order. -/
def iter : List (X.Symbol × Value X) := m.entries.attach.map fun e => (e.1.1, ⟨e.1.2, m.nested e.1 e.2⟩)

theorem map_iter : (m.iter.map fun p => (p.1, p.2.raw)) = m.entries := by
  rw [iter, map_map]
  exact m.entries.attach_map_subtype_val

/-- An insert of a value under a key, or the removal of a key. -/
def apply : X.Symbol × Option (Value X) → AttrMap X
  | (key, some v) => m.insertSym key v
  | (key, none) => (m.removeSym key).2

variable (ops : List (X.Symbol × Option (Value X)))

/-- The finite map that inserts and removals give. -/
def spec : X.Symbol → Option (RawValue X) :=
  ops.foldl (fun f op => Function.update f op.1 (op.2.map Value.raw)) fun _ => none

theorem getSym_foldl (key : X.Symbol) : (ops.foldl apply empty).getSym key = spec ops key := by
  induction ops using reverseRecOn with
  | nil => rfl
  | append_singleton ops op ih =>
    obtain ⟨changed, value⟩ := op
    rw [spec, foldl_concat, foldl_concat, Function.update_apply, ← spec, ← ih]
    cases value with
    | none => exact getSym_removeSym ..
    | some v => exact getSym_insertSym ..

theorem merge_insertEntry (entries : RawEntries X) {y : X.Symbol × RawValue X}
    {others : RawEntries X} (above : ∀ e ∈ others, y.1 < e.1) :
    merge entries (y :: others) = merge (insertEntry y.1 y.2 entries) others := by
  induction entries with
  | nil =>
    show y :: merge [] others = _
    exact (mergeInto_front above).symm
  | cons x entries ih =>
    show mergeInto (merge entries) x (y :: others) = _
    rw [mergeInto, insertEntry]
    split
    · rename_i below
      rw [ih]
      exact (mergeInto_front fun e mem => below.trans (above e mem)).symm
    · split
      · exact (mergeInto_front above).symm
      · exact (mergeInto_front above).symm

theorem foldl_insertSym_eq_merge {pairs : List (X.Symbol × Value X)} (base : AttrMap X)
    (sorted : (pairs.map fun p => (p.1, p.2.raw)).Pairwise fun a b => a.1 < b.1) :
    (pairs.foldl (fun m p => m.insertSym p.1 p.2) base).entries =
      merge base.entries (pairs.map fun p => (p.1, p.2.raw)) := by
  induction pairs generalizing base with
  | nil => exact merge_nil.symm
  | cons p others ih =>
    obtain ⟨above, rest⟩ := pairwise_cons.mp sorted
    rw [foldl_cons, ih _ rest]
    exact (merge_insertEntry base.entries above).symm

end AttrMap

variable {X : Externals}

def privatePrefix : String := "_logit."
def fieldPrefix : String := "_logit.field."

def stripPrefix (front s : String) : Option String := (s.toList.dropPrefix? front.toList).map String.ofList

def isPrivate (key : X.Symbol) : Bool := privatePrefix.toList.isPrefixOf (X.resolve key).toList
def isField (key : X.Symbol) : Bool := fieldPrefix.toList.isPrefixOf (X.resolve key).toList

/-- The resource's attributes merged with the event's, in the order of their symbols. -/
def merged (resource : Resource X) (event : Event X) : RawEntries X :=
  merge resource.attributes.entries event.attributes.entries

theorem merged_sorted (resource : Resource X) (event : Event X) :
    (merged resource event).Pairwise fun a b => a.1 < b.1 :=
  merge_sorted resource.attributes.sorted event.attributes.sorted

/-- Inserts and removals keep the entries in the order of their keys and read as those of a finite map, and
merging is inserting the event's entries into the resource's in turn. -/
theorem attrMap_is_finiteMap (ops : List (X.Symbol × Option (Value X))) (resource : Resource X) (event : Event X) :
    let m := ops.foldl apply empty
    m.entries.Pairwise (fun a b => a.1 < b.1) ∧
      (∀ key, m.getSym key = spec ops key ∧ (m.removeSym key).1 = spec ops key) ∧
      merged resource event =
        (event.attributes.iter.foldl (fun m p => m.insertSym p.1 p.2) resource.attributes).entries := by
  intro m
  have lookup := getSym_foldl ops
  have sorted := event.attributes.sorted
  rw [← map_iter] at sorted
  refine ⟨m.sorted, fun key => ⟨lookup key, lookup key⟩, ?_⟩
  rw [foldl_insertSym_eq_merge _ sorted, map_iter]
  rfl

end Logit
