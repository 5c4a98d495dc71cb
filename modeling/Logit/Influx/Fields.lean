import Logit.Influx.RoundTrip

namespace Logit.Influx

open List Prod

variable (fields : Fields)

/-- Fields with one key are of one type. -/
def OneType : Prop := ∀ f ∈ fields, ∀ g ∈ fields, f.1 = g.1 → f.2.typeName = g.2.typeName

instance : Decidable (OneType fields) := inferInstanceAs (Decidable (∀ f ∈ fields, _))

def lastValue (key : String) : Option FieldValue := fields.reverse.lookup key

variable {measurement : String}

theorem lookup_cons_ite (f : String × FieldValue) (fields : Fields) (key : String) :
    lookup key (f :: fields) = if key = f.1 then some f.2 else fields.lookup key := by
  by_cases same : key = f.1
  · subst same
    rw [if_pos rfl]
    exact lookup_cons_self
  · have other : (key == f.1) = false := by simpa using same
    rw [if_neg same, lookup_cons, other]

/-- A field is refused only beside one of its key and of another type. -/
theorem pushField_error {fields : Fields} {key : String} {value : FieldValue} {reason : Reason}
    (refused : pushField measurement fields key value = .error reason) :
    ∃ current, fields.lookup key = some current ∧ current.typeName ≠ value.typeName := by
  induction fields with
  | nil => cases refused
  | cons f fields ih =>
    obtain ⟨k, current⟩ := f
    rw [pushField] at refused
    by_cases same : k = key
    · subst same
      rw [if_pos rfl] at refused
      dsimp only at refused
      split at refused
      · cases refused
      · rename_i differ
        exact ⟨current, lookup_cons_self, differ⟩
    · rw [if_neg same] at refused
      cases pushed : pushField measurement fields key value with
      | ok others =>
        rw [pushed] at refused
        cases refused
      | error reason' =>
        obtain ⟨current', found, differ⟩ := ih (by rw [pushed] at refused ⊢; exact refused)
        refine ⟨current', ?_, differ⟩
        rw [lookup_cons_ite, if_neg (Ne.symm same)]
        exact found

/-- A field that is taken is the value of its key, which agrees with the one before; the other keys and
the order of the keys stay. -/
theorem pushField_ok {fields others : Fields} {key : String} {value : FieldValue}
    (pushed : pushField measurement fields key value = .ok others) :
    (∀ current, fields.lookup key = some current → current.typeName = value.typeName) ∧
      (∀ k, others.lookup k = if k = key then some value else fields.lookup k) ∧
      others.map fst = if key ∈ fields.map fst then fields.map fst else fields.map fst ++ [key] := by
  induction fields generalizing others with
  | nil =>
    cases pushed
    exact ⟨nofun, fun k => lookup_cons_ite (key, value) [] k, rfl⟩
  | cons f fields ih =>
    obtain ⟨k, current⟩ := f
    rw [pushField] at pushed
    by_cases same : k = key
    · subst same
      rw [if_pos rfl] at pushed
      dsimp only at pushed
      split at pushed
      · rename_i agree
        cases pushed
        refine ⟨fun c found => ?_, fun k' => ?_, by simp⟩
        · rw [lookup_cons_self] at found
          cases found
          exact agree
        · rw [lookup_cons_ite, lookup_cons_ite]
          split <;> rfl
      · cases pushed
    · rw [if_neg same] at pushed
      cases rest : pushField measurement fields key value with
      | error reason =>
        rw [rest] at pushed
        cases pushed
      | ok others' =>
        rw [rest] at pushed
        cases pushed
        obtain ⟨agree, lookups, keys⟩ := ih rest
        refine ⟨fun c found => agree c ?_, fun k' => ?_, ?_⟩
        · rwa [lookup_cons_ite, if_neg (Ne.symm same)] at found
        · rw [lookup_cons_ite, lookup_cons_ite, lookups k']
          by_cases own : k' = k
          · rw [if_pos own, if_pos own, if_neg (own ▸ same)]
          · rw [if_neg own, if_neg own]
        · rw [map_cons, keys]
          by_cases mem : key ∈ fields.map fst
          · simp [mem]
          · simp [mem, Ne.symm same]

/-- Fields are taken together exactly when each agrees with what its key held, and all with each other. -/
theorem pushAll_isOk (written : Fields) : (∃ all, pushAll measurement fields written = .ok all) ↔
      (∀ f ∈ written, ∀ current, fields.lookup f.1 = some current → current.typeName = f.2.typeName) ∧
        OneType written := by
  induction written generalizing fields with
  | nil => exact ⟨fun _ => ⟨by simp, by simp [OneType]⟩, fun _ => ⟨fields, rfl⟩⟩
  | cons f written ih =>
    rw [pushAll]
    cases pushed : pushField measurement fields f.1 f.2 with
    | error reason =>
      obtain ⟨current, found, differ⟩ := pushField_error pushed
      constructor
      · rintro ⟨all, taken⟩
        cases taken
      · rintro ⟨agree, -⟩
        exact absurd (agree f mem_cons_self current found) differ
    | ok others =>
      obtain ⟨agree, lookups, -⟩ := pushField_ok pushed
      refine (ih others).trans ?_
      constructor <;> rintro ⟨before, one⟩
      · have beside : ∀ g ∈ written, g.1 = f.1 → f.2.typeName = g.2.typeName := by
          intro g mem same
          exact before g mem f.2 (by rw [lookups, if_pos same])
        refine ⟨forall_mem_cons.mpr ⟨agree, fun g mem current found => ?_⟩, ?_⟩
        · by_cases same : g.1 = f.1
          · rw [same] at found
            exact (agree current found).trans (beside g mem same)
          · exact before g mem current (by rw [lookups, if_neg same]; exact found)
        · refine forall_mem_cons.mpr ⟨forall_mem_cons.mpr ⟨fun _ => rfl, ?_⟩, ?_⟩
          · exact fun g mem same => beside g mem same.symm
          · exact fun g mem => forall_mem_cons.mpr ⟨fun same => (beside g mem same).symm, one g mem⟩
      · refine ⟨fun g mem current found => ?_, ?_⟩
        · rw [lookups] at found
          split at found
          · rename_i same
            cases found
            exact one f mem_cons_self g (mem_cons_of_mem _ mem) same.symm
          · exact before g (mem_cons_of_mem _ mem) current found
        · exact fun g mem h mem' => one g (mem_cons_of_mem _ mem) h (mem_cons_of_mem _ mem')

/-- What is kept: each key once, with the value written last under it. -/
theorem pushAll_ok {fields written all : Fields} (taken : pushAll measurement fields written = .ok all)
    (distinct : (fields.map fst).Nodup) :
    (all.map fst).Nodup ∧ ∀ key, all.lookup key = (lastValue written key).or (fields.lookup key) := by
  induction written generalizing fields with
  | nil =>
    cases taken
    exact ⟨distinct, fun key => by simp [lastValue]⟩
  | cons f written ih =>
    rw [pushAll] at taken
    cases pushed : pushField measurement fields f.1 f.2 with
    | error reason =>
      rw [pushed] at taken
      cases taken
    | ok others =>
      rw [pushed] at taken
      obtain ⟨-, lookups, keys⟩ := pushField_ok pushed
      have distinct' : (others.map fst).Nodup := by
        rw [keys]
        split
        · exact distinct
        · rename_i fresh
          exact nodup_append.mpr ⟨distinct, nodup_singleton _, fun a mem b own => by
            rw [mem_singleton] at own
            rintro rfl
            exact fresh (own ▸ mem)⟩
      obtain ⟨nodup, values⟩ := ih taken distinct'
      refine ⟨nodup, fun key => ?_⟩
      rw [values key, lookups key, lastValue, lastValue, reverse_cons, lookup_append, Option.or_assoc]
      congr 1
      rw [lookup_cons_ite]
      split <;> rfl

theorem pushAll_distinct {fields written : Fields} (distinct : ((fields ++ written).map fst).Nodup) :
    pushAll measurement fields written = .ok (fields ++ written) := by
  induction written generalizing fields with
  | nil => rw [append_nil]; rfl
  | cons f written ih =>
    have fresh : f.1 ∉ fields.map fst := by
      rw [map_append, nodup_append] at distinct
      exact fun mem => distinct.2.2 _ mem _ mem_cons_self rfl
    have appended : pushField measurement fields f.1 f.2 = .ok (fields ++ [f]) := by
      clear ih distinct
      induction fields with
      | nil => rfl
      | cons g fields ih =>
        rw [map_cons, mem_cons, not_or] at fresh
        rw [pushField, if_neg (Ne.symm fresh.1), ih fresh.2]
        rfl
    rw [pushAll, appended]
    show pushAll measurement (fields ++ [f]) written = _
    rw [ih (by rwa [append_assoc]), append_assoc]
    rfl

end Logit.Influx
