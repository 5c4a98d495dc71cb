import Logit.Aggregate.Absorb

namespace Logit.Aggregate

open List Aggregator Trays

variable {X : Externals} {cfg : Config X} {s : Aggregator X} {now : Int64}

def Aggregator.emissions (cfg : Config X) (s : Aggregator X) (now : Int64) : List (Origin X × Emission X) :=
  s.held.filterMap fun e => (Aggregator.flushSeries cfg now e.2.1 e.2.2).1.map fun emission => (e.1, emission)

/-- The groups that a flush gives out hold these emissions and no others. -/
theorem flush_emitted (cfg : Config X) (s : Aggregator X) (now : Int64) :
    ((s.flush cfg now).1.flatMap fun g => g.2.map fun e => (g.1, e)) = s.emissions cfg now := by
  unfold Aggregator.emissions Aggregator.held Aggregator.flush
  simp only
  induction s.groups with
  | nil => rfl
  | cons g groups ih =>
    have own : ((row g).filterMap fun e => (flushSeries cfg now e.2.1 e.2.2).1.map fun emission =>
      (e.1, emission)) =
        (g.items.entries.filterMap fun e => (flushSeries cfg now e.1 e.2).1).map
          fun emission => (g.label, emission) := by
      rw [row, filterMap_map, map_filterMap]
      rfl
    have split : entries (g :: groups) = row g ++ entries groups := rfl
    rw [split, filterMap_append, ← ih, own, map_cons]
    by_cases empty : (g.items.entries.filterMap fun e => (flushSeries cfg now e.1 e.2).1) = []
    · rw [empty]
      rfl
    · rw [filter_cons_of_pos (by simpa using empty)]
      rfl

/-- The start that a series' point carries: zero, for none, unless the series outlives the flush. -/
def startOf (cfg : Config X) (now : Int64) (state : SeriesState X) : Int64 :=
  if 0 < cfg.seriesRetention ∧ (state.accumulator.retainedKind cfg.temporality).any Aggregator.hasStart then
    min state.firstSeen now
  else 0

def pointOf (cfg : Config X) (now : Int64) (key : SeriesKey X) (state : SeriesState X) : MetricRecord X :=
  ⟨key.name, key.unit, state.description, startOf cfg now state, [], 0, state.accumulator.intoKind cfg.temporality⟩

theorem retainedKind_eq {accumulator : Accumulator X} {temporality : AggregateTemporality} {kind : MetricKind X}
    (retained : accumulator.retainedKind temporality = some kind) : kind = accumulator.intoKind temporality := by
  cases accumulator with
  | sum total monotonic | histogram h =>
    obtain ⟨-, ⟨⟩⟩ := Option.ite_none_right_eq_some.mp retained
    rfl
  | gauge value at_ => exact (Option.some.inj retained).symm
  | _ => cases retained

theorem flushSeries_emits (cfg : Config X) (now : Int64) (key : SeriesKey X) (state : SeriesState X) :
    (flushSeries cfg now key state).1 = if state.updatedThisWindow then
        some ⟨key, state.openSeq, metricEvent now key state (startOf cfg now state)
            (state.accumulator.intoKind cfg.temporality), state.contexts.intoLinks⟩
      else none := by
  unfold flushSeries startOf
  by_cases updated : state.updatedThisWindow = true
  · simp only [updated]
    by_cases retains : 0 < cfg.seriesRetention
    · simp only [retains]
      cases retained : state.accumulator.retainedKind cfg.temporality with
      | none => rfl
      | some kind =>
        rw [← retainedKind_eq retained]
        cases started : hasStart kind <;> simp [started]
    · simp [retains]
  · simp [updated]

/-- The two ways in which a series outlives a flush: updated and retained, or idle and not for too
long. -/
theorem flushSeries_survives {key : SeriesKey X} {state kept : SeriesState X}
    (survives : (flushSeries cfg now key state).2 = some kept) :
    (state.updatedThisWindow = true ∧ 0 < cfg.seriesRetention ∧
      ∃ kind, state.accumulator.retainedKind cfg.temporality = some kind ∧ kept = { state with
          accumulator := forget state.accumulator
          contexts := .empty
          idleWindows := 0
          firstSeen := if hasStart kind then min state.firstSeen now else state.firstSeen
          updatedThisWindow := false }) ∨
    (state.updatedThisWindow = false ∧
      kept = { state with contexts := .empty, idleWindows := state.idleWindows + 1 }) := by
  unfold flushSeries at survives
  split at survives
  · rename_i updated
    simp only at survives
    split at survives
    · rename_i kind retained
      obtain rfl := Option.some.inj survives
      obtain ⟨retains, own⟩ := Option.ite_none_right_eq_some.mp retained
      exact .inl ⟨updated, retains, kind, own, rfl⟩
    · cases survives
  · rename_i idle
    obtain ⟨-, ⟨⟩⟩ := Option.ite_none_right_eq_some.mp survives
    exact .inr ⟨by simpa using idle, rfl⟩

/-- A series that a flush keeps is the one it was, and is not updated. -/
theorem flushSeries_kept {key : SeriesKey X} {state kept : SeriesState X}
    (survives : (flushSeries cfg now key state).2 = some kept) :
    kept.openSeq = state.openSeq ∧ kept.updatedThisWindow = false := by
  rcases flushSeries_survives survives with ⟨-, -, kind, -, rfl⟩ | ⟨idle, rfl⟩
  · exact ⟨rfl, rfl⟩
  · exact ⟨rfl, idle⟩

theorem survivors_eq (groups : List (ResourceGroup X)) :
    (groups.zipIdx.flatMap fun g => Aggregator.survivorsOf cfg now g.2 g.1) = (indexed groups).filterMap fun e =>
        (flushSeries cfg now e.2.1 e.2.2).2.map fun state => (e.1, e.2.1, state) := by
  rw [indexed, entries, numbered, flatMap_map, filterMap_flatMap]
  simp only [row, filterMap_map]
  rfl

theorem capSurvivors_spec (survivors : List (Entry Nat X)) :
    (Aggregator.capSurvivors cfg survivors).Subperm survivors ∧
      (Aggregator.capSurvivors cfg survivors).length ≤ cfg.maxRetainedSeries := by
  unfold Aggregator.capSurvivors
  split
  · refine ⟨(drop_sublist _ _).subperm.trans (perm_insertionSort _ _).subperm, ?_⟩
    rw [length_drop, length_insertionSort]
    omega
  · exact ⟨List.Subperm.refl _, by omega⟩

theorem map_filterMap_sublist {α β γ : Type} {f : α → Option β} {before : α → γ} {after : β → γ}
    (same : ∀ a b, f a = some b → after b = before a) (items : List α) :
    ((items.filterMap f).map after).Sublist (items.map before) := by
  induction items with
  | nil => exact .slnil
  | cons a items ih =>
    cases kept : f a with
    | none =>
      rw [filterMap_cons_none kept]
      exact ih.cons _
    | some b =>
      rw [filterMap_cons_some kept, map_cons, same a b kept]
      exact ih.cons_cons _

/-- The series that a flush keeps, with the places of their groups. -/
def Aggregator.kept (cfg : Config X) (s : Aggregator X) (now : Int64) : List (Entry Nat X) :=
  capSurvivors cfg (s.groups.zipIdx.flatMap fun g => survivorsOf cfg now g.2 g.1)

theorem mem_kept {e : Entry Nat X} (mem : e ∈ s.kept cfg now) :
    ∃ state, get s.groups e.1 e.2.1 = some state ∧
      (flushSeries cfg now e.2.1 state).2 = some e.2.2 := by
  have survivor := (capSurvivors_spec _).1.subset mem
  rw [survivors_eq] at survivor
  obtain ⟨⟨i, key, state⟩, held, same⟩ := mem_filterMap.mp survivor
  obtain ⟨state', kept, rfl⟩ := Option.map_eq_some_iff.mp same
  exact ⟨state, mem_indexed.mp held, kept⟩

theorem kept_subperm (cfg : Config X) (s : Aggregator X) (now : Int64) {γ : Type}
    (f : Entry Nat X → γ)
    (same : ∀ i key state state', (flushSeries cfg now key state).2 = some state' →
      f (i, key, state') = f (i, key, state)) :
    ((s.kept cfg now).map f).Subperm ((indexed s.groups).map f) := by
  obtain ⟨part, perm, sub⟩ := (capSurvivors_spec _).1
  have fewer : ((s.kept cfg now).map f).Subperm _ := ⟨part.map f, perm.map f, sub.map f⟩
  rw [survivors_eq] at fewer
  refine fewer.trans (map_filterMap_sublist ?_ _).subperm
  rintro ⟨i, key, state⟩ e mapped
  obtain ⟨state', kept, rfl⟩ := Option.map_eq_some_iff.mp mapped
  exact same i key state state' kept

theorem kept_subperm_held (cfg : Config X) (s : Aggregator X) (now : Int64) {γ : Type}
    (f : SeriesKey X × SeriesState X → γ)
    (same : ∀ key state state', (flushSeries cfg now key state).2 = some state' →
      f (key, state') = f (key, state)) :
    ((s.kept cfg now).map fun e => f e.2).Subperm (s.held.map fun e => f e.2) := by
  have fewer := kept_subperm cfg s now (fun e => f e.2) fun _ => same
  have items := congrArg (map f) (indexed_items s.groups)
  rw [map_map, map_map] at items
  have own : (indexed s.groups).map (fun e => f e.2) = s.held.map fun e => f e.2 := items
  rw [own] at fewer
  exact fewer

/-- The label of the group at an index, or of none. -/
def Aggregator.labelAt (s : Aggregator X) (i : Nat) : Origin X :=
  (s.groups[i]?.map Tray.label).getD ⟨⟨0, ⟨AttrMap.empty, 0, none⟩⟩, none, 0⟩

theorem flush_held (cfg : Config X) (s : Aggregator X) (now : Int64) :
    (s.flush cfg now).2.held.Perm ((s.kept cfg now).map fun e => (s.labelAt e.1, e.2.1, e.2.2)) := by
  have distinct : ((s.kept cfg now).map fun e => (e.1, e.2.1)).Nodup := by
    obtain ⟨part, same, sub⟩ := kept_subperm cfg s now (fun e => (e.1, e.2.1)) fun _ _ _ _ _ => rfl
    exact same.nodup_iff.mp (sub.nodup (indexed_distinct s.groups))
  have emptied : entries (s.groups.map fun g => ({ g with items := ∅ } : ResourceGroup X)) = [] := by
    rw [entries, flatMap_map]
    exact flatMap_eq_nil_iff.mpr fun _ _ => rfl
  have placed : ∀ e ∈ s.kept cfg now, (s.groups.map fun g =>
      ({ g with items := ∅ } : ResourceGroup X))[e.1]?.map Tray.label = some (s.labelAt e.1) := by
    intro e mem
    obtain ⟨state, held, -⟩ := mem_kept mem
    obtain ⟨t, here, -⟩ := get_some held
    rw [getElem?_map, labelAt, here]
    rfl
  have vacant : ∀ e ∈ s.kept cfg now, Trays.get (s.groups.map fun g =>
      ({ g with items := ∅ } : ResourceGroup X)) e.1 e.2.1 = none := by
    intro e _
    rw [Trays.get, getElem?_map]
    cases s.groups[e.1]? with
    | none => rfl
    | some t => exact AList.lookup_empty _
  have all := entries_putAll distinct placed vacant
  rw [emptied, append_nil] at all
  refine List.Perm.trans (List.Perm.of_eq ?_) all
  refine entries_filter _ ?_
  intro t _ dropped
  simpa using dropped

theorem flush_labels (cfg : Config X) (s : Aggregator X) (now : Int64) :
    (s.flush cfg now).2.labels.Sublist s.labels := by
  have same : s.labels = (putAll (s.kept cfg now) (s.groups.map fun g => { g with items := ∅ })).map
    Tray.label := by
    rw [labels_putAll, map_map]
    rfl
  rw [same]
  exact filter_sublist.map _

theorem Sound.flush (sound : Sound cfg s []) (within : s.budget.held ≤ s.budget.max) (now : Int64) :
    Sound cfg (s.flush cfg now).2 [] ∧ (s.flush cfg now).2.budget.held ≤ (s.flush cfg now).2.budget.max ∧
      (s.flush cfg now).2.budget.held ≤ cfg.maxRetainedSeries := by
  have held := flush_held cfg s now
  have labels := flush_labels cfg s now
  have keys := kept_subperm_held cfg s now Prod.fst fun _ _ _ _ => rfl
  have seqs := kept_subperm_held cfg s now (fun e => e.2.openSeq) fun _ _ _ kept => (flushSeries_kept kept).1
  have heldKeys := held.map fun e => e.2.1
  have heldSeqs := held.map fun e => e.2.2.openSeq
  rw [map_map] at heldKeys heldSeqs
  have idle : idleCount (s.flush cfg now).2.held = (s.kept cfg now).length := by
    rw [idleCount_perm held, idleCount, countP_map]
    refine countP_eq_length.mpr fun e mem => ?_
    obtain ⟨state, -, kept⟩ := mem_kept mem
    simp [(flushSeries_kept kept).2]
  obtain ⟨counts, max, perName⟩ := reset_spec sound.counts keys
  have size : (s.flush cfg now).2.budget.held = (s.kept cfg now).length := counts.held.trans (length_map _)
  refine ⟨⟨?_, max.trans sound.max, perName.trans sound.perName, ?_, ?_, ?_, ?_, ?_, ?_, ?_, ?_,
    sound.evictions⟩, ?_, ?_⟩
  · rw [idle]
    have own := counts.perm heldKeys.symm
    rw [length_map] at own
    exact own
  · intro built
    cases built
  · exact fun _ => rfl
  · exact (labels.map _).nodup sound.distinct
  · exact fun o mem => sound.hashed o (labels.subset mem)
  · intro m memoized
    cases memoized
  · intro m memoized
    cases memoized
  · obtain ⟨part, same, sub⟩ := seqs
    exact heldSeqs.nodup_iff.mpr (same.nodup_iff.mp (sub.nodup sound.seqs))
  · intro e mem
    have kept := seqs.subset (heldSeqs.subset (mem_map_of_mem mem))
    obtain ⟨old, inside, same⟩ := mem_map.mp kept
    have older := sound.recent old inside
    rw [same] at older
    exact older
  · have fewer := keys.length_le
    have before : s.budget.held = (s.held.map fun e => e.2.1).length := sound.counts.held
    rw [size]
    show (s.kept cfg now).length ≤ (s.budget.reset ((s.kept cfg now).map fun e => e.2.1)).max
    rw [length_map] at fewer
    omega
  · rw [size]
    exact (capSurvivors_spec _).2

theorem flush_heldAt {place : Place X} {kept : SeriesState X} (after : HeldAt (s.flush cfg now).2 place kept) :
    ∃ state, HeldAt s place state ∧ (flushSeries cfg now place.key state).2 = some kept := by
  obtain ⟨o, mem, named⟩ := after
  obtain ⟨⟨i, _, _⟩, inside, ⟨⟩⟩ := mem_map.mp ((flush_held cfg s now).mem_iff.mp mem)
  obtain ⟨state, held, survives⟩ := mem_kept inside
  obtain ⟨t, here, -⟩ := get_some held
  refine ⟨state, ⟨s.labelAt i, mem_entries.mpr ⟨i, t, here, ?_, held⟩, named⟩, survives⟩
  rw [labelAt, here]
  rfl

end Logit.Aggregate
