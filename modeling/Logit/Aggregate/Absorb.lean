import Logit.Aggregate.Admission

namespace Logit.Aggregate

open List Option Aggregator Trays

variable {X : Externals} {cfg : Config X} {s s' : Aggregator X} {reserved : List (SeriesKey X)}

def HeldAt (s : Aggregator X) (place : Place X) (state : SeriesState X) : Prop :=
  ∃ o, (o, place.key, state) ∈ s.held ∧ o.name = place.group

variable {place : Place X}

theorem heldAt_iff {state : SeriesState X} : HeldAt s place state ↔
    ∃ i, GroupAt s i place.group ∧ get s.groups i place.key = some state := by
  constructor
  · rintro ⟨o, mem, named⟩
    obtain ⟨i, t, here, rfl, held⟩ := mem_entries.mp mem
    exact ⟨i, groupAt_iff.mpr ⟨t, here, named⟩, held⟩
  · rintro ⟨i, there, held⟩
    obtain ⟨t, here, named⟩ := groupAt_iff.mp there
    exact ⟨t.label, mem_entries.mpr ⟨i, t, here, rfl, held⟩, named⟩

theorem Sound.heldAt (sound : Sound cfg s reserved) {i : Nat} {state : SeriesState X}
    (there : GroupAt s i place.group) : HeldAt s place state ↔ get s.groups i place.key = some state := by
  rw [heldAt_iff]
  constructor
  · rintro ⟨j, other, held⟩
    rw [sound.groupAt_unique there other]
    exact held
  · exact fun held => ⟨i, there, held⟩

theorem Sound.heldAt_unique (sound : Sound cfg s reserved) {a b : SeriesState X} (left : HeldAt s place a)
    (right : HeldAt s place b) : a = b := by
  obtain ⟨i, there, held⟩ := heldAt_iff.mp left
  rw [sound.heldAt there, held] at right
  exact some.inj right

section

variable {i : Nat} {key : SeriesKey X} {name : GroupName X} {state : SeriesState X}

theorem groupAt_put {j : Nat} {b : SeriesBudget X} {n : Nat} : GroupAt
    { s with groups := Trays.put i key state s.groups, budget := b, nextOpenSeq := n } j name ↔
      GroupAt s j name := by
  rw [GroupAt, labels, labels_put]
  rfl

theorem Sound.heldAt_put (sound : Sound cfg s reserved) (there : GroupAt s i name) (key : SeriesKey X)
    (state : SeriesState X) (b : SeriesBudget X) (n : Nat) (place : Place X) (other : SeriesState X) :
    HeldAt { s with groups := Trays.put i key state s.groups, budget := b, nextOpenSeq := n } place other ↔
      place = ⟨name, key⟩ ∧ other = state ∨ place ≠ ⟨name, key⟩ ∧ HeldAt s place other := by
  rw [heldAt_iff, heldAt_iff]
  simp only [groupAt_put, get_put]
  obtain ⟨group, k⟩ := place
  constructor
  · rintro ⟨j, here, held⟩
    split at held
    · rename_i same
      obtain ⟨rfl, rfl⟩ := same
      obtain ⟨_, _, rfl⟩ := map_eq_some_iff.mp held
      have own : group = name := some.inj (here.symm.trans there)
      exact .inl ⟨by rw [own], rfl⟩
    · rename_i apart
      refine .inr ⟨?_, j, here, held⟩
      rintro ⟨⟩
      exact apart ⟨sound.groupAt_unique there here, rfl⟩
  · rintro (⟨⟨⟩, rfl⟩ | ⟨apart, j, here, held⟩)
    · obtain ⟨t, inside, -⟩ := groupAt_iff.mp there
      exact ⟨i, there, by rw [if_pos ⟨rfl, rfl⟩, inside]; rfl⟩
    · refine ⟨j, here, ?_⟩
      rw [if_neg]
      · exact held
      · rintro ⟨rfl, rfl⟩
        have own : group = name := some.inj (here.symm.trans there)
        exact apart (by rw [own])

theorem Sound.put (sound : Sound cfg s reserved) (updated : state.updatedThisWindow = true)
    {b : SeriesBudget X} {n : Nat} {others : List (Entry (Origin X) X)} {o : Origin X}
    (held : (entries (Trays.put i key state s.groups)).Perm ((o, key, state) :: others))
    (counts : Counts b (key :: others.map fun e => e.2.1) (idleCount others))
    (max : b.max = s.budget.max) (perName : b.perName = s.budget.perName)
    (seqs : (state.openSeq :: others.map fun e => e.2.2.openSeq).Nodup)
    (recent : state.openSeq < n ∧ ∀ e ∈ others, e.2.2.openSeq < n) :
    Sound cfg { s with groups := Trays.put i key state s.groups, budget := b, nextOpenSeq := n } [] where
  counts := by
    have idle : idleCount (entries (Trays.put i key state s.groups)) = idleCount others := by
      rw [idleCount_perm held, idleCount, countP_cons_of_neg (by simp [updated])]
      rfl
    have keys := (held.map fun e => e.2.1).symm
    show Counts b ([] ++ (entries (Trays.put i key state s.groups)).map fun e => e.2.1)
      (idleCount (entries (Trays.put i key state s.groups)))
    rw [idle]
    exact counts.perm keys
  max := max.trans sound.max
  perName := perName.trans sound.perName
  order built := (sound.order built).put i key updated
  unbuilt := sound.unbuilt
  distinct := by
    rw [labels, labels_put]
    exact sound.distinct
  hashed := by
    rw [labels, labels_put]
    exact sound.hashed
  memo m memoized := groupAt_put.mpr (sound.memo m memoized)
  alive := sound.alive
  seqs := by
    have same := held.map fun e => e.2.2.openSeq
    exact same.nodup_iff.mpr seqs
  recent := by
    intro e mem
    rcases mem_cons.mp (held.mem_iff.mp mem) with rfl | old
    · exact recent.1
    · exact recent.2 e old
  evictions := sound.evictions

theorem Sound.touch (sound : Sound cfg s []) (held : get s.groups i key = some state)
    (accumulator : Accumulator X) :
    Sound cfg { s with
      groups := Trays.put i key (s.absorbedInto state accumulator) s.groups
      budget := { s.budget with
        idle := if !state.updatedThisWindow then s.budget.idle - 1 else s.budget.idle } } [] := by
  obtain ⟨t, here, -⟩ := get_some held
  have before : s.held.Perm ((t.label, key, state) :: _) := entries_remove here held
  have after := entries_put (k := key) (s.absorbedInto state accumulator) here
  have keys := before.map fun e => e.2.1
  have counts := sound.counts.perm keys
  have idle := counts.idle
  rw [idleCount_perm before, idleCount, countP_cons] at idle
  have seqs := (before.map fun e => e.2.2.openSeq).nodup_iff.mp sound.seqs
  refine sound.put rfl after ⟨counts.held, ?_, counts.names, counts.unnamed⟩ rfl rfl seqs ⟨?_, ?_⟩
  · rw [idleCount]
    cases updated : state.updatedThisWindow with
    | true => simpa [updated] using idle
    | false =>
      simp only [updated] at idle ⊢
      exact Nat.sub_eq_of_eq_add idle
  · exact sound.recent _ (before.mem_iff.mpr mem_cons_self)
  · exact fun e old => sound.recent e (before.mem_iff.mpr (mem_cons_of_mem _ old))

theorem Sound.openSeries (sound : Sound cfg s [key]) (there : GroupAt s i name)
    (vacant : get s.groups i key = none) (updated : state.updatedThisWindow = true)
    (newest : state.openSeq = s.nextOpenSeq) :
    Sound cfg { s with groups := Trays.put i key state s.groups, nextOpenSeq := s.nextOpenSeq + 1 } [] := by
  obtain ⟨t, here, -⟩ := groupAt_iff.mp there
  have after := entries_put (k := key) state here
  rw [entries_remove_none vacant] at after
  refine sound.put (b := s.budget) updated after sound.counts rfl rfl ?_ ⟨by omega, ?_⟩
  · refine nodup_cons.mpr ⟨?_, sound.seqs⟩
    intro again
    obtain ⟨e, mem, same⟩ := mem_map.mp again
    have older := sound.recent e mem
    omega
  · intro e old
    have older := sound.recent e old
    omega

end

/-- What becomes of a record, and of the state. -/
inductive Effect (cfg : Config X) (s : Aggregator X) (timestamp : Int64) (name : GroupName X)
    (key : SeriesKey X) (r : MetricRecord X) : Fate X → Aggregator X → Prop
  | passed (reason : Reason) {s' : Aggregator X} (groups : s'.groups = s.groups) (frame : Frame s s') :
    Effect cfg s timestamp name key r (.passed reason) s'
  | dropped {s' : Aggregator X} (groups : s'.groups = s.groups) (frame : Frame s s') :
    Effect cfg s timestamp name key r .dropped s'
  | touched {s' : Aggregator X} {picked : SeriesKey X} {folded widened : Bool} (picks : Picks key picked folded)
    (before : SeriesState X) (accumulator : Accumulator X) (held : HeldAt s ⟨name, picked⟩ before)
    (merged : merge cfg timestamp false before.accumulator r.kind = .accumulated accumulator widened)
    (after : ∀ place state, HeldAt s' place state ↔
      place = ⟨name, picked⟩ ∧ state = s.absorbedInto before accumulator ∨
        place ≠ ⟨name, picked⟩ ∧ HeldAt s place state)
    (frame : Frame s s') :
    Effect cfg s timestamp name key r (.absorbed ⟨name, picked⟩ before.openSeq folded widened) s'
  | opened {s' : Aggregator X} {picked : SeriesKey X} {folded : Bool} (picks : Picks key picked folded)
    (opener : Opener) (accumulator : Accumulator X)
    (opens : openerFor r.kind cfg.distributions cfg.sets cfg.temporality = some opener)
    (vacant : ∀ state, ¬HeldAt s ⟨name, picked⟩ state)
    (merged : merge cfg timestamp true (opener.open cfg.sketches) r.kind = .accumulated accumulator false)
    (after : ∀ place state, HeldAt s' place state → place = ⟨name, picked⟩ ∧
          state = s.absorbedInto (s.newSeries cfg timestamp opener r.description) accumulator ∨
        place ≠ ⟨name, picked⟩ ∧ HeldAt s place state)
    (there : HeldAt s' ⟨name, picked⟩
      (s.absorbedInto (s.newSeries cfg timestamp opener r.description) accumulator))
    (kept : ∀ place state, HeldAt s place state → state.updatedThisWindow = true → HeldAt s' place state)
    (windowStart : s'.windowStart = s.windowStart) (next : s'.nextOpenSeq = s.nextOpenSeq + 1) :
    Effect cfg s timestamp name key r (.absorbed ⟨name, picked⟩ s.nextOpenSeq folded false) s'

/-- A state that a record of this resource can be given to, with the group's index once it is known. -/
structure Ready (cfg : Config X) (s : Aggregator X) (resource : Arc (Resource X)) (gi : Option Nat) : Prop where
  sound : Sound cfg s []
  within : s.budget.held ≤ s.budget.max
  alive : Alive s resource
  named : ∀ i ∈ gi, GroupAt s i (s.target resource)

theorem Memoized.alive {resource : Arc (Resource X)} (memo : Memoized s s' resource.value)
    (alive : Alive s resource) : Alive s' resource := by
  intro m new same
  rcases memo m new with old | own
  · exact alive m old same
  · exact own

section

variable {i : Nat} {key : SeriesKey X} {name : GroupName X}

theorem absorb_held (cfg : Config X) (there : GroupAt s i name) {state : SeriesState X}
    (held : get s.groups i key = some state) (timestamp : Int64) (opener : Opener) (r : MetricRecord X)
    (folded : Bool) :
    (∃ reason, s.absorb cfg timestamp opener r i key false folded = (.passed reason, s)) ∨ ∃ accumulator widened,
        merge cfg timestamp false state.accumulator r.kind = .accumulated accumulator widened ∧
        s.absorb cfg timestamp opener r i key false folded = (.absorbed ⟨name, key⟩ state.openSeq folded widened,
            { s with
              groups := Trays.put i key (s.absorbedInto state accumulator) s.groups
              budget := { s.budget with
                idle := if !state.updatedThisWindow then s.budget.idle - 1 else s.budget.idle } }) := by
  have group := map_eq_some_iff.mpr (groupAt_iff.mp there)
  unfold absorb
  simp only [held, getD_some, group]
  cases merged : merge cfg timestamp false state.accumulator r.kind with
  | accumulated accumulator widened => exact .inr ⟨accumulator, widened, rfl, rfl⟩
  | kindConflict => exact .inl ⟨.kindConflict, rfl⟩
  | boundsMismatch => exact .inl ⟨.histogramBoundsMismatch, rfl⟩

theorem absorb_vacant (cfg : Config X) (there : GroupAt s i name) (vacant : get s.groups i key = none)
    (timestamp : Int64) {opener : Opener} {r : MetricRecord X} (folded : Bool)
    (opens : openerFor r.kind cfg.distributions cfg.sets cfg.temporality = some opener) :
    ∃ accumulator, merge cfg timestamp true (opener.open cfg.sketches) r.kind = .accumulated accumulator false ∧
      s.absorb cfg timestamp opener r i key true folded =
        (.absorbed ⟨name, key⟩ s.nextOpenSeq folded false, { s with
            groups := Trays.put i key
              (s.absorbedInto (s.newSeries cfg timestamp opener r.description) accumulator) s.groups
            nextOpenSeq := s.nextOpenSeq + 1 }) := by
  have group := map_eq_some_iff.mpr (groupAt_iff.mp there)
  obtain ⟨accumulator, merged⟩ := merge_opened cfg timestamp opens
  have first : merge cfg timestamp true (s.newSeries cfg timestamp opener r.description).accumulator r.kind =
      .accumulated accumulator false := merged
  refine ⟨accumulator, merged, ?_⟩
  unfold absorb
  simp only [vacant, getD_none, group, first]
  rfl

theorem heldAt_sameGroups (groups : s'.groups = s.groups) {place : Place X} {state : SeriesState X} :
    HeldAt s' place state ↔ HeldAt s place state := by
  rw [HeldAt, Aggregator.held, groups]
  rfl

theorem GroupAt.target {resource : Arc (Resource X)} (named : GroupAt s' i (s.target resource))
    (scope : s'.scope = s.scope)
    (k : Nat) (known : some i = some k) : GroupAt s' k (s'.target resource) := by
  rw [target_eq resource scope, ← some.inj known]
  exact named

/-- A record that found its series is absorbed there. -/
theorem Enters.effect {resource : Arc (Resource X)} {entered : Aggregator.Entered X} {folded vacant : Bool}
    {picked : SeriesKey X} (timestamp : Int64) {opener : Opener} {r : MetricRecord X} (alive : Alive s resource)
    (enters : Enters cfg s (s.target resource) key entered)
    (taken : entered.series = some (i, picked, vacant, folded))
    (opens : openerFor r.kind cfg.distributions cfg.sets cfg.temporality = some opener) :
    let absorbed := entered.state.absorb cfg timestamp opener r i picked vacant folded
    Ready cfg absorbed.2 resource entered.group ∧ absorbed.2.scope = s.scope ∧
      Effect cfg s timestamp (s.target resource) key r absorbed.1 absorbed.2 := by
  cases enters with
  | refused => cases taken
  | joined j s' sound within frame memo groups named _ _ picks held =>
    obtain ⟨rfl, rfl, rfl, rfl⟩ := taken
    obtain ⟨state, held⟩ := isSome_iff_exists.mp held
    have same := named.target frame.scope
    have own : HeldAt s ⟨s.target resource, picked⟩ state :=
      (heldAt_sameGroups groups).mp ((sound.heldAt named).mpr held)
    have alive' := memo.alive alive
    rcases absorb_held cfg named held timestamp opener r folded with
      ⟨reason, passed⟩ | ⟨accumulator, widened, merged, absorbed⟩
    · simp only [passed]
      exact ⟨⟨sound, within, alive', same⟩, frame.scope, .passed reason groups frame⟩
    · simp only [absorbed]
      refine ⟨⟨sound.touch held accumulator, within, alive', fun k known => groupAt_put.mpr (same k known)⟩,
        frame.scope,
        .touched picks state accumulator own merged ?_ { frame with }⟩
      · intro place other
        have context : s'.absorbedInto state accumulator = s.absorbedInto state accumulator := by
          rw [absorbedInto, absorbedInto, frame.context]
        rw [← heldAt_sameGroups groups, ← context]
        exact sound.heldAt_put named _ _ _ _ place other
  | opened j s' _ sound within frame memo shrinks named _ picks empty fresh =>
    obtain ⟨rfl, rfl, rfl, rfl⟩ := taken
    obtain ⟨gone, split, idle⟩ := shrinks
    obtain ⟨accumulator, merged, absorbed⟩ := absorb_vacant cfg named empty timestamp folded opens
    have opening : s'.absorbedInto (s'.newSeries cfg timestamp opener r.description) accumulator =
        s.absorbedInto (s.newSeries cfg timestamp opener r.description) accumulator := by
      simp [absorbedInto, newSeries, frame.context, frame.windowStart, frame.nextOpenSeq]
    have before : ∀ place state, HeldAt s' place state → HeldAt s place state := by
      rintro place state ⟨o, mem, same⟩
      exact ⟨o, split.mem_iff.mpr (mem_append_right _ mem), same⟩
    simp only [absorbed]
    have put := sound.heldAt_put named picked
      (s'.absorbedInto (s'.newSeries cfg timestamp opener r.description) accumulator) s'.budget (s'.nextOpenSeq + 1)
    refine ⟨⟨sound.openSeries named empty rfl rfl, within, memo.alive alive, ?_⟩, frame.scope, ?_⟩
    · exact fun k known => groupAt_put.mpr (named.target frame.scope k known)
    · rw [frame.nextOpenSeq]
      refine .opened picks opener accumulator opens ?_ merged ?_ ?_ ?_ frame.windowStart ?_
      · rintro state ⟨o, mem, same⟩
        exact fresh _ mem ⟨same, rfl⟩
      · intro place other held
        rw [← opening]
        rcases (put place other).mp held with own | ⟨apart, old⟩
        · exact .inl own
        · exact .inr ⟨apart, before place other old⟩
      · exact (put _ _).mpr (.inl ⟨rfl, opening.symm⟩)
      · rintro place state ⟨o, mem, same⟩ updated
        refine (put place state).mpr (.inr ⟨?_, o, ?_, same⟩)
        · rintro rfl
          exact fresh _ mem ⟨same, rfl⟩
        · rcases mem_append.mp (split.mem_iff.mp mem) with lost | kept
          · have stale := idle _ lost
            rw [updated] at stale
            cases stale
          · exact kept
      · rfl

theorem Ready.record {resource : Arc (Resource X)} {gi : Option Nat} (ready : Ready cfg s resource gi)
    (event : Event X) (scanFields : Bool) (r : MetricRecord X) :
    let recorded := s.record cfg resource event scanFields gi r
    Ready cfg recorded.state resource recorded.group ∧ recorded.state.scope = s.scope ∧
      Effect cfg s event.timestamp (s.target resource) (seriesKey event scanFields r) r recorded.fate
        recorded.state := by
  have frame : Frame s s := ⟨rfl, rfl, rfl, rfl⟩
  have passes (reason : Reason) : Ready cfg s resource gi ∧ s.scope = s.scope ∧
      Effect cfg s event.timestamp (s.target resource) (seriesKey event scanFields r) r (.passed reason) s :=
    ⟨ready, rfl, .passed reason rfl frame⟩
  unfold Aggregator.record
  split
  · exact passes _
  cases opens : openerFor r.kind cfg.distributions cfg.sets cfg.temporality with
  | none => exact passes _
  | some opener =>
    simp only
    split
    · exact passes _
    have enters := ready.sound.enter ready.within ready.alive ready.named (seriesKey event scanFields r)
    cases taken : (s.enter cfg resource gi (seriesKey event scanFields r)).series with
    | none =>
      revert enters taken
      generalize s.enter cfg resource gi (seriesKey event scanFields r) = entered
      intro enters taken
      cases enters with
      | refused group s' sound within frame memo groups named =>
        exact ⟨⟨sound, within, memo.alive ready.alive, by rw [target_eq resource frame.scope]; exact named⟩,
          frame.scope, .dropped groups frame⟩
      | joined | opened => cases taken
    | some settled => exact enters.effect event.timestamp ready.alive taken opens

end

end Logit.Aggregate
