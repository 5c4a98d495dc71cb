import Logit.Aggregate.Sound

namespace Logit.Aggregate

open List Option Trays

variable {X : Externals} {cfg : Config X} {s s' s'' : Aggregator X} {reserved : List (SeriesKey X)}

/-- What a record leaves of the state around its series. -/
structure Frame (s s' : Aggregator X) : Prop where
  scope : s'.scope = s.scope
  context : s'.context = s.context
  windowStart : s'.windowStart = s.windowStart
  nextOpenSeq : s'.nextOpenSeq = s.nextOpenSeq

/-- A state after evictions: groups stay where they are, and only series that were not updated this
window are gone. -/
structure Shrinks (s s' : Aggregator X) : Prop where
  labels : s'.labels = s.labels
  held : ∃ gone, s.held.Perm (gone ++ s'.held) ∧ ∀ e ∈ gone, e.2.2.updatedThisWindow = false
  get : ∀ i k state, Trays.get s'.groups i k = some state → Trays.get s.groups i k = some state
  lastGroup : s'.lastGroup = s.lastGroup
  frame : Frame s s'

theorem Shrinks.sameGroups (groups : s'.groups = s.groups) (lastGroup : s'.lastGroup = s.lastGroup)
    (frame : Frame s s') : Shrinks s s' where
  labels := by rw [Aggregator.labels, Aggregator.labels, groups]
  held := ⟨[], by rw [Aggregator.held, Aggregator.held, groups]; exact .refl _, by simp⟩
  get i k state there := by rw [← groups]; exact there
  lastGroup := lastGroup
  frame := frame

variable {name : GroupName X}

theorem groupAt_labels (labels : s'.labels = s.labels) {i : Nat} : GroupAt s' i name ↔ GroupAt s i name := by
  rw [GroupAt, GroupAt, labels]

theorem idleCount_perm {xs ys : List (Entry (Origin X) X)} (same : xs.Perm ys) :
    idleCount xs = idleCount ys := same.countP_eq _

theorem mem_idleSeries {c : Candidate X} {state : SeriesState X}
    (label : s.groups[c.group]?.map Tray.label = some c.taken)
    (held : Trays.get s.groups c.group c.key = some state)
    (idle : state.updatedThisWindow = false) (rank : c.rank = rankOf state c.key) :
    (c.rank, c.taken, c.key) ∈ s.idleSeries := by
  obtain ⟨g, here, named⟩ := map_eq_some_iff.mp label
  refine mem_map.mpr ⟨(c.taken, c.key, state), mem_filter.mpr ⟨?_, by simp [idle]⟩, by rw [rank]⟩
  exact mem_entries.mpr ⟨c.group, g, here, named, held⟩

/-- An eviction finds a series, when one was not updated this window, and takes the one of least rank. -/
theorem Sound.evictOne (sound : Sound cfg s reserved) (some : 0 < idleCount s.held) :
    Sound cfg s.evictOne reserved ∧ s.evictOne.budget.held + 1 = s.budget.held ∧ Shrinks s s.evictOne := by
  obtain ⟨⟨label, k, state⟩, mem, idle⟩ := countP_pos_iff.mp some
  obtain ⟨i, g, -, -, held⟩ := mem_entries.mp mem
  have ordered : Ordered s.groups (if s.evictionOrderBuilt then s.evictionOrder else s.buildOrder) := by
    split
    · exact sound.order ‹_›
    · exact buildOrder_ordered s
  obtain ⟨c, rest, victim, popped, there, own, rank, taken, least, remaining⟩ :=
    ordered.pop held (by simpa using idle)
  have shape : s.evictOne = { s with
      evictionOrder := rest
      evictionOrderBuilt := true
      trail := ⟨s.idleSeries, Option.some c⟩ :: s.trail
      groups := remove c.group c.key s.groups
      budget := s.budget.release c.key.name c.rank.isOverflow } := by simp [Aggregator.evictOne, popped]
  obtain ⟨g', here, named⟩ := map_eq_some_iff.mp taken
  have split : s.held.Perm ((c.taken, c.key, victim) :: entries (remove c.group c.key s.groups)) := by
    have := entries_remove here there
    rwa [named] at this
  have fewer : idleCount s.held = idleCount (entries (remove c.group c.key s.groups)) + 1 := by
    rw [idleCount_perm split]
    simp [own, idleCount]
  have labels : (remove c.group c.key s.groups).map Tray.label = s.labels := labels_remove ..
  have overflow : c.rank.isOverflow = isOverflow c.key := by
    rw [rank]
    rfl
  have counts :
      Counts s.budget (c.key :: (reserved ++ (entries (remove c.group c.key s.groups)).map fun e => e.2.1))
      (idleCount (entries (remove c.group c.key s.groups)) + 1) := by
    rw [← fewer]
    refine sound.counts.perm ?_
    exact ((split.map fun e => e.2.1).append_left reserved).trans perm_middle
  have released := release_spec counts
  rw [← overflow] at released
  have kept : ∀ e ∈ entries (remove c.group c.key s.groups), e ∈ s.held := by
    intro e mem
    exact split.mem_iff.mpr (mem_cons_of_mem _ mem)
  obtain ⟨max, perName, one⟩ := release_limits s.budget c.key.name c.rank.isOverflow
  have shrinks : Shrinks s s.evictOne := by
    rw [shape]
    refine ⟨labels, ⟨[(c.taken, c.key, victim)], split, by simpa using own⟩, ?_, rfl, ⟨rfl, rfl, rfl, rfl⟩⟩
    intro i k state there
    rw [get_remove] at there
    split at there
    · cases there
    · exact there
  refine ⟨?_, ?_, shrinks⟩
  · rw [shape]
    refine ⟨released, max.trans sound.max, perName.trans sound.perName, fun _ => remaining,
      (fun wrong => by cases wrong), ?_, ?_, ?_, sound.alive, ?_,
        fun e mem => sound.recent e (kept e mem), ?_⟩
    · show (((remove c.group c.key s.groups).map Tray.label).map Origin.name).Nodup
      rw [labels]
      exact sound.distinct
    · show ∀ o ∈ (remove c.group c.key s.groups).map Tray.label, _
      rw [labels]
      exact sound.hashed
    · intro m mem
      have there := sound.memo m mem
      show ((remove c.group c.key s.groups).map Tray.label)[m.index]?.map Origin.name = _
      rw [labels]
      exact there
    · have seqs := (split.map fun e => e.2.2.openSeq).nodup_iff.mp sound.seqs
      exact (nodup_cons.mp seqs).2
    · refine forall_mem_cons.mpr ⟨⟨c, rfl, mem_idleSeries taken there own rank, ?_⟩, sound.evictions⟩
      rintro ⟨other, origin, key⟩ among
      obtain ⟨⟨origin, key, state⟩, among, same⟩ := mem_map.mp among
      obtain ⟨inside, idle⟩ := mem_filter.mp among
      obtain ⟨rfl, rfl, rfl⟩ := same
      obtain ⟨i, t, -, -, held⟩ := mem_entries.mp inside
      exact least i key state held (by simpa using idle)
  · have positive := sound.counts.held
    have some := length_pos_of_mem mem
    rw [shape]
    show (s.budget.release c.key.name c.rank.isOverflow).held + 1 = s.budget.held
    rw [length_append, length_map] at positive
    omega

theorem Sound.rebudget {b : SeriesBudget X} {reserved' : List (SeriesKey X)} (sound : Sound cfg s reserved)
    (counts : Counts b (reserved' ++ s.held.map fun e => e.2.1) (idleCount s.held))
    (max : b.max = s.budget.max) (perName : b.perName = s.budget.perName) :
    Sound cfg { s with budget := b } reserved' :=
  { sound with
    counts := counts
    max := max.trans sound.max
    perName := perName.trans sound.perName }

/-- The state after an answer that is not `overflow`: refused, or a slot is kept for the key. -/
theorem Sound.settleSlot (sound : Sound cfg s []) (within : s.budget.held ≤ s.budget.max) (key : SeriesKey X)
    (direct : (s.budget.admitKey key).1 ≠ .overflow) :
    (Aggregator.settleSlot { s with budget := (s.budget.admitKey key).2 } (s.budget.admitKey key).1 key =
      (none, s)) ∨
      ∃ s', Aggregator.settleSlot { s with budget := (s.budget.admitKey key).2 } (s.budget.admitKey key).1 key =
          (some key, s') ∧ Sound cfg s' [key] ∧ s'.budget.held ≤ s'.budget.max ∧ Shrinks s s' := by
  obtain ⟨max, perName⟩ := admitKey_limits s.budget key
  have spec := admitKey_spec sound.counts within key
  rcases answer : s.budget.admitKey key with ⟨admission, b⟩
  rw [answer] at spec max perName direct
  cases admission with
  | opened =>
    obtain ⟨counts, bound⟩ := spec
    refine .inr ⟨_, rfl, sound.rebudget counts max perName, ?_, .sameGroups rfl rfl ⟨rfl, rfl, rfl, rfl⟩⟩
    exact bound.trans_eq max.symm
  | evictIdle =>
    obtain ⟨counts, full, some⟩ := spec
    have readied : Sound cfg { s with budget := b } [key] := sound.rebudget counts max perName
    obtain ⟨evicted, fewer, shrinks⟩ := readied.evictOne some
    refine .inr ⟨_, rfl, evicted, ?_, ?_⟩
    · have bound := evicted.max.trans sound.max.symm
      have fewer' : (Aggregator.evictOne { s with budget := b }).budget.held + 1 = b.held := fewer
      show (Aggregator.evictOne { s with budget := b }).budget.held ≤
        (Aggregator.evictOne { s with budget := b }).budget.max
      omega
    · exact { shrinks with frame := { shrinks.frame with } }
  | refused =>
    have same := spec
    subst same
    exact .inl rfl
  | overflow => exact absurd rfl direct

/-- The key of a record's series: its own, or the overflow key that it is folded into. -/
def Picks (key picked : SeriesKey X) (folded : Bool) : Prop :=
  picked = key ∧ folded = false ∨ picked = overflowOf key ∧ folded = true

/-- What an admission comes to. -/
inductive AdmitsRecord (cfg : Config X) (s : Aggregator X) (gi : Option Nat) (key : SeriesKey X) :
    Option (SeriesKey X × Bool) × Aggregator X → Prop
  | refused (b : SeriesBudget X) (sound : Sound cfg { s with budget := b } []) (within : b.held ≤ b.max) :
    AdmitsRecord cfg s gi key (none, { s with budget := b })
  | joined (b : SeriesBudget X) (i : Nat) (group : gi = some i)
    (held : (Trays.get s.groups i (overflowOf key)).isSome)
    (sound : Sound cfg { s with budget := b } []) (within : b.held ≤ b.max) :
    AdmitsRecord cfg s gi key (some (overflowOf key, true), { s with budget := b })
  | admitted (s' : Aggregator X) (picked : SeriesKey X) (folded : Bool) (picks : Picks key picked folded)
    (vacant : ∀ i ∈ gi, Trays.get s.groups i picked = none)
    (sound : Sound cfg s' [picked]) (within : s'.budget.held ≤ s'.budget.max) (shrinks : Shrinks s s') :
    AdmitsRecord cfg s gi key (some (picked, folded), s')

variable {key : SeriesKey X}

theorem Sound.admitRecord (sound : Sound cfg s []) (within : s.budget.held ≤ s.budget.max) {gi : Option Nat}
    (vacant : ∀ i ∈ gi, Trays.get s.groups i key = none) :
    AdmitsRecord cfg s gi key (s.admitRecord gi key) := by
  have slot := sound.settleSlot within key
  obtain ⟨max, perName⟩ := admitKey_limits s.budget key
  have spec := admitKey_spec sound.counts within key
  -- an answer that does not fold the record
  have direct : (s.budget.admitKey key).1 ≠ .overflow → AdmitsRecord cfg s gi key (s.admitRecord gi key) := by
    intro plain
    have shape : s.admitRecord gi key =
        let settled := Aggregator.settleSlot { s with budget := (s.budget.admitKey key).2 }
          (s.budget.admitKey key).1 key
        (settled.1.map fun key => (key, false), settled.2) := by
      unfold Aggregator.admitRecord Aggregator.settleAdmission
      rcases answer : (s.budget.admitKey key).1 <;> simp only [answer] at plain ⊢
      exact absurd rfl plain
    rw [shape]
    rcases slot plain with refused | ⟨s', taken, readied, within', shrinks⟩
    · rw [refused]
      exact .refused s.budget sound within
    · rw [taken]
      exact .admitted s' key false (.inl ⟨rfl, rfl⟩) vacant readied within' shrinks
  by_cases folds : (s.budget.admitKey key).1 = .overflow
  · rcases answer : s.budget.admitKey key with ⟨admission, b⟩
    rw [answer] at spec max perName folds
    subst folds
    obtain ⟨counts, same, ordinary⟩ := spec
    have folded := sound.rebudget counts max perName
    have within' : b.held ≤ b.max := by
      have bound : b.max = s.budget.max := max
      omega
    have overflow := isOverflow_overflowOf key
    have plain : (b.admitKey (overflowOf key)).1 ≠ .overflow := by
      intro again
      have spec := admitKey_spec folded.counts within' (overflowOf key)
      rcases answer' : b.admitKey (overflowOf key) with ⟨admission', b'⟩
      have asked := spec
      rw [answer'] at asked again
      subst again
      rw [asked.2.2] at overflow
      cases overflow
    simp only [Aggregator.admitRecord, Aggregator.settleAdmission, answer]
    split
    · rename_i held
      cases gi with
      | none => cases held
      | some i => exact .joined b i rfl held folded within'
    · rename_i absent
      have vacant' : ∀ i ∈ gi, Trays.get s.groups i (overflowOf key) = none := by
        intro i mem
        obtain rfl := mem
        simpa using absent
      rcases folded.settleSlot within' (overflowOf key) plain with refused | ⟨s', taken, readied, within'', shrinks⟩
      · rw [refused]
        exact .refused b folded within'
      · rw [taken]
        exact .admitted s' _ true (.inr ⟨rfl, rfl⟩) vacant' readied within''
          { shrinks with frame := { shrinks.frame with } }
  · exact direct folds

/-- A record that is refused, or joins a series that is held, leaves the groups as they are. A record
that opens a series takes the place of at most series that were not updated. -/
inductive Enters (cfg : Config X) (s : Aggregator X) (name : GroupName X)
    (key : SeriesKey X) : Aggregator.Entered X → Prop
  | refused (group : Option Nat) (s' : Aggregator X) (sound : Sound cfg s' [])
    (within : s'.budget.held ≤ s'.budget.max) (frame : Frame s s') (memo : Memoized s s' name.1)
    (groups : s'.groups = s.groups) (named : ∀ i ∈ group, GroupAt s' i name) :
      Enters cfg s name key ⟨group, none, s'⟩
  | joined (i : Nat) (s' : Aggregator X) (sound : Sound cfg s' [])
    (within : s'.budget.held ≤ s'.budget.max) (frame : Frame s s') (memo : Memoized s s' name.1)
    (groups : s'.groups = s.groups) (named : GroupAt s' i name) (picked : SeriesKey X) (folded : Bool)
    (picks : Picks key picked folded)
    (held : (Trays.get s'.groups i picked).isSome) :
    Enters cfg s name key ⟨some i, some (i, picked, false, folded), s'⟩
  | opened (i : Nat) (s' : Aggregator X) (picked : SeriesKey X) (sound : Sound cfg s' [picked])
    (within : s'.budget.held ≤ s'.budget.max) (frame : Frame s s') (memo : Memoized s s' name.1)
    (held : ∃ gone, s.held.Perm (gone ++ s'.held) ∧ ∀ e ∈ gone, e.2.2.updatedThisWindow = false)
    (named : GroupAt s' i name) (folded : Bool) (picks : Picks key picked folded)
    (vacant : Trays.get s'.groups i picked = none)
    (fresh : ∀ e ∈ s.held, ¬(e.1.name = name ∧ e.2.1 = picked)) :
    Enters cfg s name key ⟨some i, some (i, picked, true, folded), s'⟩

theorem Sound.mem_held (sound : Sound cfg s reserved) {i : Nat} (there : GroupAt s i name)
    {e : Entry (Origin X) X} (mem : e ∈ s.held) (same : e.1.name = name) :
    Trays.get s.groups i e.2.1 = some e.2.2 := by
  obtain ⟨origin, key, state⟩ := e
  obtain ⟨j, t, here, rfl, held⟩ := mem_entries.mp mem
  rw [sound.groupAt_unique there (groupAt_iff.mpr ⟨t, here, same⟩)]
  exact held

theorem Sound.enterGroup (sound : Sound cfg s []) (within : s.budget.held ≤ s.budget.max) {i : Nat}
    (there : GroupAt s i name) : Enters cfg s name key (s.enterGroup i key) := by
  unfold Aggregator.enterGroup
  split
  · rename_i held
    exact .joined i s sound within ⟨rfl, rfl, rfl, rfl⟩ (fun _ => .inl) rfl there key false (.inl ⟨rfl, rfl⟩) held
  · rename_i absent
    have vacant : ∀ j ∈ some i, Trays.get s.groups j key = none := by
      intro j mem
      obtain rfl := some.inj mem
      simpa using absent
    have admits := sound.admitRecord within vacant
    revert admits
    generalize s.admitRecord (some i) key = admitted
    intro admits
    cases admits with
    | refused b sound' within' =>
      refine .refused (some i) _ sound' within' ⟨rfl, rfl, rfl, rfl⟩ (fun _ => .inl) rfl fun j mem => ?_
      obtain rfl := some.inj mem
      exact there
    | joined b j group held sound' within' =>
      obtain rfl := some.inj group
      have occupied : (Trays.get s.groups i (overflowOf key)).isNone = false := by
        rw [isNone_eq_false_iff]
        exact held
      simp only [occupied]
      have frame : Frame s { s with budget := b } := ⟨rfl, rfl, rfl, rfl⟩
      exact .joined i _ sound' within' frame (fun _ => .inl) rfl there _ true (.inr ⟨rfl, rfl⟩) held
    | admitted s' picked folded picks vacant' sound' within' shrinks =>
      have empty : Trays.get s'.groups i picked = none := by
        rw [eq_none_iff_forall_ne_some]
        intro state held
        have before := shrinks.get i picked state held
        rw [vacant' i rfl] at before
        cases before
      simp only [empty]
      have memo : Memoized s s' name.1 := fun m old => .inl (by rw [← shrinks.lastGroup]; exact old)
      refine .opened i s' picked sound' within' shrinks.frame memo shrinks.held
        ((groupAt_labels shrinks.labels).mpr there) folded picks empty ?_
      rintro e mem ⟨same, rfl⟩
      have held := sound.mem_held there mem same
      rw [vacant' i rfl] at held
      cases held

variable {resource : Arc (Resource X)}

theorem Sound.openGroup (sound : Sound cfg s reserved) (missing : ∀ i, ¬GroupAt s i (s.target resource)) :
    Sound cfg (s.openGroup cfg resource) reserved ∧
      GroupAt (s.openGroup cfg resource) s.groups.length (s.target resource) := by
  have held : (s.openGroup cfg resource).held = s.held := entries_open ..
  have labels : (s.openGroup cfg resource).labels =
      s.labels ++ [⟨resource, s.scope, cfg.hash resource.value (s.scope.map Arc.value)⟩] := map_append
  have there : GroupAt (s.openGroup cfg resource) s.groups.length (s.target resource) := by
    have size : s.groups.length = s.labels.length := (length_map _).symm
    rw [GroupAt, labels, size, getElem?_concat_length]
    rfl
  refine ⟨⟨?_, sound.max, sound.perName, fun built => (sound.order built).openGroup _, sound.unbuilt, ?_, ?_,
    ?_, ?_, ?_, ?_, sound.evictions⟩, there⟩
  · rw [held]
    exact sound.counts
  · rw [labels, map_append]
    refine nodup_append'.mpr ⟨sound.distinct, nodup_singleton _, ?_⟩
    intro name left right
    obtain ⟨o, mem, rfl⟩ := mem_map.mp left
    obtain ⟨i, here⟩ := mem_iff_getElem?.mp mem
    refine missing i ?_
    rw [GroupAt, here, map_some, mem_singleton.mp right]
    rfl
  · rw [labels]
    intro o mem
    rcases mem_append.mp mem with old | new
    · exact sound.hashed o old
    · rw [mem_singleton.mp new]
      rfl
  · intro m mem
    obtain rfl := some.inj mem
    exact there
  · intro m mem a inMemo b inScope _
    obtain rfl := some.inj mem
    have same := inMemo.symm.trans inScope
    rw [some.inj same]
  · rw [held]
    exact sound.seqs
  · rw [held]
    exact sound.recent

theorem Sound.enterNew (sound : Sound cfg s []) (within : s.budget.held ≤ s.budget.max)
    (missing : ∀ i, ¬GroupAt s i (s.target resource)) :
    Enters cfg s (s.target resource) key (s.enterNew cfg resource key) := by
  have vacant : ∀ i ∈ none, Trays.get s.groups i key = none := by
    intro i mem
    cases mem
  have admits := sound.admitRecord within vacant
  unfold Aggregator.enterNew
  revert admits
  generalize s.admitRecord none key = admitted
  intro admits
  cases admits with
  | refused b sound' within' =>
    have frame : Frame s { s with budget := b } := ⟨rfl, rfl, rfl, rfl⟩
    exact .refused none _ sound' within' frame (fun _ => .inl) rfl (by intro i mem; cases mem)
  | joined b i group => cases group
  | admitted s' picked folded picks vacant' sound' within' shrinks =>
    have target := target_eq resource shrinks.frame.scope
    have missing' : ∀ i, ¬GroupAt s' i (s'.target resource) := by
      intro i there
      rw [target, groupAt_labels shrinks.labels] at there
      exact missing i there
    obtain ⟨opened, there⟩ := sound'.openGroup missing'
    rw [target] at there
    obtain ⟨gone, split, idle⟩ := shrinks.held
    have held : (s'.openGroup cfg resource).held = s'.held := entries_open ..
    have memo : Memoized s (s'.openGroup cfg resource) (s.target resource).1 := by
      intro m new
      obtain rfl := some.inj new
      exact .inr rfl
    refine .opened _ _ picked opened within' ⟨shrinks.frame.scope, shrinks.frame.context,
      shrinks.frame.windowStart, shrinks.frame.nextOpenSeq⟩ memo ⟨gone, by rw [held]; exact split, idle⟩
        there folded
      picks ?_ ?_
    · have empty : (s'.openGroup cfg resource).groups[s'.groups.length]? =
          some ⟨⟨resource, s'.scope, cfg.hash resource.value (s'.scope.map Arc.value)⟩, ∅⟩ :=
        getElem?_concat_length
      rw [get_eq empty]
      rfl
    · rintro ⟨origin, key', state⟩ mem ⟨same, -⟩
      obtain ⟨i, t, here, rfl, -⟩ := mem_entries.mp mem
      exact missing i (groupAt_iff.mpr ⟨t, here, same⟩)

theorem Frame.trans (first : Frame s s') (second : Frame s' s'') : Frame s s'' where
  scope := second.scope.trans first.scope
  context := second.context.trans first.context
  windowStart := second.windowStart.trans first.windowStart
  nextOpenSeq := second.nextOpenSeq.trans first.nextOpenSeq

theorem Memoized.trans {resource : Resource X} (first : Memoized s s' resource)
    (second : Memoized s' s'' resource) : Memoized s s'' resource := by
  intro m new
  rcases second m new with old | own
  · exact first m old
  · exact .inr own

theorem Enters.after {entered : Aggregator.Entered X} (frame : Frame s s') (memo : Memoized s s' name.1)
    (groups : s'.groups = s.groups) (enters : Enters cfg s' name key entered) :
    Enters cfg s name key entered := by
  have held : s'.held = s.held := congrArg entries groups
  cases enters with
  | refused group s'' sound within frame' memo' groups' named =>
    exact .refused group s'' sound within (frame.trans frame') (memo.trans memo') (groups'.trans groups) named
  | joined i s'' sound within frame' memo' groups' named picked folded picks there =>
    exact .joined i s'' sound within (frame.trans frame') (memo.trans memo') (groups'.trans groups) named picked
      folded picks there
  | opened i s'' picked sound within frame' memo' kept named folded picks vacant fresh =>
    rw [held] at kept fresh
    exact .opened i s'' picked sound within (frame.trans frame') (memo.trans memo') kept named folded picks
      vacant fresh

theorem Sound.enter (sound : Sound cfg s []) (within : s.budget.held ≤ s.budget.max) (alive : Alive s resource)
    {gi : Option Nat} (named : ∀ i ∈ gi, GroupAt s i (s.target resource)) (key : SeriesKey X) :
    Enters cfg s (s.target resource) key (s.enter cfg resource gi key) := by
  unfold Aggregator.enter
  cases gi with
  | some i => exact sound.enterGroup within (named i rfl)
  | none =>
    obtain ⟨found, memo, shape, sound', memoized⟩ := sound.findGroup alive
    have frame : Frame s { s with lastGroup := memo } := ⟨rfl, rfl, rfl, rfl⟩
    simp only [shape, found]
    rcases sound.searchGroup resource with ⟨missed, nowhere⟩ | ⟨i, hit, there⟩
    · rw [missed]
      exact (sound'.enterNew within nowhere).after frame memoized rfl
    · rw [hit]
      exact (sound'.enterGroup within there).after frame memoized rfl

end Logit.Aggregate
