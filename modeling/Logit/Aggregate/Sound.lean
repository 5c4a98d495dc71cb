import Logit.Aggregate.Counts
import Logit.Aggregate.Eviction
import Logit.Aggregate.Run

namespace Logit.Aggregate

open Aggregator Delta List Option Bool

variable {X : Externals} {cfg : Config X} {s : Aggregator X}

/-- Every series held, with its group and its key. -/
def Aggregator.held (s : Aggregator X) : List (Entry (Origin X) X) := Trays.entries s.groups

/-- The groups, in order, as what each is told apart by. -/
def Aggregator.labels (s : Aggregator X) : List (Origin X) := s.groups.map Tray.label

def idleCount (series : List (Entry (Origin X) X)) : Nat :=
  series.countP fun e => !e.2.2.updatedThisWindow

/-- An eviction took the series of least rank among those not updated in its window. -/
def Eviction.Least (e : Eviction X) : Prop :=
  ∃ c, e.victim = some c ∧ (c.rank, c.taken, c.key) ∈ e.idle ∧ ∀ other ∈ e.idle, c.rank ≤ other.1

/-- The group at an index is the one of this resource and scope. -/
def GroupAt (s : Aggregator X) (i : Nat) (name : GroupName X) : Prop :=
  s.labels[i]?.map Origin.name = some name

/-- A pointer that the memo holds is not another value's. -/
def Alive (s : Aggregator X) (resource : Arc (Resource X)) : Prop :=
  ∀ m ∈ s.lastGroup, m.resource.address = resource.address → m.resource.value = resource.value

def AliveScope (s : Aggregator X) (scope : Option (Arc (Scope X))) : Prop :=
  ∀ m ∈ s.lastGroup, ∀ a ∈ m.scope, ∀ b ∈ scope, a.address = b.address → a.value = b.value

/-- A memo is the one from before, or of a record's own resource. -/
def Memoized (s s' : Aggregator X) (resource : Resource X) : Prop :=
  ∀ m ∈ s'.lastGroup, m ∈ s.lastGroup ∨ m.resource.value = resource

/-- What holds of the state when some keys are admitted and not opened yet. -/
structure Sound (cfg : Config X) (s : Aggregator X) (reserved : List (SeriesKey X)) : Prop where
  counts : Counts s.budget (reserved ++ s.held.map fun e => e.2.1) (idleCount s.held)
  max : s.budget.max = cfg.maxSeries
  perName : s.budget.perName = cfg.maxSeriesPerMetric
  order : s.evictionOrderBuilt = true → Ordered s.groups s.evictionOrder
  unbuilt : s.evictionOrderBuilt = false → s.evictionOrder = []
  distinct : (s.labels.map Origin.name).Nodup
  hashed : ∀ o ∈ s.labels, o.hash = cfg.hash o.name.1 o.name.2
  memo : ∀ m ∈ s.lastGroup, GroupAt s m.index (m.resource.value, m.scope.map Arc.value)
  alive : AliveScope s s.scope
  seqs : (s.held.map fun e => e.2.2.openSeq).Nodup
  recent : ∀ e ∈ s.held, e.2.2.openSeq < s.nextOpenSeq
  evictions : ∀ e ∈ s.trail, e.Least

/-- The name of the group that a record of a resource goes to. -/
def Aggregator.target (s : Aggregator X) (resource : Arc (Resource X)) : GroupName X :=
  (resource.value, s.scope.map Arc.value)

theorem groupAt_iff {i : Nat} {name : GroupName X} :
    GroupAt s i name ↔ ∃ t, s.groups[i]? = some t ∧ t.label.name = name := by
  rw [GroupAt, labels, getElem?_map, Option.map_map, map_eq_some_iff]
  rfl

section

variable {reserved : List (SeriesKey X)} {resource : Arc (Resource X)}

theorem target_eq {s' : Aggregator X} (resource : Arc (Resource X)) (scope : s'.scope = s.scope) :
    s'.target resource = s.target resource := by rw [target, target, scope]

/-- The full comparison finds the group of a resource and scope, if there is one. -/
theorem Sound.searchGroup (sound : Sound cfg s reserved) (resource : Arc (Resource X)) :
    (s.searchGroup cfg resource = none ∧ ∀ i, ¬GroupAt s i (s.target resource)) ∨
    ∃ i, s.searchGroup cfg resource = some i ∧ GroupAt s i (s.target resource) := by
  have test : ∀ g ∈ s.groups, (g.label.hash == cfg.hash resource.value (s.scope.map Arc.value) &&
      resourceKeyEq g.label.resource.value resource.value &&
      scopeKeyEq (g.label.scope.map Arc.value) (s.scope.map Arc.value)) = true ↔
      g.label.name = s.target resource := by
    intro g mem
    have hashed := sound.hashed g.label (mem_map_of_mem mem)
    simp only [and_eq_true, beq_iff_eq, resourceKeyEq_iff, scopeKeyEq_iff, hashed, Origin.name, target,
      Prod.mk.injEq]
    constructor
    · rintro ⟨⟨-, left⟩, right⟩
      exact ⟨left, right⟩
    · rintro ⟨left, right⟩
      exact ⟨⟨by rw [left, right], left⟩, right⟩
  rcases found : s.searchGroup cfg resource with _ | i
  · refine .inl ⟨rfl, fun i there => ?_⟩
    obtain ⟨g, here, named⟩ := groupAt_iff.mp there
    have mem := mem_of_getElem? here
    have missed := findIdx?_eq_none_iff.mp found g mem
    rw [(test g mem).mpr named] at missed
    cases missed
  · obtain ⟨inside, hit, -⟩ := findIdx?_eq_some_iff_getElem.mp found
    have named := (test _ (getElem_mem inside)).mp hit
    exact .inr ⟨i, rfl, groupAt_iff.mpr ⟨_, getElem?_eq_getElem inside, named⟩⟩

theorem Sound.groupAt_unique (sound : Sound cfg s reserved) {i j : Nat} {name : GroupName X}
    (left : GroupAt s i name) (right : GroupAt s j name) : i = j := by
  have names : ∀ i, GroupAt s i name → (s.labels.map Origin.name)[i]? = some name := by
    intro i there
    rw [getElem?_map]
    exact there
  obtain ⟨_, atLeft⟩ := List.getElem?_eq_some_iff.mp (names i left)
  obtain ⟨_, atRight⟩ := List.getElem?_eq_some_iff.mp (names j right)
  exact sound.distinct.getElem_inj_iff.mp (atLeft.trans atRight.symm)

theorem Sound.memoize (sound : Sound cfg s reserved) {i : Nat} (there : GroupAt s i (s.target resource)) :
    Sound cfg { s with lastGroup := some ⟨resource, s.scope, i⟩ } reserved :=
  { sound with
    memo := fun m mem => by
      obtain rfl := some.inj mem
      exact there
    alive := fun m mem a inMemo b inScope _ => by
      obtain rfl := some.inj mem
      have same : some a = some b := inMemo.symm.trans inScope
      rw [some.inj same] }

theorem GroupMemo.isFor_values {m : GroupMemo X} (memoized : m ∈ s.lastGroup)
    (isFor : m.isFor resource s.scope = true) (alive : Alive s resource) (scopes : AliveScope s s.scope) :
    (m.resource.value, m.scope.map Arc.value) = s.target resource := by
  obtain ⟨sameResource, sameScope⟩ := and_eq_true_iff.mp isFor
  have left := alive m memoized (by simpa [Arc.ptrEq] using sameResource)
  refine Prod.ext left ?_
  have held := scopes m memoized
  show m.scope.map Arc.value = s.scope.map Arc.value
  cases inMemo : m.scope with
  | none =>
    cases inState : s.scope with
    | none => rfl
    | some b => simp [inMemo, inState] at sameScope
  | some a =>
    cases inState : s.scope with
    | none => simp [inMemo, inState] at sameScope
    | some b =>
      simp only [inMemo, inState] at sameScope
      have value := held a (by simp [inMemo]) b (by simp [inState]) (by simpa [Arc.ptrEq] using sameScope)
      simp [value]

theorem Sound.findGroup (sound : Sound cfg s reserved) (alive : Alive s resource) :
    (s.findGroup cfg resource).1 = s.searchGroup cfg resource ∧
      ∃ memo, (s.findGroup cfg resource).2 = { s with lastGroup := memo } ∧
        Sound cfg { s with lastGroup := memo } reserved ∧
        Memoized s { s with lastGroup := memo } resource.value := by
  have search := sound.searchGroup resource
  unfold Aggregator.findGroup
  split
  · rename_i memo hit
    obtain ⟨memoized, isFor⟩ := filter_eq_some_iff.mp hit
    have named := GroupMemo.isFor_values memoized isFor alive sound.alive
    have there := sound.memo memo memoized
    rw [named] at there
    refine ⟨?_, s.lastGroup, rfl, sound, fun _ old => .inl old⟩
    rcases search with ⟨-, nowhere⟩ | ⟨i, found, here⟩
    · exact absurd there (nowhere _)
    · rw [found, sound.groupAt_unique there here]
  · rcases search with ⟨missed, -⟩ | ⟨i, found, here⟩
    · rw [missed]
      exact ⟨rfl, s.lastGroup, rfl, sound, fun _ old => .inl old⟩
    · rw [found]
      refine ⟨rfl, _, rfl, sound.memoize here, fun m new => .inr ?_⟩
      rw [← some.inj new]

end

end Logit.Aggregate
