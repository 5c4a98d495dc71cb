import Logit.Delta.Conservation

namespace Logit.Delta

open CumulativeToDelta List AList

variable {X : Externals} {cfg : Settings X} {log : Log X} {s : CumulativeToDelta X}

/-- The transform has dropped no evicted series' timestamp for want of room. -/
def Forgetless (s : CumulativeToDelta X) : Prop := ∀ h, Loss.forgot h ∉ s.trail

def Loss.isSeries : Loss X → Bool
  | .evicted _ => true
  | .forgot _ => false

theorem forgetless_of_all (all : s.trail.all Loss.isSeries = true) : Forgetless s := by
  intro h mem
  cases all_eq_true.mp all _ mem

theorem trimEvicted_keeps {max : Nat} {order : List (Nat × UInt64)} {evicted : Evicted}
    (none : (trimEvicted max order evicted).2.2 = []) : (trimEvicted max order evicted).2.1 = evicted := by
  induction order generalizing evicted with
  | nil => rfl
  | cons entry order ih =>
    unfold trimEvicted at none ⊢
    split at none
    · rename_i above
      split at none
      · cases none
      · rename_i stale
        simp only [above, stale]
        exact ih none
    · rename_i room
      simp [room]

theorem lookup_trimEvicted {max : Nat} {order : List (Nat × UInt64)} {evicted : Evicted} {h : UInt64}
    (absent : evicted.lookup h = none) : (trimEvicted max order evicted).2.1.lookup h = none := by
  induction order generalizing evicted with
  | nil => exact absent
  | cons entry order ih =>
    unfold trimEvicted
    split
    · split
      · apply ih
        by_cases same : h = entry.2
        · rw [same, lookup_erase]
        · rw [lookup_erase_ne same, absent]
      · exact ih absent
    · exact absent

/-- An eviction keeps the last timestamp exactly when the last point passes `auto`. -/
theorem evict_cases (auto : cfg.initial = .auto) {slot : Nat} {a : Series X} (found : s.series.get slot = some a) :
    (cfg.passesAuto a.start a.ts = false ∧ (s.evict cfg slot).evicted = s.evicted) ∨
    (cfg.passesAuto a.start a.ts = true ∧ ∃ seq order, (s.evict cfg slot).evicted =
        (trimEvicted cfg.maxSeries order (s.evicted.insert a.hash (a.ts, seq))).2.1 ∧
      (Forgetless (s.evict cfg slot) → (s.evict cfg slot).evicted = s.evicted.insert a.hash (a.ts, seq))) := by
  cases passes : cfg.passesAuto a.start a.ts with
  | false =>
    left
    exact ⟨rfl, by simp [evict, found, passes]⟩
  | true =>
    right
    have shape : s.evict cfg slot = { s with
        series := s.series.remove Series.hash slot
        trail := s.trail ++ [Loss.evicted a.key] }.remember cfg a.hash a.ts := by simp [evict, found, auto, passes]
    refine ⟨rfl, s.nextSeq + 1, s.evictedOrder ++ [(s.nextSeq + 1, a.hash)], ?_, ?_⟩
    · rw [shape]
      rfl
    · intro forgetless
      rw [shape] at forgetless ⊢
      apply trimEvicted_keeps
      apply eq_nil_iff_forall_not_mem.mpr
      intro h dropped
      apply forgetless h
      simp only [remember, mem_append, mem_map]
      exact .inr ⟨h, dropped, rfl⟩

theorem Forgetless.of_prefix {t : CumulativeToDelta X} (forgetless : Forgetless t)
    (earlier : s.trail <+: t.trail) : Forgetless s :=
  fun h mem => forgetless h (earlier.subset mem)

/-- What is remembered of a series that was evicted: a timestamp is that of its last accepted point, which
passed `auto`, and a series that is neither tracked nor remembered was evicted at a point that did not. -/
structure Recalls (cfg : Settings X) (log : Log X) (s : CumulativeToDelta X) (k : Key X) : Prop where
  exclusive : s.evicted.lookup (cfg.hash k) = none ∨ Untracked k s
  remembered : ∀ last seq, s.evicted.lookup (cfg.hash k) = some (last, seq) →
    ∃ e, lastAccepted k log = some e ∧ e.ts = last ∧ cfg.passesAuto e.start e.ts = true
  covered : ∀ e, lastAccepted k log = some e → Untracked k s →
    (∃ seq, s.evicted.lookup (cfg.hash k) = some (e.ts, seq)) ∨ cfg.passesAuto e.start e.ts = false

/-- One series may be left out, while its point is on its way in. -/
def Remembers (cfg : Settings X) (known : Key X → Prop) (out : Option (Key X)) (log : Log X)
    (s : CumulativeToDelta X) : Prop :=
  ∀ k, known k → out ≠ some k → Recalls cfg log s k

/-- No two of the known keys share a hash, and the log is about known keys. -/
structure Apart (cfg : Settings X) (known : Key X → Prop) (log : Log X) : Prop where
  hash : ∀ k, known k → ∀ k', known k' → cfg.hash k = cfg.hash k' → k = k'
  logged : ∀ k e, lastAccepted k log = some e → known k

variable {known : Key X → Prop} {out : Option (Key X)}

theorem Recalls.congr {t : CumulativeToDelta X} {longer : Log X} {k : Key X}
    (recalls : Recalls cfg log s k)
    (tracked : Untracked k t ↔ Untracked k s)
    (memory : t.evicted.lookup (cfg.hash k) = s.evicted.lookup (cfg.hash k))
    (last : lastAccepted k longer = lastAccepted k log) : Recalls cfg longer t k := by
  obtain ⟨exclusive, remembered, covered⟩ := recalls
  exact ⟨by rwa [memory, tracked], by rwa [memory, last], by rwa [memory, last, tracked]⟩

namespace Remembers

variable {e : Entry X} {series : Series X} {kind : Kind} {p : Point X}

/-- An entry that is not accepted changes nothing that is remembered. -/
theorem skip (remembers : Remembers cfg known out log s) (refused : e.verdict.accepted = false) :
    Remembers cfg known out (e :: log) s :=
  fun k isKnown inside => (remembers k isKnown inside).congr Iff.rfl rfl (lastAccepted_skip log (.inr refused))

/-- A series enters a slot that held it or none, at a point that is logged. -/
theorem enter {t : CumulativeToDelta X} {slot : Nat}
    (inside : ∀ i, t.series.get i = if i = slot then some series else s.series.get i)
    (evicted : t.evicted = s.evicted) (free : s.evicted.lookup (cfg.hash series.key) = none)
    (only : ∀ a, s.series.get slot = some a → a.key = series.key) (own : e.key = some series.key)
    (remembers : Remembers cfg known (some series.key) log s) : Remembers cfg known none (e :: log) t := by
  intro k isKnown _
  rw [← evicted] at free
  have here := (inside slot).trans (if_pos rfl)
  by_cases same : k = series.key
  · subst same
    refine ⟨.inl free, fun last seq memory => ?_, fun _ _ fresh => absurd rfl (fresh slot series here)⟩
    rw [free] at memory
    cases memory
  · refine (remembers k isKnown (by simpa using Ne.symm same)).congr ?_ (by rw [evicted])
      (lastAccepted_other log own same)
    refine forall_congr' fun i => ?_
    by_cases there : i = slot
    · subst there
      rw [here]
      refine iff_of_true (fun a held => ?_) fun a held => ?_
      · cases held
        exact Ne.symm same
      · rw [only a held]
        exact Ne.symm same
    · rw [inside, if_neg there]

theorem leaveOut (remembers : Remembers cfg known none log s) (k : Key X) : Remembers cfg known (some k) log s :=
  fun k' isKnown _ => remembers k' isKnown (by simp)

theorem settle (remembers : Remembers cfg known none log s) {slot : Nat}
    (found : s.series.get slot = some series) (isKnown : known series.key) (own : e.key = some series.key)
    (base : Baseline) (start ts now : Int64) :
    Remembers cfg known none (e :: log) (s.settle slot base start ts now) := by
  have free := (remembers series.key isKnown (by simp)).exclusive.resolve_right fun fresh =>
    fresh slot series found rfl
  refine enter (get_settle found base start ts now) (settle_evicted slot base start ts now) free ?_ own
    (remembers.leaveOut series.key)
  intro a here
  rw [found, Option.some.injEq] at here
  rw [← here]

theorem convertTracked (remembers : Remembers cfg known none log s) {slot : Nat}
    (found : p.kind cfg = some kind) (here : s.series.get slot = some series)
    (key : series.key = p.key kind) (isKnown : known (p.key kind)) (now : Int64) :
    Remembers cfg known none (p.entry cfg (s.convertTracked cfg kind slot series now p) :: log)
      (s.convertTracked cfg kind slot series now p).state := by
  have own : ∀ done, (p.entry cfg done).key = some series.key := by
    intro done
    simp [Point.entry, found, key]
  rw [← key] at isKnown
  rcases @convertTracked_cases X cfg s kind slot series now p with
    ⟨_, done⟩ | ⟨_, _, state, _⟩ | ⟨_, _, done⟩ | ⟨_, _, _, done⟩
  · rw [done]
    exact remembers.skip (skipped_refused s p.ts series.ts)
  · rw [state]
    exact remembers.settle here isKnown (own _) _ _ _ _
  · rw [done]
    exact remembers.settle here isKnown (own _) _ _ _ _
  · rw [done]
    exact remembers.settle here isKnown (own _) _ _ _ _

variable (apart : Apart cfg known log)
include apart

/-- A series on its way in is left out, and what is remembered of it is dropped. -/
theorem forget (remembers : Remembers cfg known none log s) {k : Key X} (isKnown : known k) :
    Remembers cfg known (some k) log { s with evicted := s.evicted.erase (cfg.hash k) } := by
  intro k' other different
  refine (remembers k' other (by simp)).congr Iff.rfl (lookup_erase_ne fun clash => different ?_) rfl
  rw [apart.hash k' other k isKnown clash]

variable (auto : cfg.initial = .auto)
include auto

theorem evict (follows : Follows cfg log s) (remembers : Remembers cfg known out log s) (slot : Nat)
    (forgetless : Forgetless (s.evict cfg slot)) : Remembers cfg known out log (s.evict cfg slot) := by
  cases found : s.series.get slot with
  | none =>
    have same : s.evict cfg slot = s := by simp [CumulativeToDelta.evict, found]
    rw [same]
    exact remembers
  | some a =>
    obtain ⟨e, last, start, ts, _⟩ := follows.recorded slot a found
    have hashed := follows.hashed slot a found
    have mine := apart.logged a.key e last
    have gone : Untracked a.key (s.evict cfg slot) := by
      intro i b here same
      rw [get_evict] at here
      split at here
      · cases here
      · rename_i other
        exact other (follows.sound.distinct i slot b a here found same)
    intro k isKnown inside
    by_cases same : k = a.key
    · -- The evicted series is remembered at its last point, or not at all if that fails `auto`.
      subst same
      rcases evict_cases auto found with ⟨fails, kept⟩ | ⟨passes, seq, _, _, kept⟩
      · have absent : (s.evict cfg slot).evicted.lookup (cfg.hash a.key) = none := by
          rw [kept]
          exact (remembers a.key mine inside).exclusive.resolve_right fun fresh => fresh slot a found rfl
        refine ⟨.inr gone, fun ts seq memory => ?_, fun e' last' _ => .inr ?_⟩
        · rw [absent] at memory
          cases memory
        · cases last.symm.trans last'
          rwa [← start, ← ts]
      · have here : (s.evict cfg slot).evicted.lookup (cfg.hash a.key) = some (e.ts, seq) := by
          rw [kept forgetless, ← hashed, lookup_insert, ts]
        refine ⟨.inr gone, fun ts' seq' memory => ?_, fun e' last' _ => .inl ⟨seq, ?_⟩⟩
        · cases here.symm.trans memory
          exact ⟨e, last, rfl, by rwa [← start, ← ts]⟩
        · cases last.symm.trans last'
          exact here
    · refine (remembers k isKnown inside).congr (forall_congr' fun i => ?_) ?_ rfl
      · rw [get_evict]
        split
        · rename_i there
          subst there
          refine iff_of_true (by simp) fun b held => ?_
          cases found.symm.trans held
          exact Ne.symm same
        · exact Iff.rfl
      · rcases evict_cases auto found with ⟨_, kept⟩ | ⟨_, seq, _, _, kept⟩
        · rw [kept]
        · rw [kept forgetless, lookup_insert_ne]
          rw [hashed]
          exact fun clash => same (apart.hash k isKnown a.key mine clash)

/-- Evictions keep what is remembered, as long as nothing is forgotten. -/
theorem stable (out : Option (Key X)) :
    Stable cfg fun s => Follows cfg log s ∧ (Forgetless s → Remembers cfg known out log s) where
  queue s queue holds := ⟨(Follows.stable cfg log).queue s queue holds.1, fun forgetless k isKnown inside =>
    (holds.2 forgetless k isKnown inside).congr Iff.rfl rfl rfl⟩
  now s now holds := ⟨(Follows.stable cfg log).now s now holds.1, fun forgetless k isKnown inside =>
    (holds.2 forgetless k isKnown inside).congr Iff.rfl rfl rfl⟩
  evict s slot holds := by
    refine ⟨(Follows.stable cfg log).evict s slot holds.1, fun forgetless => ?_⟩
    obtain ⟨lost, more⟩ := @trail_evict X cfg s slot
    have earlier := forgetless.of_prefix (more ▸ prefix_append s.trail lost)
    exact (holds.2 earlier).evict apart auto holds.1 slot forgetless

/-- While other series are evicted, a series that is neither tracked nor remembered stays so. -/
theorem stable_absent {k : Key X} (isKnown : known k) :
    Stable cfg fun s => Follows cfg log s ∧ Untracked k s ∧ s.evicted.lookup (cfg.hash k) = none where
  queue s queue holds := ⟨(Follows.stable cfg log).queue s queue holds.1, holds.2⟩
  now s now holds := ⟨(Follows.stable cfg log).now s now holds.1, holds.2⟩
  evict s slot holds := by
    obtain ⟨follows, untracked, absent⟩ := holds
    refine ⟨(Follows.stable cfg log).evict s slot follows, (stable_untracked cfg k).evict s slot untracked, ?_⟩
    cases found : s.series.get slot with
    | none => simp [CumulativeToDelta.evict, found, absent]
    | some a =>
      obtain ⟨e, last, _⟩ := follows.recorded slot a found
      rcases evict_cases auto found with ⟨_, same⟩ | ⟨_, seq, order, trimmed, _⟩
      · rw [same, absent]
      · rw [trimmed]
        apply lookup_trimEvicted
        rw [lookup_insert_ne, absent]
        rw [follows.hashed slot a found]
        intro clash
        exact untracked slot a found (apart.hash k isKnown a.key (apart.logged a.key e last) clash).symm

variable (follows : Follows cfg log s)
include follows

theorem insert (remembers : Forgetless s → Remembers cfg known (some series.key) log s) (isKnown : known series.key)
    (fresh : Untracked series.key s) (absent : s.evicted.lookup (cfg.hash series.key) = none)
    (own : e.key = some series.key) (now : Int64) (forgetless : Forgetless (s.insert cfg series now)) :
    Remembers cfg known none (e :: log) (s.insert cfg series now) := by
  obtain ⟨roomy, recalls⟩ := (stable apart auto (some series.key)).room ⟨follows, remembers⟩
  obtain ⟨_, _, gone⟩ := (stable_absent apart auto isKnown).room ⟨follows, fresh, absent⟩
  have before : Forgetless (s.room cfg) := by
    intro h mem
    exact forgetless h (by rw [insert_trail]; exact mem)
  refine enter (get_insert roomy.sound rfl series now) (insert_evicted series now) gone ?_ own (recalls before)
  intro a here
  rw [Slab.get_vacancy roomy.sound] at here
  cases here

theorem begin (found : p.kind cfg = some kind)
    (remembers : Forgetless s → Remembers cfg known (some (p.key kind)) log s) (isKnown : known (p.key kind))
    (fresh : Untracked (p.key kind) s) (absent : s.evicted.lookup (cfg.hash (p.key kind)) = none) (now : Int64)
    (emit : Bool) (forgetless : Forgetless (s.begin cfg (p.key kind) now p emit).state) :
    Remembers cfg known none (p.entry cfg (s.begin cfg (p.key kind) now p emit) :: log)
      (s.begin cfg (p.key kind) now p emit).state := by
  have state := (@begin_cases X cfg s (p.key kind) now p emit).1
  rw [state] at forgetless ⊢
  exact insert apart auto follows remembers isKnown fresh absent
    (by simp [Point.entry, found, newSeries]) now forgetless

theorem convertUntracked (remembers : Forgetless s → Remembers cfg known none log s)
    (found : p.kind cfg = some kind) (isKnown : known (p.key kind)) (fresh : Untracked (p.key kind) s) (now : Int64)
    (forgetless : Forgetless (s.convertUntracked cfg (p.key kind) now p).state) :
    Remembers cfg known none (p.entry cfg (s.convertUntracked cfg (p.key kind) now p) :: log)
      (s.convertUntracked cfg (p.key kind) now p).state := by
  have before := forgetless.of_prefix (trail_convertUntracked (p.key kind) now p)
  rcases @convertUntracked_cases X cfg s (p.key kind) now p with
    ⟨last, seq, _, _, _, done⟩ | ⟨last, seq, _, _, _, done⟩ | ⟨_, absent, done⟩ | ⟨other, _⟩
  · rw [done]
    exact (remembers before).skip (skipped_refused s p.ts last)
  · rw [done] at forgetless ⊢
    exact begin apart auto (follows.forget _) found (fun _ => (remembers before).forget apart isKnown)
      isKnown fresh (lookup_erase _ _) now _ forgetless
  · rw [done] at forgetless ⊢
    exact begin apart auto follows found (fun _ => (remembers before).leaveOut _) isKnown fresh absent
      now _ forgetless
  · exact absurd auto other

theorem readNow (remembers : Remembers cfg known none log s) (clock : Int64)
    (forgetless : Forgetless (s.readNow cfg clock)) : Remembers cfg known none log (s.readNow cfg clock) :=
  ((stable apart auto none).readNow clock ⟨follows, fun _ => remembers⟩).2 forgetless

theorem convert (remembers : Remembers cfg known none log s) (p : Point X)
    (isKnown : ∀ kind, p.kind cfg = some kind → known (p.key kind))
    (forgetless : Forgetless (s.convert cfg p).state) :
    Remembers cfg known none (p.entry cfg (s.convert cfg p) :: log) (s.convert cfg p).state := by
  have read := (Follows.stable cfg log).readNow p.clock follows
  rcases convert_cases follows p with ⟨_, done⟩ | ⟨_, done⟩ | ⟨kind, found, _, _, fresh, done⟩ |
    ⟨kind, slot, series, found, _, here, key, done⟩
  · rw [done]
    exact remembers.skip rfl
  · rw [done]
    exact remembers.skip rfl
  · rw [done] at forgetless ⊢
    exact convertUntracked apart auto read (readNow apart auto follows remembers p.clock) found
      (isKnown kind found) fresh _ forgetless
  · rw [done] at forgetless ⊢
    have before : Forgetless (s.readNow cfg p.clock) := by
      intro h mem
      exact forgetless h (by rw [trail_convertTracked]; exact mem)
    exact (readNow apart auto follows remembers p.clock before).convertTracked found here key (isKnown kind found) _

end Remembers

/-- The keys of the convertible records of a run. -/
def keys (cfg : Settings X) (inputs : List (Input X)) : List (Key X) := inputs.filterMap fun
    | .record p => (p.kind cfg).map p.key
    | .endBatch => none

def HashesApart (cfg : Settings X) (inputs : List (Input X)) : Prop :=
  ∀ k ∈ keys cfg inputs, ∀ k' ∈ keys cfg inputs, cfg.hash k = cfg.hash k' → k = k'

theorem key_mem {inputs : List (Input X)} {p : Point X} (mem : .record p ∈ inputs) {kind : Kind}
    (found : p.kind cfg = some kind) : p.key kind ∈ keys cfg inputs :=
  mem_filterMap.mpr ⟨.record p, mem, by simp [found]⟩

theorem Apart.cons (apart : Apart cfg known log) {e : Entry X} (own : ∀ k, e.key = some k → known k) :
    Apart cfg known (e :: log) where
  hash := apart.hash
  logged k l last := by
    by_cases accepted : e.key = some k ∧ e.verdict.accepted = true
    · exact own k accepted.1
    · rw [not_and_or, Bool.not_eq_true] at accepted
      rw [lastAccepted_skip log accepted] at last
      exact apart.logged k l last

theorem Apart.convert (apart : Apart cfg known log) {p : Point X}
    (isKnown : ∀ kind, p.kind cfg = some kind → known (p.key kind))
    (done : Converted X) : Apart cfg known (p.entry cfg done :: log) := by
  apply apart.cons
  intro k own
  obtain ⟨kind, found, rfl⟩ := Option.map_eq_some_iff.mp own
  exact isKnown kind found

/-- In every run under `auto` that forgets nothing, what is remembered is right. -/
theorem remembers_run {all : List (Input X)} (auto : cfg.initial = .auto) (apart : HashesApart cfg all)
    (inputs : List (Input X)) (part : inputs <+: all) (forgetless : Forgetless (run cfg inputs).state) :
    Apart cfg (· ∈ keys cfg all) (run cfg inputs).log ∧
      Remembers cfg (· ∈ keys cfg all) none (run cfg inputs).log (run cfg inputs).state := by
  induction inputs using reverseRecOn with
  | nil =>
    refine ⟨⟨apart, ?_⟩, fun k _ _ => ⟨.inl rfl, ?_, ?_⟩⟩
    · intro k e last
      cases last
    · intro last seq memory
      cases memory
    · intro e last
      cases last
  | append_singleton inputs input ih =>
    have before := forgetless.of_prefix (trail_step cfg inputs input)
    obtain ⟨apart', remembers⟩ := ih ((prefix_append inputs [input]).trans part) before
    rw [run_append] at forgetless ⊢
    cases input with
    | endBatch => exact ⟨apart', fun k isKnown inside => (remembers k isKnown inside).congr Iff.rfl rfl rfl⟩
    | record p =>
      have mem : Input.record p ∈ all := part.subset (by simp)
      have isKnown := fun kind found => @key_mem X cfg all p mem kind found
      exact ⟨apart'.convert isKnown _, remembers.convert apart' auto (Follows.run cfg inputs) p isKnown forgetless⟩

def Verdict.full : Verdict → Bool
  | .first | .resetDecrease | .resetRestarted => true
  | _ => false

/-- A point is emitted in full only as a reset against the last accepted point of its series: its value
fell while the series was tracked, or it restarted after that point. -/
def NoResend (cfg : Settings X) (r : Run X) (p : Point X) : Prop :=
  ∀ kind l, p.kind cfg = some kind → lastAccepted (p.key kind) r.log = some l →
    (r.state.convert cfg p).verdict.full = true →
    ((r.state.convert cfg p).verdict = .resetDecrease ∧
      ∃ base, Records base l.kind ∧ cfg.fell kind base p.record.kind = true) ∨
    restarted p.record.startTimestamp l.ts p.ts = true

/-- A point of a series that was evicted at a point failing `auto` does not pass it, or began after
that point. -/
def Sheltered (cfg : Settings X) (r : Run X) (p : Point X) : Prop :=
  ∀ kind l, p.kind cfg = some kind → lastAccepted (p.key kind) r.log = some l →
    (r.state.readNow cfg p.clock).find cfg (p.key kind) = none → finiteSum p.record.kind = true →
    cfg.passesAuto l.start l.ts = false → cfg.passesAuto p.record.startTimestamp p.ts = true →
    l.ts < p.record.startTimestamp

variable {l : Entry X}

/-- Under `auto`, an untracked series' point is a resend only if the series was evicted unremembered. -/
theorem untracked_noResend (auto : cfg.initial = .auto) (remembers : Remembers cfg known none log s) {k : Key X}
    (isKnown : known k) (fresh : Untracked k s) {p : Point X} (now : Int64) (last : lastAccepted k log = some l)
    (sheltered : cfg.passesAuto l.start l.ts = false →
      cfg.passesAuto p.record.startTimestamp p.ts = true → l.ts < p.record.startTimestamp)
    (full : (s.convertUntracked cfg k now p).verdict.full = true) :
    restarted p.record.startTimestamp l.ts p.ts = true := by
  rcases @convertUntracked_cases X cfg s k now p with
    ⟨last', seq, _, _, _, done⟩ | ⟨last', seq, _, memory, _, done⟩ | ⟨_, absent, done⟩ | ⟨other, _⟩
  · rw [done, skipped] at full
    split at full <;> cases full
  · obtain ⟨e, same, ts, _⟩ := (remembers k isKnown (by simp)).remembered last' seq memory
    cases last.symm.trans same
    rw [done] at full
    rcases (@begin_cases X cfg { s with evicted := s.evicted.erase (cfg.hash k) } k now p
      (restarted p.record.startTimestamp last' p.ts)).2 with ⟨emit, _⟩ | ⟨_, verdict, _⟩
    · rw [ts]
      exact emit
    · rw [verdict] at full
      cases full
  · rw [done] at full
    rcases (@begin_cases X cfg s k now p (cfg.passesAuto p.record.startTimestamp p.ts)).2 with
      ⟨emit, _⟩ | ⟨_, verdict, _⟩
    · rcases (remembers k isKnown (by simp)).covered l last fresh with ⟨seq, memory⟩ | fails
      · rw [absent] at memory
        cases memory
      · have later := sheltered fails emit
        simp only [Settings.passesAuto, decide_eq_true_eq] at emit
        simp only [restarted, decide_eq_true_eq]
        exact ⟨emit.1, later, emit.2.2⟩
    · rw [verdict] at full
      cases full
  · exact absurd auto other

/-- A series that was evicted unremembered: a point that passes `auto` is emitted in full. -/
theorem untracked_full (auto : cfg.initial = .auto) (remembers : Remembers cfg known none log s) {k : Key X}
    (isKnown : known k) {p : Point X} (now : Int64) (last : lastAccepted k log = some l)
    (fails : cfg.passesAuto l.start l.ts = false) (passes : cfg.passesAuto p.record.startTimestamp p.ts = true) :
    (s.convertUntracked cfg k now p).verdict = .first := by
  have unremembered : ∀ last' seq, s.evicted.lookup (cfg.hash k) ≠ some (last', seq) := by
    intro last' seq memory
    obtain ⟨e, same, _, passed⟩ := (remembers k isKnown (by simp)).remembered last' seq memory
    rw [last, Option.some.injEq] at same
    rw [← same, fails] at passed
    cases passed
  rcases @convertUntracked_cases X cfg s k now p with
    ⟨last', seq, _, memory, _⟩ | ⟨last', seq, _, memory, _⟩ | ⟨_, _, done⟩ | ⟨other, _⟩
  · exact absurd memory (unremembered last' seq)
  · exact absurd memory (unremembered last' seq)
  · rw [done, passes]
    rfl
  · exact absurd auto other

theorem tracked_noResend {kind : Kind} {p : Point X} {slot : Nat} {series : Series X} (now : Int64)
    (ts : series.ts = l.ts) (records : Records series.base l.kind)
    (full : (s.convertTracked cfg kind slot series now p).verdict.full = true) :
    ((s.convertTracked cfg kind slot series now p).verdict = .resetDecrease ∧
      ∃ base, Records base l.kind ∧ cfg.fell kind base p.record.kind = true) ∨
    restarted p.record.startTimestamp l.ts p.ts = true := by
  rcases @convertTracked_cases X cfg s kind slot series now p with
    ⟨_, done⟩ | ⟨_, ⟨fell, verdict⟩ | ⟨again, _⟩, _⟩ | ⟨_, _, done⟩ | ⟨_, _, _, done⟩
  · rw [done, skipped] at full
    split at full <;> cases full
  · exact .inl ⟨verdict, series.base, records, fell⟩
  · exact .inr (ts ▸ again)
  · rw [done] at full
    cases full
  · rw [done] at full
    cases full

/-- At one step, no total is sent again exactly when the point is sheltered. -/
theorem noResend_iff_sheltered {r : Run X} (auto : cfg.initial = .auto)
    (follows : Follows cfg r.log r.state) {p : Point X} (remembers : Forgetless (r.state.readNow cfg p.clock) →
      Remembers cfg known none r.log (r.state.readNow cfg p.clock))
    (forgetless : Forgetless (r.state.convert cfg p).state)
    (isKnown : ∀ kind, p.kind cfg = some kind → known (p.key kind)) :
    NoResend cfg r p ↔ Sheltered cfg r p := by
  have read := (Follows.stable cfg r.log).readNow p.clock follows
  rcases convert_cases follows p with ⟨absent, _⟩ | ⟨broken, done⟩ |
    ⟨kind, found, whole, place, fresh, done⟩ | ⟨kind, slot, series, found, place, here, key, done⟩
  · constructor
    · intro _ kind l found
      rw [absent] at found
      cases found
    · intro _ kind l found
      rw [absent] at found
      cases found
  · constructor
    · intro _ kind l _ _ _ whole
      rw [broken] at whole
      cases whole
    · intro _ kind l _ _ full
      rw [done] at full
      cases full
  · rw [done] at forgetless
    have memory := remembers (forgetless.of_prefix (trail_convertUntracked _ _ p))
    constructor
    · intro safe kind' l found' last _ _ fails passes
      cases found.symm.trans found'
      have first := untracked_full auto memory (isKnown kind found) (r.state.now.getD p.clock) last fails passes
      rw [← done] at first
      rcases safe kind l found last (by rw [first]; rfl) with ⟨fell, _⟩ | again
      · rw [first] at fell
        cases fell
      · simp only [restarted, decide_eq_true_eq] at again
        exact again.2.1
    · intro sheltered kind' l found' last full
      cases found.symm.trans found'
      rw [done] at full
      exact .inr (untracked_noResend auto memory (isKnown kind found) fresh _ last
        (sheltered kind l found last place whole) full)
  · constructor
    · intro _ kind' l found' _ nowhere
      cases found.symm.trans found'
      rw [place] at nowhere
      cases nowhere
    · intro _ kind' l found' last full
      cases found.symm.trans found'
      obtain ⟨l', last', _, ts, records, _⟩ := read.recorded slot series here
      rw [key, last, Option.some.injEq] at last'
      subst last'
      rw [done] at full ⊢
      exact tracked_noResend _ ts records full

/-- Under `auto`, in a run that forgets no evicted series and whose series have hashes of their own, no
total is sent again exactly when every point is sheltered. -/
theorem auto_never_resends_iff (cfg : Settings X) (inputs : List (Input X)) (auto : cfg.initial = .auto)
    (apart : HashesApart cfg inputs) (forgetless : Forgetless (run cfg inputs).state) :
    (∀ done p rest, inputs = done ++ .record p :: rest → NoResend cfg (run cfg done) p) ↔
      ∀ done p rest, inputs = done ++ .record p :: rest → Sheltered cfg (run cfg done) p := by
  have step : ∀ done p rest, inputs = done ++ .record p :: rest →
      (NoResend cfg (run cfg done) p ↔ Sheltered cfg (run cfg done) p) := by
    intro done p rest shape
    have split : inputs = done ++ [.record p] ++ rest := by rw [shape, append_assoc]; rfl
    have after : Forgetless (run cfg (done ++ [.record p])).state := by
      rw [split] at forgetless
      exact forgetless.of_prefix (trail_run cfg _ rest)
    have before := after.of_prefix (trail_step cfg done (.record p))
    have part : done <+: inputs := shape ▸ prefix_append done _
    obtain ⟨apart', remembers⟩ := remembers_run auto apart done part before
    have follows := Follows.run cfg done
    have member : Input.record p ∈ inputs := by simp [shape]
    rw [run_append] at after
    exact noResend_iff_sheltered auto follows (remembers.readNow apart' auto follows p.clock) after
      (fun kind found => key_mem member found)
  constructor
  · intro safe done p rest shape
    exact (step done p rest shape).mp (safe done p rest shape)
  · intro sheltered done p rest shape
    exact (step done p rest shape).mpr (sheltered done p rest shape)

def resendSettings : Settings Externals.plain :=
  { Settings.sample with maxSeries := 1, hash := fun k => if Externals.plain.resolve k.name = "a" then 1 else 2 }

/-- A counter without a start is evicted by another series, and then begins to report one that is older
than its last point. -/
def resendSample : List (Input Externals.plain) := [.record (.sample "a" 0 20 (.sum ⟨.i64 5, .cumulative, true⟩)),
   .record (.sample "a" 0 30 (.sum ⟨.i64 8, .cumulative, true⟩)),
   .record (.sample "b" 0 40 (.sum ⟨.i64 1, .cumulative, true⟩)),
   .record (.sample "a" 25 50 (.sum ⟨.i64 9, .cumulative, true⟩))]

theorem auto_never_resends_iff_sample :
    HashesApart resendSettings resendSample ∧ Forgetless (run resendSettings resendSample).state ∧
    ((∀ done p rest, resendSample = done ++ .record p :: rest →
      NoResend resendSettings (run resendSettings done) p) ↔
      ∀ done p rest, resendSample = done ++ .record p :: rest →
        Sheltered resendSettings (run resendSettings done) p) := by
  have apart : HashesApart resendSettings resendSample := by
    unfold HashesApart
    decide +kernel
  have forgetless : Forgetless (run resendSettings resendSample).state := forgetless_of_all (by decide +kernel)
  exact ⟨apart, forgetless, auto_never_resends_iff resendSettings resendSample rfl apart forgetless⟩

/-- The last point of the sample is emitted in full, though it is no reset: the three that the counter
gained before it was evicted are counted twice. -/
theorem auto_resends_a_total : ∃ (cfg : Settings Externals.plain) (inputs : List (Input Externals.plain)),
      cfg.initial = .auto ∧ HashesApart cfg inputs ∧ Forgetless (run cfg inputs).state ∧
      ¬ ∀ done p rest, inputs = done ++ .record p :: rest → NoResend cfg (run cfg done) p := by
  refine ⟨resendSettings, resendSample, rfl, ?_, forgetless_of_all (by decide +kernel), ?_⟩
  · unfold HashesApart
    decide +kernel
  · intro safe
    have returned := safe (resendSample.take 3) (.sample "a" 25 50 (.sum ⟨.i64 9, .cumulative, true⟩)) [] rfl
    have accepted : (lastAccepted ((Point.sample "a" 25 50 (.sum ⟨.i64 9, .cumulative, true⟩)).key .sum)
        (run resendSettings (resendSample.take 3)).log).any (fun l => l.ts = 30) = true := by decide +kernel
    have verdict : ((run resendSettings (resendSample.take 3)).state.convert resendSettings
        (.sample "a" 25 50 (.sum ⟨.i64 9, .cumulative, true⟩))).verdict = .first := by decide +kernel
    obtain ⟨l, last, ts⟩ := (Option.any_eq_true _ _).mp accepted
    rcases returned .sum l rfl last (by rw [verdict]; rfl) with ⟨fell, _⟩ | again
    · cases fell
    · rw [show l.ts = 30 by simpa using ts] at again
      revert again
      decide

end Logit.Delta
