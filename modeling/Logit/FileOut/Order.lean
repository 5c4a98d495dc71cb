import Logit.FileOut.Rotation

namespace Logit.FileOut

open Logit.Shelf List Nat Function Disk State

def numbered : Nat → List Path
  | 0 => []
  | n + 1 => .rotated (n + 1) :: numbered n

/-- The names of a target from the oldest file to the newest. -/
def row (n : Nat) : List Path := numbered n ++ [.staging, .active]

theorem mem_numbered {n : Nat} {path : Path} : path ∈ numbered n ↔ ∃ k, 1 ≤ k ∧ k ≤ n ∧ path = .rotated k := by
  induction n with
  | zero =>
    simp only [numbered, not_mem_nil, false_iff]
    rintro ⟨k, low, high, -⟩
    omega
  | succ n ih =>
    simp only [numbered, mem_cons, ih]
    constructor
    · rintro (rfl | ⟨k, low, high, rfl⟩)
      · exact ⟨n + 1, by omega, by omega, rfl⟩
      · exact ⟨k, low, by omega, rfl⟩
    · rintro ⟨k, low, high, rfl⟩
      by_cases top : k = n + 1
      · exact .inl (by rw [top])
      · exact .inr ⟨k, low, by omega, rfl⟩

theorem numbered_nodup (n : Nat) : (numbered n).Nodup := by
  induction n with
  | zero => exact nodup_nil
  | succ n ih =>
    refine nodup_cons.mpr ⟨fun mem => ?_, ih⟩
    obtain ⟨k, -, high, same⟩ := mem_numbered.mp mem
    cases same
    omega

theorem row_nodup (n : Nat) : (row n).Nodup := by
  refine nodup_append.mpr ⟨numbered_nodup n, by simp, ?_⟩
  intro path mem other last
  obtain ⟨k, -, -, rfl⟩ := mem_numbered.mp mem
  rcases mem_cons.mp last with rfl | last
  · simp
  · rw [mem_singleton.mp last]
    simp

theorem numbered_split {k n : Nat} (below : k ≤ n) : ∃ before, numbered n = before ++ numbered k := by
  induction n with
  | zero =>
    obtain rfl : k = 0 := by omega
    exact ⟨[], rfl⟩
  | succ n ih =>
    by_cases top : k = n + 1
    · exact ⟨[], by rw [top, nil_append]⟩
    · obtain ⟨before, split⟩ := ih (by omega)
      exact ⟨.rotated (n + 1) :: before, by rw [numbered, split, cons_append]⟩

theorem row_succ (n : Nat) : row (n + 1) = .rotated (n + 1) :: row n := rfl

theorem row_split_shift {n top : Nat} (fits : n + 2 ≤ top) :
    ∃ before after, row top = before ++ .rotated (n + 2) :: .rotated (n + 1) :: after := by
  obtain ⟨before, split⟩ := numbered_split fits
  refine ⟨before, numbered n ++ [.staging, .active], ?_⟩
  rw [row, split, numbered, numbered]
  simp

theorem row_split_promote {top : Nat} (fits : 1 ≤ top) :
    ∃ before, row top = before ++ .rotated 1 :: .staging :: [.active] := by
  obtain ⟨before, split⟩ := numbered_split fits
  refine ⟨before, ?_⟩
  rw [row, split, numbered, numbered]
  simp

section

variable {disk : Disk}

theorem listing_shift {n top : Nat} (fits : n + 2 ≤ top) (vacant : disk (.rotated (n + 2)) = none) :
    listing (row top) (disk.shift (n + 1)) = listing (row top) disk := by
  obtain ⟨before, after, split⟩ := row_split_shift fits
  have distinct := row_nodup top
  rw [split] at distinct ⊢
  unfold Disk.shift
  split
  · exact listing_move distinct vacant
  · rfl

variable {top : Nat}

theorem listing_promote (fits : 1 ≤ top) (vacant : disk (.rotated 1) = none) :
    listing (row top) (move disk .staging (.rotated 1)) = listing (row top) disk := by
  obtain ⟨before, split⟩ := row_split_promote fits
  have distinct := row_nodup top
  rw [split] at distinct ⊢
  exact listing_move distinct vacant

theorem listing_commit (vacant : disk .staging = none) :
    listing (row top) (move disk .active .staging) = listing (row top) disk := by
  have distinct := row_nodup top
  exact listing_move distinct vacant

theorem listing_remove (disk : Disk) (fits : 1 ≤ top) :
    ∃ gone, listing (row top) (disk.remove top) = (listing (row top) disk).drop gone := by
  obtain ⟨n, rfl⟩ : ∃ n, top = n + 1 := ⟨top - 1, by omega⟩
  unfold Disk.remove
  split
  · exact ⟨_, listing_clear_head (row_nodup (n + 1))⟩
  · exact ⟨0, rfl⟩

theorem mem_listing_staging {file : File} (here : disk .staging = some file) : file ∈ listing (row top) disk :=
  mem_filterMap.mpr ⟨.staging, by simp [row], here⟩

theorem listing_active (disk : Disk) (top : Nat) :
    listing (row top) disk = listing (numbered top ++ [.staging]) disk ++ (disk .active).toList := by
  have split : row top = (numbered top ++ [.staging]) ++ [.active] := by simp [row]
  rw [split, listing_append]
  rcases Option.eq_none_or_eq_some (disk .active) with gone | ⟨file, here⟩
  · simp [listing, gone]
  · simp [listing, here]

theorem listing_create {file : File} (vacant : disk .active = none) :
    listing (row top) (update disk .active (some file)) = listing (row top) disk ++ [file] := by
  have others : listing (numbered top ++ [.staging]) (update disk .active (some file)) =
      listing (numbered top ++ [.staging]) disk := by
    refine listing_congr fun path mem => update_of_ne ?_ ..
    rintro rfl
    rcases mem_append.mp mem with mem | mem
    · obtain ⟨k, -, -, same⟩ := mem_numbered.mp mem
      cases same
    · simp at mem
  rw [listing_active, listing_active disk, others, vacant]
  simp

theorem listing_beyond {top n : Nat} (wide : top ≤ n) (beyond : ∀ k, top < k → disk (.rotated k) = none) :
    listing (row n) disk = listing (row top) disk := by
  obtain ⟨extra, rfl⟩ := Nat.exists_eq_add_of_le wide
  induction extra with
  | zero => rfl
  | succ extra ih =>
    have vacant := beyond (top + extra + 1) (by omega)
    rw [← ih (by omega), ← add_assoc, row_succ, listing, filterMap_cons_none vacant, listing]

end

/-- The handle is open on the file at the path, which has a batch once anything was counted. -/
def Holding (s : State) : Prop := ∃ file, s.disk .active = some file ∧ s.target.file = some file.inode ∧
    (0 < s.target.state.written ∨ s.target.state.period.isSome → file.batches ≠ [])

/-- The file at the path has a batch. -/
def Begun (s : State) : Prop := ∃ file, s.disk .active = some file ∧ file.batches ≠ []

/-- The places that are empty, and staged files, at each step of `promote_staged`. -/
def Point.Fits (disk : Disk) (files : Nat) : Point → Prop
  | .enter => True
  | .remove => (disk .staging).isSome
  | .shift n => (disk .staging).isSome ∧ disk (.rotated (n + 1)) = none ∧ n + 2 ≤ files
  | .rename => (disk .staging).isSome ∧ disk (.rotated 1) = none

/-- What holds where the process stands. -/
def Stage.Fits (s : State) (files : Nat) : Stage → Prop
  | .down => True
  | .ready => Holding s
  | .truncating => False
  | .promoting .recover point => Holding s ∧ Begun s ∧ point.Fits s.disk files
  | .promoting .finish point => Holding s ∧ point.Fits s.disk files
  | .committing => Holding s ∧ Begun s ∧ s.disk .staging = none
  | .reopening => s.disk .active = none ∧ ¬(0 < s.target.state.written ∨ s.target.state.period.isSome)
  | .returned _ => Holding s
  | .writing => Holding s
  | .noting => Holding s ∧ Begun s

/-- The files on disk, oldest first, are the last ones created, and hold what was written to them. -/
structure Tidy (files : Nat) (disk : Disk) (history : List File) (written : List (List UInt8)) : Prop where
  kept : ∃ lost ≤ history.length, listing (row (files - 1)) disk = history.drop lost
  numbers : history.map File.inode = List.range history.length
  content : history.flatMap File.batches = written
  beyond : ∀ n, files ≤ n → disk (.rotated n) = none
  filled : ∀ path file, disk path = some file → path = .active ∨ file.batches ≠ []
  seen : written ≠ [] → ∃ file ∈ listing (row (files - 1)) disk, file.batches ≠ []

/-- `Tidy`, and what holds where the process stands. -/
structure Sound (policy : RotatePolicy) (s : State) : Prop where
  limits : s.policy = policy
  tidy : Tidy policy.maxFiles s.disk s.history s.written
  stands : s.stage.Fits s policy.maxFiles

section

variable {policy : RotatePolicy} {s : State}

theorem maxFiles_eq (limits : s.policy = policy) (many : 2 ≤ policy.maxFiles) : s.maxFiles = policy.maxFiles := by
  rw [maxFiles, limits]
  omega

variable {s' : State} {file : File} {point : Point} {files : Nat}

section

variable {disk : Disk} {history : List File} {written : List (List UInt8)} (tidy : Tidy files disk history written)
include tidy

/-- A file that has a batch moves to a name within the limit, and the listing is the same. -/
theorem Tidy.moved {source target : Path} (different : target ≠ source)
    (listed : listing (row (files - 1)) (move disk source target) = listing (row (files - 1)) disk)
    (inside : ∀ n, files ≤ n → .rotated n ≠ target)
    (filled : ∀ file, disk source = some file → file.batches ≠ []) :
    Tidy files (move disk source target) history written := by
  refine { tidy with kept := ?_, beyond := ?_, filled := ?_, seen := ?_ }
  · rw [listed]
    exact tidy.kept
  · intro n out
    by_cases emptied : .rotated n = source
    · rw [emptied, move_source]
    · rw [move_of_ne emptied (inside n out), tidy.beyond n out]
  · intro path file found
    by_cases emptied : path = source
    · rw [emptied, move_source] at found
      cases found
    · by_cases taken : path = target
      · rw [taken, move_target different] at found
        exact .inr (filled file found)
      · rw [move_of_ne emptied taken] at found
        exact tidy.filled path file found
  · rw [listed]
    exact tidy.seen

theorem Tidy.remove (many : 2 ≤ files) (staged : (disk .staging).isSome) :
    Tidy files (disk.remove (files - 1)) history written := by
  obtain ⟨lost, -, kept⟩ := tidy.kept
  obtain ⟨gone, listed⟩ := listing_remove disk (show 1 ≤ files - 1 by omega)
  refine { tidy with kept := ?_, beyond := ?_, filled := ?_, seen := fun _ => ?_ }
  · refine ⟨min (lost + gone) history.length, min_le_right .., ?_⟩
    rw [listed, kept, drop_drop]
    by_cases short : lost + gone ≤ history.length
    · rw [min_eq_left short]
    · rw [min_eq_right (by omega), drop_length, drop_eq_nil_iff]
      omega
  · intro n out
    rw [remove_of_ne (by simp; omega)]
    exact tidy.beyond n out
  · intro path file here
    by_cases removed : path = .rotated (files - 1)
    · rw [removed, remove_same] at here
      cases here
    · exact tidy.filled path file (by rwa [remove_of_ne removed] at here)
  · -- the staged file is still there, and it has a batch
    obtain ⟨staged, here⟩ := Option.isSome_iff_exists.mp staged
    have still : disk.remove (files - 1) .staging = some staged := by rw [remove_of_ne (by simp), here]
    refine ⟨staged, mem_listing_staging still, ?_⟩
    exact (tidy.filled .staging staged here).resolve_left (by simp)

theorem Tidy.shift {n : Nat} (room : n + 3 ≤ files) (vacant : disk (.rotated (n + 2)) = none) :
    Tidy files (disk.shift (n + 1)) history written := by
  have listed := @listing_shift disk n (files - 1) (by omega) vacant
  unfold Disk.shift at listed ⊢
  split
  next there =>
    rw [if_pos there] at listed
    refine tidy.moved (by simp) listed (fun k out => ?_) fun file here => ?_
    · simp only [ne_eq, Path.rotated.injEq]
      omega
    · exact (tidy.filled _ file here).resolve_left (by simp)
  next => exact tidy

theorem Tidy.history_last (here : disk .active = some file) (bytes : List UInt8) :
    ∃ before, history = before ++ [file] ∧ before.map (File.append file.inode bytes) = before := by
  obtain ⟨lost, -, kept⟩ := tidy.kept
  rw [listing_active, here] at kept
  have split : history = history.take lost ++ history.drop lost := (take_append_drop ..).symm
  rw [← kept, ← append_assoc] at split
  refine ⟨_, split, (map_congr_left fun older mem => if_neg ?_).trans (map_id _)⟩
  have distinct : (history.map File.inode).Nodup := by
    rw [tidy.numbers]
    exact nodup_range
  rw [split, map_append, nodup_append] at distinct
  exact distinct.2.2 _ (mem_map_of_mem mem) _ (by simp)

end

theorem Begun.seen (begun : Begun s) : ∃ file ∈ listing (row (files - 1)) s.disk, file.batches ≠ [] := by
  obtain ⟨file, here, some⟩ := begun
  refine ⟨file, ?_, some⟩
  rw [listing_active, here]
  simp

/-- A step of `promote_staged` leads to the next one, or ends the call with nothing staged. -/
theorem Sound.promoted (limits : s.policy = policy) (holding : Holding s) {pass : Pass}
    (begun : pass = .recover → Begun s) {disk : Disk} (active : disk .active = s.disk .active)
    (tidy : Tidy policy.maxFiles disk s.history s.written) {stage : Stage}
    (stands : (∃ next, stage = .promoting pass next ∧ next.Fits disk policy.maxFiles) ∨
      stage = pass.next ∧ disk .staging = none) : Sound policy { s with disk, stage } := by
  have holding : Holding { s with disk, stage } := by
    obtain ⟨file, here, handle⟩ := holding
    exact ⟨file, active.trans here, handle⟩
  have begun : pass = .recover → Begun { s with disk, stage } := by
    intro recovers
    obtain ⟨file, here, filled⟩ := begun recovers
    exact ⟨file, active.trans here, filled⟩
  refine ⟨limits, tidy, ?_⟩
  rcases stands with ⟨next, rfl, fits⟩ | ⟨rfl, empty⟩
  · cases pass with
    | recover => exact ⟨holding, begun rfl, fits⟩
    | finish => exact ⟨holding, fits⟩
  · cases pass with
    | recover => exact ⟨holding, begun rfl, empty⟩
    | finish => exact holding

/-- A step of `promote_staged` overwrites nothing and removes at most the oldest file. -/
theorem Sound.promote (many : 2 ≤ policy.maxFiles) (limits : s.policy = policy)
    (tidy : Tidy policy.maxFiles s.disk s.history s.written) (holding : Holding s) (pass : Pass)
    (begun : pass = .recover → Begun s) (fits : point.Fits s.disk policy.maxFiles) :
    Sound policy (s.promote pass point) := by
  cases point with
  | enter =>
    rw [promote]
    split
    next staged => exact .promoted limits holding begun rfl tidy (.inl ⟨.remove, rfl, staged⟩)
    next empty => exact .promoted limits holding begun rfl tidy (.inr ⟨rfl, Option.not_isSome_iff_eq_none.mp empty⟩)
  | remove =>
    rw [promote, maxFiles_eq limits many]
    refine .promoted limits holding begun (remove_of_ne (by simp)) (tidy.remove many fits)
      (.inl ⟨_, rfl, ?_, ?_, by omega⟩)
    · rw [remove_of_ne (by simp)]
      exact fits
    · rw [show policy.maxFiles - 2 + 1 = policy.maxFiles - 1 by omega, remove_same]
  | shift n =>
    obtain ⟨staged, vacant, room⟩ := fits
    cases n with
    | zero => exact .promoted limits holding begun rfl tidy (.inl ⟨.rename, rfl, staged, vacant⟩)
    | succ n =>
      refine .promoted limits holding begun (shift_of_ne (by simp) (by simp)) (tidy.shift (by omega) vacant)
        (.inl ⟨.shift n, rfl, ?_, shift_source, by omega⟩)
      rw [shift_of_ne (by simp) (by simp)]
      exact staged
  | rename =>
    refine .promoted limits holding begun (move_of_ne (by simp) (by simp)) ?_ (.inr ⟨rfl, move_source⟩)
    refine tidy.moved (by simp) (listing_promote (by omega) fits.2) (fun k out => ?_) fun file here => ?_
    · simp only [ne_eq, Path.rotated.injEq]
      omega
    · exact (tidy.filled _ file here).resolve_left (by simp)

section

variable (tidy : Tidy files s.disk s.history s.written)
include tidy

/-- Opening the path leaves a handle on the file there, which is new and empty if none was there. -/
theorem Tidy.openActive : Tidy files s.openActive.disk s.openActive.history s.openActive.written ∧
      s.openActive.target.state = s.target.state ∧
      ∃ file, s.openActive.disk .active = some file ∧ s.openActive.target.file = some file.inode := by
  rcases Option.eq_none_or_eq_some (s.disk .active) with gone | ⟨file, here⟩
  · have shape : s.openActive = { s with
        disk := update s.disk .active (some ⟨s.history.length, []⟩)
        target := { s.target with file := some s.history.length }
        history := s.history ++ [⟨s.history.length, []⟩] } := by simp [State.openActive, gone]
    rw [shape]
    refine ⟨⟨?_, ?_, ?_, ?_, ?_, ?_⟩, rfl, ⟨s.history.length, []⟩, by simp, rfl⟩
    · obtain ⟨lost, bound, kept⟩ := tidy.kept
      refine ⟨lost, by simp; omega, ?_⟩
      rw [listing_create gone, kept, drop_append_of_le_length bound]
    · simp [tidy.numbers, range_succ]
    · simp [tidy.content]
    · intro n out
      have kept : update s.disk .active (some ⟨s.history.length, []⟩) (.rotated n) =
          s.disk (.rotated n) := update_of_ne (by simp) ..
      exact kept.trans (tidy.beyond n out)
    · intro path file found
      by_cases active : path = .active
      · exact .inl active
      · simp only [update_of_ne active] at found
        exact tidy.filled path file found
    · intro some
      obtain ⟨file, mem, filled⟩ := tidy.seen some
      refine ⟨file, ?_, filled⟩
      rw [listing_create gone]
      exact mem_append_left _ mem
  · have shape : s.openActive = { s with target := { s.target with file := some file.inode } } := by
      simp [State.openActive, here]
    rw [shape]
    exact ⟨tidy, rfl, file, here, rfl⟩

end

/-- A rotation state taken from a file has counted nothing while the file has no batch. -/
theorem seededState_counted {mtime : Option Int} {limits : RotatePolicy}
    (counted : 0 < (seededState file mtime limits).written ∨ (seededState file mtime limits).period.isSome) :
    file.batches ≠ [] := by
  intro empty
  have nothing : file.len = 0 := by simp [File.len, empty]
  rcases mtime with _ | mtime <;> simp [seededState, RotationState.seedPeriod, RotationState.new,
    nothing] at counted

theorem seededState_policy (file : File) (mtime : Option Int) (limits : RotatePolicy) :
    (seededState file mtime limits).policy = limits := by
  rcases mtime with _ | mtime
  · rfl
  · simp only [seededState, RotationState.seedPeriod]
    split <;> rfl

theorem Tidy.opened (tidy : Tidy files s.disk s.history s.written) (mtime : Option Int) :
    Tidy files (s.openActive.seed mtime).disk (s.openActive.seed mtime).history (s.openActive.seed mtime).written ∧
      (s.openActive.seed mtime).policy = s.policy ∧ Holding (s.openActive.seed mtime) := by
  obtain ⟨opened, state, file, here, handle⟩ := tidy.openActive
  have shape : s.openActive.seed mtime = { s.openActive with
      target := ⟨some file.inode, seededState file mtime s.openActive.policy⟩ } := by simp [seed, here, handle]
  rw [shape]
  refine ⟨opened, ?_, file, here, rfl, seededState_counted⟩
  rw [State.policy, seededState_policy, State.policy, state, State.policy]

theorem Holding.ensureOpen (holding : Holding s) (mtime : Option Int) : s.ensureOpen mtime = s := by
  obtain ⟨file, -, handle, -⟩ := holding
  simp [State.ensureOpen, handle]

theorem append_inode (inode : Nat) (bytes : List UInt8) (file : File) :
    (file.append inode bytes).inode = file.inode := by
  unfold File.append
  split <;> rfl

theorem append_batches {inode : Nat} {bytes : List UInt8} (filled : file.batches ≠ []) :
    (file.append inode bytes).batches ≠ [] := by
  unfold File.append
  split
  · simp
  · exact filled

/-- A write through the handle adds the batch to the file at the path, the last one created. -/
theorem Sound.write (limits : s.policy = policy) (tidy : Tidy policy.maxFiles s.disk s.history s.written)
    (holding : Holding s) (mtime : Option Int) (writing : s.stage = .writing) : Sound policy (s.advance mtime) := by
  obtain ⟨file, here, handle, -⟩ := id holding
  have shape : s.advance mtime = { s with
      disk := s.disk.append file.inode s.bytes
      stage := .noting
      history := s.history.map (File.append file.inode s.bytes)
      written := s.written ++ [s.bytes] } := by simp [State.advance, writing, holding.ensureOpen, handle]
  have grown : File.append file.inode s.bytes file = { file with batches := file.batches ++ [s.bytes] } := by
    simp [File.append]
  have now : (s.disk.append file.inode s.bytes) .active =
      some { file with batches := file.batches ++ [s.bytes] } := by rw [append, here, Option.map_some, grown]
  rw [shape]
  refine ⟨limits, ⟨?_, ?_, ?_, ?_, ?_, ?_⟩, ⟨_, now, handle, fun _ => by simp⟩, ⟨_, now, by simp⟩⟩
  · obtain ⟨lost, bound, kept⟩ := tidy.kept
    refine ⟨lost, by simpa using bound, ?_⟩
    show listing _ (fun path => (s.disk path).map (File.append file.inode s.bytes)) = _
    rw [listing_map, kept, map_drop]
  · have numbers := tidy.numbers
    simp only [map_map, length_map]
    rw [← numbers]
    exact map_congr_left fun f _ => append_inode ..
  · obtain ⟨before, split, unchanged⟩ := tidy.history_last here s.bytes
    have content := tidy.content
    simp only [split, map_append, unchanged, map_cons, map_nil, grown,
      flatMap_append, flatMap_cons, flatMap_nil, append_nil] at content ⊢
    rw [← content, append_assoc]
  · intro n out
    simp [append, tidy.beyond n out]
  · intro path grown found
    obtain ⟨old, was, rfl⟩ := Option.map_eq_some_iff.mp found
    exact (tidy.filled path old was).imp_right append_batches
  · intro _
    exact (show Begun { s with disk := s.disk.append file.inode s.bytes } from ⟨_, now, by simp⟩).seen

theorem seed_stage (s : State) (mtime : Option Int) : (s.openActive.seed mtime).stage = s.stage := by
  have opened : s.openActive.stage = s.stage := by
    unfold openActive
    split <;> rfl
  unfold seed
  split <;> exact opened

theorem Sound.commit (sound : Sound policy s) (mtime : Option Int) (stage : s.stage = .committing) :
    Sound policy (s.advance mtime) := by
  obtain ⟨limits, tidy, stands⟩ := sound
  rw [stage] at stands
  obtain ⟨-, ⟨file, here, filled⟩, empty⟩ := stands
  have shape : s.advance mtime = { s with
      disk := move s.disk .active .staging
      target := ⟨none, s.target.state.reset⟩
      stage := .reopening } := by simp [State.advance, stage, here]
  rw [shape]
  have emptied : move s.disk .active .staging .active = none := move_source
  refine ⟨limits, ?_, emptied, by simp [RotationState.reset]⟩
  refine tidy.moved (by simp) (listing_commit empty) (by simp) fun moved found => ?_
  cases here.symm.trans found
  exact filled

theorem Sound.advance (many : 2 ≤ policy.maxFiles) (sound : Sound policy s) (mtime : Option Int) :
    Sound policy (s.advance mtime) := by
  obtain ⟨limits, tidy, stands⟩ := id sound
  cases stage : s.stage with
  | down | ready => simpa only [State.advance, stage] using sound
  | truncating =>
    rw [stage] at stands
    exact stands.elim
  | promoting pass point =>
    have shape : s.advance mtime = s.promote pass point := by simp [State.advance, stage]
    rw [shape]
    rw [stage] at stands
    cases pass with
    | recover => exact Sound.promote many limits tidy stands.1 .recover (fun _ => stands.2.1) stands.2.2
    | finish => exact Sound.promote many limits tidy stands.1 .finish (fun wrong => by cases wrong) stands.2
  | committing => exact sound.commit mtime stage
  | reopening =>
    rw [stage] at stands
    obtain ⟨gone, fresh⟩ := stands
    obtain ⟨opened, counted, file, here, handle⟩ := tidy.openActive
    have shape : s.advance mtime = { s.openActive with stage := .promoting .finish .enter } := by
      simp [State.advance, stage]
    rw [shape]
    refine ⟨?_, opened, ⟨file, here, handle, fun used => ?_⟩, trivial⟩
    · rw [← limits, State.policy, State.policy, ← counted]
    · exact absurd (show 0 < s.target.state.written ∨ _ by rwa [← counted]) fresh
  | returned outcome =>
    rw [stage] at stands
    simp only [State.advance, stage]
    exact ⟨limits, tidy, stands⟩
  | writing =>
    rw [stage] at stands
    exact .write limits tidy stands mtime stage
  | noting =>
    rw [stage] at stands
    obtain ⟨⟨file, here, handle, -⟩, other, there, filled⟩ := stands
    obtain rfl := Option.some.inj (here.symm.trans there)
    simp only [State.advance, stage]
    exact ⟨limits, tidy, file, here, handle, fun _ => filled⟩

theorem Sound.step (many : 2 ≤ policy.maxFiles) (sound : Sound policy s) {event : Event}
    (taken : step s event = some s') : Sound policy s' := by
  obtain ⟨limits, tidy, stands⟩ := id sound
  cases event with
  | start mtime =>
    obtain ⟨-, ⟨⟩⟩ := Option.ite_none_right_eq_some.mp taken
    obtain ⟨opened, same, holding⟩ := tidy.opened mtime
    exact ⟨same.trans limits, opened, holding⟩
  | send bytes now mtime =>
    obtain ⟨stage, ⟨⟩⟩ := Option.ite_none_right_eq_some.mp taken
    rw [stage] at stands
    have holding : Holding s := stands
    obtain ⟨file, here, handle, counted⟩ := id holding
    simp only [State.send, holding.ensureOpen]
    refine ⟨limits, tidy, ?_⟩
    by_cases rotates : s.target.state.shouldRotate now bytes.length
    · have several : s.maxFiles ≠ 1 := by
        rw [maxFiles_eq limits many]
        omega
      simp only [rotates, if_true, several, if_false]
      exact ⟨holding, ⟨file, here, counted (RotationState.shouldRotate_counted rotates)⟩, trivial⟩
    · simp only [rotates, Bool.false_eq_true, if_false]
      exact holding
  | reopen mtime =>
    obtain ⟨stage, ⟨⟩⟩ := Option.ite_none_right_eq_some.mp taken
    obtain ⟨opened, same, holding⟩ :=
      @Tidy.opened { s with target := { s.target with file := none } } policy.maxFiles tidy mtime
    refine ⟨same.trans limits, opened, ?_⟩
    rw [show (s.reopen mtime).stage = .ready from (seed_stage _ mtime).trans stage]
    exact holding
  | advance mtime =>
    obtain ⟨-, ⟨⟩⟩ := Option.ite_none_left_eq_some.mp taken
    exact sound.advance many mtime
  | crash =>
    cases taken
    exact ⟨limits, tidy, trivial⟩

theorem CalmReach.sound {calm : State → Prop} (many : 2 ≤ policy.maxFiles)
    (reach : CalmReach policy calm s) : Sound policy s := by
  induction reach with
  | start =>
    have nothing : listing (row (policy.maxFiles - 1)) (initial policy).disk = [] := listing_empty fun _ _ => rfl
    refine ⟨rfl, ⟨⟨0, le_refl 0, nothing⟩, rfl, rfl, fun _ _ => rfl, ?_, fun some => absurd rfl some⟩, trivial⟩
    intro path file here
    cases here
  | next event _ taken _ ih => exact ih.step many taken

end

/-- The batches read from `path.n` down to `path.1`, then `path.rotating`, then `path`. -/
def read (n : Nat) (disk : Disk) : List (List UInt8) := (listing (row n) disk).flatMap File.batches

/-- The step that unlinks `path.{max_files-1}`. -/
def Unlinks (s : State) : Event → Prop
  | .advance _ => ∃ pass, s.stage = .promoting pass .remove
  | _ => False

/-- What a step leaves of what could be read: all of it, unless it unlinks `path.{max_files-1}`,
whose batches are the oldest ones. -/
def KeepsRead (n : Nat) (s : State) (event : Event) (s' : State) : Prop :=
  (¬ Unlinks s event → read n s.disk <+: read n s'.disk) ∧
  (Unlinks s event → read n s.disk = (s.disk (.rotated (s.maxFiles - 1))).elim [] File.batches ++ read n s'.disk)

section Keeps

variable {policy : RotatePolicy} {s s' : State} {files : Nat}

theorem read_openActive (s : State) (n : Nat) : read n s.openActive.disk = read n s.disk := by
  unfold openActive
  split
  next => rfl
  next gone => simp [read, listing_create gone]

theorem read_seeded (s : State) (n : Nat) (mtime : Option Int) :
    read n (s.openActive.seed mtime).disk = read n s.disk := by
  unfold seed
  split <;> exact read_openActive s n

theorem Tidy.read_append {disk : Disk} {history : List File} {written : List (List UInt8)} {file : File}
    (tidy : Tidy files disk history written) (here : disk .active = some file) (bytes : List UInt8) :
    read (files - 1) (disk.append file.inode bytes) = read (files - 1) disk ++ [bytes] := by
  obtain ⟨lost, -, kept⟩ := tidy.kept
  obtain ⟨before, split, unchanged⟩ := tidy.history_last here bytes
  have inside : lost ≤ before.length := by
    by_contra past
    rw [listing_active, here, split, drop_eq_nil_of_le (by simp; omega)] at kept
    simp at kept
  rw [split, drop_append_of_le_length inside] at kept
  show (listing _ fun path => (disk path).map (File.append file.inode bytes)).flatMap _ = _
  rw [listing_map, read, kept, map_append, map_drop, unchanged]
  simp [File.append]

theorem read_promote (limit : s.maxFiles = files) (many : 2 ≤ files) (pass : Pass) {point : Point}
    (fits : point.Fits s.disk files) : read (files - 1) s.disk =
      (if point = .remove then (s.disk (.rotated (files - 1))).elim [] File.batches else []) ++
        read (files - 1) (s.promote pass point).disk := by
  cases point with
  | enter =>
    simp only [promote, reduceCtorEq, if_false, nil_append]
    split <;> rfl
  | remove =>
    obtain ⟨n, rfl⟩ : ∃ n, files = n + 2 := ⟨files - 2, by omega⟩
    rw [promote, limit, if_pos rfl]
    have others : listing (row n) (s.disk.remove (n + 1)) = listing (row n) s.disk := by
      refine listing_congr fun path mem => remove_of_ne ?_
      rintro rfl
      have distinct := row_nodup (n + 1)
      rw [row_succ, nodup_cons] at distinct
      exact distinct.1 mem
    show (listing (row (n + 1)) s.disk).flatMap _ = _ ++ (listing (row (n + 1)) (s.disk.remove (n + 1))).flatMap _
    rw [row_succ, listing, listing, filterMap_cons_none remove_same, show filterMap _ _ = _ from others, listing]
    rcases Option.eq_none_or_eq_some (s.disk (.rotated (n + 1))) with gone | ⟨file, here⟩
    · simp [gone]
    · simp [here]
  | shift n =>
    obtain ⟨-, vacant, room⟩ := fits
    cases n with
    | zero => rfl
    | succ n =>
      show _ = (listing _ (s.disk.shift (n + 1))).flatMap _
      rw [listing_shift (by omega) vacant]
      rfl
  | rename =>
    show _ = (listing _ (move s.disk .staging (.rotated 1))).flatMap _
    rw [listing_promote (by omega) fits.2]
    rfl

/-- A step that unlinks nothing keeps all that can be read. -/
theorem Sound.keeps (many : 2 ≤ policy.maxFiles) (sound : Sound policy s) {event : Event}
    (taken : FileOut.step s event = some s') : KeepsRead (policy.maxFiles - 1) s event s' := by
  obtain ⟨limits, tidy, stands⟩ := id sound
  have limit := maxFiles_eq limits many
  have same {after : State} (unlinks : ¬ Unlinks s event)
      (equal : read (policy.maxFiles - 1) after.disk = read (policy.maxFiles - 1) s.disk) :
      KeepsRead (policy.maxFiles - 1) s event after :=
    ⟨fun _ => equal ▸ prefix_refl _, fun does => absurd does unlinks⟩
  cases event with
  | start mtime =>
    obtain ⟨-, ⟨⟩⟩ := Option.ite_none_right_eq_some.mp taken
    exact same id (read_seeded s _ mtime)
  | send bytes now mtime =>
    obtain ⟨stage, ⟨⟩⟩ := Option.ite_none_right_eq_some.mp taken
    rw [stage] at stands
    have holding : Holding s := stands
    refine same id ?_
    simp only [State.send, holding.ensureOpen]
  | reopen mtime =>
    obtain ⟨-, ⟨⟩⟩ := Option.ite_none_right_eq_some.mp taken
    exact same id (read_seeded { s with target := { s.target with file := none } } _ mtime)
  | crash =>
    cases taken
    exact same id rfl
  | advance mtime =>
    obtain ⟨running, ⟨⟩⟩ := Option.ite_none_left_eq_some.mp taken
    cases stage : s.stage with
    | down | ready => simp [stage] at running
    | truncating =>
      rw [stage] at stands
      exact stands.elim
    | promoting pass point =>
      have fits : point.Fits s.disk policy.maxFiles := by
        rw [stage] at stands
        cases pass with
        | recover => exact stands.2.2
        | finish => exact stands.2
      have kept := read_promote limit many pass fits
      have shape : s.advance mtime = s.promote pass point := by simp [State.advance, stage]
      rw [shape]
      by_cases unlinks : point = .remove
      · subst unlinks
        exact ⟨fun other => absurd ⟨pass, stage⟩ other, fun _ => limit.symm ▸ kept⟩
      · rw [if_neg unlinks] at kept
        exact same (by simp [Unlinks, stage, unlinks]) kept.symm
    | committing =>
      rw [stage] at stands
      obtain ⟨-, ⟨file, here, -⟩, empty⟩ := stands
      refine same (by simp [Unlinks, stage]) ?_
      simp only [State.advance, stage, here, Option.isSome_some, if_true]
      rw [read, listing_commit empty, read]
    | reopening =>
      refine same (by simp [Unlinks, stage]) ?_
      simp only [State.advance, stage]
      exact read_openActive s _
    | returned | noting =>
      refine same (by simp [Unlinks, stage]) ?_
      simp only [State.advance, stage]
    | writing =>
      rw [stage] at stands
      have holding : Holding s := stands
      obtain ⟨file, here, handle, -⟩ := id holding
      refine ⟨fun _ => ?_, by simp [Unlinks, stage]⟩
      simp only [State.advance, stage, holding.ensureOpen, handle]
      rw [tidy.read_append here]
      exact prefix_append _ _

end Keeps

/-- At every moment of every run, whatever its crashes, the files read oldest first are the last
batches written, in order and up to the newest, and no file has a number past the limit. Of what can
be read the next step takes nothing away, unless it unlinks `path.{max_files-1}`, whose batches are
the oldest ones. -/
theorem read_suffix_written {policy : RotatePolicy} {s : State} (many : 2 ≤ policy.maxFiles)
    (reach : Reach policy s) {n : Nat} (wide : policy.maxFiles - 1 ≤ n) :
    read n s.disk <:+ s.written ∧ (read n s.disk).getLast? = s.written.getLast? ∧
      (∀ k, policy.maxFiles ≤ k → s.disk (.rotated k) = none) ∧
      ∀ event s', step s event = some s' → KeepsRead n s event s' := by
  have sound := CalmReach.sound many reach
  have tidy := sound.tidy
  obtain ⟨lost, -, kept⟩ := tidy.kept
  have narrow {s : State} (sound : Sound policy s) : read n s.disk = read (policy.maxFiles - 1) s.disk :=
    congrArg _ (listing_beyond wide fun k past => sound.tidy.beyond k (by omega))
  have suffix : read n s.disk <:+ s.written := by
    rw [narrow sound, read, kept, ← tidy.content]
    refine ⟨(s.history.take lost).flatMap File.batches, ?_⟩
    rw [← flatMap_append, take_append_drop]
  refine ⟨suffix, ?_, tidy.beyond, fun event s' taken => ?_⟩
  · obtain ⟨earlier, split⟩ := suffix
    by_cases empty : read n s.disk = []
    · have none : s.written = [] := by
        by_contra some
        obtain ⟨file, member, filled⟩ := tidy.seen some
        rw [narrow sound, read, flatMap_eq_nil_iff] at empty
        exact filled (empty file member)
      rw [empty, none]
    · rw [← split, getLast?_append_of_ne_nil _ empty]
  · rw [KeepsRead, narrow sound, narrow (sound.step many taken)]
    exact sound.keeps many taken

/-- The start of a send of one byte and the next steps of the target. -/
def sending (byte : UInt8) (steps : Nat) : List Event := .send [byte] 0 none :: List.replicate steps (.advance none)

/-- A target of three files of one batch each, killed in its third rotation after `path.1` was
shifted. -/
def killed : State :=
  let events := .start none :: sending 1 2 ++ sending 2 11 ++ sending 3 11 ++ sending 4 6 ++ [.crash]
  (runWhile (fun _ => True) events (initial ⟨some 1, none, 3⟩)).getD (initial ⟨some 1, none, 3⟩)

theorem read_suffix_written_killed : read 2 killed.disk = [[2], [3]] ∧ Reach ⟨some 1, none, 3⟩ killed ∧
      read 2 killed.disk <:+ killed.written ∧
      (read 2 killed.disk).getLast? = killed.written.getLast? ∧
      (∀ k, 3 ≤ k → killed.disk (.rotated k) = none) ∧
      ∀ event s', step killed event = some s' → KeepsRead 2 killed event s' := by
  have reach : Reach ⟨some 1, none, 3⟩ killed := by
    unfold killed
    exact CalmReach.start.ran _
  exact ⟨by decide +kernel, reach, read_suffix_written (by decide) reach (by decide)⟩

end Logit.FileOut
