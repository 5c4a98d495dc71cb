import Logit.FileOut.Order

namespace Logit.FileOut

open Logit.Shelf Option Nat Disk List Bool

/-- No `path.{n + 1}` lies above a vacant `path.n`, except the last one while a file is staged: of the
shifts of a promotion at most the first was made. -/
def Unbroken (files : Nat) (disk : Disk) : Prop :=
  ∀ n < files, 1 ≤ n → n + 1 < files → (disk (.rotated (n + 1))).isSome →
    (disk (.rotated n)).isSome ∨ (disk .staging).isSome ∧ n + 2 = files

instance (files : Nat) (disk : Disk) : Decidable (Unbroken files disk) :=
  inferInstanceAs (Decidable (∀ n < files, _))

/-- The numbered files are `path.1` to `path.count`. -/
def Packed (disk : Disk) (count : Nat) : Prop := ∀ m, 1 ≤ m → ((disk (.rotated m)).isSome ↔ m ≤ count)

/-- The files `path.1` to `path.count`, those above `n` shifted by one. -/
def Shifted (disk : Disk) (count n : Nat) : Prop :=
  ∀ m, 1 ≤ m → ((disk (.rotated m)).isSome ↔ m ≤ count ∧ m ≤ n ∨ n + 2 ≤ m ∧ m ≤ count + 1)

/-- Every number but the last but one. -/
def Holed (disk : Disk) (files : Nat) : Prop :=
  ∀ m, 1 ≤ m → ((disk (.rotated m)).isSome ↔ m + 3 ≤ files ∨ m + 1 = files)

section

variable (files : Nat) (disk : Disk) (history : List File)

def Complete : Prop := listing (row (files - 1)) disk = history

/-- As many numbered files as created, or all but `short` of the retained ones. -/
def Between (short : Nat) : Prop :=
  ∃ count, count + 1 ≤ files ∧ Packed disk count ∧ (Complete files disk history ∨ files ≤ count + short)

/-- What is kept while no rotation is under way. -/
def Outside : Prop := disk .staging = none ∧ Between files disk history 2 ∨
    (disk .staging).isSome ∧ (Between files disk history 3 ∨ Holed disk files)

/-- How many of the retained files a promotion may find missing. -/
def Pass.short : Pass → Nat
  | .recover => 3
  | .finish => 2

def Point.Keeps (pass : Pass) : Point → Prop
  | .enter =>
    match pass with
    | .recover => Outside files disk history
    | .finish => (disk .staging).isSome ∧ Between files disk history 2
  | .remove =>
    match pass with
    | .recover => Between files disk history 3 ∨ Holed disk files
    | .finish => Between files disk history 2
  | .shift n =>
    ∃ count, count + 2 ≤ files ∧ Shifted disk count n ∧ (Complete files disk history ∨ files ≤ count + pass.short)
  | .rename =>
    ∃ count, count + 2 ≤ files ∧ Shifted disk count 0 ∧ (Complete files disk history ∨ files ≤ count + pass.short)

def Stage.Keeps : Stage → Prop
  | .promoting pass point => point.Keeps files disk history pass
  | .committing => Between files disk history 2
  | .reopening => (disk .staging).isSome ∧ Between files disk history 2
  | .returned .rotated => disk .staging = none ∧ Between files disk history 1
  | .returned .notRotated => False
  | _ => Outside files disk history

end

section

variable {policy : RotatePolicy} {s s' : State} {files short : Nat} {disk disk' : Disk}
  {history history' : List File}

theorem Between.mono {more : Nat} (between : Between files disk history short) (le : short ≤ more) :
    Between files disk history more := by
  obtain ⟨count, bound, packed, kept⟩ := between
  exact ⟨count, bound, packed, kept.imp_right fun enough => by omega⟩

theorem Between.of_same (between : Between files disk history short)
    (numbers : ∀ m, (disk' (.rotated m)).isSome = (disk (.rotated m)).isSome)
    (complete : Complete files disk history → Complete files disk' history') :
    Between files disk' history' short := by
  obtain ⟨count, bound, packed, kept⟩ := between
  refine ⟨count, bound, fun m low => ?_, kept.imp_left complete⟩
  rw [numbers m]
  exact packed m low

theorem Outside.of_same (outside : Outside files disk history)
    (numbers : ∀ m, (disk' (.rotated m)).isSome = (disk (.rotated m)).isSome)
    (staging : (disk' .staging).isSome = (disk .staging).isSome)
    (complete : Complete files disk history → Complete files disk' history') : Outside files disk' history' := by
  rcases outside with ⟨empty, between⟩ | ⟨staged, between | holed⟩
  · refine .inl ⟨?_, between.of_same numbers complete⟩
    rw [empty] at staging
    exact not_isSome_iff_eq_none.mp (by simp [staging])
  · exact .inr ⟨staging.trans staged, .inl (between.of_same numbers complete)⟩
  · refine .inr ⟨staging.trans staged, .inr fun m low => ?_⟩
    rw [numbers m]
    exact holed m low

theorem Between.outside (between : Between files disk history short) (few : short ≤ 2) :
    Outside files disk history := by
  rcases eq_none_or_eq_some (disk .staging) with empty | ⟨file, staged⟩
  · exact .inl ⟨empty, between.mono few⟩
  · exact .inr ⟨by simp [staged], .inl (between.mono (by omega))⟩

theorem openActive_frame (files : Nat) (s : State) :
    (∀ path, path ≠ .active → s.openActive.disk path = s.disk path) ∧
      (Complete files s.disk s.history → Complete files s.openActive.disk s.openActive.history) := by
  rcases eq_none_or_eq_some (s.disk .active) with gone | ⟨file, here⟩
  · simp only [State.openActive, gone]
    refine ⟨fun path other => Function.update_of_ne other .., fun complete => ?_⟩
    rw [Complete, listing_create gone, show listing _ s.disk = s.history from complete]
  · simp only [State.openActive, here]
    exact ⟨fun _ _ => trivial, id⟩

/-- An open, whatever it seeds, keeps what is kept between rotations. -/
theorem Outside.opened (outside : Outside files s.disk s.history) (mtime : Option Int) :
    Outside files (s.openActive.seed mtime).disk (s.openActive.seed mtime).history := by
  obtain ⟨others, complete⟩ := openActive_frame files s
  have opened : Outside files s.openActive.disk s.openActive.history := by
    refine outside.of_same (fun m => ?_) ?_ complete
    · rw [others _ (by simp)]
    · rw [others _ (by simp)]
  unfold State.seed
  split <;> exact opened

theorem isSome_remove {n m : Nat} : (disk.remove n (.rotated m)).isSome ↔ m ≠ n ∧ (disk (.rotated m)).isSome := by
  by_cases last : m = n
  · simp [last]
  · rw [remove_of_ne (by simpa using last)]
    simp [last]

theorem Packed.remove {files count : Nat} (packed : Packed disk count) (bound : count + 1 ≤ files)
    (many : 2 ≤ files) : Packed (disk.remove (files - 1)) (min count (files - 2)) := by
  intro m low
  rw [isSome_remove, packed m low]
  omega

theorem Holed.remove {files : Nat} (holed : Holed disk files) : Packed (disk.remove (files - 1)) (files - 3) := by
  intro m low
  rw [isSome_remove, holed m low]
  omega

theorem Packed.shifted {count n : Nat} (packed : Packed disk count) (above : count ≤ n) : Shifted disk count n := by
  intro m low
  rw [packed m low]
  omega

theorem Shifted.shift {count n : Nat} (shifted : Shifted disk count (n + 1)) :
    Shifted (disk.shift (n + 1)) count n := by
  have vacant : disk (.rotated (n + 2)) = none := by
    have free := shifted (n + 2) (by omega)
    exact not_isSome_iff_eq_none.mp fun there => by have := free.mp there; omega
  intro m low
  by_cases source : m = n + 1
  · rw [source, shift_source]
    simp only [isSome_none, false_eq_true, false_iff]
    omega
  · by_cases target : m = n + 2
    · rw [target, shift_target vacant, shifted (n + 1) (by omega)]
      omega
    · rw [shift_of_ne (by simpa using source) (by simpa using target), shifted m low]
      omega

theorem Shifted.promote {count : Nat} (shifted : Shifted disk count 0) (staged : (disk .staging).isSome) :
    Packed (move disk .staging (.rotated 1)) (count + 1) := by
  intro m low
  by_cases first : m = 1
  · rw [first, move_target (by simp)]
    simp only [staged, true_iff]
    omega
  · rw [move_of_ne (by simp) (by simpa using first), shifted m low]
    omega

/-- A crash in the middle of the shifts that leaves no break leaves the files packed, or with a hole
under the last one. -/
theorem Shifted.outside {count n : Nat} (shifted : Shifted disk count n) (bound : count + 2 ≤ files)
    (staged : (disk .staging).isSome) (kept : Complete files disk history ∨ files ≤ count + short) (few : short ≤ 3)
    (unbroken : Unbroken files disk) : Outside files disk history := by
  refine .inr ⟨staged, ?_⟩
  by_cases moved : count ≤ n
  · refine .inl ⟨count, by omega, fun m low => ?_, kept.imp_right fun enough => by omega⟩
    rw [shifted m low]
    omega
  · have above := (shifted (n + 2) (by omega)).mpr (by omega)
    rcases unbroken (n + 1) (by omega) (by omega) (by omega) above with below | ⟨-, last⟩
    · have := (shifted (n + 1) (by omega)).mp below
      omega
    · refine .inr fun m low => ?_
      rw [shifted m low]
      omega

/-- The removal: a file goes only if all the others that the pass counts on are there. -/
theorem Between.remove (between : Between files disk history short) (many : 2 ≤ files) (enough : 2 ≤ short) :
    ∃ count, count + 2 ≤ files ∧ Shifted (disk.remove (files - 1)) count (files - 2) ∧
      (Complete files (disk.remove (files - 1)) history ∨ files ≤ count + short) := by
  obtain ⟨count, bound, packed, kept⟩ := between
  refine ⟨min count (files - 2), by omega, (packed.remove bound many).shifted (min_le_right ..), ?_⟩
  by_cases full : count + 1 = files
  · exact .inr (by omega)
  · have vacant : ¬(disk (.rotated (files - 1))).isSome := fun there => by
      have := (packed _ (by omega)).mp there
      omega
    rw [Disk.remove, if_neg vacant]
    exact kept.imp_right fun enough => by omega

theorem Point.Keeps.promote (many : 2 ≤ files) (limit : s.maxFiles = files) {pass : Pass} {point : Point}
    (fits : point.Fits s.disk files) (keeps : point.Keeps files s.disk s.history pass) :
    (s.promote pass point).stage.Keeps files (s.promote pass point).disk (s.promote pass point).history := by
  cases point with
  | enter =>
    by_cases staged : (s.disk .staging).isSome
    · simp only [State.promote, staged]
      cases pass with
      | recover =>
        rcases keeps with ⟨empty, -⟩ | ⟨-, kept⟩
        · simp [empty] at staged
        · exact kept
      | finish => exact keeps.2
    · simp only [State.promote, staged]
      cases pass with
      | recover =>
        rcases keeps with ⟨-, between⟩ | ⟨there, -⟩
        · exact between
        · exact absurd there staged
      | finish => exact absurd keeps.1 staged
  | remove =>
    rw [State.promote, limit]
    cases pass with
    | recover =>
      rcases keeps with between | holed
      · exact between.remove many (by omega)
      · exact ⟨files - 3, by omega, holed.remove.shifted (by omega), .inr (by simp only [Pass.short]; omega)⟩
    | finish => exact Between.remove keeps many (le_refl 2)
  | shift n =>
    obtain ⟨count, bound, shifted, kept⟩ := keeps
    cases n with
    | zero => exact ⟨count, bound, shifted, kept⟩
    | succ n =>
      obtain ⟨-, vacant, room⟩ := fits
      exact ⟨count, bound, shifted.shift, kept.imp_left (listing_shift (by omega) vacant).trans⟩
  | rename =>
    obtain ⟨count, bound, shifted, kept⟩ := keeps
    have packed := shifted.promote fits.1
    have whole := kept.imp_left (@listing_promote s.disk (files - 1) (by omega) fits.2).trans
    cases pass with
    | recover =>
      exact ⟨count + 1, by omega, packed, whole.imp_right fun enough => by simp only [Pass.short] at enough; omega⟩
    | finish =>
      have emptied : move s.disk .staging (.rotated 1) .staging = none := move_source
      exact ⟨emptied, count + 1, by omega, packed, whole.imp_right fun enough => by
        simp only [Pass.short] at enough; omega⟩

theorem Stage.Keeps.advance (many : 2 ≤ policy.maxFiles) (sound : Sound policy s)
    (keeps : s.stage.Keeps policy.maxFiles s.disk s.history) (mtime : Option Int) :
    (s.advance mtime).stage.Keeps policy.maxFiles (s.advance mtime).disk (s.advance mtime).history := by
  obtain ⟨limits, -, stands⟩ := sound
  cases stage : s.stage with
  | down | ready => simpa only [State.advance, stage] using keeps
  | truncating =>
    rw [stage] at stands
    exact stands.elim
  | promoting pass point =>
    simp only [State.advance, stage]
    rw [stage] at keeps stands
    refine Point.Keeps.promote many (maxFiles_eq limits many) ?_ keeps
    cases pass with
    | recover => exact stands.2.2
    | finish => exact stands.2
  | committing =>
    rw [stage] at keeps stands
    obtain ⟨-, ⟨file, here, -⟩, empty⟩ := stands
    simp only [State.advance, stage, here, isSome_some, if_true]
    refine ⟨?_, Between.of_same keeps (fun m => ?_) fun complete => (listing_commit empty).trans complete⟩
    · simp [move_target (show Path.staging ≠ .active by simp), here]
    · simp [move_of_ne (show Path.rotated m ≠ .active by simp) (show Path.rotated m ≠ .staging by simp)]
  | reopening =>
    rw [stage] at keeps
    obtain ⟨staged, between⟩ := keeps
    obtain ⟨others, complete⟩ := openActive_frame policy.maxFiles s
    simp only [State.advance, stage]
    refine ⟨?_, between.of_same (fun m => ?_) complete⟩
    · simp [others .staging (by simp), staged]
    · simp [others (.rotated m) (by simp)]
  | returned outcome =>
    rw [stage] at keeps
    simp only [State.advance, stage]
    cases outcome with
    | rotated => exact .inl ⟨keeps.1, keeps.2.mono (by omega)⟩
    | notRotated => exact keeps.elim
  | writing =>
    rw [stage] at keeps stands
    have holding := stands
    obtain ⟨file, -, handle, -⟩ := id holding
    simp only [State.advance, stage, holding.ensureOpen, handle]
    refine Outside.of_same keeps (fun m => ?_) ?_ fun complete => ?_
    · simp [append]
    · simp [append]
    · show listing _ (fun path => (s.disk path).map (File.append file.inode s.bytes)) = _
      rw [listing_map, show listing _ s.disk = s.history from complete]
  | noting =>
    rw [stage] at keeps
    simp only [State.advance, stage]
    exact keeps

theorem Stage.Keeps.outside (stands : s.stage.Fits s files) (keeps : s.stage.Keeps files s.disk s.history)
    (unbroken : Unbroken files s.disk) : Outside files s.disk s.history := by
  cases stage : s.stage with
  | down | ready | truncating | writing | noting => rwa [stage] at keeps
  | promoting pass point =>
    rw [stage] at keeps stands
    have fits : point.Fits s.disk files := by
      cases pass with
      | recover => exact stands.2.2
      | finish => exact stands.2
    have few : pass.short ≤ 3 := by cases pass <;> simp [Pass.short]
    cases point with
    | enter =>
      cases pass with
      | recover => exact keeps
      | finish => exact keeps.2.outside (le_refl 2)
    | remove =>
      cases pass with
      | recover => exact .inr ⟨fits, keeps⟩
      | finish => exact Between.outside keeps (le_refl 2)
    | shift n | rename =>
      obtain ⟨count, bound, shifted, kept⟩ := keeps
      exact shifted.outside bound fits.1 kept few unbroken
  | committing =>
    rw [stage] at keeps
    exact Between.outside keeps (le_refl 2)
  | reopening =>
    rw [stage] at keeps
    exact keeps.2.outside (le_refl 2)
  | returned outcome =>
    rw [stage] at keeps
    cases outcome with
    | rotated => exact keeps.2.outside (by omega)
    | notRotated => exact keeps.elim

theorem Stage.Keeps.step (many : 2 ≤ policy.maxFiles) (sound : Sound policy s)
    (keeps : s.stage.Keeps policy.maxFiles s.disk s.history) {event : Event} (taken : step s event = some s')
    (calm : event = .crash → Unbroken policy.maxFiles s.disk) :
    s'.stage.Keeps policy.maxFiles s'.disk s'.history := by
  cases event with
  | start mtime =>
    obtain ⟨stage, ⟨⟩⟩ := ite_none_right_eq_some.mp taken
    rw [stage] at keeps
    exact Outside.opened keeps mtime
  | send bytes now mtime =>
    obtain ⟨stage, ⟨⟩⟩ := ite_none_right_eq_some.mp taken
    obtain ⟨limits, -, stands⟩ := sound
    rw [stage] at keeps stands
    have holding : Holding s := stands
    have several : s.maxFiles ≠ 1 := by
      rw [maxFiles_eq limits many]
      omega
    simp only [State.send, holding.ensureOpen, several, if_false]
    by_cases rotates : s.target.state.shouldRotate now bytes.length
    · simp only [rotates, if_true]
      exact keeps
    · simp only [rotates]
      exact keeps
  | reopen mtime =>
    obtain ⟨stage, ⟨⟩⟩ := ite_none_right_eq_some.mp taken
    rw [stage] at keeps
    rw [show (s.reopen mtime).stage = .ready from (seed_stage _ mtime).trans stage]
    exact @Outside.opened { s with target := { s.target with file := none } } _ keeps mtime
  | advance mtime =>
    obtain ⟨-, ⟨⟩⟩ := ite_none_left_eq_some.mp taken
    exact keeps.advance many sound mtime
  | crash =>
    cases taken
    exact Stage.Keeps.outside (s := s) sound.stands keeps (calm rfl)

/-- A crash leaves the numbered files unbroken. -/
def Calm (s : State) : Prop := Unbroken s.maxFiles s.disk

instance : DecidablePred Calm := fun s => inferInstanceAs (Decidable (Unbroken s.maxFiles s.disk))

theorem CalmReach.keeps (many : 2 ≤ policy.maxFiles) (reach : CalmReach policy Calm s) :
    s.stage.Keeps policy.maxFiles s.disk s.history := by
  induction reach with
  | start =>
    refine .inl ⟨rfl, 0, by omega, fun m low => ?_, .inl (listing_empty fun _ _ => rfl)⟩
    simp only [initial, isSome_none, false_eq_true, false_iff]
    omega
  | next event before taken calm ih =>
    have sound := before.sound many
    refine ih.step many sound taken fun crash => ?_
    rw [← maxFiles_eq sound.limits many]
    exact calm crash

/-- With every number taken, and nothing staged, the listing is as long as the limit. -/
theorem Packed.length_listing (packed : Packed s.disk (policy.maxFiles - 1)) (many : 2 ≤ policy.maxFiles)
    (empty : s.disk .staging = none) {file : File} (here : s.disk .active = some file) :
    (listing (row (policy.maxFiles - 1)) s.disk).length = policy.maxFiles := by
  have names : (numbered (policy.maxFiles - 1)).length = policy.maxFiles - 1 := by
    have all : ∀ n, (numbered n).length = n := fun n => by
      induction n with
      | zero => rfl
      | succ n ih => rw [numbered, length_cons, ih]
    exact all _
  have full : (listing (numbered (policy.maxFiles - 1)) s.disk).length = policy.maxFiles - 1 := by
    refine (Shelf.length_listing fun path mem => ?_).trans names
    obtain ⟨k, low, high, rfl⟩ := mem_numbered.mp mem
    exact (packed k low).mpr high
  have rest : listing [.staging, .active] s.disk = [file] := by simp [listing, empty, here]
  rw [row, listing_append, length_append, rest, length_singleton]
  omega

end

/-- The newest files ever created at the path, as many as the limit keeps, are all on disk. -/
def Retained (policy : RotatePolicy) (s : State) : Prop :=
  ∀ g, s.history.length - min policy.maxFiles s.history.length ≤ g → g < s.history.length →
    ∃ path, s.disk path = s.history[g]?

/-- In every run whose crashes all leave the numbered files unbroken, a rotation that returned has kept
every file that the limit covers. -/
theorem rotated_retained {policy : RotatePolicy} {s : State} (many : 2 ≤ policy.maxFiles)
    (reach : CalmReach policy Calm s) (returned : s.stage = .returned .rotated) : Retained policy s := by
  have sound := reach.sound many
  have keeps := reach.keeps many
  have stands := sound.stands
  rw [returned] at keeps stands
  obtain ⟨empty, count, bound, packed, kept⟩ := keeps
  obtain ⟨file, here, -⟩ := stands
  obtain ⟨lost, within, listed⟩ := sound.tidy.kept
  -- what is listed starts no later than the oldest file that the limit covers
  have early : lost ≤ s.history.length - min policy.maxFiles s.history.length := by
    have lengths := congrArg length listed
    rw [length_drop] at lengths
    rcases kept with complete | enough
    · rw [show listing _ s.disk = s.history from complete] at lengths
      omega
    · obtain rfl : count = policy.maxFiles - 1 := by omega
      rw [packed.length_listing many empty here] at lengths
      omega
  intro g newest started
  have member : s.history[g] ∈ listing (row (policy.maxFiles - 1)) s.disk := by
    rw [listed]
    exact mem_drop_iff_getElem.mpr ⟨g - lost, by omega, by congr 1; omega⟩
  obtain ⟨path, -, found⟩ := mem_filterMap.mp member
  exact ⟨path, by rw [found, getElem?_eq_getElem started]⟩

/-- A target of four files whose fourth rotation dies after some steps; the restarted one writes a
batch and rotates. -/
def restarted (steps : Nat) : List Event :=
  .start none :: sending 1 2 ++ sending 2 12 ++ sending 3 12 ++ sending 4 12 ++ sending 5 steps ++
    [.crash, .start none] ++ sending 6 2 ++ sending 7 14

/-- The fourth rotation dies after the first of its two shifts. -/
def spared : State := (runWhile Calm (restarted 6) (initial ⟨some 1, none, 4⟩)).getD (initial ⟨some 1, none, 4⟩)

theorem rotated_retained_spared : spared.history.length = 6 ∧ spared.stage = .returned .rotated ∧
      CalmReach ⟨some 1, none, 4⟩ Calm spared ∧ Retained ⟨some 1, none, 4⟩ spared := by
  have reach : CalmReach ⟨some 1, none, 4⟩ Calm spared := CalmReach.start.ran _
  have returned : spared.stage = .returned .rotated := by decide +kernel
  exact ⟨by decide +kernel, returned, reach, rotated_retained (by decide) reach returned⟩

/-- The fourth rotation dies after both shifts. -/
def broken : State :=
  (runWhile (fun _ => True) (restarted 7) (initial ⟨some 1, none, 4⟩)).getD (initial ⟨some 1, none, 4⟩)

/-- A crash between the shifts and the promotion of the staged file costs the third file, which the
limit of four covers. -/
theorem broken_not_retained : Reach ⟨some 1, none, 4⟩ broken ∧ broken.stage = .returned .rotated ∧
      ¬Retained ⟨some 1, none, 4⟩ broken := by
  have reach : Reach ⟨some 1, none, 4⟩ broken := by exact CalmReach.start.ran _
  refine ⟨reach, by decide +kernel, fun retained => ?_⟩
  obtain ⟨path, found⟩ := retained 2 (by decide +kernel) (by decide +kernel)
  have inode : (broken.disk path).map File.inode = some 2 := by
    rw [found]
    decide +kernel
  rcases path with _ | _ | n
  · revert inode
    decide +kernel
  · revert inode
    decide +kernel
  · by_cases large : 4 ≤ n
    · rw [(CalmReach.sound (by decide) reach).tidy.beyond n large] at inode
      cases inode
    · obtain rfl | rfl | rfl | rfl : n = 0 ∨ n = 1 ∨ n = 2 ∨ n = 3 := by omega
      all_goals
        revert inode
        decide +kernel

end Logit.FileOut
