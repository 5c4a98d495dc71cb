import Logit.Lib.Shelf

namespace Logit.FileOut

open Option

/-- The UTC calendar boundary that a target rotates on. -/
inductive RotateInterval
  | hourly
  | daily

def RotateInterval.periodSeconds : RotateInterval → Int
  | .hourly => 3600
  | .daily => 86400

structure RotatePolicy where
  maxBytes : Option Nat
  interval : Option RotateInterval
  /-- The files kept, the active one included. -/
  maxFiles : Nat

/-- Rotation bookkeeping for the active file, with no handle or path. -/
structure RotationState where
  written : Nat
  period : Option Int
  policy : RotatePolicy

namespace RotationState

def new (written : Nat) (policy : RotatePolicy) : RotationState := ⟨written, none, policy⟩

variable (s : RotationState)

def reset : RotationState := { s with written := 0, period := none }

def periodFor (nowUnix : Int) : Int :=
  match s.policy.interval with
  | some interval => nowUnix / interval.periodSeconds
  | none => 0

def seedPeriod (mtimeUnix : Int) : RotationState :=
  if s.policy.interval.isSome ∧ 0 < s.written then { s with period := some (s.periodFor mtimeUnix) }
  else s

def shouldRotate (nowUnix : Int) (incoming : Nat) : Bool := (match s.period with
    | some period => s.periodFor nowUnix != period
    | none => false) ||
  match s.policy.maxBytes with
  | some maxBytes => decide (0 < s.written ∧ maxBytes < s.written + incoming)
  | none => false

def noteWritten (nowUnix : Int) (len : Nat) : RotationState :=
  let period := if s.policy.interval.isSome ∧ s.period.isNone then some (s.periodFor nowUnix) else s.period
  { s with period := period, written := s.written + len }

theorem shouldRotate_counted {s : RotationState} {nowUnix : Int} {incoming : Nat}
    (rotates : s.shouldRotate nowUnix incoming = true) : 0 < s.written ∨ s.period.isSome := by
  rcases eq_none_or_eq_some s.period with fresh | ⟨period, known⟩
  · left
    rcases eq_none_or_eq_some s.policy.maxBytes with free | ⟨maxBytes, bounded⟩
    · simp [shouldRotate, fresh, free] at rotates
    · simp only [shouldRotate, fresh, bounded, Bool.false_or, decide_eq_true_eq] at rotates
      exact rotates.1
  · exact .inr (by simp [known])

end RotationState

/-- A file: its number among the files created at the path, and the batches appended to it. -/
structure File where
  inode : Nat
  batches : List (List UInt8)

def File.len (file : File) : Nat := (file.batches.map List.length).sum

/-- The file after a write through a handle on the file of a given number. -/
def File.append (inode : Nat) (bytes : List UInt8) (file : File) : File :=
  if file.inode = inode then { file with batches := file.batches ++ [bytes] } else file

/-- The names that a target uses: `path`, `path.rotating` and `path.N`. -/
inductive Path
  | active
  | staging
  | rotated (n : Nat)
deriving DecidableEq

abbrev Disk := Path → Option File

namespace Disk

/-- A write through a handle reaches the file it was opened on, whatever its name is by now. -/
def append (disk : Disk) (inode : Nat) (bytes : List UInt8) : Disk :=
  fun path => (disk path).map (File.append inode bytes)

def setLen (disk : Disk) (path : Path) : Disk :=
  Function.update disk path ((disk path).map fun file => { file with batches := [] })

def remove (disk : Disk) (n : Nat) : Disk :=
  if (disk (.rotated n)).isSome then Shelf.clear disk (.rotated n) else disk

/-- Renames `path.n` to the next number if it is there. -/
def shift (disk : Disk) (n : Nat) : Disk :=
  if (disk (.rotated n)).isSome then Shelf.move disk (.rotated n) (.rotated (n + 1)) else disk

variable {disk : Disk} {n : Nat} {path : Path}

@[simp] theorem remove_same : disk.remove n (.rotated n) = none := by
  unfold remove
  split
  · exact Shelf.clear_same
  · exact not_isSome_iff_eq_none.mp (by assumption)

theorem remove_of_ne (different : path ≠ .rotated n) : disk.remove n path = disk path := by
  unfold remove
  split
  · exact Shelf.clear_of_ne different
  · rfl

@[simp] theorem shift_source : disk.shift n (.rotated n) = none := by
  unfold shift
  split
  · exact Shelf.move_source
  · exact not_isSome_iff_eq_none.mp (by assumption)

theorem shift_target (vacant : disk (.rotated (n + 1)) = none) :
    disk.shift n (.rotated (n + 1)) = disk (.rotated n) := by
  by_cases here : (disk (.rotated n)).isSome
  · rw [shift, if_pos here]
    exact Shelf.move_target (by simp)
  · rw [shift, if_neg here, vacant, not_isSome_iff_eq_none.mp here]

theorem shift_of_ne (notSource : path ≠ .rotated n) (notTarget : path ≠ .rotated (n + 1)) :
    disk.shift n path = disk path := by
  unfold shift
  split
  · exact Shelf.move_of_ne notSource notTarget
  · rfl

end Disk

/-- The state of a file opened for append, from its length and modification time. -/
def seededState (file : File) (mtime : Option Int) (policy : RotatePolicy) : RotationState :=
  let state := RotationState.new file.len policy
  match mtime with
  | some mtimeUnix => state.seedPeriod mtimeUnix
  | none => state

structure FileTarget where
  /-- The file that the open handle refers to. -/
  file : Option Nat
  state : RotationState

inductive RotateOutcome
  | rotated
  | notRotated
deriving DecidableEq

/-- The two calls of `promote_staged` in a rotation: for the orphan of an earlier run, and for the
file just staged. -/
inductive Pass
  | recover
  | finish
deriving DecidableEq

/-- The filesystem steps of `promote_staged`. -/
inductive Point
  | enter
  | remove
  | shift (n : Nat)
  | rename
deriving DecidableEq

/-- Where the process stands: down after a crash, between two sends, or before a filesystem step of
the send under way. -/
inductive Stage
  | down
  | ready
  | truncating
  | promoting (pass : Pass) (point : Point)
  | committing
  | reopening
  | returned (outcome : RotateOutcome)
  | writing
  | noting
deriving DecidableEq

def Pass.next : Pass → Stage
  | .recover => .committing
  | .finish => .returned .rotated

structure State where
  disk : Disk
  target : FileTarget
  stage : Stage
  /-- The bytes and the clock reading of the send under way. -/
  bytes : List UInt8
  now : Int
  /-- Every file ever created at the path, with the batches appended to it. -/
  history : List File
  /-- Every batch written, in order. -/
  written : List (List UInt8)

namespace State

variable (s : State)

def policy : RotatePolicy := s.target.state.policy

def maxFiles : Nat := max s.policy.maxFiles 1

/-- `open_active` without truncation: creates the file unless it is there, and opens it. -/
def openActive : State :=
  match s.disk .active with
  | some file => { s with target := { s.target with file := some file.inode } }
  | none =>
    let file : File := ⟨s.history.length, []⟩
    { s with
      disk := Function.update s.disk .active (some file)
      target := { s.target with file := some file.inode }
      history := s.history ++ [file] }

variable (mtime : Option Int)

/-- Takes the rotation state from the file at the path. -/
def seed : State :=
  match s.disk .active with
  | some file => { s with target := { s.target with state := seededState file mtime s.policy } }
  | none => s

/-- `FileTarget::open`, on a path whose process is down. -/
def opened : State := { s.openActive.seed mtime with stage := .ready }

def ensureOpen : State :=
  match s.target.file with
  | some _ => s
  | none => s.openActive.seed mtime

/-- `FileTarget::reopen`: drops the handle and opens the path again. -/
def reopen : State := { s with target := { s.target with file := none } }.ensureOpen mtime

/-- The start of a send, to its decision whether to rotate. -/
def send (bytes : List UInt8) (now : Int) (mtime : Option Int) : State :=
  let s := s.ensureOpen mtime
  let stage :=
    if s.target.state.shouldRotate now bytes.length then
      if s.maxFiles = 1 then .truncating else .promoting .recover .enter
    else .writing
  { s with bytes := bytes, now := now, stage := stage }

/-- The process dies; the disk stays as it is. -/
def crash : State := { s with target := ⟨none, .new 0 s.policy⟩, stage := .down }

/-- One filesystem step of `promote_staged`: the shifts run from the oldest retained file down. -/
def promote (pass : Pass) : Point → State
  | .enter =>
    if (s.disk .staging).isSome then { s with stage := .promoting pass .remove }
    else { s with stage := pass.next }
  | .remove =>
    { s with
      disk := s.disk.remove (s.maxFiles - 1)
      stage := .promoting pass (.shift (s.maxFiles - 2)) }
  | .shift 0 => { s with stage := .promoting pass .rename }
  | .shift (n + 1) => { s with disk := s.disk.shift (n + 1), stage := .promoting pass (.shift n) }
  | .rename => { s with disk := Shelf.move s.disk .staging (.rotated 1), stage := pass.next }

/-- The next filesystem step of the send under way. -/
def advance : State :=
  match s.stage with
  | .down => s
  | .ready => s
  | .truncating =>
    let opened := s.openActive
    { opened with
      disk := opened.disk.setLen .active
      target := { opened.target with state := opened.target.state.reset }
      stage := .returned .rotated }
  | .promoting pass point => s.promote pass point
  | .committing =>
    if (s.disk .active).isSome then
      { s with
        disk := Shelf.move s.disk .active .staging
        target := ⟨none, s.target.state.reset⟩
        stage := .reopening }
    else { s with stage := .returned .notRotated }
  | .reopening => { s.openActive with stage := .promoting .finish .enter }
  | .returned _ => { s with stage := .writing }
  | .writing =>
    let s := s.ensureOpen mtime
    match s.target.file with
    | some inode =>
      { s with
        disk := s.disk.append inode s.bytes
        stage := .noting
        history := s.history.map (File.append inode s.bytes)
        written := s.written ++ [s.bytes] }
    | none => s
  | .noting =>
    { s with
      target := { s.target with state := s.target.state.noteWritten s.now s.bytes.length }
      stage := .ready }

end State

/-- What can happen next: the process is started, sends a batch, reopens its path, makes the next
step of the send under way, or is killed. -/
inductive Event
  | start (mtime : Option Int)
  | send (bytes : List UInt8) (now : Int) (mtime : Option Int)
  | reopen (mtime : Option Int)
  | advance (mtime : Option Int)
  | crash

def step (s : State) : Event → Option State
  | .start mtime => if s.stage = .down then some (s.opened mtime) else none
  | .send bytes now mtime => if s.stage = .ready then some (s.send bytes now mtime) else none
  | .reopen mtime => if s.stage = .ready then some (s.reopen mtime) else none
  | .advance mtime => if s.stage = .down ∨ s.stage = .ready then none else some (s.advance mtime)
  | .crash => some s.crash

/-- A path with no files, before the first start. -/
def initial (policy : RotatePolicy) : State := ⟨fun _ => none, ⟨none, .new 0 policy⟩, .down, [], 0, [], []⟩

/-- The states of the runs whose crashes all find a state that is `calm`. -/
inductive CalmReach (policy : RotatePolicy) (calm : State → Prop) : State → Prop
  | start : CalmReach policy calm (initial policy)
  | next {s s' : State} (event : Event) : CalmReach policy calm s → step s event = some s' →
      (event = .crash → calm s) → CalmReach policy calm s'

/-- Follows a list of events, as long as each can happen and each crash finds a calm state. -/
def runWhile (calm : State → Prop) [DecidablePred calm] : List Event → State → Option State
  | [], s => some s
  | .crash :: events, s => if calm s then runWhile calm events s.crash else none
  | event :: events, s => (step s event).bind (runWhile calm events)

theorem CalmReach.runWhile {policy : RotatePolicy} {calm : State → Prop} [DecidablePred calm]
    {events : List Event} {s s' : State} (reach : CalmReach policy calm s)
    (ran : runWhile calm events s = some s') : CalmReach policy calm s' := by
  induction events generalizing s with
  | nil =>
    cases ran
    exact reach
  | cons event events ih =>
    cases event with
    | crash =>
      obtain ⟨steady, rest⟩ := ite_none_right_eq_some.mp ran
      exact ih (.next .crash reach rfl fun _ => steady) rest
    | start | send | reopen | advance =>
      obtain ⟨next, taken, rest⟩ := bind_eq_some_iff.mp ran
      exact ih (.next _ reach taken (by simp)) rest

theorem CalmReach.ran {policy : RotatePolicy} {calm : State → Prop} [DecidablePred calm] {s : State}
    (reach : CalmReach policy calm s) (events : List Event) :
    CalmReach policy calm ((FileOut.runWhile calm events s).getD s) := by
  rcases eq_none_or_eq_some (FileOut.runWhile calm events s) with stuck | ⟨s', ran⟩
  · rw [stuck]
    exact reach
  · rw [ran]
    exact reach.runWhile ran

def Reach (policy : RotatePolicy) : State → Prop := CalmReach policy fun _ => True

end Logit.FileOut
