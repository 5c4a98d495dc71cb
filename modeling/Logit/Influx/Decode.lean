import Logit.Influx.Line

namespace Logit.Influx

open ByteCodec List Int64

/-- The unit of a write's timestamps. -/
inductive Precision
  | ns
  | us
  | ms
  | s
deriving DecidableEq

namespace Precision

def factor : Precision → Int
  | .ns => 1
  | .us => 1000
  | .ms => 1000000
  | .s => 1000000000

/-- A wire timestamp in nanoseconds, unless it overflows. -/
def scaleToNs (precision : Precision) (t : Int64) : Option Int64 :=
  let scaled := t.toInt * precision.factor
  if -2 ^ 63 ≤ scaled ∧ scaled < 2 ^ 63 then some (Int64.ofInt scaled) else none

/-- An instant cut to the unit. -/
def truncate (precision : Precision) (ns : Int64) : Int64 := Int64.ofInt (ns.toInt - ns.toInt % precision.factor)

theorem scaleToNs_ns (t : Int64) : scaleToNs .ns t = some t := by
  have low := le_toInt t
  have high := toInt_lt t
  simp only [scaleToNs, factor, Int.mul_one]
  rw [if_pos ⟨low, high⟩, ofInt_toInt]

end Precision

structure LineError where
  line : Nat
  text : Bytes
  reason : Reason
deriving DecidableEq

/-- The line's text without what may stand before it; a line of nothing else is kept whole. -/
def shown (raw : Bytes) : Bytes :=
  match skipWs raw with
  | [] => raw
  | s => s

/-- The point of one line and its instant; nothing for a blank line or a comment. -/
def parsePoint (N : FloatText) (precision : Precision) (defaultTimestamp : Int64) (raw : Bytes) :
    Except Reason (Option (Line × Int64)) :=
  match parseLine N raw with
  | .error reason => .error reason
  | .ok none => .ok none
  | .ok (some line) =>
    match line.timestamp with
    | none => .ok (some (line, defaultTimestamp))
    | some t =>
      match precision.scaleToNs t with
      | some ns =>
        if minTimestampNs ≤ ns ∧ ns ≤ maxTimestampNs then .ok (some (line, ns))
        else .error "time outside range -9223372036854775806 - 9223372036854775806"
      | none => .error "time outside range -9223372036854775806 - 9223372036854775806"

/-- The points of a body's lines, which are numbered from one on; the first bad line fails them all. -/
def parsePoints (N : FloatText) (precision : Precision) (defaultTimestamp : Int64) :
    Nat → List Bytes → Except LineError (List (Line × Int64))
  | _, [] => .ok []
  | number, raw :: others =>
    match parsePoint N precision defaultTimestamp raw with
    | .error reason => .error ⟨number, shown raw, reason⟩
    | .ok none => parsePoints N precision defaultTimestamp (number + 1) others
    | .ok (some point) => (parsePoints N precision defaultTimestamp (number + 1) others).map (point :: ·)

/-- Decodes a whole write body to its points, which are `stats.points` many. -/
def decodeBody (N : FloatText) (body : Bytes) (precision : Precision) (receivedAt : Int64) :
    Except LineError (List (Line × Int64)) :=
  parsePoints N precision (precision.truncate receivedAt) 1 (lines body)

variable {N : FloatText} {precision : Precision} {defaultTimestamp : Int64}

theorem parsePoints_isOk (number : Nat) (raws : List Bytes) :
    (∃ points, parsePoints N precision defaultTimestamp number raws = .ok points) ↔
      ∀ raw ∈ raws, ∃ point, parsePoint N precision defaultTimestamp raw = .ok point := by
  induction raws generalizing number with
  | nil => exact ⟨fun _ => by simp, fun _ => ⟨[], rfl⟩⟩
  | cons raw raws ih =>
    rw [parsePoints, forall_mem_cons]
    cases parsed : parsePoint N precision defaultTimestamp raw with
    | error reason => exact ⟨fun ⟨_, taken⟩ => (nomatch taken), fun ⟨⟨_, taken⟩, _⟩ => (nomatch taken)⟩
    | ok result =>
      have rest := ih (number + 1)
      cases result with
      | none => exact rest.trans ⟨fun all => ⟨⟨none, rfl⟩, all⟩, fun all => all.2⟩
      | some point =>
        refine ⟨fun ⟨points, taken⟩ => ⟨⟨some point, rfl⟩, rest.mp ?_⟩, fun all => ?_⟩
        · cases others : parsePoints N precision defaultTimestamp (number + 1) raws with
          | error reason =>
            rw [others] at taken
            cases taken
          | ok points' => exact ⟨points', rfl⟩
        · obtain ⟨points, others⟩ := rest.mpr all.2
          refine ⟨point :: points, ?_⟩
          rw [others]
          rfl

theorem parsePoints_each {α : Type*} {text : α → Bytes} {P : α → Line × Int64 → Prop} {elements : List α}
    (each : ∀ a ∈ elements, ∃ point, parsePoint N precision defaultTimestamp (text a) = .ok (some point) ∧
      P a point)
    (number : Nat) :
    ∃ points, parsePoints N precision defaultTimestamp number (elements.map text) = .ok points ∧
      List.Forall₂ P elements points := by
  induction elements generalizing number with
  | nil => exact ⟨[], rfl, .nil⟩
  | cons a elements ih =>
    obtain ⟨⟨point, parsed, own⟩, others⟩ := forall_mem_cons.mp each
    obtain ⟨points, rest, all⟩ := ih others (number + 1)
    refine ⟨point :: points, ?_, .cons own all⟩
    rw [map_cons, parsePoints, parsed]
    rw [rest]
    rfl

end Logit.Influx
