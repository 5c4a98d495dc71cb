import Logit.Core.Event
import Logit.Core.Text
import Logit.Lib.Escape

namespace Logit.Influx

open ByteCodec Escape
open Decimal (byte isDigit)

/-- The text of a double, and the double a text spells, as the standard library prints and parses. -/
structure FloatText where
  print : F64 → String
  parse : Bytes → Option F64

/-- The latest instant influxd stores, in nanoseconds. -/
def maxTimestampNs : Int64 := Int64.maxValue - 1

def minTimestampNs : Int64 := -maxTimestampNs

/-- The reason a line failed. -/
abbrev Reason := String

/-- One field's value, typed by its wire spelling. -/
inductive FieldValue
  | f64 (v : F64)
  | i64 (v : Int64)
  | u64 (v : UInt64)
  | bool (v : Bool)
  | str (v : String)
deriving DecidableEq

def FieldValue.typeName : FieldValue → String
  | .f64 _ => "float"
  | .i64 _ => "integer"
  | .u64 _ => "unsigned"
  | .bool _ => "boolean"
  | .str _ => "string"

abbrev Tags := List (String × String)

abbrev Fields := List (String × FieldValue)

/-- One parsed point. -/
structure Line where
  measurement : String
  tags : Tags
  fields : Fields
  timestamp : Option Int64
deriving DecidableEq

def backslash : UInt8 := byte '\\'

def comma : UInt8 := byte ','

def space : UInt8 := byte ' '

def equal : UInt8 := byte '='

def quote : UInt8 := byte '"'

def newline : UInt8 := byte '\n'

/-- What the splitter knows in the middle of a line. -/
structure Split where
  quoted : Bool
  fields : Bool
  equals : Nat
  commas : Nat
deriving DecidableEq

namespace Split

def start : Split := ⟨false, false, 0, 0⟩

/-- One byte that is not part of an escape; nothing where it ends the line. -/
def step (s : Split) (b : UInt8) : Option Split :=
  let s := { s with fields := s.fields || b == space }
  if s.fields && !s.quoted && b == equal then some { s with equals := s.equals + 1 }
  else if s.fields && !s.quoted && b == comma then some { s with commas := s.commas + 1 }
  else if s.fields && b == quote && s.commas < s.equals then some { s with quoted := !s.quoted }
  else if b == newline && !s.quoted then none
  else some s

end Split

/-- The line at the front of a body, and what follows its newline. A backslash in the last two bytes of
the body escapes nothing. -/
def lineEnd : Split → Bytes → Bytes × Option Bytes
  | _, [] => ([], none)
  | s, [b] =>
    match s.step b with
    | none => ([], some [])
    | some _ => ([b], none)
  | s, b :: c :: rest =>
    if b = backslash ∧ rest ≠ [] then
      let (line, after) := lineEnd s rest
      (b :: c :: line, after)
    else
      match s.step b with
      | none => ([], some (c :: rest))
      | some s =>
        let (line, after) := lineEnd s (c :: rest)
        (b :: line, after)

/-- The logical lines of a body; the first argument bounds their number. -/
def linesOf : Nat → Bytes → List Bytes
  | 0, _ => []
  | _, [] => []
  | n + 1, body =>
    match lineEnd .start body with
    | (line, none) => [line]
    | (line, some rest) => line :: linesOf n rest

def lines (body : Bytes) : List Bytes := linesOf body.length body

variable (b : UInt8)

def isSkippable : Bool := b == space || b == byte '\t' || b == 0

def skipWs (s : Bytes) : Bytes := s.dropWhile isSkippable

def keyEscapes : Bool := b == comma || b == equal || b == space

def fieldKeyEscapes : Bool := b == comma || b == equal || b == space || b == quote

def endsName : Bool := b == comma || b == space

def endsKey : Bool := b == equal || b == comma || b == space

def unescapeKey (raw : Bytes) (escapes : UInt8 → Bool) (what : String) : Except Reason String :=
  match fromUtf8 (unescape backslash escapes raw) with
  | some text => .ok text
  | none => .error s!"invalid UTF-8 in {what}"

/-- What a backslash escapes in a quoted string. -/
def stringEscapes : Bool := b == backslash || b == quote

/-- A quoted string up to its closing quote, and what follows the quote. -/
def scanString : Bytes → Option (Bytes × Bytes)
  | [] => none
  | [b] => if b = quote then some ([], []) else none
  | b :: c :: rest =>
    if b = backslash ∧ stringEscapes c then (scanString rest).map fun r => (b :: c :: r.1, r.2)
    else if b = quote then some ([], c :: rest)
    else (scanString (c :: rest)).map fun r => (b :: r.1, r.2)

def parseString (s : Bytes) : Except Reason (FieldValue × Bytes) :=
  match scanString s with
  | none => .error "unbalanced quotes"
  | some (raw, rest) =>
    match fromUtf8 (unescape backslash stringEscapes raw) with
    | some text => .ok (.str text, rest)
    | none => .error "invalid UTF-8 in string field value"

def isDigits (b : Bytes) : Bool := b ≠ [] && b.all isDigit

/-- `str::parse` of digits, signed or not, into an `i64`. -/
def parseI64 (text : Bytes) : Option Int64 :=
  let n := Decimal.valueInt text
  if -2 ^ 63 ≤ n ∧ n < 2 ^ 63 then some (Int64.ofInt n) else none

def parseU64 (text : Bytes) : Option UInt64 :=
  let n := Decimal.value text
  if n < 2 ^ 64 then some (UInt64.ofNat n) else none

def skipExponent : Bytes → Except Reason Bytes
  | [] => .ok []
  | b :: rest =>
    if b = byte 'e' ∨ b = byte 'E' then
      let rest := match rest with
        | [] => []
        | sign :: more => if sign = byte '+' ∨ sign = byte '-' then more else sign :: more
      if rest.takeWhile isDigit = [] then .error "invalid float" else .ok (rest.dropWhile isDigit)
    else .ok (b :: rest)

/-- The digits after a point, if one stands here, and what follows them. -/
def fraction : Bytes → Bytes × Bytes
  | [] => ([], [])
  | b :: rest => if b = byte '.' then (rest.takeWhile isDigit, rest.dropWhile isDigit) else ([], b :: rest)

variable (N : FloatText) (tok : Bytes)

def parseFloat : Except Reason FieldValue :=
  let rest := Decimal.unsigned tok
  let whole := rest.takeWhile isDigit
  let (part, rest) := fraction (rest.dropWhile isDigit)
  if whole.length + part.length = 0 then .error "invalid number"
  else do
    let rest ← skipExponent rest
    if rest ≠ [] then .error "invalid number"
    else
      match N.parse tok with
      | some v => if v.isFinite then .ok (.f64 v) else .error "invalid float"
      | none => .error "invalid float"

def asText (b : Bytes) : String := (fromUtf8 b).getD ""

/-- `Ni`, `Nu`, or a bare float. -/
def parseNumber : Except Reason FieldValue :=
  let last := tok.getLast?
  let body := tok.dropLast
  let text := asText body
  if last = some (byte 'i') then
    if !isDigits (Decimal.unsigned body) then .error "invalid number"
    else
      match parseI64 body with
      | some v => .ok (.i64 v)
      | none => .error s!"unable to parse integer {text}: strconv.ParseInt: parsing \"{text}\": value out of range"
  else if last = some (byte 'u') then
    if !isDigits body then .error "invalid number"
    else
      match parseU64 body with
      | some v => .ok (.u64 v)
      | none =>
        .error s!"unable to parse unsigned {text}: strconv.ParseUint: parsing \"{text}\": value out of range"
  else parseFloat N tok

/-- An unquoted field value. The first byte picks the grammar. -/
def parseScalar : Except Reason FieldValue :=
  match tok.head? with
  | none => .error "invalid boolean"
  | some b =>
    if b = byte '-' ∨ b = byte '.' ∨ isDigit b then parseNumber N tok
    else if b = byte 'n' ∨ b = byte 'N' then .error "invalid number"
    else if asText tok ∈ ["t", "T", "true", "True", "TRUE"] then .ok (.bool true)
    else if asText tok ∈ ["f", "F", "false", "False", "FALSE"] then .ok (.bool false)
    else .error "invalid boolean"

def parseTimestamp : Except Reason Int64 :=
  if !isDigits (Decimal.unsigned tok) then .error "bad timestamp"
  else
    let text := asText tok
    match parseI64 tok with
    | some t => .ok t
    | none => .error s!"strconv.ParseInt: parsing \"{text}\": value out of range"

/-- A field's value, and what follows it: nothing, or a comma or a space. -/
def parseValue (s : Bytes) : Except Reason (FieldValue × Bytes) :=
  match s with
  | [] => .error "missing field value"
  | b :: rest =>
    if endsName b then .error "missing field value"
    else if b = quote then do
      let (value, after) ← parseString rest
      match after with
      | [] => .ok (value, [])
      | c :: more => if endsName c then .ok (value, c :: more) else .error "unbalanced quotes"
    else do
      let value ← parseScalar N (s.takeWhile (!endsName ·))
      .ok (value, s.dropWhile (!endsName ·))

/-- Appends a field, or overwrites a repeat of the same type in place. -/
def pushField (measurement : String) : Fields → String → FieldValue → Except Reason Fields
  | [], key, value => .ok [(key, value)]
  | (k, current) :: others, key, value =>
    if k = key then
      let new := value.typeName
      let old := current.typeName
      if old = new then .ok ((k, value) :: others)
      else .error (s!"field type conflict: input field \"{key}\" on measurement \"{measurement}\" " ++
        s!"is type {new}, already exists as type {old}")
    else do
      let others ← pushField measurement others key value
      .ok ((k, current) :: others)

/-- The tags of a line from after a comma on, and what follows them; the first argument bounds the
number of tags. -/
def parseTags : Nat → Bytes → Tags → Except Reason (Tags × Bytes)
  | 0, _, _ => .error "missing tag key"
  | n + 1, s, tags =>
    match s with
    | [] => .error "missing tag key"
    | b :: _ =>
      if endsKey b then .error "missing tag key"
      else
        match scanUntil backslash endsKey comma s with
        | (_, []) => .error "missing tag value"
        | (rawKey, stop :: s) =>
          if stop ≠ equal then .error "missing tag value"
          else
            match s with
            | [] => .error "missing tag value"
            | first :: s =>
              if endsName first then .error "missing tag value"
              else
                match scanUntil backslash endsKey first s with
                | (_, []) => .error "missing fields"
                | (rawValue, stop :: s) =>
                  if stop = equal then .error "invalid tag format"
                  else do
                    let key ← unescapeKey rawKey keyEscapes "tag key"
                    let value ← unescapeKey (first :: rawValue) keyEscapes "tag value"
                    if stop = comma then parseTags n s (tags ++ [(key, value)])
                    else .ok (tags ++ [(key, value)], stop :: s)

def reservedTagKeys : List String := ["_measurement", "_field", "time"]

/-- Whether two neighbours have one key. -/
def repeats : Tags → Bool
  | [] => false
  | [_] => false
  | a :: b :: others => a.1 == b.1 || repeats (b :: others)

/-- Sorts tags into the order of their keys; a repeated or a reserved key is an error. -/
def checkTags (tags : Tags) : Except Reason Tags :=
  match tags.find? fun t => t.1 ∈ reservedTagKeys with
  | some (key, _) => .error s!"cannot use reserved tag key \"{key}\""
  | none =>
    let sorted := tags.insertionSort fun a b => a.1 ≤ b.1
    if repeats sorted then .error "duplicate tags" else .ok sorted

/-- The fields of a line, and what follows them; the first argument bounds the number of fields. -/
def parseFields (N : FloatText) (measurement : String) : Nat → Bytes → Fields → Except Reason (Fields × Bytes)
  | 0, _, _ => .error "invalid field format"
  | n + 1, s, fields =>
    match s with
    | [] => .error "invalid field format"
    | b :: _ =>
      if b = equal then .error "missing field key"
      else if endsName b then .error "invalid field format"
      else
        match scanUntil backslash endsKey comma s with
        | (_, []) => .error "invalid field format"
        | (rawKey, stop :: s) =>
          if stop ≠ equal then .error "invalid field format"
          else do
            let key ← unescapeKey rawKey fieldKeyEscapes "field key"
            if key = "time" then
              .error s!"invalid field name: input field \"time\" on measurement \"{measurement}\" is invalid"
            else do
              let (value, s) ← parseValue N s
              let fields ← pushField measurement fields key value
              match s with
              | [] => .ok (fields, [])
              | b :: more => if b = comma then parseFields N measurement n more fields else .ok (fields, b :: more)

/-- The timestamp ends at a space only, and only spaces may follow it. -/
def parseTime (s : Bytes) : Except Reason (Option Int64) :=
  match skipWs s with
  | [] => .ok none
  | s => do
    let t ← parseTimestamp (s.takeWhile (· != space))
    if (s.dropWhile (· != space)).all (· == space) then .ok (some t) else .error "point is invalid"

/-- The tags after a measurement that ended at this byte, and what follows them. -/
def tagSection (stop : UInt8) (s : Bytes) : Except Reason (Tags × Bytes) :=
  if stop = comma then parseTags s.length s [] else .ok ([], stop :: s)

/-- Parses one logical line; nothing for a blank line or a comment. -/
def parseLine (raw : Bytes) : Except Reason (Option Line) :=
  match skipWs raw with
  | [] => .ok none
  | first :: s =>
    if first = byte '#' then .ok none
    else if first = comma then .error "missing measurement"
    else
      match scanUntil backslash endsName first s with
      | (_, []) => .error "missing fields"
      | (rest, stop :: s) => do
        let measurement ← unescapeKey (first :: rest) keyEscapes "measurement"
        let (tags, s) ← tagSection stop s
        let tags ← checkTags tags
        match skipWs s with
        | [] => .error "missing fields"
        | s => do
          let (fields, s) ← parseFields N measurement s.length s []
          let timestamp ← parseTime s
          .ok (some ⟨measurement, tags, fields, timestamp⟩)

end Logit.Influx
