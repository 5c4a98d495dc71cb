import Logit.Lib.Decoder

namespace Logit.Kafka.Text

open ByteCodec List

def backslash : UInt8 := 0x5c

def lineFeed : UInt8 := 0x0a

def letterN : UInt8 := 0x6e

def escapeByte (b : UInt8) : Bytes :=
  if b = backslash then [backslash, backslash] else if b = lineFeed then [backslash, letterN] else [b]

def escapeLineInto (out body : Bytes) : Bytes := out ++ body.flatMap escapeByte

/-- One line's body. A backslash before any other byte, or at the end, stays as it is. -/
def unescapeLine : Bytes → Bytes
  | [] => []
  | [b] => [b]
  | b :: next :: line =>
    if b ≠ backslash then b :: unescapeLine (next :: line)
    else if next = backslash then backslash :: unescapeLine line
    else if next = letterN then lineFeed :: unescapeLine line
    else backslash :: next :: unescapeLine line

def unescapeLines (value : Bytes) : List Bytes := (value.splitOn lineFeed).map unescapeLine

theorem lineFeed_notMem_escapeByte (b : UInt8) : lineFeed ∉ escapeByte b := by
  rw [escapeByte]
  split
  · decide
  · split
    · decide
    · rename_i other
      rw [mem_singleton]
      exact Ne.symm other

theorem unescapeLine_cons {b : UInt8} (plain : b ≠ backslash) (line : Bytes) :
    unescapeLine (b :: line) = b :: unescapeLine line := by
  cases line with
  | nil => rfl
  | cons next line => rw [unescapeLine, if_pos plain]

theorem unescapeLine_escape (b : UInt8) (line : Bytes) :
    unescapeLine (escapeByte b ++ line) = b :: unescapeLine line := by
  rw [escapeByte]
  split
  · rename_i same
    rw [same]
    rfl
  · rename_i plain
    split
    · rename_i same
      rw [same]
      rfl
    · exact unescapeLine_cons plain line

theorem unescapeLine_escapeLineInto (body : Bytes) : unescapeLine (escapeLineInto [] body) = body := by
  rw [escapeLineInto, nil_append]
  induction body with
  | nil => rfl
  | cons b body ih => rw [flatMap_cons, unescapeLine_escape, ih]

theorem length_unescapeLine (line : Bytes) : (unescapeLine line).length ≤ line.length := by
  fun_induction unescapeLine line with
  | case1 | case2 b => exact le_refl _
  | _ => simp only [length_cons] at *; omega

/-- Bodies written as escaped lines are read back, each from a line of its own. -/
theorem lines_roundTrip (bodies : List Bytes) (some : bodies ≠ []) :
    unescapeLines ([lineFeed].intercalate (bodies.map (escapeLineInto []))) = bodies ∧
    (∀ body ∈ bodies, lineFeed ∉ escapeLineInto [] body) ∧
    ∀ line, (unescapeLine line).length ≤ line.length := by
  have unbroken (body : Bytes) : lineFeed ∉ escapeLineInto [] body := by
    simp [escapeLineInto, lineFeed_notMem_escapeByte]
  refine ⟨?_, fun body _ => unbroken body, length_unescapeLine⟩
  rw [unescapeLines, splitOn_intercalate]
  · rw [map_map]
    exact map_id'' unescapeLine_escapeLineInto bodies
  · intro line member
    obtain ⟨body, _, rfl⟩ := mem_map.mp member
    exact unbroken body
  · simpa using some

theorem lines_roundTrip_two : unescapeLines ([lineFeed].intercalate
    ([[backslash, letterN], [lineFeed, 0xff]].map (escapeLineInto []))) =
      [[backslash, letterN], [lineFeed, 0xff]] :=
  (lines_roundTrip [[backslash, letterN], [lineFeed, 0xff]] (by decide)).1

end Logit.Kafka.Text
