import Logit.Lib.Decoder
import Logit.Sink.Output

namespace Logit.Datagram

open ByteCodec List
open Sink (Fault)

/-- What the kernel makes of a datagram. -/
inductive Outcome where
  | taken
  | tooLarge
  | failed
deriving DecidableEq

structure Entry where
  bytes : Bytes
  weight : Nat

inductive Framing where
  | packed
  | onePerEntry
deriving DecidableEq

/-- What was sent: the entries, their weight and the datagrams. -/
abbrev Sent := Nat × Nat × Nat

/-- A send in progress: the datagrams that were handed to the kernel, what was sent, and the open one. -/
structure State where
  handed : List (Bytes × Outcome)
  sent : Sent
  packetBuf : Bytes
  openEntries : Nat
  openWeight : Nat

def append (s : State) (e : Entry) : State where
  handed := s.handed
  sent := s.sent
  packetBuf := if s.packetBuf.isEmpty then e.bytes else s.packetBuf ++ 0x0a :: e.bytes
  openEntries := s.openEntries + 1
  openWeight := s.openWeight + e.weight

variable (outcome : Nat → Outcome) (framing : Framing) (cap : Nat)

/-- Sends one datagram and applies its outcome. -/
def sendOne (datagram : Bytes) (entries weight : Nat) (s : State) : State × Option Fault :=
  let o := outcome s.handed.length
  ({ s with
    handed := s.handed ++ [(datagram, o)]
    sent := if o = .taken then s.sent + (entries, weight, 1) else s.sent },
    if o = .failed then some (if 0 < s.sent.2.2 then .ambiguous else .clean) else none)

/-- Sends the open datagram and clears it. -/
def flush (s : State) : State × Option Fault :=
  let (s, fault) := sendOne outcome s.packetBuf s.openEntries s.openWeight s
  ({ s with packetBuf := [], openEntries := 0, openWeight := 0 }, fault)

def sendEntries : List Entry → State → State × Option Fault
  | [], s => if s.packetBuf.isEmpty then (s, none) else flush outcome s
  | e :: rest, s =>
    if cap < e.bytes.length then sendEntries rest s
    else if framing = .onePerEntry then
      match sendOne outcome e.bytes 1 e.weight s with
      | (s, some fault) => (s, some fault)
      | (s, none) => sendEntries rest s
    else if !s.packetBuf.isEmpty ∧ cap < s.packetBuf.length + 1 + e.bytes.length then
      match flush outcome s with
      | (s, some fault) => (s, some fault)
      | (s, none) => sendEntries rest (append s e)
    else sendEntries rest (append s e)

variable (entries : List Entry)

def sendDatagrams : State × Option Fault :=
  sendEntries outcome framing cap entries ⟨[], 0, [], 0, 0⟩

/-- Entries joined by newlines. -/
def join : Bytes := [0x0a].intercalate (entries.map Entry.bytes)

def total : Sent := (entries.length, (entries.map Entry.weight).sum, 1)

variable (pairs : List (List Entry × Outcome))

/-- What the kernel took of datagrams. -/
def took : Sent :=
  ((pairs.filter fun p => p.2 = .taken).map fun p => total p.1).sum

/-- A send, by the entries of its datagrams and of the open one. -/
structure Holds (s : State) (pairs : List (List Entry × Outcome)) (cur : List Entry) : Prop where
  handed : s.handed = pairs.map fun p => (join p.1, p.2)
  small : ∀ p ∈ pairs, p.1 ≠ [] ∧ (join p.1).length ≤ cap
  sent : s.sent = took pairs
  buffer : s.packetBuf = join cur
  fits : (join cur).length ≤ cap
  counts : (s.openEntries, s.openWeight, 1) = total cur
  whole : ∀ e ∈ cur, e.bytes ≠ []

/-- How a send ends: with nothing left, or at the first datagram that failed. -/
def Ends (rest : List Entry) : Option Fault → Prop
  | none => rest = [] ∧ ∀ p ∈ pairs, p.2 ≠ .failed
  | some fault => ∃ before last, pairs = before ++ [(last, .failed)] ∧ (∀ p ∈ before, p.2 ≠ .failed) ∧
      fault = if ∃ p ∈ before, p.2 = .taken then .ambiguous else .clean

variable {cap} {s : State} {pairs : List (List Entry × Outcome)} {cur : List Entry}

theorem join_append (some : cur ≠ []) (e : Entry) : join (cur ++ [e]) = join cur ++ 0x0a :: e.bytes := by
  induction cur with
  | nil => exact absurd rfl some
  | cons first cur ih =>
    cases cur with
    | nil => simp [join]
    | cons second cur =>
      have rest := ih (by simp)
      simp only [join, cons_append, map_cons, intercalate_cons_cons] at rest ⊢
      rw [rest]
      simp

theorem join_eq_nil (whole : ∀ e ∈ cur, e.bytes ≠ []) : join cur = [] ↔ cur = [] := by
  cases cur with
  | nil => simp [join]
  | cons first cur =>
    have some := whole first (by simp)
    cases cur <;> simp [join, some]

theorem took_datagrams : 0 < (took pairs).2.2 ↔ ∃ p ∈ pairs, p.2 = .taken := by
  induction pairs with
  | nil => simp [took]
  | cons p pairs ih =>
    by_cases taken : p.2 = .taken
    · simp [took, taken, total]
    · simpa [took, taken] using ih

theorem Holds.open_ne (holds : Holds cap s pairs cur) (some : s.packetBuf ≠ []) : cur ≠ [] := by
  rwa [holds.buffer, Ne, join_eq_nil holds.whole] at some

theorem Holds.flush (holds : Holds cap s pairs cur) (some : cur ≠ []) :
    Holds cap (flush outcome s).1 (pairs ++ [(cur, outcome pairs.length)]) [] := by
  have length : s.handed.length = pairs.length := by rw [holds.handed, length_map]
  refine ⟨?_, forall_mem_append.mpr ⟨holds.small, by simpa using ⟨some, holds.fits⟩⟩, ?_, rfl,
    by simp [join], rfl, by simp⟩
  · simp [Datagram.flush, sendOne, holds.handed, holds.buffer]
  · rw [Datagram.flush, sendOne, length, holds.counts, holds.sent]
    by_cases taken : outcome pairs.length = .taken <;> simp [took, filter_append, taken]

/-- A datagram that fails ends the send; after any other it goes on. -/
theorem Holds.flush_cases (holds : Holds cap s pairs cur) (going : ∀ p ∈ pairs, p.2 ≠ .failed) :
    ((Datagram.flush outcome s).2 = none ∧ ∀ p ∈ pairs ++ [(cur, outcome pairs.length)], p.2 ≠ .failed) ∨
      ∃ fault, (Datagram.flush outcome s).2 = some fault ∧
        ∀ rest, Ends (pairs ++ [(cur, outcome pairs.length)]) rest (some fault) := by
  have length : s.handed.length = pairs.length := by rw [holds.handed, length_map]
  simp only [Datagram.flush, sendOne, length, holds.sent, took_datagrams]
  by_cases failed : outcome pairs.length = .failed
  · rw [failed]
    exact Or.inr ⟨_, rfl, fun rest => ⟨pairs, cur, rfl, going, rfl⟩⟩
  · rw [if_neg failed]
    exact Or.inl ⟨rfl, forall_mem_append.mpr ⟨going, by simpa using failed⟩⟩

theorem Holds.append (holds : Holds cap s pairs cur) {e : Entry} (some : e.bytes ≠ [])
    (short : e.bytes.length ≤ cap)
    (room : s.packetBuf ≠ [] → s.packetBuf.length + 1 + e.bytes.length ≤ cap) :
    Holds cap (append s e) pairs (cur ++ [e]) := by
  have joined : (Datagram.append s e).packetBuf = join (cur ++ [e]) := by
    have empty := join_eq_nil holds.whole
    by_cases first : cur = []
    · simp [Datagram.append, holds.buffer, first, join]
    · simp [Datagram.append, holds.buffer, empty, first, join_append]
  have counts := holds.counts
  refine ⟨holds.handed, holds.small, holds.sent, joined, ?_, ?_,
    forall_mem_append.mpr ⟨holds.whole, by simpa using some⟩⟩
  · rw [← joined, Datagram.append]
    dsimp only
    split
    · exact short
    · rename_i more
      have limit := room (by simpa using more)
      simp only [length_append, length_cons]
      omega
  · simp_all [Datagram.append, total]

theorem sendEntries_packs {entries : List Entry} (whole : ∀ e ∈ entries, e.bytes ≠ [])
    (holds : Holds cap s pairs cur)
    (going : ∀ p ∈ pairs, p.2 ≠ .failed) :
      ∃ more rest, Holds cap (sendEntries outcome .packed cap entries s).1 (pairs ++ more) [] ∧
      cur ++ entries.filter (fun e => e.bytes.length ≤ cap) = more.flatMap Prod.fst ++ rest ∧
      Ends (pairs ++ more) rest (sendEntries outcome .packed cap entries s).2 := by
  induction entries generalizing s pairs cur with
  | nil =>
    rw [sendEntries]
    split
    · rename_i empty
      rw [List.isEmpty_iff, holds.buffer, join_eq_nil holds.whole] at empty
      subst empty
      exact ⟨[], [], by simpa using holds, rfl, rfl, by simpa using going⟩
    · rename_i some
      have some := holds.open_ne (by simpa using some)
      refine ⟨[(cur, outcome pairs.length)], [], holds.flush outcome some, by simp, ?_⟩
      rcases holds.flush_cases outcome going with ⟨done, going⟩ | ⟨fault, done, ends⟩
      · rw [done]
        exact ⟨rfl, going⟩
      · rw [done]
        exact ends []
  | cons e entries ih =>
    obtain ⟨some, whole⟩ := forall_mem_cons.mp whole
    rw [sendEntries]
    split
    · rename_i large
      rw [filter_cons_of_neg (by simpa using large)]
      exact ih whole holds going
    · rename_i small
      rw [filter_cons_of_pos (by simpa using small)]
      rw [if_neg (by decide)]
      split
      · rename_i full
        have held := holds.flush outcome (holds.open_ne (by simpa using full.1))
        have result := holds.flush_cases outcome going
        generalize flush outcome s = flushed at held result ⊢
        obtain ⟨s, fault⟩ := flushed
        rcases result with ⟨rfl, going⟩ | ⟨fault, rfl, ends⟩
        · have next := held.append some (by omega) (fun some => absurd held.buffer some)
          obtain ⟨more, rest, held, all, ends⟩ := ih whole next going
          rw [append_assoc] at held ends
          exact ⟨(cur, outcome pairs.length) :: more, rest, held, by simpa using all, ends⟩
        · exact ⟨[(cur, outcome pairs.length)], _, held, by rw [flatMap_singleton], ends _⟩
      · rename_i room
        obtain ⟨more, rest, held, all, ends⟩ := ih whole (holds.append some (by omega) (by simpa using room)) going
        exact ⟨more, rest, held, by simpa using all, ends⟩

end Logit.Datagram
