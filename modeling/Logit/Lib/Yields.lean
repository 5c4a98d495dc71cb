import Logit.Lib.Meter

namespace ByteCodec.Decoder

open List Nat

variable {ε α β : Type} {cap : Nat}

/-- Whatever a reader returns when it is started with less than `cap` is good, and was paid for. -/
def Yields (cap : Nat) (read : Decoder ε α) (good : α → Prop) (cost : α → Nat) : Prop :=
  ∀ bytes left a rest left', left < cap → read.run bytes left = .ok (a, rest, left') → good a ∧
    left' + cost a ≤ left

theorem yields_pure {a : α} {good : α → Prop} {cost : α → Nat} (holds : good a) (free : cost a = 0) :
    Yields cap (pure a : Decoder ε α) good cost := by
  intro bytes left b rest left' _ run
  cases run
  exact ⟨holds, by omega⟩

theorem yields_fail (e : ε) (good : α → Prop) (cost : α → Nat) : Yields cap (fail e) good cost := by
  intro bytes left b rest left' _ run
  cases run

theorem Frugal.yields {read : Decoder ε α} [frugal : Frugal read] :
    Yields cap read (fun _ => True) (fun _ => 0) := by
  intro bytes left a rest left' _ run
  exact ⟨trivial, le_of_eq (frugal.keeps _ _ _ _ _ run)⟩

theorem Accounted.yields {T : Tariff ε} {credit : Option Nat} {read : Decoder ε α}
    (accounted : Accounted T credit read) : Yields cap read (fun _ => True) (fun _ => 0) := by
  intro bytes left a rest left' _ run
  have spends := (accounted.settles bytes left).spends (outcome_of_ok run)
  exact ⟨trivial, le.intro (by rwa [add_comm] at spends)⟩

namespace Yields

variable {read : Decoder ε α} {good : α → Prop} {cost : α → Nat}

variable {next : α → Decoder ε β} {good' : β → Prop} {cost' : β → Nat}

theorem bind (first : Yields cap read good cost)
    (second : ∀ a, good a → Yields cap (next a) good' fun b => cost' b - cost a) :
    Yields cap (read >>= next) good' cost' := by
  intro bytes left b rest left' room run
  obtain ⟨a, middle, left₁, runFirst, runSecond⟩ := bind_eq_ok.mp run
  obtain ⟨holds, paid⟩ := first _ _ _ _ _ room runFirst
  obtain ⟨holds', paid'⟩ := second a holds _ _ _ _ _ (by omega) runSecond
  simp only at paid'
  exact ⟨holds', by omega⟩

/-- A reader that spends nothing, and what follows it. -/
theorem after {first : Decoder ε α} [Frugal first] (second : ∀ a, Yields cap (next a) good' cost') :
    Yields cap (first >>= next) good' cost' :=
  Frugal.yields.bind fun a _ => second a

theorem mono {good' : α → Prop} {cost' : α → Nat} (inner : Yields cap read good cost)
    (better : ∀ a, good a → good' a) (cheaper : ∀ a, good a → cost' a ≤ cost a) :
    Yields cap read good' cost' := by
  intro bytes left a rest left' room run
  obtain ⟨holds, paid⟩ := inner _ _ _ _ _ room run
  have less := cheaper a holds
  exact ⟨better a holds, by omega⟩

/-- What costs, then readers that spend nothing. -/
theorem head (first : Yields cap read good cost)
    (rest : ∀ a, Yields cap (next a) (fun b => cost' b = cost a) (fun _ => 0)) :
    Yields cap (read >>= next) (fun _ => True) cost' :=
  first.bind fun a _ => (rest a).mono (fun _ _ => trivial) fun _ same =>
    le_of_eq (Nat.sub_eq_zero_of_le (le_of_eq same))

theorem map {f : α → β} (inner : Yields cap read good cost) (better : ∀ a, good a → good' (f a))
    (cheaper : ∀ a, good a → cost' (f a) ≤ cost a) : Yields cap (f <$> read) good' cost' :=
  inner.bind fun a holds => yields_pure (better a holds) (Nat.sub_eq_zero_of_le (cheaper a holds))

theorem ite {condition : Prop} [Decidable condition] {yes no : Decoder ε α}
    (first : Yields cap yes good cost) (second : Yields cap no good cost) :
    Yields cap (if condition then yes else no) good cost := by
  split
  · exact first
  · exact second

variable (inner : Yields cap read good cost)
include inner

theorem within (slice : Bytes) :
    Yields cap (Decoder.within slice read) (fun out => good out.1) (fun out => cost out.1) := by
  intro bytes left out rest left' room run
  rcases run_cases read slice left with ⟨e, failed⟩ | ⟨a, unread, left₁, done⟩
  · simp only [Decoder.within, failed] at run
    cases run
  · rw [within_of_ok done] at run
    cases run
    exact inner _ _ _ _ _ room done

theorem onSlice (slice : Bytes) : Yields cap (Decoder.onSlice slice read) good cost :=
  (inner.within slice).bind fun _ holds => yields_pure holds (Nat.sub_self _)

theorem inside (slice : Bytes) (trailing : Nat → ε) : Yields cap (Decoder.inside slice trailing read) good cost :=
  (inner.within slice).bind fun _ holds =>
    after fun _ => yields_pure holds (Nat.sub_self _)

theorem times (count : Nat) : Yields cap (Decoder.times read count)
      (fun items => items.length = count ∧ ∀ a ∈ items, good a) (fun items => (items.map cost).sum) := by
  induction count with
  | zero => exact yields_pure ⟨rfl, by simp⟩ rfl
  | succ count ih =>
    refine inner.bind fun a holds => ih.bind fun others mem => yields_pure ?_ ?_
    · refine ⟨by rw [length_cons, mem.1], ?_⟩
      intro b inside
      rcases mem_cons.mp inside with rfl | later
      · exact holds
      · exact mem.2 b later
    · rw [map_cons, sum_cons]
      omega

end Yields

end ByteCodec.Decoder
