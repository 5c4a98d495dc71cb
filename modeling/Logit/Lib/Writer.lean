import Logit.Lib.Decoder

namespace ByteCodec

open List Decoder

variable {S ε α β γ : Type}

/-- The position of an entry in a table of first uses, and the table with it added. -/
def firstUse [DecidableEq S] (table : List S) (entry : S) : Nat × List S :=
  if entry ∈ table then (table.idxOf entry, table) else (table.length, table ++ [entry])

/-- Whatever the table grows into later, the entry stays at the position it was given. -/
theorem firstUse_getElem? [DecidableEq S] {table final : List S} {entry : S}
    (grown : (firstUse table entry).2 <+: final) : final[(firstUse table entry).1]? = some entry := by
  obtain ⟨later, rfl⟩ := grown
  by_cases known : entry ∈ table
  · have bound := idxOf_lt_length_of_mem known
    simp only [firstUse, if_pos known]
    rw [getElem?_append_left bound, getElem?_eq_getElem bound, getElem_idxOf]
  · simp [firstUse, known]

theorem firstUse_nodup [DecidableEq S] {table : List S} {entry : S} (distinct : table.Nodup) :
    (firstUse table entry).2.Nodup := by
  unfold firstUse
  split
  · exact distinct
  · rename_i fresh
    rw [nodup_append]
    refine ⟨distinct, by simp, ?_⟩
    rintro a mem b single rfl
    exact fresh (by simpa using (mem_singleton.mp single) ▸ mem)

/-- A writer produces bytes that may refer to a table by position. It may add to the table, and
never takes anything out of it. -/
structure Writer (S : Type) where
  run : List S → Bytes × List S
  grows : ∀ table, table <+: (run table).2

namespace Writer

def bytes (b : Bytes) : Writer S where
  run table := (b, table)
  grows table := List.prefix_refl table

def empty : Writer S := bytes []

def append (first second : Writer S) : Writer S where
  run table :=
    let (a, table₁) := first.run table
    let (b, table₂) := second.run table₁
    (a ++ b, table₂)
  grows table := (first.grows table).trans (second.grows _)

instance : Append (Writer S) := ⟨append⟩

/-- Writes a reference to a table entry. -/
def entry [DecidableEq S] (symbol : S) (reference : Nat → Bytes) : Writer S where
  run table :=
    let (position, table') := firstUse table symbol
    (reference position, table')
  grows table := by
    simp only [firstUse]
    split
    · exact List.prefix_refl table
    · exact List.prefix_append table [symbol]

/-- Writes a part into a buffer of its own first, and then its length in front of it. -/
def sized (header : Nat → Bytes) (part : Writer S) : Writer S where
  run table :=
    let (payload, table') := part.run table
    (header payload.length ++ payload, table')
  grows := part.grows

def when (condition : Bool) (part : Writer S) : Writer S := if condition then part else empty

def option (value : Option α) (part : α → Writer S) : Writer S :=
  match value with
  | some a => part a
  | none => empty

def each (part : α → Writer S) : List α → Writer S
  | [] => empty
  | a :: others => part a ++ each part others

@[simp] theorem run_bytes (b : Bytes) (table : List S) : (bytes b).run table = (b, table) := rfl

@[simp] theorem run_empty (table : List S) : (empty : Writer S).run table = ([], table) := rfl

@[simp] theorem run_append (first second : Writer S) (table : List S) : (first ++ second).run table =
      ((first.run table).1 ++ (second.run (first.run table).2).1, (second.run (first.run table).2).2) := rfl

@[simp] theorem run_entry [DecidableEq S] (symbol : S) (reference : Nat → Bytes) (table : List S) :
    (entry symbol reference).run table = (reference (firstUse table symbol).1, (firstUse table symbol).2) := rfl

@[simp] theorem run_sized (header : Nat → Bytes) (part : Writer S) (table : List S) :
    (sized header part).run table =
      (header (part.run table).1.length ++ (part.run table).1, (part.run table).2) := rfl

theorem each_cons (part : α → Writer S) (a : α) (others : List α) :
    each part (a :: others) = part a ++ each part others := rfl

theorem each_map (part : β → Writer S) (f : α → β) (items : List α) :
    each part (items.map f) = each (fun a => part (f a)) items := by
  induction items with
  | nil => rfl
  | cons a others ih => rw [map_cons, each_cons, ih, each_cons]

theorem bytes_append (a b : Bytes) : (bytes (a ++ b) : Writer S) = bytes a ++ bytes b := rfl

theorem bytes_flatMap (part : α → Bytes) (items : List α) :
    (bytes (items.flatMap part) : Writer S) = each (fun a => bytes (part a)) items := by
  induction items with
  | nil => rfl
  | cons a others ih => rw [flatMap_cons, bytes_append, ih, each_cons]

/-- Parts of at least `least` bytes each make up at least that many times `least` bytes. -/
theorem length_each {part : α → Writer S} {least : Nat} {items : List α}
    (wide : ∀ a ∈ items, ∀ table, least ≤ ((part a).run table).1.length) (table : List S) :
    items.length * least ≤ ((each part items).run table).1.length := by
  induction items generalizing table with
  | nil => simp
  | cons a others ih =>
    have here := wide a (by simp) table
    have there := ih (fun b mem => wide b (by simp [mem])) ((part a).run table).2
    rw [each_cons, run_append, length_append, length_cons, Nat.succ_mul]
    omega

/-- What a writer adds to its table is drawn from another one, and a table without repeats stays
so. -/
class Draws (source : List S) (w : Writer S) : Prop where
  drawn : ∀ table, ∀ s ∈ (w.run table).2, s ∈ table ∨ s ∈ source
  distinct : ∀ table, table.Nodup → (w.run table).2.Nodup

namespace Draws

variable {source : List S}

instance bytes (b : Bytes) : Draws source (Writer.bytes b) := ⟨fun _ _ mem => .inl mem, fun _ nodup => nodup⟩

instance empty : Draws source (Writer.empty : Writer S) := bytes []

instance append {first second : Writer S} [one : Draws source first] [two : Draws source second] :
    Draws source (first ++ second) := by
  refine ⟨fun table s mem => ?_, fun table nodup => two.distinct _ (one.distinct table nodup)⟩
  rcases two.drawn _ s mem with old | new
  · exact one.drawn table s old
  · exact .inr new

theorem entry [DecidableEq S] {symbol : S} (known : symbol ∈ source) (reference : Nat → Bytes) :
    Draws source (Writer.entry symbol reference) := by
  refine ⟨fun table s mem => ?_, fun table nodup => firstUse_nodup nodup⟩
  simp only [run_entry, firstUse] at mem
  split at mem
  · exact .inl mem
  · rcases mem_append.mp mem with old | new
    · exact .inl old
    · exact .inr (mem_singleton.mp new ▸ known)

instance sized {part : Writer S} [inner : Draws source part] (header : Nat → Bytes) :
    Draws source (Writer.sized header part) :=
  ⟨inner.drawn, inner.distinct⟩

instance when {part : Writer S} [inner : Draws source part] (condition : Bool) :
    Draws source (Writer.when condition part) := by
  cases condition with
  | false => exact empty
  | true => exact inner

theorem option {value : Option α} {part : α → Writer S}
    (inner : ∀ a, value = some a → Draws source (part a)) : Draws source (Writer.option value part) := by
  cases value with
  | none => exact empty
  | some a => exact inner a rfl

instance always {value : Option α} {part : α → Writer S} [inner : ∀ a, Draws source (part a)] :
    Draws source (Writer.option value part) :=
  option fun a _ => inner a

theorem each {part : α → Writer S} {items : List α} (one : ∀ a ∈ items, Draws source (part a)) :
    Draws source (Writer.each part items) := by
  induction items with
  | nil => exact empty
  | cons a others ih => exact @append _ _ _ _ (one a (by simp)) (ih fun b mem => one b (by simp [mem]))

end Draws

end Writer

/-- Bounds on what a reader can be handed: a part's length in bytes, the table's length, and the
counter it spends from. -/
structure Limits where
  length : Nat
  table : Nat
  budget : Nat

variable {lim : Limits}

/-- What `w` writes is read back by `read` as `a`, at a cost, whatever table its own table grows
into and whatever bytes follow. -/
def Reads (lim : Limits) (w : Writer S) (read : List S → Decoder ε α) (a : α) (cost : Nat) : Prop :=
  ∀ before table, (w.run before).2 <+: table → table.length ≤ lim.table →
    (w.run before).1.length < lim.length → ∀ rest left, cost ≤ left → left ≤ lim.budget →
      (read table).run ((w.run before).1 ++ rest) left = .ok (a, rest, left - cost)

/-- As `Reads`, for a reader that is handed what `w` wrote and nothing after it. -/
def ReadsWhole (lim : Limits) (w : Writer S) (read : List S → Decoder ε α) (a : α) (cost : Nat) : Prop :=
  ∀ before table, (w.run before).2 <+: table → table.length ≤ lim.table →
    (w.run before).1.length < lim.length → ∀ left, cost ≤ left → left ≤ lim.budget →
      (read table).run (w.run before).1 left = .ok (a, [], left - cost)

/-- As `Reads`, for a reader that takes all that `w` wrote as one slice. -/
def ReadsSlice (lim : Limits) (w : Writer S) (read : List S → Bytes → Decoder ε α) (a : α)
    (cost : Nat) : Prop :=
  ∀ before table, (w.run before).2 <+: table → table.length ≤ lim.table →
    (w.run before).1.length < lim.length → ∀ rest left, cost ≤ left → left ≤ lim.budget →
      (read table (w.run before).1).run rest left = .ok (a, rest, left - cost)

namespace Reads

variable {read : List S → Decoder ε α} {a : α} {c : Nat} {w : Writer S}

theorem bytes {b : Bytes} (accepted : ∀ table rest left, (read table).run (b ++ rest) left = .ok (a, rest, left)) :
    Reads lim (Writer.bytes b) read a 0 := by
  intro before table _ _ _ rest left _ _
  exact accepted table rest left

theorem empty : Reads lim (Writer.empty : Writer S) (fun _ => (pure a : Decoder ε α)) a 0 := bytes fun _ _ _ => rfl

theorem bind {w v : Writer S} {next : α → List S → Decoder ε β} {b : β} {c d : Nat}
    (first : Reads lim w read a c) (second : Reads lim v (next a) b d) :
    Reads lim (w ++ v) (fun table => read table >>= fun a => next a table) b (c + d) := by
  intro before table sub bounded short rest left enough funded
  simp only [Writer.run_append] at sub short ⊢
  rw [length_append] at short
  have grown := (v.grows (w.run before).2).trans sub
  rw [append_assoc, bind_of_ok (first before table grown bounded (by omega) _ left (by omega) funded),
    second _ table sub bounded (by omega) rest _ (by omega) (by omega), Nat.sub_sub]

/-- Bytes that cost nothing, and what follows them. -/
theorem andThen {b : Bytes} {v : Writer S} {next : α → List S → Decoder ε β} {out : β}
    (accepted : ∀ table rest left, (read table).run (b ++ rest) left = .ok (a, rest, left))
    (second : Reads lim v (next a) out c) :
    Reads lim (Writer.bytes b ++ v) (fun table => read table >>= fun a => next a table) out c := by
  have first : Reads lim (Writer.bytes b) read a 0 := bytes accepted
  have both := first.bind second
  rwa [Nat.zero_add] at both

theorem map (inner : Reads lim w read a c) (f : α → β) :
    Reads lim w (fun table => read table >>= fun a => pure (f a)) (f a) c := by
  intro before table sub bounded short rest left enough funded
  exact bind_of_ok (inner before table sub bounded short rest left enough funded) _

theorem entry [DecidableEq S] {symbol : S} {reference : Nat → Bytes} {read : List S → Decoder ε S}
    (accepted : ∀ (table : List S) (position : Nat), table[position]? = some symbol →
      table.length ≤ lim.table → ∀ rest left,
        (read table).run (reference position ++ rest) left = .ok (symbol, rest, left)) :
    Reads lim (Writer.entry symbol reference) read symbol 0 := by
  intro before table sub bounded _ rest left _ _
  exact accepted table _ (firstUse_getElem? sub) bounded rest left

theorem sized {header : Nat → Bytes} {readLength : Decoder ε Nat} {short : Nat → Nat → ε}
    {read : List S → Bytes → Decoder ε α} (lengthRead : ∀ len, len < lim.length → ∀ rest left,
      readLength.run (header len ++ rest) left = .ok (len, rest, left)) (inner : ReadsSlice lim w read a c) :
    Reads lim (Writer.sized header w)
      (fun table => readLength >>= fun len =>
        carve len (short len) >>= fun slice => read table slice) a c := by
  intro before table sub bounded small rest left enough funded
  simp only [Writer.run_sized, length_append] at sub small ⊢
  rw [append_assoc, bind_of_ok (lengthRead _ (by omega) _ _), bind_of_ok (carve_append _ _ _ _)]
  exact inner before table sub bounded (by omega) rest left enough funded

theorem whole (inner : Reads lim w read a c) : ReadsWhole lim w read a c := by
  intro before table sub bounded small left enough funded
  have run := inner before table sub bounded small [] left enough funded
  rwa [append_nil] at run

theorem times {part : α → Writer S} {read : List S → Decoder ε β} {value : α → β} {cost : α → Nat}
    {items : List α} (one : ∀ a ∈ items, Reads lim (part a) read (value a) (cost a)) :
    Reads lim (Writer.each part items) (fun table => Decoder.times (read table) items.length)
      (items.map value) (items.map cost).sum := by
  induction items with
  | nil => exact empty
  | cons a others ih =>
    exact (one a (by simp)).bind ((ih fun b mem => one b (by simp [mem])).map fun read => value a :: read)

end Reads

namespace ReadsWhole

variable {w : Writer S} {read : List S → Decoder ε α} {a : α}

theorem inside {c : Nat} (inner : ReadsWhole lim w read a c) (trailing : Nat → ε) :
    ReadsSlice lim w (fun table slice => Decoder.inside slice trailing (read table)) a c := by
  intro before table sub bounded small rest left enough funded
  exact inside_of_ok (inner before table sub bounded small left enough funded) trailing rest

theorem onSlice {c : Nat} (inner : ReadsWhole lim w read a c) :
    ReadsSlice lim w (fun table slice => Decoder.onSlice slice (read table)) a c := by
  intro before table sub bounded small rest left enough funded
  exact onSlice_of_ok (inner before table sub bounded small left enough funded) rest

theorem bytes {b : Bytes} (accepted : ∀ table left, (read table).run b left = .ok (a, [], left)) :
    ReadsWhole lim (Writer.bytes b) read a 0 := by
  intro before table _ _ _ left _ _
  exact accepted table left

theorem map {c : Nat} (inner : ReadsWhole lim w read a c) (f : α → β) :
    ReadsWhole lim w (fun table => read table >>= fun a => pure (f a)) (f a) c := by
  intro before table sub bounded short left enough funded
  exact bind_of_ok (inner before table sub bounded short left enough funded) _

end ReadsWhole

theorem ReadsSlice.map {w : Writer S} {read : List S → Bytes → Decoder ε α} {a : α} {c : Nat}
    (inner : ReadsSlice lim w read a c) (f : α → β) :
    ReadsSlice lim w (fun table slice => read table slice >>= fun a => pure (f a)) (f a) c := by
  intro before table sub bounded small rest left enough funded
  exact bind_of_ok (inner before table sub bounded small rest left enough funded) _

end ByteCodec
