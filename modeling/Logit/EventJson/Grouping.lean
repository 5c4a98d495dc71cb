import Logit.EventJson.Batches
import Logit.Core.Text
import Logit.Lib.MaximalRuns

namespace Logit.EventJson

open ByteCodec MaximalRuns List EventJsonDecoder

variable {X : Externals} {C : LineCodec X}

theorem lines_cons (origin : Origin X) (event : Event X) (bytes : Bytes) :
    lines (C.render origin event ++ 0x0a :: bytes) = C.render origin event :: lines bytes := by
  have closed := C.closed origin event
  have kept : stripReturn (C.render origin event) = C.render origin event := by
    rw [stripReturn, closed, if_neg (by decide)]
  have shown : (C.render origin event).all isBlank = false := by
    rw [all_eq_false]
    exact ⟨0x7d, mem_of_getLast? closed, by decide⟩
  rw [lines, splitOnP_append_cons_of_forall_mem (C.unbroken origin event) _ rfl, map_cons, kept,
    filter_cons, if_pos (by rw [shown]; rfl), lines]

theorem lines_rendered (items : List (Origin X × Event X)) :
    lines (items.flatMap fun i => C.render i.1 i.2 ++ [0x0a]) = items.map fun i => C.render i.1 i.2 := by
  induction items with
  | nil => rfl
  | cons item items ih => rw [flatMap_cons, append_assoc, singleton_append, lines_cons, ih, map_cons]

/-- The origin and event that a batch's lines are written with. -/
def EventBatch.items (batch : EventBatch X) : List (Origin X × Event X) :=
  batch.events.map (Prod.mk (batch.resource, batch.scope))

/-- What the format keeps of a line. -/
abbrev LineCodec.keep (C : LineCodec X) (item : Origin X × Event X) : Origin X × Event X :=
  (C.kept item.1, C.keptEvent item.2)

def LineCodec.Decodable (C : LineCodec X) (items : List (Origin X × Event X)) : Prop :=
  ∀ item ∈ items, C.read (C.render item.1 item.2) = .ok (C.keep item)

theorem Shared.ptrEq_self (s : Shared X) : s.ptrEq s = true := by
  obtain ⟨resource, scope⟩ := s
  cases scope <;> simp [Shared.ptrEq, Shared.sameScope, Arc.ptrEq]

namespace EventJsonDecoder

variable (d : EventJsonDecoder X) (origin : Origin X)

theorem share_last : (d.share origin).2.last = some (d.share origin).1 := by
  rw [share]
  split
  · rename_i last known
    split
    · exact known
    · rfl
  · rfl

variable {d : EventJsonDecoder X}

theorem share_equal {last : Shared X} (known : d.last = some last) {origin : Origin X}
    (equal : originEq last.origin origin = true) : d.share origin = (last, d) := by
  simp [share, known, equal]

theorem share_other {origin : Origin X} (other : ∀ last, d.last = some last → originEq last.origin origin = false) :
    d.share origin = d.allocate origin := by
  rw [share]
  split
  · rename_i last known
    rw [other last known, if_neg (by decide)]
  · rfl

theorem allocate_last : (d.allocate origin).2.last = some (d.allocate origin).1 := rfl

theorem allocate_origin : (d.allocate origin).1.origin = origin := by
  obtain ⟨resource, scope⟩ := origin
  cases scope <;> rfl

theorem allocate_apart {last : Shared X} (known : d.last = some last) (origin : Origin X) :
    last.ptrEq (d.allocate origin).1 = false := by
  have older := d.below last known
  have apart : last.resource.ptrEq (d.allocate origin).1.resource = false := by
    simp only [Arc.ptrEq, allocate, beq_eq_false_iff_ne]
    omega
  rw [Shared.ptrEq, apart, Bool.false_and]

end EventJsonDecoder

def Run.keyed (b : Run X) : Origin X × List (Event X) := (b.shared.origin, b.events)

theorem pushLine_append (front : List (Run X)) (b : Run X) (shared : Shared X) (event : Event X) :
    pushLine (front ++ [b]) shared event = front ++ pushLine [b] shared event := by
  simp only [pushLine, getLast?_append, getLast?_singleton, Option.some_or]
  split <;> simp

variable {items : List (Origin X × Event X)} {d : EventJsonDecoder X}

/-- From a line on, the batches are the groups under the derived equality. -/
theorem decodeBatchLines_groupFrom (decodable : C.Decodable items) (front : List (Run X)) {b : Run X}
    (current : d.last = some b.shared) :
    ∃ runs, decodeBatchLines C d (front ++ [b]) (items.map fun i => C.render i.1 i.2) = .ok (front ++ runs) ∧
      runs.map Run.keyed = groupFrom originEq b.shared.origin b.events (items.map C.keep) := by
  induction items generalizing d front b with
  | nil => exact ⟨[b], rfl, rfl⟩
  | cons item items ih =>
    have later : C.Decodable items := fun i mem => decodable i (mem_cons_of_mem _ mem)
    rw [map_cons, decodeBatchLines, decodable item mem_cons_self, map_cons]
    simp only [pushLine_append, groupFrom]
    by_cases equal : originEq b.shared.origin (C.kept item.1) = true
    · rw [share_equal current equal]
      simp only [equal, pushLine, getLast?_singleton, b.shared.ptrEq_self]
      exact ih later front current
    · have other : ∀ last, d.last = some last → originEq last.origin (C.kept item.1) = false := by
        intro last known
        obtain rfl := Option.some.inj (current.symm.trans known)
        exact Bool.eq_false_of_not_eq_true equal
      rw [share_other other]
      simp only [equal, pushLine, getLast?_singleton, allocate_apart current]
      obtain ⟨runs, decoded, grouped⟩ :=
        ih later (front ++ [b]) (b := ⟨(d.allocate (C.kept item.1)).1, [C.keptEvent item.2]⟩)
          (d.allocate_last (C.kept item.1))
      refine ⟨b :: runs, by simpa using decoded, ?_⟩
      rw [map_cons, grouped, allocate_origin]
      rfl

/-- The derived equality tells each line's resource and scope from those of the line before, and never takes
the line that the decoder read last for a first line that differs from it. -/
def EventJsonDecoder.Tells (d : EventJsonDecoder X) (origins : List (Origin X)) : Prop :=
  (∀ last first, d.last = some last → origins.head? = some first →
    originEq last.origin first = true → last.origin = first) ∧
    origins.IsChain fun a b => originEq a b = true ↔ a = b

theorem EventJsonDecoder.share_own_iff (d : EventJsonDecoder X) (origin : Origin X) :
    (d.share origin).1.origin = origin ↔
      ∀ last, d.last = some last → originEq last.origin origin = true → last.origin = origin := by
  constructor
  · intro own last known equal
    rw [share_equal known equal] at own
    exact own
  · intro told
    by_cases shared : ∃ last, d.last = some last ∧ originEq last.origin origin = true
    · obtain ⟨last, known, equal⟩ := shared
      rw [share_equal known equal]
      exact told last known equal
    · rw [share_other fun last known => by simpa using fun equal => shared ⟨last, known, equal⟩, allocate_origin]

def EventBatch.keyed (batch : EventBatch X) : Origin X × List (Event X) :=
  ((batch.resource, batch.scope), batch.events)

theorem maximal_iff_tells {item : Origin X × Event X} :
    Maximal (item :: items) (groupFrom originEq (d.share item.1).1.origin [item.2] items) ↔
      d.Tells ((item :: items).map Prod.fst) := by
  have grouped := @groupFrom_maximal_iff _ _ originEq (d.share item.1).1.origin [item.2] items
  constructor
  · rintro ⟨exact, -, apart⟩
    obtain ⟨others, grown⟩ := @keyed_groupFrom _ _ originEq (d.share item.1).1.origin [item.2] items
    have own : (d.share item.1).1.origin = item.1 := congrArg Prod.fst (cons.inj (grown.symm.trans exact)).1
    rw [own] at grouped exact apart
    refine ⟨fun last first known head => ?_, grouped.mp ⟨exact, apart⟩⟩
    obtain rfl := Option.some.inj head
    exact (d.share_own_iff item.1).mp own last known
  · rintro ⟨first, chain⟩
    have own := (d.share_own_iff item.1).mpr fun last known => first last item.1 known rfl
    rw [own] at grouped ⊢
    obtain ⟨exact, apart⟩ := grouped.mpr chain
    exact ⟨exact, filled_groupFrom _ (by simp) _, apart⟩

theorem decodeBatchLines_eq (decodable : C.Decodable items) (d : EventJsonDecoder X) :
    ∃ runs, decodeBatchLines C d [] (items.map fun i => C.render i.1 i.2) = .ok runs ∧
      (Maximal (items.map C.keep) (runs.map Run.keyed) ↔ d.Tells ((items.map C.keep).map Prod.fst)) := by
  cases items with
  | nil => refine ⟨[], rfl, fun _ => ⟨nofun, .nil⟩, fun _ => ⟨rfl, nofun, .nil⟩⟩
  | cons item items =>
    have later : C.Decodable items := fun i mem => decodable i (mem_cons_of_mem _ mem)
    obtain ⟨runs, decoded, grouped⟩ := decodeBatchLines_groupFrom later []
      (b := ⟨(d.share (C.kept item.1)).1, [C.keptEvent item.2]⟩) (d.share_last (C.kept item.1))
    refine ⟨runs, ?_, ?_⟩
    · rw [map_cons, decodeBatchLines, decodable item mem_cons_self]
      exact decoded
    · rw [grouped]
      exact maximal_iff_tells

/-- After the first line of one origin, the others are taken when they share its pointers. -/
theorem decodeIntoLines_isOk {origin : Origin X} {events : List (Event X)}
    (decodable : C.Decodable (events.map (Prod.mk origin))) {first : Shared X} (current : d.last = some first)
    (out : List (Event X)) (equal : events = [] ∨ originEq first.origin (C.kept origin) = true) :
    (decodeIntoLines C d (some first) out (events.map fun e => C.render origin e)).isOk = true := by
  induction events generalizing out with
  | nil => rfl
  | cons event events ih =>
    have later : C.Decodable (events.map (Prod.mk origin)) :=
      fun i mem => decodable i (mem_cons_of_mem _ mem)
    have equal := equal.resolve_left (cons_ne_nil _ _)
    rw [map_cons, decodeIntoLines, decodable (origin, event) mem_cons_self]
    simp only [share_equal current equal, first.ptrEq_self]
    exact ih later (out ++ [C.keptEvent event]) (.inr equal)

theorem renderNdjson_eq (batch : EventBatch X) :
    renderNdjson C batch = (EventBatch.items batch).flatMap fun i => C.render i.1 i.2 ++ [0x0a] := by
  rw [renderNdjson, EventBatch.items, flatMap_map]

theorem lines_renderNdjson (batches : List (EventBatch X)) : lines (batches.flatMap (renderNdjson C)) =
    (batches.flatMap EventBatch.items).map fun i => C.render i.1 i.2 := by
  rw [← lines_rendered, flatMap_assoc]
  exact congrArg _ (flatMap_congr fun b _ => renderNdjson_eq b)

theorem decodeInto_isOk {batch : EventBatch X} (decodable : C.Decodable (EventBatch.items batch))
    (d : EventJsonDecoder X) (equal : batch.events.length ≤ 1 ∨
      originEq (C.kept (batch.resource, batch.scope)) (C.kept (batch.resource, batch.scope)) = true) :
    (decodeInto C d (renderNdjson C batch)).isOk = true := by
  obtain ⟨resource, scope, events⟩ := batch
  have sameOk : ∀ {α β : Type} (f : α → β) (r : Except String α), (r.map f).isOk = r.isOk := by
    intro α β f r
    cases r <;> rfl
  rw [decodeInto, sameOk, renderNdjson_eq, lines_rendered, EventBatch.items, map_map]
  cases events with
  | nil => rfl
  | cons event events =>
    have later : C.Decodable (events.map (Prod.mk (resource, scope))) :=
      fun i mem => decodable i (mem_cons_of_mem _ mem)
    have read := decodable ((resource, scope), event) mem_cons_self
    simp only [Function.comp_def, map_cons, decodeIntoLines, read]
    refine decodeIntoLines_isOk later (d.share_last (C.kept (resource, scope))) [C.keptEvent event] ?_
    by_cases shared : ∃ last, d.last = some last ∧ originEq last.origin (C.kept (resource, scope)) = true
    · obtain ⟨last, known, taken⟩ := shared
      rw [share_equal known taken]
      exact .inr taken
    · rw [share_other fun last known => by simpa using fun taken => shared ⟨last, known, taken⟩,
        allocate_origin]
      exact equal.imp (by simp) id

/-- What the format keeps of the lines that the batches are written as. -/
def written (C : LineCodec X) (batches : List (EventBatch X)) : List (Origin X × Event X) :=
  (batches.flatMap EventBatch.items).map C.keep

theorem EventJsonDecoder.Tells.reflexive {batches : List (EventBatch X)}
    (told : d.Tells ((written C batches).map Prod.fst)) {b : EventBatch X} (mem : b ∈ batches) :
    b.events.length ≤ 1 ∨ originEq (C.kept (b.resource, b.scope)) (C.kept (b.resource, b.scope)) = true := by
  obtain ⟨front, back, rfl⟩ := append_of_mem mem
  have chain := told.2
  simp only [written, flatMap_append, flatMap_cons, map_append] at chain
  have own := chain.right_of_append.left_of_append
  obtain ⟨resource, scope, events⟩ := b
  match events with
  | [] => exact .inl (Nat.zero_le 1)
  | [_] => exact .inl (Nat.le_refl 1)
  | _ :: _ :: _ =>
    simp only [EventBatch.items, map_cons, isChain_cons_cons] at own
    exact .inr (own.1.mpr trivial)

/-- The batches come back as the lines' maximal runs of one resource and scope, and each batch's lines are taken
as one run, exactly when the derived equality agrees with the equality of bits on the lines: it takes a NaN for
another value and the two zeros for one. -/
theorem decode_batches_iff (C : LineCodec X) (d : EventJsonDecoder X) (batches : List (EventBatch X))
    (decodable : C.Decodable (batches.flatMap EventBatch.items)) :
    ((∃ out, decodeBatches C d (batches.flatMap (renderNdjson C)) = .ok out ∧
        Maximal (written C batches) (out.map EventBatch.keyed)) ∧
      ∀ b ∈ batches, (decodeInto C d (renderNdjson C b)).isOk = true) ↔
    d.Tells ((written C batches).map Prod.fst) := by
  obtain ⟨runs, decoded, grouped⟩ := decodeBatchLines_eq decodable d
  have out : decodeBatches C d (batches.flatMap (renderNdjson C)) = .ok (runs.map Run.batch) := by
    rw [decodeBatches, lines_renderNdjson, decoded]
    rfl
  constructor
  · rintro ⟨⟨batched, same, maximal⟩, -⟩
    obtain rfl := Except.ok.inj (out.symm.trans same)
    rw [map_map] at maximal
    exact grouped.mp maximal
  · intro told
    refine ⟨⟨_, out, ?_⟩, fun b member => decodeInto_isOk (fun i inside => decodable i ?_) d
      (told.reflexive member)⟩
    · rw [map_map]
      exact grouped.mpr told
    · exact mem_flatMap.mpr ⟨b, member, inside⟩

def numberOrigin (bits : UInt64) : Origin .plain :=
  (⟨⟨[("x", .f64 ⟨bits⟩)], by simp, by simp [RawValue.Ordered]⟩, 0, none⟩, none)

/-- The two zeros, one and a NaN. -/
def numbers : List UInt64 := [0, 0x8000000000000000, 0x3ff0000000000000, 0x7ff8000000000000]

def numberBits (origin : Origin .plain) : UInt64 :=
  match origin.1.attributes.entries with
  | [(_, .f64 x)] => if x.bits ∈ numbers then x.bits else 0x7ff8000000000000
  | _ => 0x7ff8000000000000

/-- The line of an event at 0, up to the number `x` of its resource. -/
def lineHead : Bytes :=
  utf8Bytes "\x7b\"timestamp\":\"1970-01-01T00:00:00.000000000Z\",\"resource\":\x7b\"attributes\":\x7b\"x\":"

/-- The number, with the entry that a NaN has in the types table. -/
def lineTail (bits : UInt64) : Bytes :=
  utf8Bytes (if bits = 0 then "0.0\x7d\x7d\x7d"
    else if bits = 0x8000000000000000 then "-0.0\x7d\x7d\x7d"
    else if bits = 0x3ff0000000000000 then "1.0\x7d\x7d\x7d"
    else "\"NaN\"\x7d\x7d,\"types\":\x7b\"/resource/attributes/x\":\"f64\"\x7d\x7d")

def lineNumber (text : Bytes) : UInt64 :=
  let first := (text.drop lineHead.length).head?
  if first = some 0x30 then 0
  else if first = some 0x2d then 0x8000000000000000
  else if first = some 0x31 then 0x3ff0000000000000
  else 0x7ff8000000000000

def lineEvent : Event .plain := ⟨0, AttrMap.empty, none, [], none⟩

/-- Lines for resources with one of the numbers. -/
def numberCodec : LineCodec .plain where
  render origin _ := lineHead ++ lineTail (numberBits origin)
  read text := .ok (numberOrigin (lineNumber text), lineEvent)
  kept origin := numberOrigin (numberBits origin)
  keptEvent _ := lineEvent
  closed origin _ := by
    have tail : (lineTail (numberBits origin)).getLast? = some 0x7d := by
      unfold lineTail
      split_ifs <;> decide +kernel
    rw [getLast?_append, tail]
    rfl
  unbroken origin _ := by
    simp only [lineHead, lineTail, utf8Bytes_eq, forall_mem_append]
    constructor
    · simp only [String.reduceToList]
      decide +kernel
    · split_ifs <;> simp only [String.reduceToList] <;> decide +kernel

theorem head_lineTail (bits : UInt64) : (lineTail bits).head? = some (if bits = 0 then 0x30
    else if bits = 0x8000000000000000 then 0x2d else if bits = 0x3ff0000000000000 then 0x31 else 0x22) := by
  simp only [lineTail, utf8Bytes_eq]
  split_ifs <;> simp only [String.reduceToList, flatMap_cons] <;> rfl

theorem numberCodec_read (origin : Origin .plain) (event : Event .plain) :
    numberCodec.read (numberCodec.render origin event) = .ok (numberCodec.keep (origin, event)) := by
  have known : numberBits origin ∈ numbers := by
    unfold numberBits
    split
    · split
      · assumption
      · decide
    · decide
  have back : ∀ bits ∈ numbers, lineNumber (lineHead ++ lineTail bits) = bits := by
    simp [lineNumber, head_lineTail, numbers]
  simp only [numberCodec, back _ known]

def numberBatch (bits : UInt64) (count : Nat) : EventBatch .plain :=
  ⟨(numberOrigin bits).1, none, List.replicate count lineEvent⟩

theorem decode_batches_iff_sample :
    let batches := [numberBatch 0 2, numberBatch 0x3ff0000000000000 1]
    (∃ out, decodeBatches numberCodec .new (batches.flatMap (renderNdjson numberCodec)) = .ok out ∧
        Maximal (written numberCodec batches) (out.map EventBatch.keyed)) ∧
      ∀ b ∈ batches, (decodeInto numberCodec .new (renderNdjson numberCodec b)).isOk = true := by
  refine (decode_batches_iff numberCodec .new _ fun _ _ => numberCodec_read _ _).mpr ⟨nofun, ?_⟩
  have equal : originEq (numberOrigin 0) (numberOrigin 0) = true := by decide +kernel
  have other : ¬ originEq (numberOrigin 0) (numberOrigin 0x3ff0000000000000) = true := by decide +kernel
  have apart : numberOrigin 0 ≠ numberOrigin 0x3ff0000000000000 := fun same => other (same ▸ equal)
  exact .cons_cons (iff_of_true equal rfl) (.cons_cons (iff_of_false other apart) (.singleton _))

/-- Batches of the two zeros come back as one batch of the first zero; one batch of a NaN comes back as two, and
is refused where one run is expected. -/
theorem zeros_merged_nan_split :
    let zeros := [numberBatch 0 1, numberBatch 0x8000000000000000 1]
    let nan := numberBatch 0x7ff8000000000000 2
    numberCodec.Decodable ((zeros ++ [nan]).flatMap EventBatch.items) ∧
      written numberCodec zeros = [(numberOrigin 0, lineEvent), (numberOrigin 0x8000000000000000, lineEvent)] ∧
      decodeBatches numberCodec .new (zeros.flatMap (renderNdjson numberCodec)) = .ok [numberBatch 0 2] ∧
      decodeBatches numberCodec .new (renderNdjson numberCodec nan) =
        .ok [numberBatch 0x7ff8000000000000 1, numberBatch 0x7ff8000000000000 1] ∧
      decodeInto numberCodec .new (renderNdjson numberCodec nan) =
        .error "the resource or scope changes partway; decode one run at a time" := by
  intro zeros nan
  refine ⟨fun _ _ => numberCodec_read _ _, rfl, ?_, ?_, ?_⟩
  · rw [decodeBatches, lines_renderNdjson]
    simp only [zeros, numberBatch, EventBatch.items, flatMap_cons, flatMap_nil, replicate, map_cons, map_nil,
      append_nil, singleton_append, decodeBatchLines, numberCodec_read]
    rfl
  · rw [decodeBatches, renderNdjson_eq, lines_rendered]
    simp only [nan, numberBatch, EventBatch.items, replicate, map_cons, map_nil, decodeBatchLines, numberCodec_read]
    rfl
  · rw [decodeInto, renderNdjson_eq, lines_rendered]
    simp only [nan, numberBatch, EventBatch.items, replicate, map_cons, map_nil, decodeIntoLines, numberCodec_read]
    rfl

end Logit.EventJson
