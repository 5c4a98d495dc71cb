import Logit.Native.Batch
import Logit.Native.ValueRoundTrip

namespace Logit.Native

open ByteCodec List Decoder Writer Nat

variable {X : Externals} {α σ : Type}

/-- The fields `w` writes take the visited state from `fields` to `fields'`, at a cost, and leave the
loop with enough rounds for what follows them. -/
def Folds (w : Writer X.Symbol) (visit : Symbols X → σ → UInt8 → Read σ) (fields fields' : σ)
    (cost : Nat) : Prop :=
  ∀ before symbols, (w.run before).2 <+: symbols → symbols.length ≤ wire.table →
    (w.run before).1.length < wire.length → ∀ rest rounds left,
      (w.run before).1.length + rest.length ≤ rounds → cost ≤ left → left ≤ wire.budget →
        ∃ rounds', rest.length ≤ rounds' ∧
          (forEachFieldLoop (visit symbols) rounds fields).run ((w.run before).1 ++ rest) left =
            (forEachFieldLoop (visit symbols) rounds' fields').run rest (left - cost)

variable {visit : Symbols X → σ → UInt8 → Read σ} {fields fields' : σ}

theorem Folds.empty : Folds empty visit fields fields 0 := by
  intro before symbols _ _ _ rest rounds left room _ _
  exact ⟨rounds, by simpa using room, rfl⟩

variable {w v : Writer X.Symbol} {middle : σ} {c : Nat} {payload : Bytes} {cost : α → Nat} {len : Nat} {a : α}
  {items : List α} {writeOne : α → Writer X.Symbol} {label : UInt8}

theorem Folds.append {c d : Nat} (first : Folds w visit fields middle c)
    (second : Folds v visit middle fields' d) : Folds (w ++ v) visit fields fields' (c + d) := by
  intro before symbols sub bounded small rest rounds left room enough funded
  simp only [run_append] at sub small room ⊢
  rw [length_append] at small room
  have grown := (v.grows (w.run before).2).trans sub
  obtain ⟨rounds₁, room₁, run₁⟩ := first before symbols grown bounded (by omega)
    ((v.run (w.run before).2).1 ++ rest) rounds left (by rw [length_append]; omega) (by omega) funded
  obtain ⟨rounds₂, room₂, run₂⟩ := second _ symbols sub bounded (by omega) rest rounds₁ (left - c)
    (by rwa [length_append] at room₁) (by omega) (by omega)
  refine ⟨rounds₂, room₂, ?_⟩
  rw [append_assoc, run₁, run₂, Nat.sub_sub]

theorem Folds.andThen (first : Folds w visit fields middle 0) (second : Folds v visit middle fields' c) :
    Folds (w ++ v) visit fields fields' c := by
  have both := first.append second
  rwa [zero_add] at both

theorem Folds.before (first : Folds w visit fields middle c) (second : Folds v visit middle fields' 0) :
    Folds (w ++ v) visit fields fields' c :=
  first.append second

/-- One round of the loop over a field whose payload is visited whole. -/
theorem forEachFieldLoop_field {visitOne : σ → UInt8 → Read σ} {left left' : Nat}
    (short : payload.length < 2 ^ 64)
    (visited : (visitOne fields label).run payload left = .ok (fields', [], left')) (rounds : Nat) (rest : Bytes) :
    (forEachFieldLoop visitOne (rounds + 1) fields).run
        (label :: (writeUvarint payload.length ++ (payload ++ rest))) left =
      (forEachFieldLoop visitOne rounds fields').run rest left' := by
  rw [forEachFieldLoop, bind_of_ok (atEnd_cons _ _ _), if_neg Bool.false_ne_true,
    bind_of_ok (readU8_cons label _ left), bind_of_ok (readUvarint_write short _ left),
    bind_of_ok (carve_append _ _ _ _),
    bind_of_ok (inside_of_ok visited _ _)]

theorem Folds.field (visited : ReadsWhole wire w (fun symbols => visit symbols fields label) fields' c) :
    Folds (writeField label w) visit fields fields' c := by
  intro before symbols sub bounded small rest rounds left room enough funded
  have two := two_le_length_writeField label w before
  obtain ⟨rounds, rfl⟩ := exists_eq_succ_of_ne_zero (by omega : rounds ≠ 0)
  simp only [writeField, run_append, run_bytes, run_sized] at sub small room ⊢
  simp only [length_append, length_singleton] at small room
  have payload : (w.run before).1.length < wire.length := by omega
  refine ⟨rounds, by omega, ?_⟩
  rw [singleton_append, cons_append, append_assoc,
    forEachFieldLoop_field payload (visited before symbols sub bounded payload left enough funded)]

/-- Fields handed to the loop on their own are read into the state they lead to. -/
theorem Folds.read (inner : Folds w visit fields fields' c) :
    ReadsWhole wire w (fun symbols => forEachField (visit symbols) fields) fields' c := by
  intro before symbols sub bounded small left enough funded
  obtain ⟨rounds, _, run⟩ := inner before symbols sub bounded small [] (w.run before).1.length left
    (by simp) enough funded
  rw [append_nil] at run
  simp only [forEachField, run]
  cases rounds <;> rfl

/-- As `Folds.read`, for a record that is made of the state once it is whole. -/
theorem Folds.record {next : σ → Read α} (inner : Folds w visit fields fields' c) (made : next fields' = pure a) :
    ReadsWhole wire w (fun symbols => forEachField (visit symbols) fields >>= next) a c := by
  intro before symbols sub bounded small left enough funded
  rw [bind_of_ok (inner.read before symbols sub bounded small left enough funded), made]
  rfl

theorem Folds.when {condition : Bool} (written : condition = true → Folds w visit fields fields' c)
    (elided : condition = false → fields = fields' ∧ c = 0) :
    Folds (.when condition w) visit fields fields' c := by
  cases condition with
  | true => exact written rfl
  | false =>
    obtain ⟨rfl, rfl⟩ := elided rfl
    exact Folds.empty

theorem Folds.option {value : Option α} {part : α → Writer X.Symbol} (set : σ → Option α → σ)
    (default : set fields none = fields)
    (written : ∀ a, value = some a → Folds (part a) visit fields (set fields (some a)) (cost a)) :
    Folds (.option value part) visit fields (set fields value) (value.elim 0 cost) := by
  cases value with
  | some a => exact written a rfl
  | none =>
    rw [default]
    exact Folds.empty

theorem Folds.optional {value : Option α} {part : α → Writer X.Symbol} (set : σ → Option α → σ)
    (default : set fields none = fields) (written : ∀ a, Folds (part a) visit fields (set fields (some a)) 0) :
    Folds (.option value part) visit fields (set fields value) 0 := by
  have free : value.elim 0 (fun _ => 0) = 0 := by cases value <;> rfl
  have inner := Folds.option set default fun a (_ : value = some a) => written a
  rwa [free] at inner

theorem writeScalarField_eq (size : payload.length = len) :
    (writeScalarField label len payload : Writer X.Symbol) = writeField label (.bytes payload) := by
  subst size
  rfl

theorem map_of_ok {read : Read α} {set : α → σ} {bytes rest : Bytes} {left left' : Nat}
    (run : read.run bytes left = .ok (a, rest, left')) :
    (set <$> read).run bytes left = .ok (set a, rest, left') :=
  bind_of_ok run _

variable {update : α → σ}

/-- A field whose visit sets one part of the state to what its payload is read as; the visit says which. -/
theorem Folds.part {read : Symbols X → Read α} (inner : ReadsWhole wire w read a c)
    (visits : ∀ symbols, visit symbols fields label = update <$> read symbols := by intro; rfl)
    (lands : update a = fields' := by rfl) : Folds (writeField label w) visit fields fields' c := by
  subst lands
  refine Folds.field fun before symbols sub bounded small left enough funded => ?_
  simp only [visits]
  exact map_of_ok (inner before symbols sub bounded small left enough funded)

theorem Folds.scalar {read : Read α} (size : payload.length = len)
    (accepted : ∀ left, read.run payload left = .ok (a, [], left))
    (visits : ∀ symbols, visit symbols fields label = update <$> read := by intro; rfl)
    (lands : update a = fields' := by rfl) :
    Folds (writeScalarField label len payload) visit fields fields' 0 := by
  rw [writeScalarField_eq size]
  exact Folds.part (ReadsWhole.bytes fun _ left => accepted left) visits lands

theorem readExact_of_length {wrong : Nat → CodecError} {convert : Bytes → α} (size : payload.length = len)
    (left : Nat) : (readExact len wrong convert).run payload left = .ok (convert payload, [], left) := by
  simp only [readExact]
  rw [if_neg (by simpa using size)]

theorem readExactU32_bytes (v : UInt32) (left : Nat) : readExactU32.run (u32Bytes v) left = .ok (v, [], left) := by
  rw [readExactU32, readExact_of_length (length_u32Bytes v), u32FromBytes_u32Bytes]

theorem readExactI64_bytes (v : Int64) (left : Nat) : readExactI64.run (i64Bytes v) left = .ok (v, [], left) := by
  rw [readExactI64, readExact_of_length (length_i64Bytes v), i64FromBytes_i64Bytes]

theorem readId_bytes {n : Nat} (wrong : CodecError) (id : FixedBytes n) (left : Nat) :
    (readId n wrong).run id.bytes left = .ok (id, [], left) := by
  simp only [readId]
  rw [dif_pos id.size]

theorem Folds.unless {a normal : α} {condition : Bool} (written : Folds w visit fields (update a) c)
    (default : update normal = fields) (elided : condition = false → a = normal ∧ c = 0) :
    Folds (.when condition w) visit fields (update a) c := by
  refine Folds.when (fun _ => written) fun unwritten => ?_
  obtain ⟨rfl, free⟩ := elided unwritten
  exact ⟨default.symm, free⟩

theorem Folds.u32 {v : UInt32} {update : UInt32 → σ}
    (visits : ∀ symbols, visit symbols fields label = update <$> readExactU32 := by intro; rfl)
    (default : update 0 = fields := by rfl) :
    Folds (.when (v != 0) (writeScalarField label 4 (u32Bytes v))) visit fields (update v) 0 :=
  (Folds.scalar (length_u32Bytes v) (readExactU32_bytes v) visits rfl).unless default (by simp)

theorem Folds.i64 {v : Int64} {update : Int64 → σ}
    (visits : ∀ symbols, visit symbols fields label = update <$> readExactI64 := by intro; rfl)
    (default : update 0 = fields := by rfl) :
    Folds (.when (v != 0) (writeScalarField label 8 (i64Bytes v))) visit fields (update v) 0 :=
  (Folds.scalar (length_i64Bytes v) (readExactI64_bytes v) visits rfl).unless default (by simp)

theorem Folds.tag {byte : UInt8} {fromTag : UInt8 → Read α} (known : fromTag byte = pure a)
    (visits : ∀ symbols, visit symbols fields label = update <$> readTag fromTag := by intro; rfl)
    (lands : update a = fields' := by rfl) : Folds (writeScalarField label 1 [byte]) visit fields fields' 0 := by
  refine Folds.scalar rfl (fun left => ?_) visits lands
  rw [readTag, bind_of_ok (readU8_cons byte [] left), known]
  rfl

/-- As `Folds.tag`, for a value that is not written when it is the default. -/
theorem Folds.tagged [DecidableEq α] {byte : UInt8} {fromTag : UInt8 → Read α} {a normal : α}
    (known : fromTag byte = pure a)
    (visits : ∀ symbols, visit symbols fields label = update <$> readTag fromTag := by intro; rfl)
    (default : update normal = fields := by rfl) :
    Folds (.when (a != normal) (writeScalarField label 1 [byte])) visit fields (update a) 0 :=
  (Folds.tag known visits rfl).unless default (by simp)

theorem Folds.id {n : Nat} {id : FixedBytes n} {wrong : CodecError} {update : FixedBytes n → σ}
    (visits : ∀ symbols, visit symbols fields label = update <$> readId n wrong := by intro; rfl)
    (lands : update id = fields' := by rfl) : Folds (writeScalarField label n id.bytes) visit fields fields' 0 :=
  Folds.scalar id.size (readId_bytes wrong id) visits lands

theorem Folds.bytes {update : Bytes → σ}
    (visits : ∀ symbols, visit symbols fields label = update <$> takeField := by intro; rfl)
    (lands : update payload = fields' := by rfl) : Folds (writeBytesField label payload) visit fields fields' 0 :=
  Folds.scalar rfl (fun _ => rfl) visits lands

theorem Folds.text {update : Bytes → σ}
    (visits : ∀ symbols, visit symbols fields label = update <$> takeField := by intro; rfl)
    (default : update [] = fields := by rfl) :
    Folds (.when (!payload.isEmpty) (writeBytesField label payload)) visit fields (update payload) 0 :=
  (Folds.bytes visits rfl).unless default (by simp)

theorem Folds.attrs {m : AttrMap X} {limit : Nat} {update : AttrMap X → σ} (shallow : ShallowMap m)
    (visits : ∀ symbols, visit symbols fields label = update <$> readAttrMap ⟨symbols, limit⟩ := by intro; rfl)
    (default : update AttrMap.empty = fields := by rfl) :
    Folds (.when (!m.isEmpty) (writeField label (writeAttrMap m))) visit fields (update m) (attrMapCost m) := by
  refine (Folds.part (reads_attrMap limit m shallow).whole visits rfl).unless default fun none => ?_
  have same := AttrMap.eq_empty_of_isEmpty (by simpa using none)
  exact ⟨same, by rw [same]; rfl⟩

theorem Folds.symbol {symbol : X.Symbol} {limit : Nat} {update : X.Symbol → σ}
    (visits : ∀ symbols, visit symbols fields label = update <$> readSymbolField ⟨symbols, limit⟩ := by intro; rfl)
    (lands : update symbol = fields' := by rfl) : Folds (writeSymbolField label symbol) visit fields fields' 0 := by
  subst lands
  intro before symbols sub bounded small rest rounds left room _ _
  simp only [writeSymbolField, run_entry] at sub small room ⊢
  have found := firstUse_getElem? sub
  have position := lt_of_lt_of_le (List.getElem?_eq_some_iff.mp found).1 bounded
  have index : (dictIndex (firstUse before symbol).1).toNat = (firstUse before symbol).1 := by
    rw [dictIndex, UInt32.toNat_ofNat_of_lt' position]
  simp only [length_append, length_u32Bytes] at room
  obtain ⟨rounds, rfl⟩ := exists_eq_succ_of_ne_zero (by omega : rounds ≠ 0)
  refine ⟨rounds, by omega, ?_⟩
  have visited : (visit symbols fields label).run (u32Bytes (dictIndex (firstUse before symbol).1)) left =
      .ok (update symbol, [], left) := by
    rw [visits]
    refine map_of_ok ?_
    rw [readSymbolField, bind_of_ok (readExactU32_bytes _ left)]
    simp [Dict.get, index, found, pure_apply]
  have round := forEachFieldLoop_field (by simp) visited rounds rest
  rw [length_u32Bytes] at round
  rw [append_assoc, cons_append, round]
  rfl

theorem one_le_length_sized (w : Writer X.Symbol) (before : Symbols X) :
    1 ≤ ((sized writeUvarint w).run before).1.length := by
  have length := one_le_length_writeUvarint (w.run before).1.length
  rw [run_sized, length_append]
  omega

theorem reads_recordList {β : Type} {readOne : Symbols X → Read β} {value : α → β} (limit size : Nat)
    (one : ∀ item ∈ items, ReadsWhole wire (writeOne item) readOne (value item) (cost item)) :
    Reads wire (writeRecordList items writeOne)
      (fun symbols => readRecordList limit size (readOne symbols)) (items.map value)
      (items.length * size + (items.map cost).sum) := by
  exact reads_counted limit "record list" size one_pos (fun item _ => one_le_length_sized _)
    fun item mem => reads_sized ((one item mem).inside _)

theorem Folds.records {β : Type} {readOne : Symbols X → Read β} {value : α → β}
    {limit size : Nat} {update : List β → σ}
    (one : ∀ item ∈ items, ReadsWhole wire (writeOne item) readOne (value item) (cost item))
    (visits : ∀ symbols, visit symbols fields label = update <$> readRecordList limit size (readOne symbols)
      := by intro; rfl) (default : update [] = fields := by rfl) :
    Folds (.when (!items.isEmpty) (writeField label (writeRecordList items writeOne))) visit fields
      (update (items.map value)) (items.length * size + (items.map cost).sum) := by
  refine (Folds.part (reads_recordList limit size one).whole visits rfl).unless default fun none => ?_
  have same : items = [] := by simpa using none
  subst same
  exact ⟨rfl, by simp⟩

theorem Folds.list {readOne : Symbols X → Read α} {limit size : Nat} {update : List α → σ}
    (one : ∀ item ∈ items, ReadsWhole wire (writeOne item) readOne item (cost item))
    (visits : ∀ symbols, visit symbols fields label = update <$> readRecordList limit size (readOne symbols)
      := by intro; rfl) (default : update [] = fields := by rfl) :
    Folds (.when (!items.isEmpty) (writeField label (writeRecordList items writeOne))) visit fields
      (update items) (items.length * size + (items.map cost).sum) := by
  have records := Folds.records one visits default
  rwa [map_id'] at records

end Logit.Native
