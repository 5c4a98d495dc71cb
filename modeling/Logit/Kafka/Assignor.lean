import Mathlib

namespace Logit.Kafka.Assignor

open List Nat

variable {Member Topic : Type}

/-- A map, with its keys in order. -/
structure Table (Key Value : Type) where
  keys : List Key
  apart : keys.Nodup
  get : Key → Value

/-- The partitions in the order they are given out, each with its member. -/
abbrev Deals (Member Topic : Type) := List (Member × Topic × Nat)

def Deals.of [DecidableEq Member] (deals : Deals Member Topic) (mem : Member) : List (Topic × Nat) :=
  (deals.filter (·.1 = mem)).map Prod.snd

/-- Gives each subscriber its block of partitions, the first `extra` one more than the others. -/
def takeBlocks (topic : Topic) (each extra : Nat) : List Member → (i next : Nat) → Deals Member Topic
  | [], _, _ => []
  | mem :: later, i, next =>
    let take := each + if i < extra then 1 else 0
    (List.range' next take).map (mem, topic, ·) ++ takeBlocks topic each extra later (i + 1) (next + take)

/-- The block of the `j`th subscriber. -/
def block (topic : Topic) (each extra : Nat) (entry : Member × Nat) : Deals Member Topic :=
  (List.range' (entry.2 * each + min entry.2 extra) (each + if entry.2 < extra then 1 else 0)).map
    (entry.1, topic, ·)

theorem after_block {each extra i next : Nat} (place : next = i * each + min i extra) :
    next + (each + if i < extra then 1 else 0) = (i + 1) * each + min (i + 1) extra := by
  rw [succ_mul]
  split <;> omega

/-- The blocks from the `i`th on cover what is left of the partitions in order. -/
theorem takeBlocks_spec {topic : Topic} {each extra : Nat} {later : List Member} {i next : Nat}
    (place : next = i * each + min i extra) :
    takeBlocks topic each extra later i next = (later.zipIdx i).flatMap (block topic each extra) ∧
    ∃ taken, next + taken = (i + later.length) * each + min (i + later.length) extra ∧
      (takeBlocks topic each extra later i next).map Prod.snd = (range' next taken).map (topic, ·) := by
  induction later generalizing i next with
  | nil => exact ⟨rfl, 0, place, rfl⟩
  | cons mem later ih =>
    obtain ⟨shape, taken, ended, covered⟩ := ih (after_block place)
    refine ⟨?_, (each + if i < extra then 1 else 0) + taken, ?_, ?_⟩
    · rw [takeBlocks, shape, zipIdx_cons, flatMap_cons, block, place]
    · rw [length_cons, ← add_assoc, ended, add_right_comm, add_assoc]
    · rw [← range'_append_1 (n := taken), map_append, ← covered, takeBlocks, map_append, map_map]
      rfl

variable [LinearOrder Topic]

section

variable (members : Table Member (List Topic)) (partitions : Table Topic Int)

def subscribers (topic : Topic) : List Member := members.keys.filter (topic ∈ members.get ·)

def rangeTopic (topic : Topic) : Deals Member Topic :=
  let named := subscribers members topic
  let count := partitions.get topic
  if named = [] ∨ count ≤ 0 then []
  else takeBlocks topic (count.toNat / named.length) (count.toNat % named.length) named 0 0

def range : Deals Member Topic := partitions.keys.flatMap (rangeTopic members partitions)

/-- Goes round the members to the next one that is subscribed. After one round it would go on for ever. -/
def seek (topic : Topic) (place : Nat) : Option (Member × Nat) :=
  ((members.keys.rotate place).zipIdx place).find? (topic ∈ members.get ·.1)

def deal : List (Topic × Nat) → (place : Nat) → Option (Deals Member Topic)
  | [], _ => some []
  | pair :: later, place => do
    let (mem, found) ← seek members pair.1 place
    let deals ← deal later (found + 1)
    some ((mem, pair) :: deals)

def topics : List Topic := (members.keys.flatMap members.get).toFinset.sort

def pairs (named : List Topic) : List (Topic × Nat) :=
  named.flatMap fun topic => (List.range (partitions.get topic).toNat).map (topic, ·)

def roundRobin : Option (Deals Member Topic) :=
  deal members (pairs partitions ((topics members).filter (· ∈ partitions.keys))) 0

/-- Each partition of each topic that has metadata and a subscriber is given out once, to a subscriber, and nothing
else is given out. -/
structure Exact (deals : Deals Member Topic) : Prop where
  once : (deals.map Prod.snd).Nodup
  covers : ∀ topic p, (topic, p) ∈ deals.map Prod.snd ↔
    subscribers members topic ≠ [] ∧ topic ∈ partitions.keys ∧ (p : Int) < partitions.get topic
  own : ∀ entry ∈ deals, entry.1 ∈ subscribers members entry.2.1

end

variable {members : Table Member (List Topic)} {partitions : Table Topic Int} {topic : Topic}

theorem Exact.of_pairs {deals : Deals Member Topic} {named : List Topic} (apart : named.Nodup)
    (known : ∀ topic, topic ∈ named ↔ subscribers members topic ≠ [] ∧ topic ∈ partitions.keys)
    (dealt : deals.map Prod.snd = pairs partitions named)
    (own : ∀ entry ∈ deals, entry.1 ∈ subscribers members entry.2.1) : Exact members partitions deals where
  once := by
    rw [dealt, pairs, nodup_flatMap]
    refine ⟨fun topic _ => nodup_range.map fun p q same => (Prod.mk.inj same).2, apart.imp fun different => ?_⟩
    intro pair first second
    obtain ⟨_, _, rfl⟩ := mem_map.mp first
    obtain ⟨_, _, same⟩ := mem_map.mp second
    exact different (Prod.mk.inj same).1.symm
  covers topic p := by
    rw [dealt, ← and_assoc, ← known]
    simp only [pairs, mem_flatMap, mem_map, mem_range, Prod.mk.injEq]
    constructor
    · rintro ⟨_, mem, q, below, rfl, rfl⟩
      exact ⟨mem, by omega⟩
    · rintro ⟨mem, below⟩
      exact ⟨topic, mem, p, by omega, rfl, rfl⟩
  own := own

theorem rangeTopic_covers : (rangeTopic members partitions topic).map Prod.snd =
      pairs partitions (if subscribers members topic = [] then [] else [topic]) := by
  rw [rangeTopic]
  by_cases named : subscribers members topic = []
  · simp [named, pairs]
  · obtain ⟨-, taken, ended, covered⟩ := @takeBlocks_spec Member Topic topic
      ((partitions.get topic).toNat / (subscribers members topic).length)
      ((partitions.get topic).toNat % (subscribers members topic).length) (subscribers members topic) 0 0 (by simp)
    have few := mod_lt (partitions.get topic).toNat (length_pos_iff.mpr named)
    have all := div_add_mod (partitions.get topic).toNat (subscribers members topic).length
    rw [zero_add, zero_add, min_eq_right few.le, all] at ended
    split
    · rename_i empty
      simp [pairs, Int.toNat_of_nonpos (empty.resolve_left named)]
    · simp [pairs, covered, ended, range_eq_range']

theorem rangeTopic_eq : rangeTopic members partitions topic = (subscribers members topic).zipIdx.flatMap
    (block topic ((partitions.get topic).toNat / (subscribers members topic).length)
      ((partitions.get topic).toNat % (subscribers members topic).length)) := by
  rw [rangeTopic]
  split
  · rename_i nothing
    rcases nothing with absent | empty
    · simp [absent]
    · simp [block, Int.toNat_of_nonpos empty]
  · exact (takeBlocks_spec (by rw [Nat.zero_mul, Nat.zero_min])).1

theorem range_exact : Exact members partitions (range members partitions) := by
  refine .of_pairs (partitions.apart.filter (subscribers members · ≠ [])) (by simp [and_comm]) ?_ ?_
  · rw [range, map_flatMap]
    simp only [rangeTopic_covers]
    induction partitions.keys with
    | nil => rfl
    | cons topic named ih =>
      rw [flatMap_cons, ih]
      by_cases absent : subscribers members topic = [] <;> simp [absent, pairs]
  · intro entry given
    obtain ⟨topic, _, inside⟩ := mem_flatMap.mp given
    rw [rangeTopic_eq] at inside
    obtain ⟨numbered, listed, held⟩ := mem_flatMap.mp inside
    obtain ⟨p, _, rfl⟩ := mem_map.mp held
    exact fst_mem_of_mem_zipIdx listed

theorem seek_found (named : subscribers members topic ≠ []) (place : Nat) :
    ∃ mem found, seek members topic place = some (mem, found) ∧ mem ∈ subscribers members topic := by
  obtain ⟨mem, subscribed⟩ := exists_mem_of_ne_nil _ named
  obtain ⟨known, reads⟩ := mem_filter.mp subscribed
  have inside : (seek members topic place).isSome := by
    obtain ⟨j, here⟩ := mem_iff_getElem?.mp (mem_rotate.mpr known)
    exact find?_isSome.mpr ⟨(mem, place + j), mk_add_mem_zipIdx_iff_getElem?.mpr here, reads⟩
  obtain ⟨⟨first, found⟩, sought⟩ := Option.isSome_iff_exists.mp inside
  have taken := of_decide_eq_true (find?_some sought :)
  have mem := fst_mem_of_mem_zipIdx (mem_of_find?_eq_some sought)
  exact ⟨first, found, sought, mem_filter.mpr ⟨mem_rotate.mp mem, decide_eq_true taken⟩⟩

/-- A deal gives each pair to a subscriber. -/
theorem deal_some {list : List (Topic × Nat)} (named : ∀ pair ∈ list, subscribers members pair.1 ≠ [])
    (place : Nat) :
    ∃ deals, deal members list place = some deals ∧ deals.map Prod.snd = list ∧
      ∀ entry ∈ deals, entry.1 ∈ subscribers members entry.2.1 := by
  induction list generalizing place with
  | nil => exact ⟨[], rfl, rfl, by simp⟩
  | cons pair list ih =>
    obtain ⟨first, others⟩ := forall_mem_cons.mp named
    obtain ⟨mem, found, sought, own⟩ := seek_found first place
    obtain ⟨deals, dealt, pairs, owned⟩ := ih others (found + 1)
    refine ⟨(mem, pair) :: deals, by simp [deal, sought, dealt], by simp [pairs], ?_⟩
    exact forall_mem_cons.mpr ⟨own, owned⟩

/-- Where everybody reads the topics of a deal, the members take turns: one that comes before another in the round
has as many partitions, or one more. -/
theorem deal_turns [DecidableEq Member] {list : List (Topic × Nat)} {place : Nat} {deals : Deals Member Topic}
    (all : ∀ pair ∈ list, ∀ mem ∈ members.keys, pair.1 ∈ members.get mem)
    (dealt : deal members list place = some deals) : (members.keys.rotate place).Pairwise fun a b =>
      (deals.of b).length ≤ (deals.of a).length ∧ (deals.of a).length ≤ (deals.of b).length + 1 := by
  induction list generalizing place deals with
  | nil =>
    cases dealt
    exact pairwise_of_forall fun _ _ => ⟨zero_le _, zero_le _⟩
  | cons pair list ih =>
    obtain ⟨first, others⟩ := forall_mem_cons.mp all
    have next := (rotate_rotate members.keys place 1).symm
    have apart : (members.keys.rotate place).Nodup := nodup_rotate.mpr members.apart
    rw [deal, seek] at dealt
    cases ring : members.keys.rotate place with
    | nil => exact .nil
    | cons head tail =>
      have reads := first head (mem_rotate.mp (ring ▸ mem_cons_self))
      rw [ring] at dealt next apart
      have found : find? (pair.1 ∈ members.get ·.1) ((head, place) :: tail.zipIdx (place + 1)) =
        some (head, place) :=
        find?_cons_of_pos (decide_eq_true reads :)
      rw [zipIdx_cons, found] at dealt
      obtain ⟨later, rest, rfl⟩ :
          ∃ later, deal members list (place + 1) = some later ∧ (head, pair) :: later = deals := by
        simpa [Option.bind_eq_some_iff] using dealt
      have turns := ih others rest
      rw [next, rotate_cons_succ, rotate_zero, pairwise_append] at turns
      have given (other : Member) : (Deals.of ((head, pair) :: later) other).length =
          (later.of other).length + if head = other then 1 else 0 := by
        by_cases same : head = other <;> simp [Deals.of, same]
      have fresh (other : Member) (there : other ∈ tail) : head ≠ other := by
        rintro rfl
        exact (nodup_cons.mp apart).1 there
      refine pairwise_cons.mpr ⟨fun other there => ?_, turns.1.imp_of_mem fun {a b} inA inB ordered => ?_⟩
      · have ordered := turns.2.2 other there head mem_cons_self
        rw [given, given, if_pos rfl, if_neg (fresh other there)]
        omega
      · rwa [given, given, if_neg (fresh a inA), if_neg (fresh b inB)]

/-- Both assignors give every partition of a topic with metadata and subscribers to one subscriber.
`range` gives each subscriber of a topic one block, the first of which may be longer by one than the
others; among members with the same topics `roundRobin` gives none two more than another. -/
theorem assignors_exact [DecidableEq Member] (members : Table Member (List Topic)) (partitions : Table Topic Int) :
    Exact members partitions (range members partitions) ∧
    (range members partitions = partitions.keys.flatMap fun topic => (subscribers members topic).zipIdx.flatMap
      (block topic ((partitions.get topic).toNat / (subscribers members topic).length)
        ((partitions.get topic).toNat % (subscribers members topic).length))) ∧
    ∃ deals, roundRobin members partitions = some deals ∧ Exact members partitions deals ∧
      ((∀ a ∈ members.keys, ∀ b ∈ members.keys, ∀ topic, topic ∈ members.get a → topic ∈ members.get b) →
        ∀ a ∈ members.keys, ∀ b ∈ members.keys, (deals.of a).length ≤ (deals.of b).length + 1) := by
  refine ⟨range_exact, ?_, ?_⟩
  · exact flatMap_congr fun topic _ => rangeTopic_eq
  · have known topic : topic ∈ (topics members).filter (· ∈ partitions.keys) ↔
        subscribers members topic ≠ [] ∧ topic ∈ partitions.keys := by simp [topics, subscribers]
    have named (pair : Topic × Nat)
      (listed : pair ∈ pairs partitions ((topics members).filter (· ∈ partitions.keys))) :
        subscribers members pair.1 ≠ [] := by
      obtain ⟨topic, inside, held⟩ := mem_flatMap.mp listed
      obtain ⟨p, _, rfl⟩ := mem_map.mp held
      exact ((known topic).mp inside).1
    obtain ⟨deals, dealt, shape, own⟩ := deal_some named 0
    have apart : (topics members).Nodup := Finset.sort_nodup _ _
    refine ⟨deals, dealt, .of_pairs (apart.filter _) known shape own, fun same a inA b inB => ?_⟩
    have turns := deal_turns (fun pair listed member inside => by
      obtain ⟨other, subscribed⟩ := exists_mem_of_ne_nil _ (named pair listed)
      obtain ⟨there, reads⟩ := mem_filter.mp subscribed
      exact same other there member inside pair.1 (of_decide_eq_true reads)) dealt
    rw [rotate_zero] at turns
    obtain ⟨i, boundA, rfl⟩ := mem_iff_getElem.mp inA
    obtain ⟨j, boundB, rfl⟩ := mem_iff_getElem.mp inB
    have ordered := pairwise_iff_getElem.mp turns
    rcases lt_trichotomy i j with before | rfl | after
    · exact (ordered i j boundA boundB before).2
    · exact le_succ _
    · have turn := ordered j i boundB boundA after
      omega

end Logit.Kafka.Assignor
