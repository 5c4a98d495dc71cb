import Logit.Lib.Decoder
import Logit.Sink.Output

namespace Logit.Kafka

open ByteCodec

/-- One record to produce. -/
structure ProducerRecord where
  key : Option Bytes
  value : Option Bytes
  headers : List (Bytes × Option Bytes)
  timestamp : Int64

/-- What is produced of a record. -/
abbrev View (R : Type) := R → ProducerRecord

def batchOverhead : Nat := 61

def maxRecordOverhead : Nat := 21

/-- An upper bound on a field's size, with its length as a 5-byte varint. -/
def fieldSize (b : Option Bytes) : Nat := 5 + (b.map List.length).getD 0

def ProducerRecord.sizeUpperBound (r : ProducerRecord) : Nat :=
  maxRecordOverhead + fieldSize r.key + fieldSize r.value +
    ((r.headers.map fun h => 5 + h.1.length + fieldSize h.2).sum + 5)

def murmurM : UInt32 := 0x5bd1e995

def murmurTail (h : UInt32) : Bytes → UInt32
  | [a] => (h ^^^ a.toUInt32) * murmurM
  | [a, b] => (h ^^^ (b.toUInt32 <<< 8) ^^^ a.toUInt32) * murmurM
  | [a, b, c] => (h ^^^ (c.toUInt32 <<< 16) ^^^ (b.toUInt32 <<< 8) ^^^ a.toUInt32) * murmurM
  | _ => h

def murmurWord (a b c d : UInt8) : UInt32 :=
  let k := (a.toUInt32 ||| (b.toUInt32 <<< 8) ||| (c.toUInt32 <<< 16) ||| (d.toUInt32 <<< 24)) * murmurM
  (k ^^^ (k >>> 24)) * murmurM

def murmurLoop (h : UInt32) : Bytes → UInt32
  | a :: b :: c :: d :: rest => murmurLoop (h * murmurM ^^^ murmurWord a b c d) rest
  | tail => murmurTail h tail

def murmur2 (data : Bytes) : UInt32 :=
  let h := murmurLoop (0x9747b28c ^^^ UInt32.ofNat data.length) data
  let h := (h ^^^ (h >>> 13)) * murmurM
  h ^^^ (h >>> 15)

/-- The partition of a key: the hash without its sign bit, among the topic's partitions. -/
def partitionForKey (key : Bytes) (partitions : Nat) : Int :=
  ((murmur2 key &&& 0x7fffffff).toNat % partitions : Nat)

/-- One of the partitions with a leader, by a random draw. -/
def stickyPartition (led : List Int) (draw : Nat) : Option Int := led[draw % led.length]?

end Logit.Kafka
