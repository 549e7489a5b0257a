import HM4.HPair

/-!
# Pairs

A pair holds a key of 1 to 1023 octets, a value, the seconds after which it
expires and the 64-bit time of its creation. The bounds that `Pair` checks on
its own lengths, and the widths of its numbers, are fields of the structure.
-/

namespace HM4.Pairs

open LexPrefix Bytes MyString CmpLCP

/-- `PairConf::MAX_KEY_SIZE`. -/
def maxKeySize : ℕ := 1023

/-- `PairConf::MAX_VAL_SIZE`. -/
def maxValSize : ℕ := 0xFFFFFFF

/-- `PairConf::EXPIRES_TOMBSTONE`. -/
def expiresTombstone : ℕ := 0xFFFFFFFF

/-- `Pair::isKeyValid`. -/
def isKeyValid (key : Key) : Prop := 0 < key.length ∧ key.length ≤ maxKeySize

/-- `Pair::isValValid`. -/
def isValValid (val : Key) : Prop := val.length ≤ maxValSize

instance (key : Key) : Decidable (isKeyValid key) :=
  inferInstanceAs (Decidable (_ ∧ _))

instance (val : Key) : Decidable (isValValid val) :=
  inferInstanceAs (Decidable (_ ≤ _))

/-- A record of the store with the bounds it was checked against. -/
structure Pair where
  /-- The key octets. -/
  key : Key
  /-- The value octets. -/
  val : Key
  /-- Seconds to live, zero for ever, all ones for a tombstone. -/
  expires : ℕ
  /-- Seconds in the high and microseconds in the low 32 bits. -/
  created : ℕ
  keyValid : isKeyValid key
  valValid : isValValid val
  expires_lt : expires < 2 ^ 32
  created_lt : created < 2 ^ 64
  deriving DecidableEq

/-- The fixed part of the stored record, with its two terminators. -/
def sizeofPair : ℕ := 20

namespace Pair

theorem key_ne_nil (p : Pair) : p.key ≠ [] := List.ne_nil_of_length_pos p.keyValid.1

/-- `Pair::bytes`. -/
def bytes (p : Pair) : ℕ := sizeofPair + p.key.length + p.val.length

/-- `Pair::isTombstone`: marked by its expiration, or without a value. -/
def isTombstone (p : Pair) : Bool := p.expires == expiresTombstone || p.val.length == 0

/-- `Pair::cmpTime`. -/
def cmpTime (p q : Pair) : Ordering := cmp p.created q.created

/-- `Pair::cmp` with a key: any pair is below the empty key. -/
def cmp (p : Pair) (key : Key) : Ordering :=
  if key = [] then .lt else MyString.compare p.key key

/-- `Pair::cmpLCP` from an offset. -/
def cmpLCP (p : Pair) (key : Key) (start : ℕ) : Option ResultLCP :=
  if key = [] then some ⟨.lt, 0⟩ else cmpLCPFrom p.key key start

/-- `Pair::equalsX<start>`: the sizes of the tails are `size_t` differences. -/
def equalsX (start : ℕ) (p : Pair) (key : Key) : Bool :=
  (p.key.length + 2 ^ 64 - start) % 2 ^ 64 == (key.length + 2 ^ 64 - start) % 2 ^ 64 &&
    memcmp (p.key.drop start) (key.drop start) (key.length - start) == .eq

/-- `Pair::cmpWithTime`: keys first, then times in either direction. -/
def cmpWithTime (p q : Pair) (forward : Bool) : Ordering :=
  if p.cmp q.key ≠ .eq then p.cmp q.key
  else if forward then p.cmpTime q else (p.cmpTime q).swap

theorem cmpTime_eq_gt (p q : Pair) : p.cmpTime q = .gt ↔ q.created < p.created := cmp_eq_gt_iff _ _

theorem cmpTime_eq_lt (p q : Pair) : p.cmpTime q = .lt ↔ p.created < q.created := cmp_eq_lt_iff _ _

theorem cmp_key (p q : Pair) : p.cmp q.key = MyString.compare p.key q.key :=
  if_neg q.key_ne_nil

end Pair

/-- The pair that `PairFactory::Tombstone::create` writes: no value and no
expiration. The clock reading and the key are taken within their bounds. -/
def createTombstone (key : Key) (created : ℕ) (hk : isKeyValid key := by decide)
    (hc : created < 2 ^ 64 := by decide) : Pair where
  key := key
  val := []
  expires := 0
  created := created
  keyValid := hk
  valValid := Nat.zero_le _
  expires_lt := by decide
  created_lt := hc

/-- The tombstone of a key of one letter. -/
def letter (b : Byte) (created : UInt64) : Pair :=
  createTombstone [b] created.toNat ⟨Nat.one_pos, Nat.le_of_ble_eq_true rfl⟩ created.toNat_lt

/-- `getNewestPair_`: the second is kept unless the first is newer. -/
def getNewestPair : Option Pair → Option Pair → Option Pair
  | none, p2 => p2
  | some p1, none => some p1
  | some p1, some p2 => if p1.cmpTime p2 = .gt then some p1 else some p2

end HM4.Pairs
