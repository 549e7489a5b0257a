import HM4.Pairs

/-!
# Pair factories

A list never receives a pair but a factory, which tells the key and the size of
the pair it would write, writes it into fresh memory or changes a pair that is
there in place. A creation time of zero stands for the time of the writing.
-/

namespace HM4.PairFactory

open LexPrefix Bytes Pairs

/-- `mytime::to64` of whole seconds. -/
def to64 (sec : UInt32) : UInt64 := sec.toUInt64 <<< 32

/-- `Pair::prepareCreateTime`. -/
def prepareCreateTime (created : UInt32) (now : UInt64) : UInt64 :=
  if created ≠ 0 then to64 created else now

/-- `Pair::prepareCreateTimeSimulate`: what is written now is newer than everything. -/
def prepareCreateTimeSimulate (created : UInt32) : UInt64 :=
  if created ≠ 0 then to64 created else 0xFFFFFFFFFFFFFFFF

/-- `isValidForReplace` of a factory's creation time. -/
def isValidForReplace (created : UInt32) (old : Pair) : Bool :=
  old.created ≤ (prepareCreateTimeSimulate created).toNat

/-- What a list may ask of a factory. Pairs are written at some time, and only by
factories that are valid. -/
structure Factory where
  /-- `getKey()`. -/
  getKey : Key
  /-- `getCreated()`. -/
  getCreated : UInt32
  /-- `bytes()`. -/
  bytes : ℕ
  /-- `valid()`. -/
  valid : Bool
  /-- `create()` in fresh memory. -/
  create : valid = true → UInt64 → Pair
  /-- `createHint()` on a pair. -/
  createHint : valid = true → UInt64 → Pair → Pair
  valid_key : valid = true → isKeyValid getKey
  create_key : ∀ h now, (create h now).key = getKey
  create_bytes : ∀ h now, (create h now).bytes = bytes
  createHint_key : ∀ h now old, old.key = getKey → (createHint h now old).key = getKey

/-- The pairs that a factory may leave: in fresh memory, or in place of a pair of its key. -/
def Factory.Leaves (factory : Factory) (h : factory.valid = true) (now : UInt64) (p : Pair) :
    Prop :=
  p = factory.create h now ∨ ∃ old, old.key = factory.getKey ∧ p = factory.createHint h now old

/-- The two strings behind the fixed fields, with their terminators. -/
def buffer (p : Pair) : Key := p.key ++ [0] ++ p.val ++ [0]

/-- Some octets written over others. -/
def writeAt (s : Key) (pos : ℕ) (data : Key) : Key :=
  s.take pos ++ data ++ s.drop (pos + data.length)

/-- The buffer after `createInRawMemoryFullVal`, which puts the value where it belongs
behind the new key and does not touch the old one. -/
def fullVal (old : Pair) (key val : Key) : Key := writeAt (buffer old) (key.length + 1) (val ++ [0])

/-- Behind a key of the same length the value replaces the value. -/
theorem fullVal_of_length {old : Pair} {key : Key} (val : Key)
    (h : old.key.length = key.length) :
    ∃ rest, fullVal old key val = old.key ++ ([0] ++ (val ++ ([0] ++ rest))) := by
  have htake : (buffer old).take (key.length + 1) = old.key ++ [0] := by
    have hb : buffer old = (old.key ++ [0]) ++ (old.val ++ [0]) := List.append_assoc _ _ _
    rw [hb]
    refine List.take_left' ?_
    rw [List.length_append, h, List.length_singleton]
  refine ⟨(buffer old).drop (key.length + 1 + (val ++ [0]).length), ?_⟩
  rw [fullVal, writeAt, htake]
  simp only [List.append_assoc]

/-- The pair that is read from a buffer; what lies behind it is taken as zero. -/
def ofBuffer (s : Key) (keylen vallen : ℕ) (expires : UInt32) (created : UInt64)
    (hk : 0 < keylen ∧ keylen ≤ maxKeySize) (hv : vallen ≤ maxValSize) : Pair where
  key := pad keylen s
  val := pad vallen (s.drop (keylen + 1))
  expires := expires.toNat
  created := created.toNat
  keyValid := by
    unfold isKeyValid
    rw [pad_length]
    exact hk
  valValid := by
    unfold isValValid
    rw [pad_length]
    exact hv
  expires_lt := expires.toNat_lt
  created_lt := created.toNat_lt

/-- A whole pair from its parts. -/
def full (key val : Key) (expires : UInt32) (created : UInt64) (hk : isKeyValid key)
    (hv : isValValid val) : Pair :=
  ⟨key, val, expires.toNat, created.toNat, hk, hv, expires.toNat_lt, created.toNat_lt⟩

/-- `createInRawMemoryNone`: only the two times change. -/
def withTimes (old : Pair) (expires : UInt32) (created : UInt64) : Pair :=
  { old with
    expires := expires.toNat, created := created.toNat
    expires_lt := expires.toNat_lt, created_lt := created.toNat_lt }

/-- `PairFactory::Normal`. -/
def normal (key val : Key) (expires created : UInt32) : Factory where
  getKey := key
  getCreated := created
  bytes := sizeofPair + key.length + val.length
  valid := isKeyValid key ∧ isValValid val
  create h now := full key val expires (prepareCreateTime created now)
    (of_decide_eq_true h).1 (of_decide_eq_true h).2
  createHint h now old := ofBuffer (fullVal old key val) old.key.length val.length expires
    (prepareCreateTime created now) old.keyValid (of_decide_eq_true h).2
  valid_key h := (of_decide_eq_true h).1
  create_key _ _ := rfl
  create_bytes _ _ := rfl
  createHint_key h now old hold := by
    obtain ⟨rest, hrest⟩ := fullVal_of_length val (congrArg List.length hold)
    unfold ofBuffer
    dsimp only
    rw [hrest, pad_eq_take (List.length_append ▸ Nat.le_add_right _ _), List.take_left' rfl, hold]

/-- `PairFactory::Expires`. -/
def expires (key val : Key) (expires created : UInt32) : Factory where
  getKey := key
  getCreated := created
  bytes := sizeofPair + key.length + val.length
  valid := isKeyValid key ∧ isValValid val
  create h now := full key val expires (prepareCreateTime created now)
    (of_decide_eq_true h).1 (of_decide_eq_true h).2
  createHint _ now old := withTimes old expires (prepareCreateTime created now)
  valid_key h := (of_decide_eq_true h).1
  create_key _ _ := rfl
  create_bytes _ _ := rfl
  createHint_key _ _ _ hold := hold

/-- `PairFactory::Tombstone`: in place only the mark is set. -/
def tombstone (key : Key) (created : UInt32) : Factory where
  getKey := key
  getCreated := created
  bytes := sizeofPair + key.length
  valid := isKeyValid key
  create h now := full key [] 0 (prepareCreateTime created now) (of_decide_eq_true h)
    (Nat.zero_le _)
  createHint _ now old := withTimes old 0xFFFFFFFF (prepareCreateTime created now)
  valid_key h := of_decide_eq_true h
  create_key _ _ := rfl
  create_bytes _ _ := rfl
  createHint_key _ _ _ hold := hold

/-- `PairFactory::Clone`: its creation time is the low half of the pair's. -/
def clone (src : Pair) : Factory where
  getKey := src.key
  getCreated := UInt32.ofNat src.created
  bytes := src.bytes
  valid := true
  create _ _ := src
  createHint _ _ _ := src
  valid_key _ := src.keyValid
  create_key _ _ := rfl
  create_bytes _ _ := rfl
  createHint_key _ _ _ _ := rfl

/-- In place of a pair with the same key, a normal factory leaves what it would write. -/
theorem normal_createHint {key val : Key} {exp created : UInt32} {old : Pair} (now : UInt64)
    (h : (normal key val exp created).valid = true) (hold : old.key = key) :
    (normal key val exp created).createHint h now old =
      (normal key val exp created).create h now := by
  obtain ⟨rest, hrest⟩ := fullVal_of_length val (congrArg List.length hold)
  have hkey : pad old.key.length (fullVal old key val) = key := by
    rw [hrest, pad_eq_take (List.length_append ▸ Nat.le_add_right _ _), List.take_left' rfl, hold]
  have hdrop : (fullVal old key val).drop (old.key.length + 1) = val ++ ([0] ++ rest) := by
    rw [hrest, ← List.append_assoc]
    refine List.drop_left' ?_
    rw [List.length_append, List.length_singleton]
  have hval : pad val.length ((fullVal old key val).drop (old.key.length + 1)) = val := by
    rw [hdrop, pad_eq_take (List.length_append ▸ Nat.le_add_right _ _), List.take_left' rfl]
  unfold normal
  dsimp only
  unfold ofBuffer full
  simp only [hkey, hval]

/-- In memory of its own or in place, a normal factory leaves the same. -/
theorem normal_leaves {key val : Key} {exp created : UInt32} {now : UInt64} {p : Pair}
    {h : (normal key val exp created).valid = true}
    (hp : (normal key val exp created).Leaves h now p) :
    p = (normal key val exp created).create h now := by
  rcases hp with rfl | ⟨old, hold, rfl⟩
  · rfl
  · exact normal_createHint now h hold

/-- A key and a value of one octet are valid. -/
theorem valid_normal (k v : Byte) (exp created : UInt32) :
    (normal [k] [v] exp created).valid = true :=
  have h : isKeyValid [k] ∧ isValValid [v] :=
    ⟨⟨Nat.one_pos, Nat.le_of_ble_eq_true rfl⟩, Nat.le_of_ble_eq_true rfl⟩
  decide_eq_true h

end HM4.PairFactory
