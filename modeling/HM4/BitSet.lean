import HM4.VFactory
import Mathlib.Data.Set.Card

/-!
# Bit vectors

A value is read as a vector of bits, eight to an octet, with zeros behind its end. The
write commands let the value grow as far as a position needs. The read commands look at the
octet of a position; every read of an octet is explicit, so that a read behind the end of the
value would show as no result at all.
-/

namespace HM4.BitSet

open LexPrefix Bytes Pairs PairFactory MemList KeyedList Database VFactory

/-! ## Bits of a buffer -/

/-- `BitOps`: the octet and the mask of a position. -/
structure BitOps where
  /-- `n_byte`. -/
  nByte : ℕ
  /-- `n_mask`. -/
  nMask : ℕ

/-- The constructor of `BitOps`. -/
def bitOps (n : ℕ) : BitOps := ⟨n / 8, 1 <<< (n % 8)⟩

/-- `BitOps::size()`. -/
def BitOps.size (b : BitOps) : ℕ := b.nByte + 1

/-- `BitOps::set`. -/
def BitOps.set (b : BitOps) (data : Key) (bit : Bool) : Key :=
  data.modify b.nByte fun x =>
    if bit = true then Fin.ofNat 256 (x.val ||| b.nMask) else Fin.ofNat 256 (x.val &&& (255 - b.nMask))

/-- `BitOps::get`. -/
def BitOps.get (b : BitOps) (data : Key) : Option Bool :=
  data[b.nByte]?.map fun x => x.val &&& b.nMask ≠ 0

/-- `BitOps::max_bits`. -/
def maxBits (bufferSize : ℕ) : ℕ := bufferSize * 8

/-- `BitOps::size(n)`. -/
def bitsSize (n : ℕ) : ℕ := n / 8 + 1

/-- `BIT_MAX`. -/
def BIT_MAX : ℕ := maxBits maxValSize

/-- The bit at a position of a value. -/
def bitAt (v : Key) (n : ℕ) : Bool := (v[n / 8]?).elim false fun x => x.val.testBit (n % 8)

theorem one_shiftLeft (i : ℕ) : 1 <<< i = 2 ^ i := by rw [Nat.shiftLeft_eq, Nat.one_mul]

theorem bitAt_of_le {v : Key} {n : ℕ} (h : v.length ≤ n / 8) : bitAt v n = false := by
  rw [bitAt, List.getElem?_eq_none h]
  rfl

/-- A bit of an octet, set or cleared. -/
theorem testBit_set (x : Byte) {i : ℕ} (hi : i < 8) (bit : Bool) {j : ℕ} (hj : j < 8) :
    (if bit = true then Fin.ofNat 256 (x.val ||| 2 ^ i)
      else Fin.ofNat 256 (x.val &&& (255 - 2 ^ i))).val.testBit j =
      if j = i then bit else x.val.testBit j := by
  have hmask : 255 - 2 ^ i = 2 ^ 8 - (2 ^ i + 1) := by omega
  have hlt : 2 ^ i < 2 ^ 8 := Nat.pow_lt_pow_right Nat.one_lt_two hi
  have hmod : ∀ y : ℕ, (Fin.ofNat 256 y).val.testBit j = y.testBit j := fun y => by
    rw [Fin.val_ofNat, show 256 = 2 ^ 8 from rfl, Nat.testBit_mod_two_pow, decide_eq_true hj,
      Bool.true_and]
  cases bit with
  | true =>
    rw [if_pos rfl, hmod, Nat.testBit_or, Nat.testBit_two_pow]
    by_cases hji : j = i
    · rw [if_pos hji, decide_eq_true hji.symm, Bool.or_true]
    · rw [if_neg hji, decide_eq_false (Ne.symm hji), Bool.or_false]
  | false =>
    rw [if_neg Bool.false_ne_true, hmod, Nat.testBit_and, hmask, Nat.testBit_two_pow_sub_succ hlt,
      decide_eq_true hj, Bool.true_and, Nat.testBit_two_pow]
    by_cases hji : j = i
    · rw [if_pos hji, decide_eq_true hji.symm, Bool.not_true, Bool.and_false]
    · rw [if_neg hji, decide_eq_false (Ne.symm hji), Bool.not_false, Bool.and_true]

theorem length_set (b : BitOps) (data : Key) (bit : Bool) : (b.set data bit).length = data.length :=
  List.length_modify _ _ _

/-- A write changes one bit. -/
theorem bitAt_set {data : Key} {n : ℕ} (h : n / 8 < data.length) (bit : Bool) (m : ℕ) :
    bitAt ((bitOps n).set data bit) m = if m = n then bit else bitAt data m := by
  unfold bitAt BitOps.set bitOps
  dsimp only
  rw [List.getElem?_modify, one_shiftLeft]
  by_cases hbyte : n / 8 = m / 8
  · have hm : m / 8 < data.length := hbyte ▸ h
    rw [List.getElem?_eq_getElem hm]
    simp only [hbyte, if_true, Option.map_eq_map, Option.map_some, Option.elim_some]
    rw [testBit_set _ (Nat.mod_lt _ (by decide)) _ (Nat.mod_lt _ (by decide))]
    have hiff : m % 8 = n % 8 ↔ m = n := by omega
    simp only [hiff]
  · have hne : m ≠ n := fun hc => hbyte (hc ▸ rfl)
    simp only [hbyte, if_false, hne, id_map']

/-- A read inside the value. -/
theorem get_of_lt {data : Key} {n : ℕ} (h : n / 8 < data.length) :
    (bitOps n).get data = some (bitAt data n) := by
  unfold BitOps.get bitOps bitAt
  dsimp only
  rw [List.getElem?_eq_getElem h, Option.map_some, Option.elim_some, one_shiftLeft,
    Nat.and_two_pow]
  congr 1
  cases (data[n / 8]).val.testBit (n % 8) with
  | true => exact decide_eq_true (by rw [Bool.toNat_true, Nat.one_mul]; positivity)
  | false => exact decide_eq_false (by rw [Bool.toNat_false, Nat.zero_mul]; exact not_not.mpr rfl)

/-- A read behind the end of the value. -/
theorem get_of_le {data : Key} {n : ℕ} (h : data.length ≤ n / 8) : (bitOps n).get data = none := by
  unfold BitOps.get bitOps
  dsimp only
  rw [List.getElem?_eq_none h]
  rfl

/-- A value that grows keeps its bits. -/
theorem bitAt_copyPair {valSize : ℕ} {oldPair : Option Pair}
    (h : ∀ p ∈ oldPair, p.val.length ≤ valSize) (n : ℕ) :
    bitAt (copyPair valSize oldPair) n = oldPair.elim false fun p => bitAt p.val n := by
  have hzero : ∀ k : ℕ, (((List.replicate k FILL)[n / 8]?).elim false
      fun x : Byte => x.val.testBit (n % 8)) = false := fun k => by
    rw [List.getElem?_replicate]
    split
    · exact Nat.zero_testBit _
    · rfl
  cases oldPair with
  | none => exact hzero valSize
  | some p =>
    rw [copyPair, smartMemcpy, if_pos (h p rfl), Option.elim_some, bitAt, bitAt]
    by_cases hn : n / 8 < p.val.length
    · rw [List.getElem?_append_left hn]
    · rw [List.getElem?_append_right (Nat.not_lt.mp hn),
        List.getElem?_eq_none (Nat.not_lt.mp hn), List.getElem?_replicate]
      split
      · exact Nat.zero_testBit _
      · rfl

/-! ## The commands -/

/-- What a command finds out about its surroundings: whether the pair of the key lies in the
memory of the list, the time when the pair is looked at and the time when it is written. -/
structure Env where
  /-- `owns`. -/
  owned : Bool
  /-- The clock at `isOK`. -/
  check : UInt64
  /-- The clock at the writing of the pair. -/
  write : UInt64

/-- The positions and bits among parameters. -/
def positions : List Key → List (ℕ × Bool)
  | n :: bit :: args => (fromString 64 n 0, fromString 64 bit 0 ≠ 0) :: positions args
  | _ => []

/-- `getBytes__`: whether a position is accepted, and the size that the accepted ones need. -/
def getBytes (args : List Key) : Bool × ℕ :=
  let (ok, max) := (positions args).foldl
    (fun (ok, max) (n, _) => if n < BIT_MAX then (true, Nat.max max n) else (ok, max)) (false, 0)
  (ok, bitsSize max)

/-- One turn of the loop in `BITSET_Factory::action`. -/
def setBit (data : Key) (x : ℕ × Bool) : Key :=
  if x.1 ≥ BIT_MAX then data else (bitOps x.1).set data x.2

theorem length_setBit (data : Key) (x : ℕ × Bool) : (setBit data x).length = data.length := by
  unfold setBit
  split
  · rfl
  · exact length_set _ _ _

theorem length_foldl_setBit (xs : List (ℕ × Bool)) (data : Key) :
    (xs.foldl setBit data).length = data.length := by
  induction xs generalizing data with
  | nil => rfl
  | cons x xs ih => exact (ih _).trans (length_setBit data x)

/-- `BITSET_Factory::action`. -/
def action (args : List Key) : Action where
  run data := (positions args).foldl setBit data
  length_run data := length_foldl_setBit _ data

/-- `BITSET`. -/
def bitset (env : Env) (p : List Key) (db : Db) : Reply × Db :=
  match p with
  | _ :: key :: args =>
    if p.length < 4 ∨ (p.length - 2) % 2 ≠ 0 then (.error .NEED_GROUP_PARAMS_3, db)
    else if ¬isKeyValid key then (.error .EMPTY_KEY, db)
    else
      let (ok, bytes) := getBytes args
      if ¬ok then (.error .INTERNAL_ERROR, db)
      else
        let pair := getPairPtr env.check key db
        let valSize := max bytes (pair.elim 0 fun q => q.val.length)
        let factory := iFactoryAction (action args) key valSize pair
        (.ok, insertHintVFactory env.owned pair factory env.write db)
  | _ => (.error .NEED_GROUP_PARAMS_3, db)

/-- `BITGET`. -/
def bitget (now : UInt64) (p : List Key) (db : Db) : Option Reply :=
  match p with
  | [_, key, n] =>
    if ¬isKeyValid key then some (.error .EMPTY_KEY)
    else
      let bitops := bitOps (fromString 64 n 0)
      match (getPairPtr now key db).filter fun q => bitops.size ≤ q.val.length with
      | some q => (bitops.get q.val).map .bool
      | none => some (.number 0)
  | _ => some (.error .NEED_EXACT_PARAMS_2)

/-- A bit as text. -/
def bitText (b : Bool) : Key := if b = true then [49] else [48]

/-- `BITMGET`, which does not ask for the size of the value. -/
def bitmget (now : UInt64) (p : List Key) (db : Db) : Option Reply :=
  match p with
  | _ :: key :: args =>
    if p.length < 3 then some (.error .NEED_MORE_PARAMS_2)
    else if ¬isKeyValid key then some (.error .EMPTY_KEY)
    else
      match getPairPtr now key db with
      | some q => do
        let container ← args.mapM fun n => ((bitOps (fromString 64 n 0)).get q.val).map bitText
        return .container container
      | none => some (.container (List.replicate (p.length - 2) [48]))
  | _ => some (.error .NEED_MORE_PARAMS_2)

/-- `__builtin_popcount` of a number of so many bits. -/
def popcount (bits x : ℕ) : ℕ := (List.range bits).countP fun i => x.testBit i

/-- A word of eight octets, loaded from a place in the value. -/
def word64 (v : Key) (i : ℕ) : Option ℕ :=
  if 8 * i + 8 ≤ v.length then some (leValue ((v.drop (8 * i)).take 8)) else none

/-- The loops of `BITCOUNT` over the words and over the octets behind them. -/
def count (v : Key) : Option ℕ := do
  let size64 := v.length / 8
  let count ← (List.range size64).foldlM
    (fun count i => (word64 v i).map fun w => count + popcount 64 w) 0
  (List.range (v.length % 8)).foldlM
    (fun count i => v[8 * size64 + i]?.map fun x => count + popcount 8 x.val) count

/-- `BITCOUNT`. -/
def bitcount (now : UInt64) (p : List Key) (db : Db) : Option Reply :=
  match p with
  | [_, key] =>
    if ¬isKeyValid key then some (.error .EMPTY_KEY)
    else
      let val := (getPairPtr now key db).elim [] Pair.val
      if val ≠ [] then (count val).map .number else some (.number 0)
  | _ => some (.error .NEED_EXACT_PARAMS_1)

end HM4.BitSet
