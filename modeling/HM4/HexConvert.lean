import HM4.Bytes
import HM4.General.FixedNumeral

/-!
# Hexadecimal text

A number of a machine type is written with all its digits, so that the texts are ordered like the
numbers, and it is read back from its text.
-/

namespace HM4.HexConvert

open Bytes BitVec FixedNumeral

/-! ## The code -/

/-- `options`. -/
structure Options where
  terminate : Bool
  uppercase : Bool

/-- The digits from zero to fifteen. -/
def digitsOf (uppercase : Bool) : Key :=
  if uppercase = true then [48, 49, 50, 51, 52, 53, 54, 55, 56, 57, 65, 66, 67, 68, 69, 70]
  else [48, 49, 50, 51, 52, 53, 54, 55, 56, 57, 97, 98, 99, 100, 101, 102]

/-- `sizeof(T) * 2` of a type with so many bits. -/
def hexSize (T : ℕ) : ℕ := T / 8 * 2

/-- What `toHex` writes into a buffer. -/
def writeHex (opt : Options) {T : ℕ} (number : BitVec T) (buffer : Key) : Key :=
  let size := hexSize T
  let buffer := if opt.terminate = true then buffer.set size 0 else buffer
  (List.range size).foldl (fun buffer i =>
    let index := (number >>> (4 * i)) &&& 0xF#T
    buffer.set (size - 1 - i) ((digitsOf opt.uppercase).getD index.toNat 0)) buffer

/-- `toHex`: the digits in the buffer. -/
def toHex (opt : Options) {T : ℕ} (number : BitVec T) (buffer : Key) : Key :=
  (writeHex opt number buffer).take (hexSize T)

/-- The number of a digit; other letters count as zero. -/
def nibble (c : Byte) : ℕ :=
  if 48 ≤ c.val ∧ c.val ≤ 57 then c.val - 48
  else if 65 ≤ c.val ∧ c.val ≤ 70 then c.val - 55
  else if 97 ≤ c.val ∧ c.val ≤ 102 then c.val - 87
  else 0

/-- `fromHex`. -/
def fromHex (T : ℕ) (hex : Key) : BitVec T :=
  hex.foldl (fun val c => (val <<< 4) ||| BitVec.ofNat T (nibble c)) 0#T

/-! ## The text of a number -/

/-- A digit as a letter. -/
def letter (uppercase : Bool) (d : ℕ) : Byte := (digitsOf uppercase).getD d 0

theorem letter_lt_iff (uppercase : Bool) :
    ∀ d < 16, ∀ e < 16, letter uppercase d < letter uppercase e ↔ d < e := by
  cases uppercase <;> decide

theorem nibble_letter (uppercase : Bool) : ∀ d < 16, nibble (letter uppercase d) = d := by
  cases uppercase <;> decide

theorem length_foldl_set {α : Type*} (f : ℕ → α) (p : ℕ → ℕ) (l : List ℕ) (buffer : List α) :
    (l.foldl (fun buffer i => buffer.set (p i) (f i)) buffer).length = buffer.length := by
  induction l generalizing buffer with
  | nil => rfl
  | cons i l ih => rw [List.foldl_cons, ih, List.length_set]

/-- The digits after the first turns of the loop. -/
theorem getElem?_foldl_set {α : Type*} (f : ℕ → α) {size : ℕ} (buffer : List α)
    (h : size ≤ buffer.length) {m j : ℕ} (hm : m ≤ size) (hj : j < size) :
    ((List.range m).foldl (fun buffer i => buffer.set (size - 1 - i) (f i)) buffer)[j]? =
      if size - 1 - j < m then some (f (size - 1 - j)) else buffer[j]? := by
  induction m with
  | zero => rw [if_neg (Nat.not_lt_zero _)]; rfl
  | succ m ih =>
    rw [List.range_succ, List.foldl_append, List.foldl_cons, List.foldl_nil]
    by_cases hjm : size - 1 - m = j
    · have hmj : size - 1 - j = m := by omega
      rw [hjm, hmj, List.getElem?_set_self (by rw [length_foldl_set]; omega), if_pos (Nat.lt_succ_self m)]
    · rw [List.getElem?_set_ne hjm, ih (by omega)]
      by_cases hlt : size - 1 - j < m
      · rw [if_pos hlt, if_pos (by omega)]
      · rw [if_neg hlt, if_neg (by omega)]

/-- The text does not depend on the buffer: it is the numeral of the number with all digits. -/
theorem toHex_eq (opt : Options) {T : ℕ} (hT : 8 ∣ T) (number : BitVec T) {buffer : Key}
    (h : hexSize T ≤ buffer.length) :
    toHex opt number buffer =
      (digits 16 (hexSize T) number.toNat).map (letter opt.uppercase) := by
  have hbuffer : (if opt.terminate = true then buffer.set (hexSize T) 0 else buffer).length =
      buffer.length := by
    split
    · exact List.length_set
    · rfl
  refine List.ext_getElem? fun j => ?_
  unfold toHex writeHex
  by_cases hj : j < hexSize T
  · have hfold := getElem?_foldl_set
      (fun i => (digitsOf opt.uppercase).getD ((number >>> (4 * i)) &&& 0xF#T).toNat 0)
      (if opt.terminate = true then buffer.set (hexSize T) 0 else buffer) (hbuffer ▸ h) le_rfl hj
    have hpow : (2 : ℕ) ^ (4 * (hexSize T - 1 - j)) = 16 ^ (hexSize T - 1 - j) := by
      rw [Nat.pow_mul]
    have hmask : (number >>> (4 * (hexSize T - 1 - j)) &&& 0xF#T).toNat =
        number.toNat / 16 ^ (hexSize T - 1 - j) % 16 := by
      have hwide : 4 ≤ T := by
        unfold hexSize at hj
        omega
      have hlt : (15 : ℕ) < 2 ^ T :=
        lt_of_lt_of_le (by decide) (Nat.pow_le_pow_right Nat.two_pos hwide)
      have hfifteen : (0xF#T).toNat = 2 ^ 4 - 1 :=
        (BitVec.toNat_ofNat 15 T).trans (Nat.mod_eq_of_lt hlt)
      rw [toNat_and, hfifteen, Nat.and_two_pow_sub_one_eq_mod, toNat_ushiftRight,
        Nat.shiftRight_eq_div_pow, hpow]
    rw [List.getElem?_take_of_lt hj, hfold, if_pos (by omega), List.getElem?_map,
      getElem?_digits hj, hmask]
    rfl
  · rw [List.getElem?_eq_none (by rw [List.length_take]; omega),
      List.getElem?_eq_none (by rw [List.length_map, length_digits]; omega)]

/-- One step of `fromHex`. -/
theorem shift_or (T a : ℕ) {d : ℕ} (hd : d < 16) :
    (BitVec.ofNat T a <<< 4) ||| BitVec.ofNat T d = BitVec.ofNat T (a * 16 + d) := by
  have hand : (BitVec.ofNat T a <<< 4) &&& BitVec.ofNat T d = 0#T := by
    refine eq_of_getLsbD_eq fun i hi => ?_
    rw [getLsbD_and, getLsbD_shiftLeft, getLsbD_zero]
    by_cases hi4 : i < 4
    · rw [decide_eq_true hi4, Bool.not_true, Bool.and_false, Bool.false_and, Bool.false_and]
    · have hbit : d.testBit i = false :=
        Nat.testBit_lt_two_pow (lt_of_lt_of_le hd
          (Nat.pow_le_pow_right (n := 2) Nat.two_pos (Nat.not_lt.mp hi4)))
      have hzero : (BitVec.ofNat T d).getLsbD i = false := by
        rw [getLsbD_ofNat, hbit, Bool.and_false]
      rw [hzero, Bool.and_false]
  rw [← BitVec.add_eq_or_of_and_eq_zero _ _ hand]
  refine eq_of_toNat_eq ?_
  rw [toNat_add, toNat_shiftLeft, toNat_ofNat, toNat_ofNat, toNat_ofNat, Nat.shiftLeft_eq,
    Nat.mod_add_mod, Nat.add_mod_mod]
  have hmod : a % 2 ^ T * 2 ^ 4 % 2 ^ T = a * 16 % 2 ^ T := Nat.mod_mul_mod a (2 ^ 4) (2 ^ T)
  rw [Nat.add_mod, hmod, ← Nat.add_mod]

/-- `fromHex` reads letters as the number of their digits. -/
theorem fromHex_map (T : ℕ) (uppercase : Bool) {ds : List ℕ} (hds : ∀ d ∈ ds, d < 16) :
    fromHex T (ds.map (letter uppercase)) = BitVec.ofNat T (value 16 ds) := by
  have hfold : ∀ a, (ds.map (letter uppercase)).foldl
      (fun (val : BitVec T) c => (val <<< 4) ||| BitVec.ofNat T (nibble c)) (BitVec.ofNat T a) =
      BitVec.ofNat T (ds.foldl (fun v d => v * 16 + d) a) := by
    induction ds with
    | nil => exact fun a => rfl
    | cons d ds ih =>
      intro a
      obtain ⟨hd, hds'⟩ := List.forall_mem_cons.mp hds
      rw [List.map_cons, List.foldl_cons, List.foldl_cons, nibble_letter uppercase d hd,
        shift_or T a hd]
      exact ih hds' (a * 16 + d)
  exact hfold 0

theorem hexSize_pow {T : ℕ} (hT : 8 ∣ T) : 16 ^ hexSize T = 2 ^ T := by
  obtain ⟨k, rfl⟩ := hT
  rw [hexSize, Nat.mul_div_cancel_left k (by decide), show 16 = 2 ^ 4 from rfl, ← Nat.pow_mul]
  congr 1
  omega

section Text

variable (opt : Options) {T : ℕ} (hT : 8 ∣ T) {buffer buffer' : Key}

include hT

/-- The text has a fixed width. -/
theorem length_toHex (number : BitVec T) (h : hexSize T ≤ buffer.length) :
    (toHex opt number buffer).length = hexSize T := by
  rw [toHex_eq opt hT number h, List.length_map, length_digits]

/-- The texts are ordered like the numbers. -/
theorem toHex_lt_iff (m n : BitVec T) (h : hexSize T ≤ buffer.length)
    (h' : hexSize T ≤ buffer'.length) :
    toHex opt m buffer < toHex opt n buffer' ↔ m < n := by
  rw [toHex_eq opt hT m h, toHex_eq opt hT n h',
    map_digits_lt_iff (letter_lt_iff opt.uppercase) (by decide), hexSize_pow hT,
    Nat.mod_eq_of_lt m.isLt, Nat.mod_eq_of_lt n.isLt, BitVec.lt_def]

/-- A number is read back from its text. -/
theorem fromHex_toHex (number : BitVec T) (h : hexSize T ≤ buffer.length) :
    fromHex T (toHex opt number buffer) = number := by
  rw [toHex_eq opt hT number h, fromHex_map T opt.uppercase (digit_lt (by decide)), value_digits,
    hexSize_pow hT, Nat.mod_eq_of_lt number.isLt, ofNat_toNat, setWidth_eq]

end Text

end HM4.HexConvert
