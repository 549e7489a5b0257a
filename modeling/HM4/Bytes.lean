import HM4.General.LexPrefix
import Mathlib.Data.Nat.Bitwise
import Mathlib.Order.Fin.Basic
import Mathlib.Tactic.Linarith

/-!
# Octets, keys and machine words

A key is a string of octets. The same octet is read in two ways: through plain
`char`, which is signed on the x86-64 target, and as part of an unsigned word
that is loaded with the low octet first. Word arithmetic finds the first octet
in which two equally long blocks differ.
-/

namespace HM4.Bytes

open LexPrefix

/-- One octet as it lies in memory. -/
abbrev Byte := Fin 256

/-- A key or a value: a string of octets. -/
abbrev Key := List Byte

instance neZero_byte : NeZero 256 := ⟨by decide⟩

/-- The least octet, which fills a short key up. -/
instance orderBot_byte : OrderBot Byte where
  bot := 0
  bot_le b := Fin.zero_le b

/-- An octet read through plain `char`. -/
def charValue (b : Byte) : ℤ :=
  if b.val < 128 then b.val else (b.val : ℤ) - 256

/-- Both octets have the same sign when they are read through plain `char`. -/
def SameHalf (a b : Byte) : Prop := a.val < 128 ↔ b.val < 128

instance (a b : Byte) : Decidable (SameHalf a b) :=
  inferInstanceAs (Decidable (a.val < 128 ↔ b.val < 128))

theorem sameHalf_refl (a : Byte) : SameHalf a a := Iff.rfl

/-- Comparison through plain `char` is the comparison of octets within each
half of their range. -/
theorem cmp_charValue (a b : Byte) :
    cmp (charValue a) (charValue b) = cmp a b ↔ SameHalf a b := by
  unfold charValue SameHalf
  rcases lt_trichotomy a b with h | rfl | h
  · rw [h.cmp_eq_lt, cmp_eq_lt_iff]
    have hv : a.val < b.val := h
    split <;> split <;> omega
  · rw [cmp_self_eq_eq, cmp_self_eq_eq]
    exact iff_of_true rfl Iff.rfl
  · rw [h.cmp_eq_gt, cmp_eq_gt_iff]
    have hv : b.val < a.val := h
    split <;> split <;> omega

/-- The octet at an index; the index is in range wherever the code reads. -/
def byteAt (s : Key) (i : ℕ) : Byte := s.getD i 0

/-- At the end of the common prefix the octets decide the comparison. -/
theorem lex_eq_byteAt {a b : Key} (ha : lcp a b < a.length) (hb : lcp a b < b.length) :
    lex a b = cmp (byteAt a (lcp a b)) (byteAt b (lcp a b)) ∧
      byteAt a (lcp a b) ≠ byteAt b (lcp a b) := by
  induction a generalizing b with
  | nil => exact absurd ha (Nat.not_lt_zero _)
  | cons x a ih =>
    cases b with
    | nil => exact absurd hb (Nat.not_lt_zero _)
    | cons y b =>
      rw [lcp] at ha hb ⊢
      by_cases hxy : x = y
      · subst hxy
        rw [if_pos rfl] at ha hb ⊢
        rw [lex_cons_self]
        exact ih (Nat.lt_of_succ_lt_succ ha) (Nat.lt_of_succ_lt_succ hb)
      · rw [if_neg hxy, lex_cons_of_ne hxy]
        exact ⟨rfl, hxy⟩

/-- The value of a block loaded with its first octet lowest. -/
def leValue : Key → ℕ
  | [] => 0
  | b :: bs => b.val + 256 * leValue bs

/-- The value of a block loaded with its first octet highest. -/
def beValue : Key → ℕ
  | [] => 0
  | b :: bs => b.val * 256 ^ bs.length + beValue bs

theorem beValue_lt (s : Key) : beValue s < 256 ^ s.length := by
  induction s with
  | nil => simp [beValue]
  | cons b bs ih =>
    have hb : b.val + 1 ≤ 256 := b.isLt
    have hm := Nat.mul_le_mul_right (256 ^ bs.length) hb
    rw [beValue, List.length_cons, pow_succ]
    rw [Nat.add_mul] at hm
    omega

/-- Equally long blocks have equal loaded values only if they are equal. -/
theorem leValue_injective {a b : Key} (hl : a.length = b.length)
    (h : leValue a = leValue b) : a = b := by
  induction a generalizing b with
  | nil => exact (List.length_eq_zero_iff.mp hl.symm).symm
  | cons x a ih =>
    cases b with
    | nil => exact absurd hl (Nat.succ_ne_zero _)
    | cons y b =>
      rw [leValue, leValue] at h
      have hx := x.isLt
      have hy := y.isLt
      have hxy : x = y := Fin.ext (by omega)
      rw [hxy, ih (Nat.succ.inj hl) (by omega)]

/-- High-octet-first values of equally long blocks are ordered as the blocks are. -/
theorem cmp_beValue {a b : Key} (hl : a.length = b.length) :
    cmp (beValue a) (beValue b) = lex a b := by
  induction a generalizing b with
  | nil => rw [List.length_eq_zero_iff.mp hl.symm, lex_nil_nil, cmp_self_eq_eq]
  | cons x a ih =>
    cases b with
    | nil => exact absurd hl (Nat.succ_ne_zero _)
    | cons y b =>
      have hlt : a.length = b.length := Nat.succ.inj hl
      have ha := beValue_lt a
      have hb := beValue_lt b
      rw [beValue, beValue]
      rw [hlt] at ha ⊢
      rcases lt_trichotomy x y with h | rfl | h
      · have hm : (x.val + 1) * 256 ^ b.length ≤ y.val * 256 ^ b.length :=
          Nat.mul_le_mul_right _ h
        rw [lex_cons_of_ne h.ne, h.cmp_eq_lt, cmp_eq_lt_iff]
        rw [Nat.add_mul] at hm
        omega
      · rw [lex_cons_self, ← ih hlt]
        cases hc : cmp (beValue a) (beValue b) with
        | lt => rw [cmp_eq_lt_iff] at hc ⊢; omega
        | eq => rw [cmp_eq_eq_iff] at hc ⊢; omega
        | gt => rw [cmp_eq_gt_iff] at hc ⊢; omega
      · have hm : (y.val + 1) * 256 ^ b.length ≤ x.val * 256 ^ b.length :=
          Nat.mul_le_mul_right _ h
        rw [lex_cons_of_ne h.ne', h.cmp_eq_gt, cmp_eq_gt_iff]
        rw [Nat.add_mul] at hm
        omega

theorem beValue_append (a b : Key) :
    beValue (a ++ b) = beValue a * 256 ^ b.length + beValue b := by
  induction a with
  | nil => simp [beValue]
  | cons x a ih =>
    rw [List.cons_append, beValue, beValue, ih, List.length_append, pow_add, Nat.add_mul,
      Nat.mul_assoc, Nat.add_assoc]

/-- Reversal turns one byte order into the other. -/
theorem leValue_reverse (s : Key) : leValue s.reverse = beValue s := by
  obtain ⟨t, rfl⟩ : ∃ t : Key, s = t.reverse := ⟨s.reverse, s.reverse_reverse.symm⟩
  rw [List.reverse_reverse]
  induction t with
  | nil => rfl
  | cons b t ih =>
    rw [leValue, ih, List.reverse_cons, beValue_append]
    simp only [beValue, List.length_singleton, List.length_nil]
    omega

/-- The last octet is the low part of the high-octet-first value. -/
theorem beValue_mod {s : Key} {b : Byte} (h : s.getLast? = some b) :
    beValue s % 256 = b.val := by
  obtain ⟨t, rfl⟩ := List.getLast?_eq_some_iff.mp h
  have hb := b.isLt
  rw [beValue_append]
  simp only [beValue, List.length_singleton, List.length_nil]
  omega

/-- The octets of a word, low octet first. -/
def leBytes : ℕ → ℕ → Key
  | 0, _ => []
  | n + 1, x => ⟨x % 256, Nat.mod_lt _ (by decide)⟩ :: leBytes n (x / 256)

theorem leBytes_leValue {n : ℕ} {s : Key} (h : s.length = n) : leBytes n (leValue s) = s := by
  induction s generalizing n with
  | nil => rw [← h]; rfl
  | cons b bs ih =>
    obtain ⟨m, rfl⟩ : ∃ m, n = m + 1 := ⟨bs.length, h.symm⟩
    have hb := b.isLt
    have hm : (b.val + 256 * leValue bs) % 256 = b.val := by omega
    have hd : (b.val + 256 * leValue bs) / 256 = leValue bs := by omega
    simp only [leBytes, leValue, hm, hd, Fin.eta, ih (Nat.succ.inj h)]

/-- `byteswap`: the octets of an `n`-octet word in opposite order. -/
def byteswap (n x : ℕ) : ℕ := leValue (leBytes n x).reverse

/-- `betoh` on a little-endian host. -/
def betoh (n x : ℕ) : ℕ := byteswap n x

/-- `htobe` on a little-endian host. -/
def htobe (n x : ℕ) : ℕ := byteswap n x

/-- A block loaded on the host and swapped is read high octet first. -/
theorem betoh_leValue {n : ℕ} {s : Key} (h : s.length = n) :
    betoh n (leValue s) = beValue s := by
  rw [betoh, byteswap, leBytes_leValue h, leValue_reverse]

theorem leBytes_length (n x : ℕ) : (leBytes n x).length = n := by
  induction n generalizing x with
  | zero => rfl
  | succ n ih => rw [leBytes, List.length_cons, ih]

theorem leValue_leBytes {n x : ℕ} (h : x < 256 ^ n) : leValue (leBytes n x) = x := by
  induction n generalizing x with
  | zero => exact (Nat.lt_one_iff.mp h).symm
  | succ n ih =>
    have hd : x / 256 < 256 ^ n := by
      rw [pow_succ] at h
      exact Nat.div_lt_of_lt_mul (by rwa [Nat.mul_comm] at h)
    rw [leBytes, leValue, ih hd]
    exact Nat.mod_add_div x 256

/-- The octets of a number as the files hold them: `htobe`, then memory order. -/
def storeBE (n x : ℕ) : Key := leBytes n (htobe n x)

/-- A number read from a file: memory order, then `betoh`. -/
def loadBE (n : ℕ) (s : Key) : ℕ := betoh n (leValue s)

@[simp] theorem storeBE_length (n x : ℕ) : (storeBE n x).length = n := leBytes_length n _

/-- What was stored in enough octets is read back. -/
theorem loadBE_storeBE {n x : ℕ} (h : x < 256 ^ n) : loadBE n (storeBE n x) = x := by
  have hr : ((leBytes n x).reverse).length = n := by rw [List.length_reverse, leBytes_length]
  rw [loadBE, betoh_leValue (storeBE_length n x), storeBE, htobe, byteswap, leBytes_leValue hr,
    ← leValue_reverse, List.reverse_reverse, leValue_leBytes h]

/-- `__builtin_ctzll`: trailing zero bits among the low `n` bits. -/
def ctz : ℕ → ℕ → ℕ
  | 0, _ => 0
  | n + 1, x => if x % 2 = 1 then 0 else ctz n (x / 2) + 1

theorem ctz_two_mul (n x : ℕ) : ctz (n + 1) (2 * x) = ctz n x + 1 := by
  have hm : 2 * x % 2 ≠ 1 := by omega
  have hd : 2 * x / 2 = x := by omega
  rw [ctz, if_neg hm, hd]

theorem ctz_mul_byte (n x : ℕ) : ctz (n + 8) (256 * x) = ctz n x + 8 := by
  have h : 256 * x = 2 * (2 * (2 * (2 * (2 * (2 * (2 * (2 * x))))))) := by omega
  rw [h]
  simp only [ctz_two_mul]

/-- A word whose low `k` bits are not all clear has fewer than `k` trailing zeros. -/
theorem ctz_lt {n x k : ℕ} (h : x % 2 ^ k ≠ 0) : ctz n x < k := by
  induction k generalizing n x with
  | zero => exact absurd (Nat.mod_one x) h
  | succ k ih =>
    cases n with
    | zero => exact Nat.succ_pos k
    | succ n =>
      rw [ctz]
      split
      · exact Nat.succ_pos k
      · next hodd =>
        have hx : x = 2 * (x / 2) := by omega
        have hd : x / 2 % 2 ^ k ≠ 0 := by
          intro hz
          rw [hx, pow_succ, Nat.mul_comm (2 ^ k), Nat.mul_mod_mul_left, hz] at h
          exact h rfl
        exact Nat.succ_lt_succ (ih hd)

/-- `firstDifferentByte`: the index of the lowest octet with a bit set. -/
def firstDifferentByte (a : ℕ) : ℕ := ctz 64 a >>> 3

/-- The exclusive or of two loaded blocks, one octet at a time. -/
theorem xor_leValue_cons (x y : Byte) (a b : Key) :
    leValue (x :: a) ^^^ leValue (y :: b) =
      (x.val ^^^ y.val) + 256 * (leValue a ^^^ leValue b) := by
  have hx := x.isLt
  have hy := y.isLt
  have hm : (leValue (x :: a) ^^^ leValue (y :: b)) % 2 ^ 8 = x.val ^^^ y.val := by
    rw [Nat.xor_mod_two_pow, leValue, leValue]
    congr 1 <;> omega
  have hd : (leValue (x :: a) ^^^ leValue (y :: b)) / 2 ^ 8 = leValue a ^^^ leValue b := by
    rw [Nat.xor_div_two_pow, leValue, leValue]
    congr 1 <;> omega
  omega

/-- For different blocks the lowest set bit of their exclusive or lies in the
first octet in which they differ. -/
theorem ctz_xor_leValue {n : ℕ} {a b : Key} (hl : a.length = b.length)
    (hn : 8 * a.length ≤ n) (hne : a ≠ b) :
    ctz n (leValue a ^^^ leValue b) / 8 = lcp a b := by
  induction a generalizing b n with
  | nil => exact absurd (List.length_eq_zero_iff.mp hl.symm).symm hne
  | cons x a ih =>
    cases b with
    | nil => exact absurd hl (Nat.succ_ne_zero _)
    | cons y b =>
      have hx := x.isLt
      have hy := y.isLt
      rw [xor_leValue_cons, lcp]
      by_cases hxy : x = y
      · subst hxy
        rw [List.length_cons] at hn
        obtain ⟨m, rfl⟩ : ∃ m, n = m + 8 := ⟨n - 8, by omega⟩
        have hab : a ≠ b := fun h => hne (by rw [h])
        have hm : 8 * a.length ≤ m := by omega
        rw [if_pos rfl, Nat.xor_self, Nat.zero_add, ctz_mul_byte, ← ih (Nat.succ.inj hl) hm hab]
        omega
      · have hlow : (x.val ^^^ y.val) < 2 ^ 8 := Nat.xor_lt_two_pow hx hy
        have hpos : (x.val ^^^ y.val) ≠ 0 := by
          intro hz
          exact hxy (Fin.ext (Nat.xor_eq_zero_iff.mp hz))
        have hmod : ((x.val ^^^ y.val) + 256 * (leValue a ^^^ leValue b)) % 2 ^ 8 ≠ 0 := by
          omega
        have hc := ctz_lt (n := n) hmod
        rw [if_neg hxy]
        omega

/-- The word trick finds the length of the common prefix of two blocks. -/
theorem firstDifferentByte_xor {a b : Key} (hl : a.length = b.length) (h8 : a.length ≤ 8)
    (hne : a ≠ b) : firstDifferentByte (leValue a ^^^ leValue b) = lcp a b := by
  rw [firstDifferentByte, Nat.shiftRight_eq_div_pow]
  exact ctz_xor_leValue hl (by omega) hne

end HM4.Bytes
