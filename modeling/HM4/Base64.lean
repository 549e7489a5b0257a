import HM4.IndexKeys
import Mathlib.Logic.Function.Basic

/-!
# Base64

The decoder checks the length and the single characters, then shifts each group of four into
three octets. It counts the octets of the result apart from the places it writes them to, so the
two come apart when padding stands where no padding belongs.
-/

namespace HM4.Base64

open Bytes
open IndexKeys (toKey)

/-! ## The decoder -/

/-- The sign `=`. -/
def PAD : Byte := 61

/-- `b64chars`. -/
def b64chars : Key := toKey "ABCDEFGHIJKLMNOPQRSTUVWXYZabcdefghijklmnopqrstuvwxyz0123456789+/"

/-- `generateDecodeTable__`. -/
def generateDecodeTable : List ℤ :=
  (List.range b64chars.length).foldl
    (fun inv i => inv.set ((b64chars.getD i 0).val - 43) i) (List.replicate 80 (-1))

/-- `b64invs`, as the decoder reads it; a character is at least `+`, which is 43. -/
def b64invs (c : Byte) : BitVec 32 := BitVec.ofInt 32 (generateDecodeTable.getD (c.val - 43) (-1))

/-- `isValidChar__`. -/
def isValidChar (c : Byte) : Prop :=
  (48 ≤ c.val ∧ c.val ≤ 57) ∨ (65 ≤ c.val ∧ c.val ≤ 90) ∨ (97 ≤ c.val ∧ c.val ≤ 122) ∨
    c.val = 43 ∨ c.val = 47 ∨ c = PAD

instance (c : Byte) : Decidable (isValidChar c) :=
  inferInstanceAs (Decidable (_ ∨ _ ∨ _ ∨ _ ∨ _ ∨ _))

instance (data : Key) : Decidable (∀ c ∈ data, isValidChar c) := List.decidableBAll isValidChar data

/-- The buffer, with what the call has written into each place, and the length of the view. -/
structure View where
  buffer : ℕ → Option Byte
  len : ℕ

namespace View

/-- The view of a call that has written nothing. -/
def empty : View := ⟨fun _ => none, 0⟩

/-- One octet goes to a place, and the length grows. -/
def put (out : View) (place : ℕ) (b : Byte) : View :=
  ⟨Function.update out.buffer place (some b), out.len + 1⟩

/-- What the caller sees; an octet that the call has not written is none. -/
def bytes (out : View) : List (Option Byte) := (List.range out.len).map out.buffer

end View

/-- The `int` of one group; negative values are shifted as two's complement. -/
def groupValue (a b c d : Byte) : BitVec 32 :=
  let v := 0#32 <<< 6 ||| b64invs a
  let v := v <<< 6 ||| b64invs b
  let v := if c = PAD then v <<< 6 else v <<< 6 ||| b64invs c
  if d = PAD then v <<< 6 else v <<< 6 ||| b64invs d

/-- `char( (v >> k) & 0xFF )`. -/
def octet (v : BitVec 32) (k : ℕ) : Byte := Fin.ofNat 256 (v.sshiftRight k &&& 255#32).toNat

/-- One round of the loop. -/
def decodeGroup (a b c d : Byte) (j : ℕ) (out : View) : View :=
  let v := groupValue a b c d
  let out := out.put j (octet v 16)
  let out := if c ≠ PAD then out.put (j + 1) (octet v 8) else out
  if d ≠ PAD then out.put (j + 2) (octet v 0) else out

/-- The loop over the groups. -/
def decodeLoop : Key → ℕ → View → View
  | a :: b :: c :: d :: input, j, out => decodeLoop input (j + 3) (decodeGroup a b c d j out)
  | _, _, out => out

attribute [elab_as_elim] decodeLoop.induct

/-- `base64_decode`. -/
def base64_decode (data : Key) : View :=
  if data.length = 0 then .empty
  else if data.length % 4 ≠ 0 then .empty
  else if ¬ ∀ c ∈ data, isValidChar c then .empty
  else decodeLoop data 0 .empty

/-! ## The texts -/

/-- The character of six bits. -/
def sextet (n : ℕ) : Byte := b64chars.getD n 0

/-- The padded text of a string of octets. -/
def base64 : Key → Key
  | x :: y :: z :: b =>
    sextet (x.val / 4) :: sextet (x.val % 4 * 16 + y.val / 16) ::
      sextet (y.val % 16 * 4 + z.val / 64) :: sextet (z.val % 64) :: base64 b
  | [x, y] =>
    [sextet (x.val / 4), sextet (x.val % 4 * 16 + y.val / 16), sextet (y.val % 16 * 4), PAD]
  | [x] => [sextet (x.val / 4), sextet (x.val % 4 * 16), PAD, PAD]
  | [] => []

/-- Groups of four characters, with padding only as the last one or the last two. -/
structure WellFormed (text : Key) : Prop where
  groups : text.length % 4 = 0
  padded : ∃ body pad, text = body ++ pad ∧ (∀ c ∈ body, c ∈ b64chars) ∧
    (pad = [] ∨ pad = [PAD] ∨ pad = [PAD, PAD])

/-- What a caller expects of the decoder. -/
structure Decodes (text : Key) : Prop where
  inverts : ∀ b, text = base64 b → (base64_decode text).bytes = b.map some
  rejects : ¬ WellFormed text → (base64_decode text).len = 0
  written : ∀ place < (base64_decode text).len, (base64_decode text).buffer place ≠ none
  inside : ∀ place, (base64_decode text).buffer place ≠ none → place < text.length / 4 * 3

/-! ## The table -/

/-- The value of a character as the decoder's ranges have it. -/
def charCode (n : ℕ) : ℕ :=
  if n < 26 then 65 + n else if n < 52 then 71 + n else if n < 62 then n - 4
  else if n = 62 then 43 else 47

theorem chars_spec : b64chars.length = 64 ∧ ∀ n < 64, (sextet n).val = charCode n ∧
    generateDecodeTable.getD (charCode n - 43) (-1) = Int.ofNat n := by decide +kernel

theorem length_b64chars : b64chars.length = 64 := chars_spec.1

theorem val_sextet (n : ℕ) (hn : n < 64) : (sextet n).val = charCode n := (chars_spec.2 n hn).1

theorem table_charCode (n : ℕ) (hn : n < 64) :
    generateDecodeTable.getD (charCode n - 43) (-1) = Int.ofNat n := (chars_spec.2 n hn).2

theorem b64invs_sextet {n : ℕ} (hn : n < 64) : b64invs (sextet n) = BitVec.ofNat 32 n := by
  rw [b64invs, val_sextet n hn, table_charCode n hn]
  exact BitVec.ofInt_natCast 32 n

theorem mem_b64chars {c : Byte} : c ∈ b64chars ↔ ∃ n < 64, c = sextet n := by
  rw [List.mem_iff_getElem]
  constructor
  · rintro ⟨n, hn, rfl⟩
    refine ⟨n, by rwa [length_b64chars] at hn, ?_⟩
    rw [sextet, List.getD_eq_getElem _ _ hn]
  · rintro ⟨n, hn, rfl⟩
    rw [← length_b64chars] at hn
    refine ⟨n, hn, ?_⟩
    rw [sextet, List.getD_eq_getElem _ _ hn]

theorem sextet_ne_PAD {n : ℕ} (hn : n < 64) : sextet n ≠ PAD := by
  intro h
  have hval := val_sextet n hn
  rw [h, charCode] at hval
  have hpad : PAD.val = 61 := rfl
  split_ifs at hval <;> omega

theorem isValidChar_sextet {n : ℕ} (hn : n < 64) : isValidChar (sextet n) := by
  have hval := val_sextet n hn
  rw [charCode] at hval
  unfold isValidChar
  split_ifs at hval <;> omega

theorem isValidChar_of_mem {c : Byte} (h : c ∈ b64chars) : isValidChar c := by
  obtain ⟨n, hn, rfl⟩ := mem_b64chars.mp h
  exact isValidChar_sextet hn

theorem ne_PAD_of_mem {c : Byte} (h : c ∈ b64chars) : c ≠ PAD := by
  obtain ⟨n, hn, rfl⟩ := mem_b64chars.mp h
  exact sextet_ne_PAD hn

theorem isValidChar_PAD : isValidChar PAD := by decide

/-! ## One group -/

theorem shift_six (n : ℕ) : BitVec.ofNat 32 n <<< 6 = BitVec.ofNat 32 (n * 64) := by
  apply BitVec.eq_of_toNat_eq
  simp only [BitVec.toNat_shiftLeft, BitVec.toNat_ofNat, Nat.shiftLeft_eq]
  omega

/-- Six more bits. -/
theorem shift_or (n : ℕ) {s : ℕ} (hs : s < 64) :
    BitVec.ofNat 32 n <<< 6 ||| BitVec.ofNat 32 s = BitVec.ofNat 32 (n * 64 + s) := by
  have hor : 2 ^ 6 * n + s = 2 ^ 6 * n ||| s := Nat.two_pow_add_eq_or_of_lt hs n
  have hmul : n * 64 = 2 ^ 6 * n := by omega
  rw [shift_six, ← BitVec.ofNat_or, hmul, hor]

/-- The low octet behind a shift. -/
theorem octet_ofNat {n : ℕ} (hn : n < 2 ^ 24) (k : ℕ) :
    octet (BitVec.ofNat 32 n) k = Fin.ofNat 256 (n / 2 ^ k) := by
  have hmod : n % 2 ^ 32 = n := by omega
  have hmsb : (BitVec.ofNat 32 n).msb = false := by
    rw [BitVec.msb_eq_false_iff_two_mul_lt, BitVec.toNat_ofNat]
    omega
  have hand : n / 2 ^ k &&& 255 = n / 2 ^ k % 256 := Nat.and_two_pow_sub_one_eq_mod _ 8
  have hnat : ((BitVec.ofNat 32 n).sshiftRight k &&& 255#32).toNat = n / 2 ^ k % 256 := by
    rw [BitVec.sshiftRight_eq_of_msb_false hmsb, BitVec.toNat_and, BitVec.toNat_ushiftRight,
      BitVec.toNat_ofNat, hmod, Nat.shiftRight_eq_div_pow]
    exact hand
  apply Fin.ext
  rw [octet, hnat]
  exact Nat.mod_mod _ _

section Groups

variable {a b c d : ℕ} (ha : a < 64) (hb : b < 64) (hc : c < 64) (hd : d < 64)
include ha hb

theorem first_two :
    (0#32 <<< 6 ||| b64invs (sextet a)) <<< 6 ||| b64invs (sextet b)
      = BitVec.ofNat 32 (a * 64 + b) := by
  have hfirst := shift_or 0 ha
  rw [Nat.zero_mul, Nat.zero_add] at hfirst
  rw [b64invs_sextet ha, b64invs_sextet hb, hfirst, shift_or a hb]

theorem groupValue_pad_two :
    groupValue (sextet a) (sextet b) PAD PAD = BitVec.ofNat 32 ((a * 64 + b) * 64 * 64) := by
  unfold groupValue
  simp only [if_true]
  rw [first_two ha hb, shift_six, shift_six]

include hc

theorem groupValue_pad_one :
    groupValue (sextet a) (sextet b) (sextet c) PAD
      = BitVec.ofNat 32 (((a * 64 + b) * 64 + c) * 64) := by
  unfold groupValue
  simp only [if_true, if_neg (sextet_ne_PAD hc)]
  rw [first_two ha hb, b64invs_sextet hc, shift_or _ hc, shift_six]

include hd

theorem groupValue_full :
    groupValue (sextet a) (sextet b) (sextet c) (sextet d)
      = BitVec.ofNat 32 (((a * 64 + b) * 64 + c) * 64 + d) := by
  unfold groupValue
  simp only [if_neg (sextet_ne_PAD hc), if_neg (sextet_ne_PAD hd)]
  rw [first_two ha hb, b64invs_sextet hc, shift_or _ hc, b64invs_sextet hd, shift_or _ hd]

end Groups

/-! ## What the loop has written -/

namespace View

/-- The call has written these octets from the start of the buffer on, and nothing else. -/
structure Holds (out : View) (bs : Key) : Prop where
  len : out.len = bs.length
  buffer : ∀ place, out.buffer place = bs[place]?

theorem holds_empty : empty.Holds [] := ⟨rfl, fun _ => rfl⟩

variable {out : View} {bs : Key}

/-- One octet behind the others. -/
theorem Holds.put (h : out.Holds bs) (place : ℕ) (hplace : place = bs.length) (b : Byte) :
    (out.put place b).Holds (bs ++ [b]) where
  len := by rw [View.put, h.len, List.length_append, List.length_singleton]
  buffer := by
    intro p
    have hput : (out.put place b).buffer p = if p = place then some b else out.buffer p :=
      Function.update_apply out.buffer place (some b) p
    rw [hput, h.buffer]
    by_cases hp : p = place
    · rw [if_pos hp, hp, hplace, List.getElem?_concat_length]
    · rw [if_neg hp]
      rcases Nat.lt_or_ge p bs.length with hlt | hge
      · rw [List.getElem?_append_left hlt]
      · rw [List.getElem?_eq_none hge, List.getElem?_eq_none (by simp; omega)]

theorem Holds.bytes (h : out.Holds bs) : out.bytes = bs.map some := by
  apply List.ext_getElem?
  intro p
  rw [View.bytes, h.len]
  by_cases hp : p < bs.length
  · simp [h.buffer, hp]
  · simp [hp]

end View

section Loop

variable {out : View} {bs : Key} {a b c d : Byte} {input : Key} {j : ℕ}

@[simp]
theorem decodeLoop_cons :
    decodeLoop (a :: b :: c :: d :: input) j out
      = decodeLoop input (j + 3) (decodeGroup a b c d j out) := rfl

@[simp]
theorem decodeLoop_nil : decodeLoop [] j out = out := rfl

theorem length_lt_four (hshort : ∀ a b c d rest, input = a :: b :: c :: d :: rest → False) :
    input.length < 4 := by
  rcases input with _ | ⟨a, _ | ⟨b, _ | ⟨c, _ | ⟨d, rest⟩⟩⟩⟩
  · simp
  · simp
  · simp
  · simp
  · exact absurd rfl (hshort a b c d rest)

theorem decodeLoop_short (hshort : ∀ a b c d rest, input = a :: b :: c :: d :: rest → False) :
    decodeLoop input j out = out := by
  rcases input with _ | ⟨a, _ | ⟨b, _ | ⟨c, _ | ⟨d, rest⟩⟩⟩⟩
  · rfl
  · rfl
  · rfl
  · rfl
  · exact absurd rfl (hshort a b c d rest)

theorem decodeGroup_full (h : out.Holds bs) (hc : c ≠ PAD) (hd : d ≠ PAD) :
    (decodeGroup a b c d bs.length out).Holds (bs ++ [octet (groupValue a b c d) 16,
      octet (groupValue a b c d) 8, octet (groupValue a b c d) 0]) := by
  have hone := h.put bs.length rfl (octet (groupValue a b c d) 16)
  have htwo := hone.put (bs.length + 1) (by simp) (octet (groupValue a b c d) 8)
  have hthree := htwo.put (bs.length + 2) (by simp) (octet (groupValue a b c d) 0)
  simpa [decodeGroup, hc, hd] using hthree

theorem decodeGroup_pad_one (h : out.Holds bs) (hc : c ≠ PAD) :
    (decodeGroup a b c PAD bs.length out).Holds (bs ++ [octet (groupValue a b c PAD) 16,
      octet (groupValue a b c PAD) 8]) := by
  have hone := h.put bs.length rfl (octet (groupValue a b c PAD) 16)
  have htwo := hone.put (bs.length + 1) (by simp) (octet (groupValue a b c PAD) 8)
  simpa [decodeGroup, hc] using htwo

theorem decodeGroup_pad_two (h : out.Holds bs) :
    (decodeGroup a b PAD PAD bs.length out).Holds (bs ++ [octet (groupValue a b PAD PAD) 16]) := by
  have hone := h.put bs.length rfl (octet (groupValue a b PAD PAD) 16)
  simpa [decodeGroup] using hone

/-- Every group counts an octet at least. -/
theorem len_decodeGroup (a b c d : Byte) (j : ℕ) (out : View) :
    out.len + 1 ≤ (decodeGroup a b c d j out).len := by
  unfold decodeGroup
  simp only [View.put]
  split_ifs <;> simp only [] <;> omega

theorem len_decodeLoop (input : Key) (j : ℕ) (out : View) :
    out.len + input.length / 4 ≤ (decodeLoop input j out).len := by
  induction input, j, out using decodeLoop.induct with
  | case1 a b c d input j out ih =>
    have hgroup := len_decodeGroup a b c d j out
    simp only [decodeLoop_cons, List.length_cons]
    omega
  | case2 input j out hshort =>
    rw [decodeLoop_short hshort]
    have hlen := length_lt_four hshort
    omega

/-- The loop writes only into the buffer of three octets for each group. -/
theorem buffer_decodeGroup {place : ℕ} (a b c d : Byte) (j : ℕ) (out : View)
    (hwritten : (decodeGroup a b c d j out).buffer place ≠ none) :
    out.buffer place ≠ none ∨ place < j + 3 := by
  by_contra hnot
  rw [not_or, not_not, not_lt] at hnot
  obtain ⟨hold, hplace⟩ := hnot
  apply hwritten
  have hput (v : View) (p : ℕ) (hp : p < j + 3) (b : Byte) (hv : v.buffer place = none) :
      (v.put p b).buffer place = none := by
    rw [View.put, ← hv]
    exact Function.update_of_ne (by omega) _ _
  unfold decodeGroup
  have hone := hput out j (by omega) (octet (groupValue a b c d) 16) hold
  have htwo := hput _ (j + 1) (by omega) (octet (groupValue a b c d) 8) hone
  split_ifs
  · exact hput _ (j + 2) (by omega) _ htwo
  · exact htwo
  · exact hput _ (j + 2) (by omega) _ hone
  · exact hone

theorem buffer_decodeLoop {place : ℕ} (input : Key) (j : ℕ) (out : View)
    (hwritten : (decodeLoop input j out).buffer place ≠ none) :
    out.buffer place ≠ none ∨ place < j + input.length / 4 * 3 := by
  induction input, j, out using decodeLoop.induct with
  | case1 a b c d input j out ih =>
    rw [decodeLoop_cons] at hwritten
    simp only [List.length_cons]
    rcases ih hwritten with hgroup | hplace
    · rcases buffer_decodeGroup a b c d j out hgroup with hold | hplace
      · exact .inl hold
      · exact .inr (by omega)
    · exact .inr (by omega)
  | case2 input j out hshort =>
    rw [decodeLoop_short hshort] at hwritten
    exact .inl hwritten

end Loop

/-! ## The round trip -/

section RoundTrip

theorem octets_full {x y z : Byte} {v : ℕ} (hv : v = (x.val * 256 + y.val) * 256 + z.val) :
    octet (BitVec.ofNat 32 v) 16 = x ∧ octet (BitVec.ofNat 32 v) 8 = y ∧
      octet (BitVec.ofNat 32 v) 0 = z := by
  have hx := x.isLt
  have hy := y.isLt
  have hz := z.isLt
  have hbound : v < 2 ^ 24 := by omega
  rw [octet_ofNat hbound, octet_ofNat hbound, octet_ofNat hbound]
  refine ⟨Fin.ext ?_, Fin.ext ?_, Fin.ext ?_⟩
  · show v / 2 ^ 16 % 256 = x.val
    omega
  · show v / 2 ^ 8 % 256 = y.val
    omega
  · show v / 2 ^ 0 % 256 = z.val
    omega

/-- The loop over a padded text puts its octets behind those that are there. -/
theorem decodeLoop_base64 (b : Key) {bs : Key} {out : View} (h : out.Holds bs) :
    (decodeLoop (base64 b) bs.length out).Holds (bs ++ b) := by
  induction b using base64.induct generalizing bs out with
  | case1 x y z b ih =>
    have hx := x.isLt
    have hy := y.isLt
    have hz := z.isLt
    have hvalue := groupValue_full (a := x.val / 4) (b := x.val % 4 * 16 + y.val / 16)
      (c := y.val % 16 * 4 + z.val / 64) (d := z.val % 64) (by omega) (by omega) (by omega)
      (by omega)
    obtain ⟨h16, h8, h0⟩ := octets_full (x := x) (y := y) (z := z)
      (v := ((x.val / 4 * 64 + (x.val % 4 * 16 + y.val / 16)) * 64 +
        (y.val % 16 * 4 + z.val / 64)) * 64 + z.val % 64) (by omega)
    have hgroup := decodeGroup_full (a := sextet (x.val / 4))
      (b := sextet (x.val % 4 * 16 + y.val / 16)) h
      (sextet_ne_PAD (n := y.val % 16 * 4 + z.val / 64) (by omega))
      (sextet_ne_PAD (n := z.val % 64) (by omega))
    rw [hvalue, h16, h8, h0] at hgroup
    have hrest := ih hgroup
    rw [base64, decodeLoop_cons]
    simpa using hrest
  | case2 x y =>
    have hx := x.isLt
    have hy := y.isLt
    have hvalue := groupValue_pad_one (a := x.val / 4) (b := x.val % 4 * 16 + y.val / 16)
      (c := y.val % 16 * 4) (by omega) (by omega) (by omega)
    obtain ⟨h16, h8, -⟩ := octets_full (x := x) (y := y) (z := 0)
      (v := ((x.val / 4 * 64 + (x.val % 4 * 16 + y.val / 16)) * 64 + y.val % 16 * 4) * 64)
      (by simp; omega)
    have hgroup := decodeGroup_pad_one (a := sextet (x.val / 4))
      (b := sextet (x.val % 4 * 16 + y.val / 16)) h
      (sextet_ne_PAD (n := y.val % 16 * 4) (by omega))
    rw [hvalue, h16, h8] at hgroup
    exact hgroup
  | case3 x =>
    have hx := x.isLt
    have hvalue := groupValue_pad_two (a := x.val / 4) (b := x.val % 4 * 16) (by omega) (by omega)
    obtain ⟨h16, -, -⟩ := octets_full (x := x) (y := 0) (z := 0)
      (v := (x.val / 4 * 64 + x.val % 4 * 16) * 64 * 64) (by simp; omega)
    have hgroup := decodeGroup_pad_two (a := sextet (x.val / 4)) (b := sextet (x.val % 4 * 16)) h
    rw [hvalue, h16] at hgroup
    exact hgroup
  | case4 => simpa [base64] using h

/-- A padded text is a text that the decoder's checks let pass. -/
theorem base64_passes (b : Key) :
    (base64 b).length % 4 = 0 ∧ ∀ c ∈ base64 b, isValidChar c := by
  induction b using base64.induct with
  | case1 x y z b ih =>
    have hx := x.isLt
    have hy := y.isLt
    have hz := z.isLt
    rw [base64]
    refine ⟨by simp only [List.length_cons]; omega, ?_⟩
    simp only [List.forall_mem_cons]
    exact ⟨isValidChar_sextet (by omega), isValidChar_sextet (by omega),
      isValidChar_sextet (by omega), isValidChar_sextet (by omega), ih.2⟩
  | case2 x y =>
    have hx := x.isLt
    have hy := y.isLt
    rw [base64]
    refine ⟨by simp, ?_⟩
    simp only [List.forall_mem_cons]
    exact ⟨isValidChar_sextet (by omega), isValidChar_sextet (by omega),
      isValidChar_sextet (by omega), isValidChar_PAD, by simp⟩
  | case3 x =>
    have hx := x.isLt
    rw [base64]
    refine ⟨by simp, ?_⟩
    simp only [List.forall_mem_cons]
    exact ⟨isValidChar_sextet (by omega), isValidChar_sextet (by omega), isValidChar_PAD,
      isValidChar_PAD, by simp⟩
  | case4 => exact ⟨rfl, by simp [base64]⟩

/-- The decoder gives back the octets of a padded text. -/
theorem base64_decode_base64 (b : Key) : (base64_decode (base64 b)).bytes = b.map some := by
  obtain ⟨hlen, hvalid⟩ := base64_passes b
  have hloop := decodeLoop_base64 b View.holds_empty
  rw [List.nil_append] at hloop
  rw [base64_decode]
  by_cases hzero : (base64 b).length = 0
  · rw [if_pos hzero]
    have htext := List.length_eq_zero_iff.mp hzero
    rw [htext] at hloop
    exact hloop.bytes
  · rw [if_neg hzero, if_neg (by omega), if_neg (not_not.mpr hvalid)]
    exact hloop.bytes

end RoundTrip

/-! ## Which texts are refused -/

section Texts

variable {text : Key}

/-- The text passes all checks of the decoder. -/
structure Passes (text : Key) : Prop where
  groups : text.length % 4 = 0
  valid : ∀ c ∈ text, isValidChar c

theorem base64_decode_of_passes (h : Passes text) :
    base64_decode text = decodeLoop text 0 .empty := by
  rw [base64_decode]
  by_cases hzero : text.length = 0
  · rw [if_pos hzero, List.length_eq_zero_iff.mp hzero, decodeLoop_nil]
  · rw [if_neg hzero, if_neg (not_not.mpr h.groups), if_neg (not_not.mpr h.valid)]

theorem base64_decode_of_not_passes (h : ¬ Passes text) : base64_decode text = .empty := by
  rw [base64_decode]
  by_cases hzero : text.length = 0
  · rw [if_pos hzero]
  rw [if_neg hzero]
  by_cases hgroups : text.length % 4 = 0
  · have hvalid : ¬ ∀ c ∈ text, isValidChar c := fun hvalid => h ⟨hgroups, hvalid⟩
    rw [if_neg (not_not.mpr hgroups), if_pos hvalid]
  · rw [if_pos hgroups]

/-- The head of a well formed text is a full group in front of a well formed text, or the
last group, which has padding. -/
theorem WellFormed.group {a b c d : Byte} (h : WellFormed (a :: b :: c :: d :: text)) :
    (c ≠ PAD ∧ d ≠ PAD ∧ WellFormed text) ∨ (d = PAD ∧ text = []) := by
  obtain ⟨hlen, body, pad, heq, hbody, hpad⟩ := h
  have hpadlen : pad.length ≤ 2 := by
    rcases hpad with rfl | rfl | rfl <;> simp
  have htotal := congrArg List.length heq
  rw [List.length_append] at htotal
  simp only [List.length_cons] at hlen htotal
  rcases body with _ | ⟨a', _ | ⟨b', _ | ⟨c', _ | ⟨d', body⟩⟩⟩⟩
  · simp only [List.length_nil] at htotal
    omega
  · simp only [List.length_cons, List.length_nil] at htotal
    omega
  · obtain ⟨rfl, rfl, rfl⟩ : a' = a ∧ b' = b ∧ c :: d :: text = pad := by
      simpa [eq_comm] using heq
    rcases hpad with hpad | hpad | hpad
    · simp at hpad
    · simp at hpad
    · simp at hpad
      exact .inr hpad.2
  · have hcons : a = a' ∧ b = b' ∧ c = c' ∧ d :: text = pad := by simpa using heq
    rcases hpad with hpad | hpad | hpad
    · rw [hpad] at hcons
      simp at hcons
    · rw [hpad] at hcons
      simp only [List.cons.injEq] at hcons
      exact .inr hcons.2.2.2
    · rw [hpad] at htotal
      simp only [List.length_cons, List.length_nil] at htotal
      omega
  · have hcons : a = a' ∧ b = b' ∧ c = c' ∧ d = d' ∧ text = body ++ pad := by simpa using heq
    obtain ⟨rfl, rfl, rfl, rfl, rfl⟩ := hcons
    simp only [List.forall_mem_cons] at hbody
    obtain ⟨-, -, hc, hd, hrest⟩ := hbody
    exact .inl ⟨ne_PAD_of_mem hc, ne_PAD_of_mem hd, by omega, body, pad, rfl, hrest, hpad⟩

theorem WellFormed.passes (h : WellFormed text) : Passes text := by
  obtain ⟨hlen, body, pad, rfl, hbody, hpad⟩ := h
  refine ⟨hlen, fun c hc => ?_⟩
  rcases List.mem_append.mp hc with hc | hc
  · exact isValidChar_of_mem (hbody c hc)
  · have hcpad : c = PAD := by
      rcases hpad with rfl | rfl | rfl <;> simp at hc <;> exact hc
    rw [hcpad]
    exact isValidChar_PAD

/-- On a well formed text the octets are written one behind the other. -/
theorem WellFormed.holds (h : WellFormed text) {bs : Key} {out : View} {j : ℕ}
    (hj : j = bs.length) (hout : out.Holds bs) :
    ∃ bs', (decodeLoop text j out).Holds bs' := by
  induction text, j, out using decodeLoop.induct generalizing bs with
  | case1 a b c d input j out ih =>
    subst hj
    rw [decodeLoop_cons]
    rcases h.group with ⟨hc, hd, hrest⟩ | ⟨rfl, rfl⟩
    · exact ih hrest (by simp) (decodeGroup_full hout hc hd)
    · rw [decodeLoop_nil]
      by_cases hc : c = PAD
      · rw [hc]
        exact ⟨_, decodeGroup_pad_two hout⟩
      · exact ⟨_, decodeGroup_pad_one hout hc⟩
  | case2 input j out hshort =>
    rw [decodeLoop_short hshort]
    exact ⟨bs, hout⟩

theorem wellFormed_nil : WellFormed [] := ⟨rfl, [], [], rfl, by simp, .inl rfl⟩

/-- Every text that passes the checks gives a view that is not empty, unless it is empty. -/
theorem Passes.len_pos (h : Passes text) (hne : text ≠ []) : 0 < (base64_decode text).len := by
  have hlen := len_decodeLoop text 0 .empty
  have hpos := List.length_pos_of_ne_nil hne
  have hgroups := h.groups
  rw [base64_decode_of_passes h]
  omega

theorem decodes_of_wellFormed (h : WellFormed text) : Decodes text := by
  obtain ⟨bs, hbs⟩ : ∃ bs, (decodeLoop text 0 .empty).Holds bs := h.holds rfl View.holds_empty
  have heq := base64_decode_of_passes h.passes
  refine ⟨fun b hb => ?_, fun hnot => absurd h hnot, fun place hplace => ?_, fun place hplace => ?_⟩
  · rw [hb]
    exact base64_decode_base64 b
  · rw [heq, hbs.len] at hplace
    rw [heq, hbs.buffer, List.getElem?_eq_getElem hplace]
    exact Option.some_ne_none _
  · rw [heq] at hplace
    have hbound := buffer_decodeLoop text 0 .empty hplace
    rw [Nat.zero_add] at hbound
    exact hbound.resolve_left (fun h => h rfl)

theorem decodes_of_not_passes (h : ¬ Passes text) : Decodes text := by
  have hempty := base64_decode_of_not_passes h
  refine ⟨fun b hb => ?_, fun _ => ?_, fun place hplace => ?_, fun place hplace => ?_⟩
  · obtain ⟨hlen, hvalid⟩ := base64_passes b
    rw [hb] at h
    exact absurd ⟨hlen, hvalid⟩ h
  · rw [hempty]
    rfl
  · rw [hempty] at hplace
    exact absurd hplace (Nat.not_lt_zero place)
  · rw [hempty] at hplace
    exact absurd rfl hplace

/-- The decoder is right on a text if and only if the text does not pass the checks with padding
in a wrong place. -/
theorem decodes_iff (text : Key) : Decodes text ↔ ¬ (Passes text ∧ ¬ WellFormed text) := by
  constructor
  · rintro h ⟨hpasses, hnot⟩
    have hne : text ≠ [] := by
      rintro rfl
      exact hnot wellFormed_nil
    have hpos := hpasses.len_pos hne
    have hzero := h.rejects hnot
    omega
  · intro h
    by_cases hpasses : Passes text
    · exact decodes_of_wellFormed (by_contra fun hnot => h ⟨hpasses, hnot⟩)
    · exact decodes_of_not_passes hpasses

/-- `AA=A`: two octets are counted, and the second one of the view was never written. -/
theorem not_decodes_inner_padding : ¬ Decodes [65, 65, 61, 65] := by
  intro h
  exact h.written 1 (by decide +kernel) (by decide +kernel)

end Texts

end HM4.Base64
