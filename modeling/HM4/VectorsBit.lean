import HM4.BitSetRuns

/-!
# Vectors of bits

A vector is stored with one bit for each component. The distances of such vectors are computed from
the number of ones in them, which are counted in words, then in octets, and then in a part of an
octet. What is counted are the bits as they are written and read one by one.
-/

namespace HM4.VectorsBit

open LexPrefix Bytes BitSet

/-! ## Bits that are read and written -/

/-- `BitBufferView::bytes`. -/
def bytes (size : ℕ) : ℕ := (size + 7) / 8

/-- `BitBufferView::operator[]`. -/
def component (data : Key) (index : ℕ) : Option Bool :=
  data[index / 8]?.map fun value => (value.val >>> (index % 8)) &&& 1 = 1

section Quantize

variable {F : Type*} [Zero F] [LT F] [DecidableLT F]

/-- `bitVectorQuantizeComponent`. -/
def bitVectorQuantizeComponent (v : F) : ℕ := if 0 < v then 1 else 0

/-- The inner loop of `bitVectorQuantize`, from a place in the octet on. -/
def quantizeByte : (j : ℕ) → List F → ℕ → ℕ
  | _, [], byte => byte
  | j, v :: vector, byte =>
    quantizeByte (j + 1) vector (byte ||| bitVectorQuantizeComponent v <<< j)

/-- `bitVectorQuantize`. -/
def bitVectorQuantize (vector : List F) : Key :=
  (List.range (bytes vector.length)).map fun out =>
    Fin.ofNat 256 (quantizeByte 0 ((vector.drop (8 * out)).take 8) 0)

end Quantize

/-! ## Counting -/

section Count

variable {R : Type*} [Zero R] [Add R]

/-- The loops over words and over octets, and the part of an octet behind them. -/
def countBlocks (bits : ℕ) (block64 block8 : ℕ → Option R) (tail : ℕ → ℕ → Option R) :
    Option R := do
  let size64 := bits / 64
  let result ← (List.range size64).foldlM (fun result i => (block64 i).map (result + ·)) 0
  let bitsRemaining := bits % 64
  let size8 := bitsRemaining / 8
  let result ← (List.range size8).foldlM
    (fun result i => (block8 (8 * size64 + i)).map (result + ·)) result
  let bitsTail := bitsRemaining % 8
  if bitsTail ≠ 0 then
    let mask := 2 ^ bitsTail - 1
    (tail (8 * size64 + size8) mask).map (result + ·)
  else some result

end Count

/-- An octet at a place. -/
def byte8 (a : Key) (i : ℕ) : Option ℕ := a[i]?.map Fin.val

/-- `popcount` of a string. -/
def popcount (a : Key) (bits : ℕ) : Option ℕ :=
  countBlocks bits (fun i => (word64 a i).map (BitSet.popcount 64))
    (fun i => (byte8 a i).map (BitSet.popcount 8))
    fun i mask => (byte8 a i).map fun x => BitSet.popcount 8 (x &&& mask)

/-- `popcount2F`. -/
def popcount2F (a b : Key) (bits : ℕ) (f : ℕ → ℕ → ℕ) : Option ℕ :=
  countBlocks bits
    (fun i => do return BitSet.popcount 64 (f (← word64 a i) (← word64 b i)))
    (fun i => do return BitSet.popcount 8 (f (← byte8 a i) (← byte8 b i)))
    fun i mask => do return BitSet.popcount 8 (f (← byte8 a i) (← byte8 b i) &&& mask)

/-- `popcountXOR`. -/
def popcountXOR (a b : Key) (bits : ℕ) : Option ℕ := popcount2F a b bits (· ^^^ ·)

/-- `popcountAND`. -/
def popcountAND (a b : Key) (bits : ℕ) : Option ℕ := popcount2F a b bits (· &&& ·)

/-- The three counts of `popcountDOT`. -/
@[ext]
structure Result where
  dot : ℕ
  normA : ℕ
  normB : ℕ

instance : Zero Result := ⟨⟨0, 0, 0⟩⟩

instance : Add Result := ⟨fun r s => ⟨r.dot + s.dot, r.normA + s.normA, r.normB + s.normB⟩⟩

/-- The counts of a block. -/
def Result.block (bits byteA byteB : ℕ) : Result :=
  ⟨BitSet.popcount bits (byteA &&& byteB), BitSet.popcount bits byteA, BitSet.popcount bits byteB⟩

/-- `popcountDOT`. -/
def popcountDOT (a b : Key) (bits : ℕ) : Option Result :=
  countBlocks bits
    (fun i => do return Result.block 64 (← word64 a i) (← word64 b i))
    (fun i => do return Result.block 8 (← byte8 a i) (← byte8 b i))
    fun i mask => do return Result.block 8 ((← byte8 a i) &&& mask) ((← byte8 b i) &&& mask)

/-! ## What the loops count -/

section Count

variable {R : Type*} [Add R] {bits : ℕ} {block64 block8 : ℕ → Option R}
  {tail : ℕ → ℕ → Option R} (total : ℕ → R)

/-- A loop over blocks of one width. -/
theorem foldlM_blocks {block : ℕ → Option R} (w n : ℕ) {k : ℕ}
    (h : ∀ i < k, ∃ d, block i = some d ∧ total (n + w * i) + d = total (n + w * (i + 1))) :
    (List.range k).foldlM (fun result i => (block i).map (result + ·)) (total n) =
      some (total (n + w * k)) := by
  induction k with
  | zero => rfl
  | succ k ih =>
    obtain ⟨d, hd, hsum⟩ := h k (Nat.lt_succ_self k)
    rw [List.range_succ, List.foldlM_append, ih fun i hi => h i (Nat.lt_succ_of_lt hi)]
    simp only [List.foldlM_cons, List.foldlM_nil, hd, Option.map_some, Option.bind_eq_bind,
      Option.bind_some, Option.pure_def, hsum]

/-- The words, the octets and the part of an octet make the whole. -/
theorem countBlocks_eq [Zero R] (h0 : total 0 = 0)
    (h64 : ∀ i, 64 * i + 64 ≤ bits →
      ∃ d, block64 i = some d ∧ total (64 * i) + d = total (64 * i + 64))
    (h8 : ∀ i, 8 * i + 8 ≤ bits →
      ∃ d, block8 i = some d ∧ total (8 * i) + d = total (8 * i + 8))
    (htail : ∀ i n, n < 8 → n ≠ 0 → 8 * i + n = bits →
      ∃ d, tail i (2 ^ n - 1) = some d ∧ total (8 * i) + d = total bits) :
    countBlocks bits block64 block8 tail = some (total bits) := by
  have hwords : (List.range (bits / 64)).foldlM (fun result i => (block64 i).map (result + ·))
      (total 0) = some (total (0 + 64 * (bits / 64))) :=
    foldlM_blocks total 64 0 fun i hi => by
      obtain ⟨d, hd, hsum⟩ := h64 i (by omega)
      exact ⟨d, hd, by rw [Nat.zero_add, Nat.zero_add, hsum]; rfl⟩
  have hbytes : (List.range (bits % 64 / 8)).foldlM
      (fun result i => (block8 (8 * (bits / 64) + i)).map (result + ·))
      (total (64 * (bits / 64))) = some (total (64 * (bits / 64) + 8 * (bits % 64 / 8))) :=
    foldlM_blocks total 8 (64 * (bits / 64)) fun i hi => by
      obtain ⟨d, hd, hsum⟩ := h8 (8 * (bits / 64) + i) (by omega)
      have hplace : 64 * (bits / 64) + 8 * i = 8 * (8 * (bits / 64) + i) := by omega
      have hnext : 64 * (bits / 64) + 8 * (i + 1) = 8 * (8 * (bits / 64) + i) + 8 := by omega
      exact ⟨d, hd, by rw [hplace, hnext, hsum]⟩
  rw [Nat.zero_add, h0] at hwords
  unfold countBlocks
  dsimp only
  rw [hwords, Option.bind_eq_bind, Option.bind_some, hbytes, Option.bind_some]
  split
  · next hne =>
    obtain ⟨d, hd, hsum⟩ := htail (8 * (bits / 64) + bits % 64 / 8) (bits % 64 % 8)
      (Nat.mod_lt _ (by decide)) hne (by omega)
    have hplace : 64 * (bits / 64) + 8 * (bits % 64 / 8) =
        8 * (8 * (bits / 64) + bits % 64 / 8) := by omega
    rw [hd, Option.map_some, hplace, hsum]
  · congr 2
    omega

end Count

/-! ## The ones of a block -/

/-- A number has the bits from some place on. -/
def Reads (p : ℕ → Bool) (n w x : ℕ) : Prop := ∀ j < w, x.testBit j = p (n + j)

section Reads

variable {p q : ℕ → Bool} {n w x y : ℕ}

/-- The ones of a number are counted with those before. -/
theorem Reads.popcount (h : Reads p n w x) :
    (List.range n).countP p + BitSet.popcount w x = (List.range (n + w)).countP p := by
  have hblock : BitSet.popcount w x = (List.range w).countP (p ∘ (n + ·)) :=
    List.countP_congr fun j hj => by rw [h j (List.mem_range.mp hj)]; rfl
  rw [List.range_add, List.countP_append, List.countP_map, hblock]

/-- Behind a mask only its bits are counted. -/
theorem popcount_mask {k : ℕ} (h : k ≤ w) (x : ℕ) :
    BitSet.popcount w (x &&& (2 ^ k - 1)) = BitSet.popcount k x := by
  obtain ⟨d, rfl⟩ := Nat.exists_eq_add_of_le h
  have hlow : (List.range k).countP (fun i => (x % 2 ^ k).testBit i) =
      (List.range k).countP fun i => x.testBit i :=
    List.countP_congr fun i hi => by
      rw [Nat.testBit_mod_two_pow, decide_eq_true (List.mem_range.mp hi), Bool.true_and]
  have hhigh : (List.range d).countP ((fun i => (x % 2 ^ k).testBit i) ∘ (k + ·)) = 0 :=
    List.countP_eq_zero.mpr fun i _ => by
      rw [Function.comp_apply, Nat.testBit_mod_two_pow,
        decide_eq_false (Nat.not_lt.mpr (Nat.le_add_right k i)), Bool.false_and]
      exact Bool.false_ne_true
  rw [Nat.and_two_pow_sub_one_eq_mod, BitSet.popcount, BitSet.popcount, List.range_add,
    List.countP_append, List.countP_map, hlow, hhigh, Nat.add_zero]

theorem Reads.le {k : ℕ} (h : Reads p n w x) (hk : k ≤ w) : Reads p n k x :=
  fun j hj => h j (hj.trans_le hk)

/-- An operation on bits reads the bits of both. -/
theorem Reads.map₂ {f : ℕ → ℕ → ℕ} {g : Bool → Bool → Bool}
    (hf : ∀ x y j, (f x y).testBit j = g (x.testBit j) (y.testBit j)) (hx : Reads p n w x)
    (hy : Reads q n w y) : Reads (fun i => g (p i) (q i)) n w (f x y) := fun j hj => by
  rw [hf, hx j hj, hy j hj]

end Reads

/-- A word within the bits of a string. -/
theorem word64_reads {a : Key} {i : ℕ} (h : 64 * i + 64 ≤ 8 * a.length) :
    ∃ x, word64 a i = some x ∧ Reads (bitAt a) (64 * i) 64 x := by
  refine ⟨_, if_pos (by omega), fun j hj => ?_⟩
  have hdiv : (64 * i + j) / 8 = 8 * i + j / 8 := by omega
  have hmod : (64 * i + j) % 8 = j % 8 := by omega
  have hbyte : ((a.drop (8 * i)).take 8)[j / 8]? = a[8 * i + j / 8]? := by
    rw [List.getElem?_take_of_lt (by omega), List.getElem?_drop]
  rw [BitSetRuns.testBit_leValue, bitAt, bitAt, hdiv, hmod, hbyte]

/-- An octet that has bits of a string. -/
theorem byte8_reads {a : Key} {i n : ℕ} (h : 8 * i + n ≤ 8 * a.length) (hn : n ≠ 0) :
    ∃ x, byte8 a i = some x ∧ Reads (bitAt a) (8 * i) 8 x := by
  have hlt : i < a.length := by omega
  refine ⟨a[i].val, by rw [byte8, List.getElem?_eq_getElem hlt, Option.map_some], fun j hj => ?_⟩
  have hdiv : (8 * i + j) / 8 = i := by omega
  have hmod : (8 * i + j) % 8 = j := by omega
  rw [bitAt, hdiv, hmod, List.getElem?_eq_getElem hlt]
  rfl

/-- The ones of both strings and of each, up to some place. -/
def Result.ofBits (a b : Key) (n : ℕ) : Result where
  dot := (List.range n).countP fun i => bitAt a i && bitAt b i
  normA := (List.range n).countP (bitAt a)
  normB := (List.range n).countP (bitAt b)

/-- The counts of a block are added to those before. -/
theorem ofBits_add_block {a b : Key} {n w x y : ℕ} (hx : Reads (bitAt a) n w x)
    (hy : Reads (bitAt b) n w y) :
    Result.ofBits a b n + Result.block w x y = Result.ofBits a b (n + w) :=
  Result.ext (hx.map₂ Nat.testBit_and hy).popcount hx.popcount hy.popcount

theorem block_mask {w k : ℕ} (h : k ≤ w) (x y : ℕ) :
    Result.block w (x &&& (2 ^ k - 1)) (y &&& (2 ^ k - 1)) = Result.block k x y := by
  have hand : x &&& (2 ^ k - 1) &&& (y &&& (2 ^ k - 1)) = x &&& y &&& (2 ^ k - 1) := by
    simp only [Nat.and_two_pow_sub_one_eq_mod, Nat.and_mod_two_pow]
  refine Result.ext ?_ (popcount_mask h x) (popcount_mask h y)
  change BitSet.popcount w _ = _
  rw [hand, popcount_mask h]
  rfl

section Popcount

variable {a b : Key} {bits : ℕ} (ha : bits ≤ 8 * a.length) (hb : bits ≤ 8 * b.length)
include ha

/-- `popcount` counts the ones of a string. -/
theorem popcount_eq : popcount a bits = some ((List.range bits).countP (bitAt a)) := by
  refine countBlocks_eq (fun n => (List.range n).countP (bitAt a)) rfl (fun i hi => ?_)
    (fun i hi => ?_) fun i n hn hne hi => ?_
  · obtain ⟨x, hx, hreads⟩ := @word64_reads a i (hi.trans ha)
    exact ⟨_, by rw [hx, Option.map_some], hreads.popcount⟩
  · obtain ⟨x, hx, hreads⟩ := @byte8_reads a i 8 (hi.trans ha) (by decide)
    exact ⟨_, by rw [hx, Option.map_some], hreads.popcount⟩
  · obtain ⟨x, hx, hreads⟩ := byte8_reads (hi.trans_le ha) hne
    refine ⟨_, by rw [hx, Option.map_some], ?_⟩
    rw [popcount_mask hn.le, (hreads.le hn.le).popcount, hi]

include hb

/-- `popcount2F` counts the ones of an operation on bits. -/
theorem popcount2F_eq {f : ℕ → ℕ → ℕ} {g : Bool → Bool → Bool}
    (hf : ∀ x y j, (f x y).testBit j = g (x.testBit j) (y.testBit j)) :
    popcount2F a b bits f =
      some ((List.range bits).countP fun i => g (bitAt a i) (bitAt b i)) := by
  refine countBlocks_eq (fun n => (List.range n).countP fun i => g (bitAt a i) (bitAt b i)) rfl
    (fun i hi => ?_) (fun i hi => ?_) fun i n hn hne hi => ?_
  · obtain ⟨x, hx, hreadsX⟩ := @word64_reads a i (hi.trans ha)
    obtain ⟨y, hy, hreadsY⟩ := @word64_reads b i (hi.trans hb)
    exact ⟨_, by rw [hx, hy]; rfl, (hreadsX.map₂ hf hreadsY).popcount⟩
  · obtain ⟨x, hx, hreadsX⟩ := @byte8_reads a i 8 (hi.trans ha) (by decide)
    obtain ⟨y, hy, hreadsY⟩ := @byte8_reads b i 8 (hi.trans hb) (by decide)
    exact ⟨_, by rw [hx, hy]; rfl, (hreadsX.map₂ hf hreadsY).popcount⟩
  · obtain ⟨x, hx, hreadsX⟩ := byte8_reads (hi.trans_le ha) hne
    obtain ⟨y, hy, hreadsY⟩ := byte8_reads (hi.trans_le hb) hne
    refine ⟨_, by rw [hx, hy]; rfl, ?_⟩
    rw [popcount_mask hn.le, ((hreadsX.map₂ hf hreadsY).le hn.le).popcount, hi]

/-- `popcountDOT` counts the ones of both, and of each. -/
theorem popcountDOT_eq : popcountDOT a b bits = some (Result.ofBits a b bits) := by
  refine countBlocks_eq (Result.ofBits a b) rfl (fun i hi => ?_) (fun i hi => ?_)
    fun i n hn hne hi => ?_
  · obtain ⟨x, hx, hreadsX⟩ := @word64_reads a i (hi.trans ha)
    obtain ⟨y, hy, hreadsY⟩ := @word64_reads b i (hi.trans hb)
    exact ⟨_, by rw [hx, hy]; rfl, ofBits_add_block hreadsX hreadsY⟩
  · obtain ⟨x, hx, hreadsX⟩ := @byte8_reads a i 8 (hi.trans ha) (by decide)
    obtain ⟨y, hy, hreadsY⟩ := @byte8_reads b i 8 (hi.trans hb) (by decide)
    exact ⟨_, by rw [hx, hy]; rfl, ofBits_add_block hreadsX hreadsY⟩
  · obtain ⟨x, hx, hreadsX⟩ := byte8_reads (hi.trans_le ha) hne
    obtain ⟨y, hy, hreadsY⟩ := byte8_reads (hi.trans_le hb) hne
    refine ⟨_, by rw [hx, hy]; rfl, ?_⟩
    rw [block_mask hn.le, ofBits_add_block (hreadsX.le hn.le) (hreadsY.le hn.le), hi]

end Popcount

/-! ## The layout -/

/-- What is read is the bit of its octet. -/
theorem component_eq {data : Key} {index : ℕ} (h : index < 8 * data.length) :
    component data index = some (bitAt data index) := by
  have hlt : index / 8 < data.length := by omega
  rw [component, bitAt, List.getElem?_eq_getElem hlt, Option.map_some, Option.elim_some,
    Nat.and_one_is_mod, Nat.shiftRight_eq_div_pow, Nat.testBit_eq_decide_div_mod_eq]

section Quantize

variable {F : Type*} [Zero F] [LT F] [DecidableLT F]

/-- A component sets its bit if it is positive. -/
theorem testBit_quantizeByte (vector : List F) (j byte i : ℕ) :
    (quantizeByte j vector byte).testBit i =
      (byte.testBit i || decide (j ≤ i) && vector[i - j]?.any fun v => 0 < v) := by
  induction vector generalizing j byte with
  | nil => rw [quantizeByte, List.getElem?_nil, Option.any_none, Bool.and_false, Bool.or_false]
  | cons v vector ih =>
    have hbit : (bitVectorQuantizeComponent v <<< j).testBit i =
        (decide (j = i) && decide (0 < v)) := by
      unfold bitVectorQuantizeComponent
      split
      · next h => rw [one_shiftLeft, Nat.testBit_two_pow, decide_eq_true h, Bool.and_true]
      · next h => rw [Nat.zero_shiftLeft, Nat.zero_testBit, decide_eq_false h, Bool.and_false]
    rw [quantizeByte, ih, Nat.testBit_or, hbit, Bool.or_assoc]
    congr 1
    rcases lt_trichotomy i j with hij | rfl | hij
    · have hle : ¬j ≤ i := Nat.not_le.mpr hij
      have hsucc : ¬j + 1 ≤ i := fun h => hle (Nat.le_of_succ_le h)
      rw [decide_eq_false hij.ne', decide_eq_false hsucc, decide_eq_false hle]
      rfl
    · have hsucc : ¬i + 1 ≤ i := Nat.not_succ_le_self i
      rw [decide_eq_true rfl, decide_eq_false hsucc, decide_eq_true le_rfl, Nat.sub_self,
        List.getElem?_cons_zero, Option.any_some, Bool.false_and, Bool.or_false]
    · have hsub : i - j = i - (j + 1) + 1 := by omega
      rw [decide_eq_false hij.ne, decide_eq_true (Nat.succ_le_of_lt hij), decide_eq_true hij.le,
        hsub, List.getElem?_cons_succ]
      rfl

/-- What is written are the signs of the components, and zeros behind them. -/
theorem bitAt_bitVectorQuantize (vector : List F) (i : ℕ) :
    bitAt (bitVectorQuantize vector) i = vector[i]?.any fun v => 0 < v := by
  have hlen : (bitVectorQuantize vector).length = bytes vector.length := by
    rw [bitVectorQuantize, List.length_map, List.length_range]
  by_cases hi : i / 8 < bytes vector.length
  · have hmod : i % 8 < 8 := Nat.mod_lt _ (by decide)
    have hplace : 8 * (i / 8) + i % 8 = i := Nat.div_add_mod i 8
    have hchunk : ((vector.drop (8 * (i / 8))).take 8)[i % 8]? = vector[i]? := by
      rw [List.getElem?_take_of_lt hmod, List.getElem?_drop, hplace]
    have hbyte : (bitVectorQuantize vector)[i / 8]? = some
        (Fin.ofNat 256 (quantizeByte 0 ((vector.drop (8 * (i / 8))).take 8) 0)) := by
      rw [bitVectorQuantize, List.getElem?_map, List.getElem?_range hi, Option.map_some]
    have hlow : ∀ x : ℕ, (Fin.ofNat 256 x).val.testBit (i % 8) = x.testBit (i % 8) := fun x => by
      have hval : (Fin.ofNat 256 x).val = x % 2 ^ 8 := rfl
      rw [hval, Nat.testBit_mod_two_pow, decide_eq_true hmod, Bool.true_and]
    rw [bitAt, hbyte, Option.elim_some, hlow, testBit_quantizeByte, Nat.zero_testBit,
      Bool.false_or, decide_eq_true (Nat.zero_le _), Bool.true_and, Nat.sub_zero, hchunk]
  · have hout : vector.length ≤ i := by
      unfold bytes at hi
      omega
    rw [bitAt_of_le (hlen ▸ Nat.not_lt.mp hi), List.getElem?_eq_none hout]
    rfl

end Quantize

/-- The counts of ones are those of the bits that are written and read one by one. -/
theorem popcounts_eq (F : Type*) [Zero F] [LT F] [DecidableLT F] (a b : Key) (bits : ℕ)
    (ha : bits ≤ 8 * a.length) (hb : bits ≤ 8 * b.length) :
    popcount a bits = some ((List.range bits).countP (bitAt a)) ∧
      popcountAND a b bits = some ((List.range bits).countP fun i => bitAt a i && bitAt b i) ∧
      popcountXOR a b bits = some ((List.range bits).countP fun i => bitAt a i ^^ bitAt b i) ∧
      popcountDOT a b bits = some (Result.ofBits a b bits) ∧
      (∀ i < bits, component a i = some (bitAt a i)) ∧
      ∀ vector : List F, (bitVectorQuantize vector).length = bytes vector.length ∧
        ∀ i, (h : i < vector.length) →
          bitAt (bitVectorQuantize vector) i = decide (0 < vector[i]) := by
  refine ⟨popcount_eq ha, popcount2F_eq ha hb Nat.testBit_and, popcount2F_eq ha hb Nat.testBit_xor,
    popcountDOT_eq ha hb, fun i hi => component_eq (hi.trans_le ha),
    fun vector => ⟨?_, fun i h => ?_⟩⟩
  · rw [bitVectorQuantize, List.length_map, List.length_range]
  · rw [bitAt_bitVectorQuantize, List.getElem?_eq_getElem h, Option.any_some]

/-- Five bits of two octets. -/
theorem popcounts_eq_octets :
    popcountXOR [0b10001] [0b11] 5 = some 2 ∧ popcountDOT [0b10001] [0b11] 5 = some ⟨1, 2, 2⟩ := by
  have h := popcounts_eq ℤ [0b10001] [0b11] 5 (by decide) (by decide)
  exact ⟨h.2.2.1, h.2.2.2.1⟩

end HM4.VectorsBit
