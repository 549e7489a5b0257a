import HM4.General.BitLinear
import HM4.General.Interleave

/-!
# Morton curves

A point has two to sixteen coordinates of 8 or 32 bits, and its code has the bits of all of
them in turn. The bits are spread and gathered with shifts and masks. `computeBigMin` looks for
the least code of a box above a code.
-/

namespace HM4.MortonCurve

open BitVec BitLinear Interleave

/-! ## Spreading and gathering bits -/

/-- `combine64`. -/
def combine64 (hi lo : BitVec 64) : BitVec 128 := hi ++ lo

/-- `(x | (x << n)) & mask`. -/
def orShift {W : ℕ} (n : ℕ) (mask x : BitVec W) : BitVec W := (x ||| (x <<< n)) &&& mask

/-- `(x ^ (x >> n)) & mask`. -/
def xorShift {W : ℕ} (n : ℕ) (mask x : BitVec W) : BitVec W := (x ^^^ (x >>> n)) &&& mask

/-- `splitBits2D32`. -/
def splitBits2D32 (x : BitVec 64) : BitVec 64 :=
  let x := x &&& 0xffffffff
  let x := orShift 16 0x0000ffff0000ffff x
  let x := orShift 8 0x00ff00ff00ff00ff x
  let x := orShift 4 0x0f0f0f0f0f0f0f0f x
  let x := orShift 2 0x3333333333333333 x
  orShift 1 0x5555555555555555 x

/-- `combineBits2D32`. -/
def combineBits2D32 (x : BitVec 64) : BitVec 32 :=
  let x := x &&& 0x5555555555555555
  let x := xorShift 1 0x3333333333333333 x
  let x := xorShift 2 0x0f0f0f0f0f0f0f0f x
  let x := xorShift 4 0x00ff00ff00ff00ff x
  let x := xorShift 8 0x0000ffff0000ffff x
  let x := xorShift 16 0x00000000ffffffff x
  x.setWidth 32

/-- `splitBits8D8`. -/
def splitBits8D8 (x : BitVec 64) : BitVec 64 :=
  let x := x &&& 0xff
  let x := orShift 32 0x00000e00000001f x
  let x := orShift 16 0x080006000180007 x
  let x := orShift 8 0x080402010080403 x
  let x := orShift 4 0x080402100804021 x
  let x := orShift 2 0x081008100810081 x
  orShift 1 0x101010101010101 x

/-- The eight terms of `combineBits8D8` and `combineBits16D8`. -/
def combineBitsD8 {W : ℕ} (D : ℕ) (x : BitVec W) : BitVec W :=
  (List.range 8).foldl (fun result i => result ||| ((x &&& (1#W <<< (D * i))) >>> (D * i - i))) 0#W

/-- `combineBits8D8`. -/
def combineBits8D8 (x : BitVec 64) : BitVec 8 := (combineBitsD8 8 x).setWidth 8

/-- `splitBits3D32`. -/
def splitBits3D32 (x : BitVec 128) : BitVec 128 :=
  let x := x &&& 0xffffffff
  let x := orShift 64 (combine64 0x000003ff00000000 0x00000000ffffffff) x
  let x := orShift 32 (combine64 0x000003ff00000000 0xffff00000000ffff) x
  let x := orShift 16 (combine64 0x030000ff0000ff00 0x00ff0000ff0000ff) x
  let x := orShift 8 (combine64 0x0300f00f00f00f00 0xf00f00f00f00f00f) x
  let x := orShift 4 (combine64 0x030c30c30c30c30c 0x30c30c30c30c30c3) x
  orShift 2 (combine64 0x0924924924924924 0x9249249249249249) x

/-- `combineBits3D32`. -/
def combineBits3D32 (x : BitVec 128) : BitVec 32 :=
  let x := x &&& combine64 0x0924924924924924 0x9249249249249249
  let x := xorShift 2 (combine64 0x030c30c30c30c30c 0x30c30c30c30c30c3) x
  let x := xorShift 4 (combine64 0x0300f00f00f00f00 0xf00f00f00f00f00f) x
  let x := xorShift 8 (combine64 0x030000ff0000ff00 0x00ff0000ff0000ff) x
  let x := xorShift 16 (combine64 0x000003ff00000000 0xffff00000000ffff) x
  let x := xorShift 32 (combine64 0x000003ff00000000 0x00000000ffffffff) x
  let x := xorShift 64 (combine64 0x0000000000000000 0x00000003ffffffff) x
  x.setWidth 32

/-- `splitBits4D32`. -/
def splitBits4D32 (x : BitVec 128) : BitVec 128 :=
  let x := x &&& 0xffffffff
  let x := orShift 64 (combine64 0x00000000ffc00000 0x00000000003fffff) x
  let x := orShift 32 (combine64 0x00000000ffc00000 0x003ff800000007ff) x
  let x := orShift 16 (combine64 0x0000f80007c0003f 0x0000f80007c0003f) x
  let x := orShift 8 (combine64 0x00c0380700c03807 0x00c0380700c03807) x
  let x := orShift 4 (combine64 0x0843084308430843 0x0843084308430843) x
  let x := orShift 2 (combine64 0x0909090909090909 0x0909090909090909) x
  orShift 1 (combine64 0x1111111111111111 0x1111111111111111) x

/-- `combineBits4D32`; the last step has no mask. -/
def combineBits4D32 (x : BitVec 128) : BitVec 32 :=
  let x := x &&& combine64 0x1111111111111111 0x1111111111111111
  let x := xorShift 1 (combine64 0x0909090909090909 0x0909090909090909) x
  let x := xorShift 2 (combine64 0x0843084308430843 0x0843084308430843) x
  let x := xorShift 4 (combine64 0x00c0380700c03807 0x00c0380700c03807) x
  let x := xorShift 8 (combine64 0x0000f80007c0003f 0x0000f80007c0003f) x
  let x := xorShift 16 (combine64 0x00000000ffc00000 0x003ff800000007ff) x
  let x := xorShift 32 (combine64 0x00000000ffc00000 0x00000000003fffff) x
  let x := x ^^^ (x >>> 64)
  x.setWidth 32

/-- `splitBits16D8`. -/
def splitBits16D8 (x : BitVec 128) : BitVec 128 :=
  let x := x &&& 0xff
  let x := orShift 64 (combine64 0x00000000000000e0 0x000000000000001f) x
  let x := orShift 32 (combine64 0x0000008000000060 0x0000001800000007) x
  let x := orShift 16 (combine64 0x0000008000400020 0x0010000800040003) x
  let x := orShift 8 (combine64 0x0000800040002000 0x1000080004000201) x
  let x := orShift 4 (combine64 0x0000800040002001 0x0000800040002001) x
  let x := orShift 2 (combine64 0x0000800100008001 0x0000800100008001) x
  orShift 1 (combine64 0x0001000100010001 0x0001000100010001) x

/-- `combineBits16D8`. -/
def combineBits16D8 (x : BitVec 128) : BitVec 8 := (combineBitsD8 16 x).setWidth 8

/-- A curve: the number of coordinates, their width and the width of the word with the code,
and how the bits of a coordinate are spread and gathered. -/
structure Curve where
  /-- `D`. -/
  D : ℕ
  /-- The bits of `E`. -/
  w : ℕ
  /-- The bits of `T`. -/
  W : ℕ
  /-- `splitBits`. -/
  splitBits : BitVec W → BitVec W
  /-- `combineBits`. -/
  combineBits : BitVec W → BitVec w

/-- The curve of `computeBigMinFromMorton2D32`. -/
def curve2D32 : Curve := ⟨2, 32, 64, splitBits2D32, combineBits2D32⟩

/-- The curve of `computeBigMinFromMorton8D8`. -/
def curve8D8 : Curve := ⟨8, 8, 64, splitBits8D8, combineBits8D8⟩

/-- The curve of `computeBigMinFromMorton3D32`. -/
def curve3D32 : Curve := ⟨3, 32, 128, splitBits3D32, combineBits3D32⟩

/-- The curve of `computeBigMinFromMorton4D32`. -/
def curve4D32 : Curve := ⟨4, 32, 128, splitBits4D32, combineBits4D32⟩

/-- The curve of `computeBigMinFromMorton16D8`. -/
def curve16D8 : Curve := ⟨16, 8, 128, splitBits16D8, combineBits16D8⟩

/-- The instantiations. -/
def curves : List Curve := [curve2D32, curve8D8, curve3D32, curve4D32, curve16D8]

/-- `toMorton2D32` and its siblings. -/
def toMorton (c : Curve) (v : Fin c.D → BitVec c.w) : BitVec c.W :=
  (List.finRange c.D).foldl (fun z d => z ||| (c.splitBits ((v d).setWidth c.W) <<< d.val)) 0#c.W

/-- `fromMorton2D32` and its siblings. -/
def fromMorton (c : Curve) (zzz : BitVec c.W) : Fin c.D → BitVec c.w := fun d =>
  c.combineBits (zzz >>> d.val)

/-! ## What spreading and gathering do -/

section Linear

variable {W : ℕ}

theorem orShift_or (n : ℕ) (mask x y : BitVec W) :
    orShift n mask (x ||| y) = orShift n mask x ||| orShift n mask y := by
  unfold orShift
  refine eq_of_getLsbD_eq fun i hi => ?_
  simp only [getLsbD_and, getLsbD_or, getLsbD_shiftLeft]
  cases x.getLsbD i <;> cases y.getLsbD i <;> cases mask.getLsbD i <;>
    cases (decide (i < W) && !decide (i < n)) <;> simp

theorem xorShift_xor (n : ℕ) (mask x y : BitVec W) :
    xorShift n mask (x ^^^ y) = xorShift n mask x ^^^ xorShift n mask y := by
  unfold xorShift
  refine eq_of_getLsbD_eq fun i hi => ?_
  simp only [getLsbD_and, getLsbD_xor, getLsbD_ushiftRight]
  cases x.getLsbD i <;> cases y.getLsbD i <;> cases mask.getLsbD i <;> simp

theorem xor_ushiftRight (n : ℕ) (x y : BitVec W) :
    (x ^^^ y) ^^^ ((x ^^^ y) >>> n) = (x ^^^ (x >>> n)) ^^^ (y ^^^ (y >>> n)) := by
  refine eq_of_getLsbD_eq fun i hi => ?_
  simp only [getLsbD_xor, getLsbD_ushiftRight]
  cases x.getLsbD i <;> cases y.getLsbD i <;> simp

theorem or_and (mask x y : BitVec W) : (x ||| y) &&& mask = (x &&& mask) ||| (y &&& mask) := by
  refine eq_of_getLsbD_eq fun i hi => ?_
  rw [getLsbD_and, getLsbD_or, getLsbD_or, getLsbD_and, getLsbD_and, Bool.and_or_distrib_right]

theorem xor_and (mask x y : BitVec W) : (x ^^^ y) &&& mask = (x &&& mask) ^^^ (y &&& mask) := by
  refine eq_of_getLsbD_eq fun i hi => ?_
  rw [getLsbD_and, getLsbD_xor, getLsbD_xor, getLsbD_and, getLsbD_and, Bool.and_xor_distrib_right]

end Linear

/-- The bits of a word are spread, and those of a code gathered. -/
structure Lawful (c : Curve) : Prop where
  width : c.D * c.w ≤ c.W
  narrow : c.w ≤ c.W
  pos : 0 < c.D
  short : c.w ≤ 32
  split : ∀ x j, (c.splitBits x).getLsbD j =
    (decide (j % c.D = 0) && (decide (j / c.D < c.w) && x.getLsbD (j / c.D)))
  combine : ∀ x i, (c.combineBits x).getLsbD i = (decide (i < c.w) && x.getLsbD (i * c.D))

section Basis

variable {D w W : ℕ}

/-- Words with one bit tell how bits are spread. -/
theorem split_of_basis {f : BitVec W → BitVec W} (hf : Linear f) (hD : 0 < D) (hwide : D * w ≤ W)
    (h0 : f 0#W = 0#W) (hone : ∀ i < W, f (twoPow W i) = if i < w then twoPow W (i * D) else 0#W)
    (x : BitVec W) (j : ℕ) :
    (f x).getLsbD j = (decide (j % D = 0) && (decide (j / D < w) && x.getLsbD (j / D))) := by
  have hbits := hf.getLsbD h0 (fun j => if j % D = 0 ∧ j / D < w then some (j / D) else none)
    (fun i hi j => ?_) x j
  · rw [hbits]
    by_cases h : j % D = 0 ∧ j / D < w
    · rw [if_pos h, decide_eq_true h.1, decide_eq_true h.2]
      rfl
    · rw [if_neg h]
      rcases not_and_or.mp h with h | h
      · rw [decide_eq_false h]
        rfl
      · rw [decide_eq_false h, Bool.false_and, Bool.and_false]
        rfl
  · rw [hone i hi]
    by_cases hiw : i < w
    · have hlt : i * D < W := by
        have hmul := Nat.mul_le_mul_right D (Nat.succ_le_of_lt hiw)
        rw [Nat.succ_mul, Nat.mul_comm w D] at hmul
        omega
      rw [if_pos hiw, getLsbD_twoPow, decide_eq_true hlt, Bool.true_and]
      refine decide_eq_decide.mpr ⟨?_, fun h => ?_⟩
      · rintro rfl
        have hdiv : i * D / D = i := Nat.mul_div_cancel i hD
        rw [if_pos ⟨Nat.mul_mod_left i D, hdiv.symm ▸ hiw⟩, hdiv]
      · by_cases hj : j % D = 0 ∧ j / D < w
        · rw [if_pos hj] at h
          rw [← Option.some.inj h]
          exact Nat.div_mul_cancel (Nat.dvd_of_mod_eq_zero hj.1)
        · rw [if_neg hj] at h
          exact absurd h.symm (Option.some_ne_none i)
    · rw [if_neg hiw, getLsbD_zero]
      refine (decide_eq_false fun h => ?_).symm
      by_cases hj : j % D = 0 ∧ j / D < w
      · rw [if_pos hj] at h
        exact hiw (Option.some.inj h ▸ hj.2)
      · rw [if_neg hj] at h
        exact absurd h.symm (Option.some_ne_none i)

/-- Words with one bit tell how bits are gathered. -/
theorem combine_of_basis {f : BitVec W → BitVec w} (hf : Linear f) (hD : 0 < D)
    (h0 : f 0#W = 0#w)
    (hone : ∀ i < W, f (twoPow W i) = if i % D = 0 ∧ i / D < w then twoPow w (i / D) else 0#w)
    (x : BitVec W) (i : ℕ) : (f x).getLsbD i = (decide (i < w) && x.getLsbD (i * D)) := by
  have hbits := hf.getLsbD h0 (fun i => if i < w then some (i * D) else none)
    (fun k hk i => ?_) x i
  · rw [hbits]
    by_cases h : i < w
    · rw [if_pos h, decide_eq_true h]
      rfl
    · rw [if_neg h, decide_eq_false h]
      rfl
  · rw [hone k hk]
    by_cases hkD : k % D = 0 ∧ k / D < w
    · rw [if_pos hkD, getLsbD_twoPow, decide_eq_true hkD.2, Bool.true_and]
      refine decide_eq_decide.mpr ⟨?_, fun h => ?_⟩
      · rintro rfl
        rw [if_pos hkD.2, Nat.div_mul_cancel (Nat.dvd_of_mod_eq_zero hkD.1)]
      · by_cases hi : i < w
        · rw [if_pos hi] at h
          rw [← Option.some.inj h, Nat.mul_div_cancel i hD]
        · rw [if_neg hi] at h
          exact absurd h.symm (Option.some_ne_none k)
    · rw [if_neg hkD, getLsbD_zero]
      refine (decide_eq_false fun h => hkD ?_).symm
      by_cases hi : i < w
      · rw [if_pos hi] at h
        rw [← Option.some.inj h, Nat.mul_div_cancel i hD]
        exact ⟨Nat.mul_mod_left i D, hi⟩
      · rw [if_neg hi] at h
        exact absurd h.symm (Option.some_ne_none k)

end Basis

theorem combineBitsD8_or {W : ℕ} (D : ℕ) (x y : BitVec W) :
    combineBitsD8 D (x ||| y) = combineBitsD8 D x ||| combineBitsD8 D y := by
  have hfold : ∀ (l : List ℕ) (r s : BitVec W),
      l.foldl (fun result i => result ||| (((x ||| y) &&& (1#W <<< (D * i))) >>> (D * i - i)))
        (r ||| s) =
      l.foldl (fun result i => result ||| ((x &&& (1#W <<< (D * i))) >>> (D * i - i))) r |||
        l.foldl (fun result i => result ||| ((y &&& (1#W <<< (D * i))) >>> (D * i - i))) s := by
    intro l
    induction l with
    | nil => intro r s; rfl
    | cons i l ih =>
      intro r s
      rw [List.foldl_cons, List.foldl_cons, List.foldl_cons, ← ih, or_and, ushiftRight_or_distrib]
      congr 1
      refine eq_of_getLsbD_eq fun j _ => ?_
      simp only [getLsbD_or]
      cases r.getLsbD j <;> cases s.getLsbD j <;> simp [Bool.or_comm]
  have h := hfold (List.range 8) 0#W 0#W
  rw [BitVec.or_self] at h
  exact h

theorem linear_splitBits2D32 : Linear splitBits2D32 := linear_of_or fun x y => by
  simp only [splitBits2D32, or_and, orShift_or]

theorem linear_splitBits8D8 : Linear splitBits8D8 := linear_of_or fun x y => by
  simp only [splitBits8D8, or_and, orShift_or]

theorem linear_splitBits3D32 : Linear splitBits3D32 := linear_of_or fun x y => by
  simp only [splitBits3D32, or_and, orShift_or]

theorem linear_splitBits4D32 : Linear splitBits4D32 := linear_of_or fun x y => by
  simp only [splitBits4D32, or_and, orShift_or]

theorem linear_splitBits16D8 : Linear splitBits16D8 := linear_of_or fun x y => by
  simp only [splitBits16D8, or_and, orShift_or]

theorem linear_combineBits2D32 : Linear combineBits2D32 := linear_of_xor fun x y => by
  simp only [combineBits2D32, xor_and, xorShift_xor, setWidth_xor]

theorem linear_combineBits8D8 : Linear combineBits8D8 := linear_of_or fun x y => by
  simp only [combineBits8D8, combineBitsD8_or, setWidth_or]

theorem linear_combineBits3D32 : Linear combineBits3D32 := linear_of_xor fun x y => by
  simp only [combineBits3D32, xor_and, xorShift_xor, setWidth_xor]

theorem linear_combineBits4D32 : Linear combineBits4D32 := linear_of_xor fun x y => by
  simp only [combineBits4D32, xor_and, xorShift_xor, xor_ushiftRight, setWidth_xor]

theorem linear_combineBits16D8 : Linear combineBits16D8 := linear_of_or fun x y => by
  simp only [combineBits16D8, combineBitsD8_or, setWidth_or]

/-- What a curve does with words of one bit. -/
structure Basis (c : Curve) : Prop where
  width : c.D * c.w ≤ c.W
  narrow : c.w ≤ c.W
  pos : 0 < c.D
  short : c.w ≤ 32
  split_zero : c.splitBits 0#c.W = 0#c.W
  split_one : ∀ i < c.W,
    c.splitBits (twoPow c.W i) = if i < c.w then twoPow c.W (i * c.D) else 0#c.W
  combine_zero : c.combineBits 0#c.W = 0#c.w
  combine_one : ∀ i < c.W, c.combineBits (twoPow c.W i) =
    if i % c.D = 0 ∧ i / c.D < c.w then twoPow c.w (i / c.D) else 0#c.w

instance (c : Curve) : Decidable (Basis c) :=
  decidable_of_iff (c.D * c.w ≤ c.W ∧ c.w ≤ c.W ∧ 0 < c.D ∧ c.w ≤ 32 ∧
      c.splitBits 0#c.W = 0#c.W ∧
      (∀ i < c.W,
        c.splitBits (twoPow c.W i) = if i < c.w then twoPow c.W (i * c.D) else 0#c.W) ∧
      c.combineBits 0#c.W = 0#c.w ∧
      ∀ i < c.W, c.combineBits (twoPow c.W i) =
        if i % c.D = 0 ∧ i / c.D < c.w then twoPow c.w (i / c.D) else 0#c.w)
    ⟨fun ⟨h1, h2, h3, h4, h5, h6, h7, h8⟩ => ⟨h1, h2, h3, h4, h5, h6, h7, h8⟩,
      fun h => ⟨h.width, h.narrow, h.pos, h.short, h.split_zero, h.split_one, h.combine_zero,
        h.combine_one⟩⟩

theorem basis_of_mem : ∀ c ∈ curves, Basis c := by decide +kernel

/-- Linear maps are told by words of one bit. -/
theorem Basis.lawful {c : Curve} (h : Basis c) (hsplit : Linear c.splitBits)
    (hcombine : Linear c.combineBits) : Lawful c where
  width := h.width
  narrow := h.narrow
  pos := h.pos
  short := h.short
  split := split_of_basis hsplit h.pos h.width h.split_zero h.split_one
  combine := combine_of_basis hcombine h.pos h.combine_zero h.combine_one

/-- All instantiations spread and gather bits as they should. -/
theorem lawful_of_mem {c : Curve} (h : c ∈ curves) : Lawful c := by
  have hbasis := basis_of_mem c h
  simp only [curves, List.mem_cons, List.not_mem_nil, or_false] at h
  rcases h with rfl | rfl | rfl | rfl | rfl
  · exact hbasis.lawful linear_splitBits2D32 linear_combineBits2D32
  · exact hbasis.lawful linear_splitBits8D8 linear_combineBits8D8
  · exact hbasis.lawful linear_splitBits3D32 linear_combineBits3D32
  · exact hbasis.lawful linear_splitBits4D32 linear_combineBits4D32
  · exact hbasis.lawful linear_splitBits16D8 linear_combineBits16D8

theorem lawful_2D32 : Lawful curve2D32 := lawful_of_mem List.mem_cons_self

/-! ## Codes -/

section Code

variable {c : Curve} (h : Lawful c)

include h

/-- A word is spread to the places of one coordinate. -/
theorem getLsbD_spread (x : BitVec c.W) {d : ℕ} (hdD : d < c.D) (j : ℕ) :
    (c.splitBits x <<< d).getLsbD j =
      (decide (d = j % c.D) && (decide (j / c.D < c.w) && x.getLsbD (j / c.D))) := by
  have hD := h.pos
  have hsplit := Nat.div_add_mod j c.D
  have hmod := Nat.mod_lt j hD
  rw [getLsbD_shiftLeft, h.split]
  by_cases hd : d = j % c.D
  · have hsub : j - d = c.D * (j / c.D) := by omega
    have hzero : (j - d) % c.D = 0 := by rw [hsub, Nat.mul_mod_right]
    have hdiv : (j - d) / c.D = j / c.D := by rw [hsub, Nat.mul_div_cancel_left _ hD]
    rw [hzero, hdiv, decide_eq_true hd, Bool.true_and]
    by_cases hw : j / c.D < c.w
    · have hj : j < c.W := by
        have hmul := Nat.mul_le_mul_left c.D (Nat.succ_le_of_lt hw)
        have hwide := h.width
        rw [Nat.mul_succ] at hmul
        omega
      rw [decide_eq_true hj, decide_eq_false (by omega), decide_eq_true hw]
      rfl
    · rw [decide_eq_false hw, Bool.false_and, Bool.and_false, Bool.and_false]
  · rw [decide_eq_false hd, Bool.false_and]
    by_cases hj : j < d
    · rw [decide_eq_true hj, Bool.not_true, Bool.and_false, Bool.false_and]
    · have hne : (j - d) % c.D ≠ 0 := fun hzero => hd ?_
      · rw [decide_eq_false hne, Bool.false_and, Bool.and_false]
      · have hdvd := Nat.div_add_mod (j - d) c.D
        have hj' : j = d + c.D * ((j - d) / c.D) := by omega
        rw [hj', Nat.add_mul_mod_self_left, Nat.mod_eq_of_lt hdD]

/-- What one coordinate contributes to a code. -/
theorem getLsbD_term (x : BitVec c.w) (d : Fin c.D) (j : ℕ) :
    (c.splitBits (x.setWidth c.W) <<< d.val).getLsbD j =
      (decide (d.val = j % c.D) && x.getLsbD (j / c.D)) := by
  rw [getLsbD_spread h _ d.isLt, getLsbD_setWidth]
  congr 1
  by_cases hw : j / c.D < c.w
  · rw [decide_eq_true hw, decide_eq_true (hw.trans_le h.narrow), Bool.true_and, Bool.true_and]
  · rw [decide_eq_false hw, Bool.false_and, getLsbD_of_ge x _ (Nat.not_lt.mp hw)]

/-- The bits of a code are those of its coordinates in turn. -/
theorem getLsbD_toMorton (v : Fin c.D → BitVec c.w) (j : ℕ) :
    (toMorton c v).getLsbD j = (v ⟨j % c.D, Nat.mod_lt j h.pos⟩).getLsbD (j / c.D) := by
  have hfold : ∀ (l : List (Fin c.D)) (z : BitVec c.W),
      (l.foldl (fun z d => z ||| (c.splitBits ((v d).setWidth c.W) <<< d.val)) z).getLsbD j =
        (z.getLsbD j || l.any fun d => decide (d.val = j % c.D) && (v d).getLsbD (j / c.D)) := by
    intro l
    induction l with
    | nil => intro z; exact (Bool.or_false _).symm
    | cons d l ih =>
      intro z
      rw [List.foldl_cons, ih, getLsbD_or, getLsbD_term h, List.any_cons, Bool.or_assoc]
  rw [toMorton, hfold, getLsbD_zero, Bool.false_or, Bool.eq_iff_iff, List.any_eq_true]
  constructor
  · rintro ⟨d, _, hd⟩
    obtain ⟨hd1, hd2⟩ := Bool.and_eq_true_iff.mp hd
    have hd' : d = ⟨j % c.D, Nat.mod_lt j h.pos⟩ := Fin.ext (of_decide_eq_true hd1)
    rw [← hd']
    exact hd2
  · intro hbit
    exact ⟨_, List.mem_finRange _, Bool.and_eq_true_iff.mpr ⟨decide_eq_true rfl, hbit⟩⟩

theorem toMorton_lt (v : Fin c.D → BitVec c.w) : (toMorton c v).toNat < 2 ^ (c.D * c.w) := by
  refine Nat.lt_pow_two_of_testBit _ fun j hj => ?_
  rw [testBit_toNat, getLsbD_toMorton h, getLsbD_of_ge]
  exact (Nat.le_div_iff_mul_le h.pos).mpr (by rw [Nat.mul_comm]; exact hj)

/-- The coordinates of a code are those it was made of. -/
theorem coord_toMorton (v : Fin c.D → BitVec c.w) (d : Fin c.D) :
    coord c.D c.w (toMorton c v).toNat d = (v d).toNat := by
  refine Nat.eq_of_testBit_eq fun i => ?_
  obtain ⟨hmod, hdiv⟩ := place_div_mod (i := i) d.isLt
  rw [testBit_coord, testBit_toNat, testBit_toNat, getLsbD_toMorton h]
  simp only [hmod, hdiv, Fin.eta]
  by_cases hi : i < c.w
  · rw [decide_eq_true hi, Bool.true_and]
  · rw [decide_eq_false hi, Bool.false_and, getLsbD_of_ge _ _ (Nat.not_lt.mp hi)]

/-- The coordinates of a code are read back. -/
theorem toNat_fromMorton (z : BitVec c.W) (d : Fin c.D) :
    (fromMorton c z d).toNat = coord c.D c.w z.toNat d := by
  refine Nat.eq_of_testBit_eq fun i => ?_
  rw [testBit_coord, testBit_toNat, testBit_toNat, fromMorton, h.combine, getLsbD_ushiftRight,
    Nat.add_comm]

/-- `fromMorton` undoes `toMorton`. -/
theorem fromMorton_toMorton (v : Fin c.D → BitVec c.w) : fromMorton c (toMorton c v) = v :=
  funext fun d => eq_of_toNat_eq ((toNat_fromMorton h _ d).trans (coord_toMorton h v d))

/-- A code without further bits is that of its coordinates. -/
theorem toMorton_fromMorton {z : BitVec c.W} (hz : z.toNat < 2 ^ (c.D * c.w)) :
    toMorton c (fromMorton c z) = z := by
  refine eq_of_getLsbD_eq fun j _ => ?_
  rw [getLsbD_toMorton h, ← testBit_toNat, toNat_fromMorton h, ← testBit_toNat]
  by_cases hj : j < c.D * c.w
  · exact (testBit_eq_coord _ hj).symm
  · have hw : ¬j / c.D < c.w := fun hlt => hj ((Nat.div_lt_iff_lt_mul h.pos).mp hlt |>.trans_eq
      (Nat.mul_comm _ _))
    rw [testBit_coord, decide_eq_false hw, Bool.false_and,
      Nat.testBit_lt_two_pow (hz.trans_le (Nat.pow_le_pow_right Nat.two_pos (Nat.not_lt.mp hj)))]

end Code

end HM4.MortonCurve
