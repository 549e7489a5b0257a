import HM4.MortonCurve

/-!
# The least code of a box above a code

`computeBigMin` goes down the bits of three codes at once. Where they differ it cuts the box
and keeps the half in which the code lies. The mask that clears the bits of a coordinate is
made by a shift of a 32-bit one, which has no defined result for the highest of 32 bits.
-/

namespace HM4.BigMin

open BitVec Interleave MortonCurve

/-- `combine3Bools`. -/
def combine3Bools (a b c : Bool) : ℕ :=
  (if a then 0b0100 else 0b0000) ||| (if b then 0b0010 else 0b0000) |||
    (if c then 0b0001 else 0b0000)

/-- `1u << n`, which is not defined from the width of the type on. -/
def shiftOne (n : ℕ) : Option (BitVec 32) := if n < 32 then some (1#32 <<< n) else none

/-- `loadBits`. -/
def loadBits (c : Curve) (bit_pattern : BitVec c.W) (bit_position : ℕ) (value : BitVec c.W)
    (dim : ℕ) : Option (BitVec c.W) := do
  let split := c.splitBits bit_pattern
  let insert := split <<< dim
  let shifted ← shiftOne (bit_position / c.D + 1)
  let base_mask := shifted - 1#32
  let wipe_mask := ~~~(c.splitBits (base_mask.setWidth c.W) <<< dim)
  return (value &&& wipe_mask) ||| insert

/-- The loop of `computeBigMinFromMorton_` over so many bit positions. -/
def computeBigMinLoop (c : Curve) (xd : BitVec c.W) :
    ℕ → BitVec c.W → BitVec c.W → BitVec c.W → Option (BitVec c.W)
  | 0, _, _, bigmin => some bigmin
  | bit_position + 1, z_min, z_max, bigmin =>
    let mask := 1#c.W <<< bit_position
    let dim := bit_position % c.D
    let bit_mask := 1#c.W <<< (bit_position / c.D)
    match combine3Bools (xd &&& mask != 0) (z_min &&& mask != 0) (z_max &&& mask != 0) with
    | 0b0001 => do
      let bigmin ← loadBits c (bit_mask - 0) bit_position z_min dim
      let z_max ← loadBits c (bit_mask - 1) bit_position z_max dim
      computeBigMinLoop c xd bit_position z_min z_max bigmin
    | 0b0010 => some (-1)
    | 0b0110 => some (-1)
    | 0b0011 => some z_min
    | 0b0100 => some bigmin
    | 0b0101 => do
      let z_min ← loadBits c bit_mask bit_position z_min dim
      computeBigMinLoop c xd bit_position z_min z_max bigmin
    | _ => computeBigMinLoop c xd bit_position z_min z_max bigmin

/-- `computeBigMinFromMorton2D32` and its siblings. -/
def computeBigMin (c : Curve) (z_current z_min z_max : BitVec c.W) : Option (BitVec c.W) :=
  computeBigMinLoop c z_current (c.w * c.D) z_min z_max 0

/-! ## Loading bits -/

theorem mask_ne_zero {W p : ℕ} (x : BitVec W) (hp : p < W) :
    (x &&& (1#W <<< p) != 0) = x.getLsbD p := by
  rw [← twoPow_eq, and_twoPow]
  cases x.getLsbD p with
  | false => rfl
  | true =>
    have hne : twoPow W p ≠ 0#W := fun h => by
      have hbit := congrArg (fun y => y.getLsbD p) h
      simp only [getLsbD_twoPow, hp, decide_true, Bool.true_and, getLsbD_zero] at hbit
      exact absurd hbit Bool.noConfusion
    exact bne_iff_ne.mpr hne

/-- The bits below a power of two. -/
theorem getLsbD_ones {W k : ℕ} (hk : k < W) (i : ℕ) :
    ((1#W <<< k) - 1#W).getLsbD i = decide (i < k) := by
  have hone : (1#W).toNat = 1 := by
    rw [toNat_ofNat]
    exact Nat.mod_eq_of_lt (Nat.one_lt_two_pow (by omega))
  have hpow : (1#W <<< k).toNat = 2 ^ k := by
    rw [← twoPow_eq, toNat_twoPow_of_lt hk]
  have hle : 1#W ≤ 1#W <<< k := by
    rw [BitVec.le_def, hone, hpow]
    exact Nat.one_le_two_pow
  rw [← testBit_toNat, toNat_sub_of_le hle, hone, hpow, Nat.testBit_two_pow_sub_one]

section Load

variable {c : Curve} (h : Lawful c) {p : ℕ}

include h

/-- `loadBits` replaces the bits of one coordinate from a place down. -/
theorem loadBits_spec (pattern value : BitVec c.W) (hp : p / c.D + 1 < 32)
    (hw : p / c.D < c.w) (hpat : ∀ i, p / c.D < i → pattern.getLsbD i = false) :
    ∃ z, loadBits c pattern p value (p % c.D) = some z ∧ ∀ j, z.getLsbD j =
      if j % c.D = p % c.D ∧ j ≤ p then pattern.getLsbD (j / c.D) else value.getLsbD j := by
  have hdim := Nat.mod_lt p h.pos
  have hload : loadBits c pattern p value (p % c.D) =
      some ((value &&& ~~~(c.splitBits (((1#32 <<< (p / c.D + 1)) - 1#32).setWidth c.W) <<<
        (p % c.D))) ||| (c.splitBits pattern <<< (p % c.D))) := by
    unfold loadBits shiftOne
    rw [if_pos hp]
    rfl
  refine ⟨_, hload, fun j => ?_⟩
  rw [getLsbD_or, getLsbD_and, getLsbD_not, getLsbD_spread h _ hdim, getLsbD_spread h _ hdim,
    getLsbD_setWidth, getLsbD_ones hp]
  by_cases hd : p % c.D = j % c.D
  · have hle : j ≤ p ↔ j / c.D ≤ p / c.D := by
      have hplace := place_le_iff (i := j / c.D) (Nat.mod_lt j h.pos) hd.symm
      rw [Nat.mul_comm, Nat.div_add_mod] at hplace
      exact hplace
    simp only [hd.symm, true_and, hle]
    by_cases hj : j / c.D ≤ p / c.D
    · have hw' := hj.trans_lt hw
      rw [if_pos hj, decide_eq_true hw', decide_eq_true (hw'.trans_le h.narrow),
        decide_eq_true (Nat.lt_succ_of_le hj)]
      simp
    · rw [if_neg hj, hpat _ (Nat.not_le.mp hj),
        decide_eq_false (fun hc => hj (Nat.le_of_lt_succ hc))]
      by_cases hW : j < c.W
      · simp [hW]
      · simp [getLsbD_of_ge value j (Nat.not_lt.mp hW)]
  · rw [decide_eq_false hd, if_neg fun hc => hd hc.1.symm]
    by_cases hW : j < c.W
    · simp [hW]
    · simp [getLsbD_of_ge value j (Nat.not_lt.mp hW)]

/-- The load of a one and zeros. -/
theorem loadBits_high (value : BitVec c.W) (hp : p / c.D + 1 < 32) (hw : p / c.D < c.w) :
    ∃ z, loadBits c (1#c.W <<< (p / c.D)) p value (p % c.D) = some z ∧
      LoadsHigh c.D p value.toNat z.toNat := by
  have hbit : ∀ i, (1#c.W <<< (p / c.D)).getLsbD i = decide (p / c.D = i) := fun i => by
    rw [← twoPow_eq, getLsbD_twoPow, decide_eq_true (hw.trans_le h.narrow), Bool.true_and]
  obtain ⟨z, hz, hbits⟩ := loadBits_spec h (1#c.W <<< (p / c.D)) value hp hw
    fun i hi => by rw [hbit, decide_eq_false hi.ne]
  refine ⟨z, hz, ⟨fun q => ?_⟩⟩
  rw [testBit_toNat, testBit_toNat, hbits]
  by_cases hq : q % c.D = p % c.D ∧ q ≤ p
  · rw [if_pos hq, if_pos hq, hbit]
    have hplace := place_eq_iff (p := p) (i := q / c.D) (Nat.mod_lt q h.pos) hq.1
    rw [Nat.mul_comm, Nat.div_add_mod] at hplace
    exact decide_eq_decide.mpr (eq_comm.trans hplace.symm)
  · rw [if_neg hq, if_neg hq]

/-- The load of a zero and ones. -/
theorem loadBits_low (value : BitVec c.W) (hp : p / c.D + 1 < 32) (hw : p / c.D < c.w) :
    ∃ z, loadBits c ((1#c.W <<< (p / c.D)) - 1) p value (p % c.D) = some z ∧
      LoadsLow c.D p value.toNat z.toNat := by
  have hbit : ∀ i, ((1#c.W <<< (p / c.D)) - 1#c.W).getLsbD i = decide (i < p / c.D) :=
    getLsbD_ones (hw.trans_le h.narrow)
  obtain ⟨z, hz, hbits⟩ := loadBits_spec h ((1#c.W <<< (p / c.D)) - 1#c.W) value
    hp hw fun i hi => by
      rw [hbit, decide_eq_false hi.not_gt]
  refine ⟨z, hz, ⟨fun q => ?_⟩⟩
  rw [testBit_toNat, testBit_toNat, hbits]
  by_cases hq : q % c.D = p % c.D ∧ q ≤ p
  · rw [if_pos hq, if_pos hq, hbit]
    have hplace := place_eq_iff (p := p) (i := q / c.D) (Nat.mod_lt q h.pos) hq.1
    rw [Nat.mul_comm, Nat.div_add_mod] at hplace
    have hle := Nat.div_le_div_right (c := c.D) hq.2
    refine decide_eq_decide.mpr ⟨fun hlt hc => hlt.ne (hplace.mp hc), fun hne => ?_⟩
    exact lt_of_le_of_ne hle fun hc => hne (hplace.mpr hc)
  · rw [if_neg hq, if_neg hq]

omit h in
/-- From the highest of 32 bits on nothing is loaded. -/
theorem loadBits_undefined {pattern value : BitVec c.W} (hp : ¬p / c.D + 1 < 32) (dim : ℕ) :
    loadBits c pattern p value dim = none := by
  unfold loadBits shiftOne
  rw [if_neg hp]
  rfl

end Load

/-! ## The loop -/

section Loop

attribute [local simp] computeBigMinLoop

variable {c : Curve} (h : Lawful c) {p : ℕ} {x : BitVec c.W}

include h

/-- Where all three codes agree the loop goes on. -/
theorem loop_agree {lo hi : BitVec c.W} (big : BitVec c.W) (hp : p < c.D * c.w)
    (hxlo : x.getLsbD p = lo.getLsbD p) (hlohi : lo.getLsbD p = hi.getLsbD p) :
    computeBigMinLoop c x (p + 1) lo hi big = computeBigMinLoop c x p lo hi big := by
  have hpW := hp.trans_le h.width
  rw [computeBigMinLoop]
  simp only [mask_ne_zero _ hpW]
  rw [hxlo, ← hlohi]
  cases lo.getLsbD p <;> rfl

/-- The loop passes all places where the codes agree. -/
theorem loop_skip {lo hi : BitVec c.W} (big : BitVec c.W) {n : ℕ} (hpn : p ≤ n)
    (hn : n ≤ c.D * c.w) (hxlo : ∀ q, p ≤ q → x.getLsbD q = lo.getLsbD q)
    (hlohi : ∀ q, p ≤ q → lo.getLsbD q = hi.getLsbD q) :
    computeBigMinLoop c x n lo hi big = computeBigMinLoop c x p lo hi big := by
  induction n with
  | zero => rw [Nat.le_zero.mp hpn]
  | succ n ih =>
    rcases Nat.eq_or_lt_of_le hpn with rfl | hlt
    · rfl
    · have hpn' := Nat.le_of_lt_succ hlt
      rw [loop_agree h big hn (hxlo n hpn') (hlohi n hpn')]
      exact ih hpn' (Nat.le_of_succ_le hn)

/-- Where only the upper corner has the bit, the upper half gives a candidate and the lower half is
searched. -/
theorem loop_low {lo hi : BitVec c.W} (big : BitVec c.W) (hp : p < c.D * c.w)
    (hp32 : p / c.D + 1 < 32) (hx : x.getLsbD p = false) (hlo : lo.getLsbD p = false)
    (hhi : hi.getLsbD p = true) :
    ∃ high low, LoadsHigh c.D p lo.toNat high.toNat ∧ LoadsLow c.D p hi.toNat low.toNat ∧
      computeBigMinLoop c x (p + 1) lo hi big = computeBigMinLoop c x p lo low high := by
  have hpW := hp.trans_le h.width
  have hw : p / c.D < c.w := Nat.div_lt_of_lt_mul hp
  obtain ⟨high, ehigh, hhigh⟩ := loadBits_high h lo hp32 hw
  obtain ⟨low, elow, hlow⟩ := loadBits_low h hi hp32 hw
  refine ⟨high, low, hhigh, hlow, ?_⟩
  rw [computeBigMinLoop]
  simp only [mask_ne_zero _ hpW, hx, hlo, hhi]
  have hmagic : combine3Bools false false true = 1 := rfl
  have hsub : (1#c.W <<< (p / c.D)) - 0 = 1#c.W <<< (p / c.D) := BitVec.sub_zero _
  rw [hmagic, hsub, ehigh, elow]
  rfl

/-- Where the code and the upper corner have the bit, the upper half is searched. -/
theorem loop_high {lo hi : BitVec c.W} (big : BitVec c.W) (hp : p < c.D * c.w)
    (hp32 : p / c.D + 1 < 32) (hx : x.getLsbD p = true) (hlo : lo.getLsbD p = false)
    (hhi : hi.getLsbD p = true) :
    ∃ high, LoadsHigh c.D p lo.toNat high.toNat ∧
      computeBigMinLoop c x (p + 1) lo hi big = computeBigMinLoop c x p high hi big := by
  have hpW := hp.trans_le h.width
  obtain ⟨high, ehigh, hhigh⟩ := loadBits_high h lo hp32 (Nat.div_lt_of_lt_mul hp)
  refine ⟨high, hhigh, ?_⟩
  rw [computeBigMinLoop]
  simp only [mask_ne_zero _ hpW, hx, hlo, hhi]
  have hmagic : combine3Bools true false true = 5 := rfl
  rw [hmagic, ehigh]
  rfl

/-- Where both corners have the bit, the lower corner is the result. -/
theorem loop_all {lo hi : BitVec c.W} (big : BitVec c.W) (hp : p < c.D * c.w)
    (hx : x.getLsbD p = false) (hlo : lo.getLsbD p = true) (hhi : hi.getLsbD p = true) :
    computeBigMinLoop c x (p + 1) lo hi big = some lo := by
  have hpW := hp.trans_le h.width
  rw [computeBigMinLoop]
  simp only [mask_ne_zero _ hpW, hx, hlo, hhi]
  rfl

/-- Where only the code has the bit, the candidate is the result. -/
theorem loop_none {lo hi : BitVec c.W} (big : BitVec c.W) (hp : p < c.D * c.w)
    (hx : x.getLsbD p = true) (hlo : lo.getLsbD p = false) (hhi : hi.getLsbD p = false) :
    computeBigMinLoop c x (p + 1) lo hi big = some big := by
  have hpW := hp.trans_le h.width
  rw [computeBigMinLoop]
  simp only [mask_ne_zero _ hpW, hx, hlo, hhi]
  rfl

/-- Where the corners are the wrong way round, all bits are the result. -/
theorem loop_crossed {lo hi : BitVec c.W} (big : BitVec c.W) (hp : p < c.D * c.w)
    (hlo : lo.getLsbD p = true) (hhi : hi.getLsbD p = false) :
    computeBigMinLoop c x (p + 1) lo hi big = some (-1) := by
  have hpW := hp.trans_le h.width
  rw [computeBigMinLoop]
  simp only [mask_ne_zero _ hpW, hlo, hhi]
  cases x.getLsbD p <;> rfl

omit h in
/-- A code that is loaded from one that agrees from a place on agrees with what has the bit
there. -/
theorem getLsbD_high {lo high : BitVec c.W} (hhigh : LoadsHigh c.D p lo.toNat high.toNat) {q : ℕ}
    (hq : p ≤ q) : high.getLsbD q = if q = p then true else lo.getLsbD q := by
  have hbits := hhigh.bits q
  rw [testBit_toNat, testBit_toNat] at hbits
  rw [hbits]
  by_cases hqp : q = p
  · rw [if_pos ⟨hqp ▸ rfl, hqp.le⟩, if_pos hqp, decide_eq_true hqp]
  · rw [if_neg (by omega), if_neg hqp]

omit h in
@[inherit_doc getLsbD_high]
theorem getLsbD_low {hi low : BitVec c.W} (hlow : LoadsLow c.D p hi.toNat low.toNat) {q : ℕ}
    (hq : p ≤ q) : low.getLsbD q = if q = p then false else hi.getLsbD q := by
  have hbits := hlow.bits q
  rw [testBit_toNat, testBit_toNat] at hbits
  rw [hbits]
  by_cases hqp : q = p
  · rw [if_pos ⟨hqp ▸ rfl, hqp.le⟩, if_pos hqp, decide_eq_false (not_not.mpr hqp)]
  · rw [if_neg (by omega), if_neg hqp]

/-- As long as all shifts are defined, the loop finds the least code of the box above the
code. The corners agree with the code from the next place on. -/
theorem loop_found (hp : p ≤ c.D * c.w) (hshort : ∀ q < p, q / c.D + 1 < 32)
    (lo hi big : BitVec c.W) (hx : x.toNat < 2 ^ (c.D * c.w)) (hlo : lo.toNat < 2 ^ (c.D * c.w))
    (hle : ∀ d < c.D, coord c.D c.w lo.toNat d ≤ coord c.D c.w hi.toNat d)
    (hxlo : ∀ q, p ≤ q → x.getLsbD q = lo.getLsbD q)
    (hlohi : ∀ q, p ≤ q → lo.getLsbD q = hi.getLsbD q) :
    ∃ r, computeBigMinLoop c x p lo hi big = some r ∧
      Found c.D c.w lo.toNat hi.toNat x.toNat big.toNat r.toNat := by
  induction p generalizing lo hi big with
  | zero =>
    have hx0 : x = lo := eq_of_getLsbD_eq fun q _ => hxlo q (Nat.zero_le q)
    have h0 : lo = hi := eq_of_getLsbD_eq fun q _ => hlohi q (Nat.zero_le q)
    exact ⟨big, rfl, found_end (congrArg BitVec.toNat hx0) (congrArg BitVec.toNat h0) big.toNat⟩
  | succ p ih =>
    have hp32 := hshort p (Nat.lt_succ_self p)
    have hshort' : ∀ q < p, q / c.D + 1 < 32 := fun q hq => hshort q (Nat.lt_succ_of_lt hq)
    have hxlo' : AgreeAbove p x.toNat lo.toNat := fun q hq => by
      rw [testBit_toNat, testBit_toNat]
      exact hxlo q hq
    have hlohi' : AgreeAbove p lo.toNat hi.toNat := fun q hq => by
      rw [testBit_toNat, testBit_toNat]
      exact hlohi q hq
    -- a place where all three codes agree is passed
    have hpass : x.getLsbD p = lo.getLsbD p → lo.getLsbD p = hi.getLsbD p →
        ∃ r, computeBigMinLoop c x (p + 1) lo hi big = some r ∧
          Found c.D c.w lo.toNat hi.toNat x.toNat big.toNat r.toNat := fun h1 h2 => by
      rw [loop_agree h big hp h1 h2]
      refine ih (Nat.le_of_succ_le hp) hshort' lo hi big hlo hle (fun q hq => ?_) fun q hq => ?_
      · exact (Nat.eq_or_lt_of_le hq).elim (fun hq => hq ▸ h1) (hxlo q)
      · exact (Nat.eq_or_lt_of_le hq).elim (fun hq => hq ▸ h2) (hlohi q)
    cases hxp : x.getLsbD p <;> cases hlop : lo.getLsbD p <;> cases hhip : hi.getLsbD p
    case false.false.false => exact hpass (hxp.trans hlop.symm) (hlop.trans hhip.symm)
    case true.true.true => exact hpass (hxp.trans hlop.symm) (hlop.trans hhip.symm)
    case false.true.false | true.true.false =>
      -- the lower corner is not above the upper one
      have hD := dims_pos (Nat.lt_of_succ_le hp)
      refine absurd (hle (p % c.D) (Nat.mod_lt p hD)) (not_le.mpr ?_)
      refine Nat.lt_of_testBit (p / c.D) ?_ ?_ fun i hi' =>
        (coord_agree (Nat.lt_of_succ_le hp) hlohi' i hi').symm
      · rw [← testBit_eq_coord _ (Nat.lt_of_succ_le hp), testBit_toNat]
        exact hhip
      · rw [← testBit_eq_coord _ (Nat.lt_of_succ_le hp), testBit_toNat]
        exact hlop
    case false.true.true =>
      refine ⟨lo, loop_all h big hp hxp hlop hhip,
        found_all hx hxlo' hlohi' ?_ ?_ hlo hle big.toNat⟩
      · rw [testBit_toNat]
        exact hxp
      · rw [testBit_toNat]
        exact hlop
    case true.false.false =>
      refine ⟨big, loop_none h big hp hxp hlop hhip,
        found_none hx hxlo' hlohi' (Nat.lt_of_succ_le hp) ?_ ?_ ?_ big.toNat⟩
      all_goals rw [testBit_toNat]
      · exact hxp
      · exact hlop
      · exact hhip
    case false.false.true =>
      obtain ⟨high, low, hhigh, hlow, hloop⟩ := loop_low h big hp hp32 hxp hlop hhip
      have hhighlt := hhigh.lt hp hlo
      have hxlo'' : ∀ q, p ≤ q → x.getLsbD q = lo.getLsbD q := fun q hq =>
        (Nat.eq_or_lt_of_le hq).elim (fun hq => hq ▸ hxp.trans hlop.symm) (hxlo q)
      have hlohi'' : ∀ q, p ≤ q → lo.getLsbD q = low.getLsbD q := fun q hq => by
        rw [getLsbD_low hlow hq]
        by_cases hqp : q = p
        · rw [if_pos hqp, hqp, hlop]
        · rw [if_neg hqp]
          exact hlohi q (lt_of_le_of_ne hq (Ne.symm hqp))
      rw [← testBit_toNat] at hxp hlop hhip
      obtain ⟨r, er, hfound⟩ := ih (Nat.le_of_succ_le hp) hshort' lo low high hlo
        (low_corner (Nat.lt_of_succ_le hp) hlohi' hle hlop hhip hlow) hxlo'' hlohi''
      exact ⟨r, hloop.trans er, found_low hx hle hxlo' hlohi' (Nat.lt_of_succ_le hp) hlop hhip hxp
        hhigh hlow hhighlt hfound⟩
    case true.false.true =>
      obtain ⟨high, hhigh, hloop⟩ := loop_high h big hp hp32 hxp hlop hhip
      have hhighlt := hhigh.lt hp hlo
      have hxlo'' : ∀ q, p ≤ q → x.getLsbD q = high.getLsbD q := fun q hq => by
        rw [getLsbD_high hhigh hq]
        by_cases hqp : q = p
        · rw [if_pos hqp, hqp, hxp]
        · rw [if_neg hqp]
          exact hxlo q (lt_of_le_of_ne hq (Ne.symm hqp))
      have hlohi'' : ∀ q, p ≤ q → high.getLsbD q = hi.getLsbD q := fun q hq => by
        rw [getLsbD_high hhigh hq]
        by_cases hqp : q = p
        · rw [if_pos hqp, hqp, hhip]
        · rw [if_neg hqp]
          exact hlohi q (lt_of_le_of_ne hq (Ne.symm hqp))
      rw [← testBit_toNat] at hxp hlop hhip
      obtain ⟨r, er, hfound⟩ := ih (Nat.le_of_succ_le hp) hshort' high hi big hhighlt
        (high_corner (Nat.lt_of_succ_le hp) hlohi' hle hlop hhip hhigh) hxlo'' hlohi''
      exact ⟨r, hloop.trans er, found_high hx hle hxlo' hlohi' (Nat.lt_of_succ_le hp) hlop hhip hxp
        hhigh hfound⟩

omit h in
/-- The highest place where two codes differ tells which is less. -/
theorem lt_of_getLsbD {a b : BitVec c.W} (ha : a.getLsbD p = false) (hb : b.getLsbD p = true)
    (hab : ∀ q, p < q → a.getLsbD q = b.getLsbD q) : a < b := by
  rw [BitVec.lt_def]
  refine Nat.lt_of_testBit p ?_ ?_ fun q hq => ?_
  · rwa [testBit_toNat]
  · rwa [testBit_toNat]
  · rw [testBit_toNat, testBit_toNat]
    exact hab q hq

omit h in
/-- What is below any code is below the one with all bits. -/
theorem lt_allOnes {a b : BitVec c.W} (hab : a < b) : a < -1 := by
  have hones : (-1 : BitVec c.W) = allOnes c.W := BitVec.neg_one_eq_allOnes
  have hb := b.isLt
  rw [BitVec.lt_def] at hab
  rw [hones, BitVec.lt_def, BitVec.toNat_allOnes]
  omega

/-- Whatever corners it is given, a loop that has a candidate above the code, or a code that is
neither above the upper corner nor inside, ends above the code. -/
theorem loop_above (hp : p ≤ c.D * c.w) (hshort : ∀ q < p, q / c.D + 1 < 32)
    (lo hi big : BitVec c.W) (hxlo : ∀ q, p ≤ q → x.getLsbD q = lo.getLsbD q)
    (hlohi : ∀ q, p ≤ q → lo.getLsbD q = hi.getLsbD q)
    (hbig : x < big ∨ x ≤ hi ∧ ¬Inside c.D c.w lo.toNat hi.toNat x.toNat) :
    ∃ r, computeBigMinLoop c x p lo hi big = some r ∧ x < r := by
  induction p generalizing lo hi big with
  | zero =>
    have hx0 : x = lo := eq_of_getLsbD_eq fun q _ => hxlo q (Nat.zero_le q)
    have h0 : lo = hi := eq_of_getLsbD_eq fun q _ => hlohi q (Nat.zero_le q)
    refine ⟨big, rfl, hbig.resolve_right fun hout => hout.2 ?_⟩
    rw [← h0, ← hx0]
    exact fun d _ => ⟨le_rfl, le_rfl⟩
  | succ p ih =>
    have hp32 := hshort p (Nat.lt_succ_self p)
    have hshort' : ∀ q < p, q / c.D + 1 < 32 := fun q hq => hshort q (Nat.lt_succ_of_lt hq)
    have hhi' : ∀ q, p < q → x.getLsbD q = hi.getLsbD q := fun q hq =>
      (hxlo q hq).trans (hlohi q hq)
    have hpass : x.getLsbD p = lo.getLsbD p → lo.getLsbD p = hi.getLsbD p →
        ∃ r, computeBigMinLoop c x (p + 1) lo hi big = some r ∧ x < r := fun h1 h2 => by
      rw [loop_agree h big hp h1 h2]
      refine ih (Nat.le_of_succ_le hp) hshort' lo hi big (fun q hq => ?_) (fun q hq => ?_) hbig
      · exact (Nat.eq_or_lt_of_le hq).elim (fun hq => hq ▸ h1) (hxlo q)
      · exact (Nat.eq_or_lt_of_le hq).elim (fun hq => hq ▸ h2) (hlohi q)
    cases hxp : x.getLsbD p <;> cases hlop : lo.getLsbD p <;> cases hhip : hi.getLsbD p
    case false.false.false => exact hpass (hxp.trans hlop.symm) (hlop.trans hhip.symm)
    case true.true.true => exact hpass (hxp.trans hlop.symm) (hlop.trans hhip.symm)
    case false.true.false =>
      have hlt : x < lo := lt_of_getLsbD hxp hlop fun q hq => hxlo q hq
      exact ⟨-1, loop_crossed h big hp hlop hhip, lt_allOnes hlt⟩
    case true.true.false =>
      -- the code is above the upper corner, so that there is a candidate
      have hgt : hi < x := lt_of_getLsbD hhip hxp fun q hq => (hhi' q hq).symm
      have hcandidate := hbig.resolve_right fun hout => absurd hout.1 (BitVec.not_le.mpr hgt)
      exact ⟨-1, loop_crossed h big hp hlop hhip, lt_allOnes hcandidate⟩
    case false.true.true =>
      exact ⟨lo, loop_all h big hp hxp hlop hhip, lt_of_getLsbD hxp hlop fun q hq => hxlo q hq⟩
    case true.false.false =>
      have hgt : hi < x := lt_of_getLsbD hhip hxp fun q hq => (hhi' q hq).symm
      exact ⟨big, loop_none h big hp hxp hlop hhip,
        hbig.resolve_right fun hout => absurd hout.1 (BitVec.not_le.mpr hgt)⟩
    case false.false.true =>
      obtain ⟨high, low, hhigh, hlow, hloop⟩ := loop_low h big hp hp32 hxp hlop hhip
      have hcandidate : x < high := by
        refine lt_of_getLsbD hxp ?_ fun q hq => ?_
        · rw [getLsbD_high hhigh le_rfl, if_pos rfl]
        · rw [getLsbD_high hhigh hq.le, if_neg hq.ne', hxlo q hq]
      rw [hloop]
      refine ih (Nat.le_of_succ_le hp) hshort' lo low high (fun q hq => ?_) (fun q hq => ?_)
        (.inl hcandidate)
      · exact (Nat.eq_or_lt_of_le hq).elim (fun hq => hq ▸ hxp.trans hlop.symm) (hxlo q)
      · rw [getLsbD_low hlow hq]
        by_cases hqp : q = p
        · rw [if_pos hqp, hqp, hlop]
        · rw [if_neg hqp]
          exact hlohi q (lt_of_le_of_ne hq (Ne.symm hqp))
    case true.false.true =>
      obtain ⟨high, hhigh, hloop⟩ := loop_high h big hp hp32 hxp hlop hhip
      rw [hloop]
      refine ih (Nat.le_of_succ_le hp) hshort' high hi big (fun q hq => ?_) (fun q hq => ?_)
        (hbig.imp_right fun hout => ⟨hout.1, fun hin => hout.2 fun d hd => ?_⟩)
      · rw [getLsbD_high hhigh hq]
        by_cases hqp : q = p
        · rw [if_pos hqp, hqp, hxp]
        · rw [if_neg hqp]
          exact hxlo q (lt_of_le_of_ne hq (Ne.symm hqp))
      · rw [getLsbD_high hhigh hq]
        by_cases hqp : q = p
        · rw [if_pos hqp, hqp, hhip]
        · rw [if_neg hqp]
          exact hlohi q (lt_of_le_of_ne hq (Ne.symm hqp))
      · refine ⟨le_trans ?_ (hin d hd).1, (hin d hd).2⟩
        rw [hhigh.coord (Nat.div_lt_of_lt_mul hp) hd]
        split
        · next hdim =>
          subst hdim
          refine (lt_middle ?_).le
          rw [← testBit_eq_coord _ (Nat.lt_of_succ_le hp), testBit_toNat]
          exact hlop
        · exact le_rfl

/-- Where the corners differ in the highest of 32 bits, the loop ends without a result. -/
theorem loop_undefined {lo hi : BitVec c.W} (big : BitVec c.W) (hp : p < c.D * c.w)
    (hlast : ¬p / c.D + 1 < 32) (hlo : lo.getLsbD p = false) (hhi : hi.getLsbD p = true) :
    computeBigMinLoop c x (p + 1) lo hi big = none := by
  have hpW := hp.trans_le h.width
  have hnone : ∀ pattern value, loadBits c pattern p value (p % c.D) = none :=
    fun pattern value => loadBits_undefined hlast _
  rw [computeBigMinLoop]
  simp only [mask_ne_zero _ hpW, hlo, hhi]
  cases x.getLsbD p with
  | false =>
    have hmagic : combine3Bools false false true = 1 := rfl
    rw [hmagic, hnone]
    rfl
  | true =>
    have hmagic : combine3Bools true false true = 5 := rfl
    rw [hmagic]
    simp only [hnone]
    rfl

end Loop

/-! ## The points of a box -/

/-- The points between two corners. -/
def InBox {c : Curve} (lo hi v : Fin c.D → BitVec c.w) : Prop := ∀ d, lo d ≤ v d ∧ v d ≤ hi d

section Box

variable {c : Curve} (h : Lawful c) {lo hi : Fin c.D → BitVec c.w} {x : BitVec c.W}

include h

theorem inside_iff (v : Fin c.D → BitVec c.w) :
    Inside c.D c.w (toMorton c lo).toNat (toMorton c hi).toNat (toMorton c v).toNat ↔
      InBox lo hi v := by
  constructor
  · intro hin d
    have hd := hin d d.isLt
    rw [coord_toMorton h, coord_toMorton h, coord_toMorton h] at hd
    exact hd
  · intro hin d hd
    rw [coord_toMorton h lo ⟨d, hd⟩, coord_toMorton h hi ⟨d, hd⟩, coord_toMorton h v ⟨d, hd⟩]
    exact hin ⟨d, hd⟩

/-- The codes of the points of a box above a code, as numbers. -/
theorem mem_above_iff (z : BitVec c.W) :
    z.toNat ∈ Above c.D c.w (toMorton c lo).toNat (toMorton c hi).toNat x.toNat ↔
      ∃ v, InBox lo hi v ∧ toMorton c v = z ∧ x < z := by
  constructor
  · rintro ⟨hlt, hin, habove⟩
    have hz := toMorton_fromMorton h hlt
    refine ⟨fromMorton c z, (inside_iff h _).mp ?_, hz, habove⟩
    rw [hz]
    exact hin
  · rintro ⟨v, hin, rfl, habove⟩
    exact ⟨toMorton_lt h v, (inside_iff h v).mpr hin, habove⟩

/-- What `loop_found` finds is the least code of the box if there is a code above. -/
theorem isLeast_of_found {big r : BitVec c.W}
    (hf : Found c.D c.w (toMorton c lo).toNat (toMorton c hi).toNat x.toNat big.toNat r.toNat)
    (hhi : x < toMorton c hi) (hle : ∀ d, lo d ≤ hi d) :
    IsLeast {z | ∃ v, InBox lo hi v ∧ toMorton c v = z ∧ x < z} r := by
  rcases hf with ⟨hmem, hleast⟩ | ⟨hempty, _⟩
  · refine ⟨(mem_above_iff h r).mp hmem, fun z hz => ?_⟩
    exact hleast ((mem_above_iff h z).mpr hz)
  · have hmem : (toMorton c hi).toNat ∈ Above c.D c.w (toMorton c lo).toNat (toMorton c hi).toNat
        x.toNat :=
      (mem_above_iff h _).mpr ⟨hi, fun d => ⟨hle d, BitVec.le_refl _⟩, rfl, hhi⟩
    rw [hempty] at hmem
    exact absurd hmem (Set.notMem_empty _)

omit h in
/-- What lies between two codes that agree from a place on agrees with them. -/
theorem agree_of_between {a b z : BitVec c.W} {p : ℕ}
    (hab : ∀ q, p ≤ q → a.getLsbD q = b.getLsbD q) (haz : a ≤ z) (hzb : z ≤ b) :
    ∀ q, p ≤ q → z.getLsbD q = a.getLsbD q := fun q hq => by
  have hdiv := div_eq_of_between (fun i hi => by
    rw [testBit_toNat, testBit_toNat]
    exact hab i hi) haz hzb
  have hbit := congrArg (fun n => n.testBit (q - p)) hdiv
  simp only [Nat.testBit_div_two_pow, Nat.sub_add_cancel hq] at hbit
  rw [← testBit_toNat, ← testBit_toNat]
  exact hbit

/-- Corners on the same side in the highest of 32 bits have codes that agree there. -/
theorem agree_of_msb (hmsb : c.w = 32 → ∀ d, (lo d).msb = (hi d).msb) {q : ℕ}
    (hq : c.D * min c.w 31 ≤ q) : (toMorton c lo).getLsbD q = (toMorton c hi).getLsbD q := by
  have hdiv : min c.w 31 ≤ q / c.D := by
    rw [Nat.le_div_iff_mul_le h.pos, Nat.mul_comm]
    exact hq
  rw [getLsbD_toMorton h, getLsbD_toMorton h]
  by_cases hw : q / c.D < c.w
  · have hshort := h.short
    have h32 : c.w = 32 := by omega
    have hlast : q / c.D = c.w - 1 := by omega
    rw [hlast, ← msb_eq_getLsbD_last, ← msb_eq_getLsbD_last]
    exact hmsb h32 _
  · rw [getLsbD_of_ge _ _ (Nat.not_lt.mp hw), getLsbD_of_ge _ _ (Nat.not_lt.mp hw)]

end Box

section Result

variable {c : Curve} (hc : c ∈ curves) {lo hi : Fin c.D → BitVec c.w} {xd : BitVec c.W}
  (hlo : toMorton c lo ≤ xd) (hhi : xd ≤ toMorton c hi)

theorem computeBigMin_loop : computeBigMin c xd (toMorton c lo) (toMorton c hi) =
    computeBigMinLoop c xd (c.D * c.w) (toMorton c lo) (toMorton c hi) 0 := by
  rw [computeBigMin, Nat.mul_comm]

include hc hlo hhi

/-- Corners on different sides of the middle of a range of 32 bits give no result. -/
theorem computeBigMin_undefined (hlt : toMorton c lo < toMorton c hi) (h32 : c.w = 32)
    {d : Fin c.D} (hne : (lo d).msb ≠ (hi d).msb) :
    computeBigMin c xd (toMorton c lo) (toMorton c hi) = none := by
  have h := lawful_of_mem hc
  -- the highest place where the corners differ is that of a highest bit
  obtain ⟨p, hplo, hphi, habove⟩ := exists_top_of_lt (BitVec.lt_def.mp hlt)
  rw [testBit_toNat] at hplo hphi
  have hagree : ∀ q, p + 1 ≤ q → (toMorton c lo).getLsbD q = (toMorton c hi).getLsbD q :=
    fun q hq => by
      rw [← testBit_toNat, ← testBit_toNat]
      exact habove q hq
  have hp : p < c.D * c.w := by
    by_contra hge
    have hpow := Nat.pow_le_pow_right Nat.two_pos (Nat.not_lt.mp hge)
    rw [← testBit_toNat, Nat.testBit_lt_two_pow ((toMorton_lt h hi).trans_le hpow)] at hphi
    exact Bool.false_ne_true hphi
  have hlast : 31 ≤ p / c.D := by
    by_contra hlow
    obtain ⟨hmod, hdiv⟩ := place_div_mod (i := 31) d.isLt
    have hq : p + 1 ≤ 31 * c.D + d := by
      have hlt31 := (Nat.div_lt_iff_lt_mul h.pos).mp (Nat.not_le.mp hlow)
      omega
    have hbit := hagree _ hq
    rw [getLsbD_toMorton h, getLsbD_toMorton h] at hbit
    simp only [hmod, hdiv, Fin.eta] at hbit
    refine hne ?_
    have hlast : c.w - 1 = 31 := by omega
    rw [msb_eq_getLsbD_last, msb_eq_getLsbD_last, hlast]
    exact hbit
  rw [computeBigMin_loop, loop_skip h 0 (Nat.succ_le_of_lt hp) le_rfl
    (agree_of_between hagree hlo hhi) hagree, loop_undefined h 0 hp (by omega) hplo hphi]

/-- Corners on the same sides let the loop begin below the highest of 32 bits. -/
theorem computeBigMin_short (hmsb : c.w = 32 → ∀ d, (lo d).msb = (hi d).msb) :
    computeBigMin c xd (toMorton c lo) (toMorton c hi) =
      computeBigMinLoop c xd (c.D * min c.w 31) (toMorton c lo) (toMorton c hi) 0 := by
  have h := lawful_of_mem hc
  have hagree : ∀ q, c.D * min c.w 31 ≤ q →
      (toMorton c lo).getLsbD q = (toMorton c hi).getLsbD q := fun q hq => agree_of_msb h hmsb hq
  rw [computeBigMin_loop, loop_skip h 0 (Nat.mul_le_mul_left _ (Nat.min_le_left _ _)) le_rfl
    (agree_of_between hagree hlo hhi) hagree]

/-- With corners on the same sides, in whatever order, the result is above a code between their
codes that is not inside. -/
theorem computeBigMin_above (hmsb : c.w = 32 → ∀ d, (lo d).msb = (hi d).msb)
    (hout : ¬InBox lo hi (fromMorton c xd)) :
    ∃ r, computeBigMin c xd (toMorton c lo) (toMorton c hi) = some r ∧ xd < r := by
  have h := lawful_of_mem hc
  have hagree : ∀ q, c.D * min c.w 31 ≤ q →
      (toMorton c lo).getLsbD q = (toMorton c hi).getLsbD q := fun q hq => agree_of_msb h hmsb hq
  have hxlt : xd.toNat < 2 ^ (c.D * c.w) := lt_of_le_of_lt hhi (toMorton_lt h hi)
  have hoff : ¬Inside c.D c.w (toMorton c lo).toNat (toMorton c hi).toNat xd.toNat := by
    rw [← toMorton_fromMorton h hxlt, inside_iff h]
    exact hout
  rw [computeBigMin_short hc hlo hhi hmsb]
  refine loop_above h (Nat.mul_le_mul_left _ (Nat.min_le_left _ _)) (fun q hq => ?_) _ _ _
    (agree_of_between hagree hlo hhi) hagree (.inr ⟨hhi, hoff⟩)
  have hdiv := Nat.div_lt_of_lt_mul hq
  omega

end Result

/-- The result is the least code of the box above the code if and only if no coordinate of 32
bits has its corners on different sides of the middle of its range. -/
theorem computeBigMin_iff {c : Curve} (hc : c ∈ curves) (lo hi : Fin c.D → BitVec c.w)
    (hle : ∀ d, lo d ≤ hi d) (xd : BitVec c.W) (hlo : toMorton c lo ≤ xd)
    (hhi : xd ≤ toMorton c hi) (hout : ¬InBox lo hi (fromMorton c xd)) :
    (∃ r, computeBigMin c xd (toMorton c lo) (toMorton c hi) = some r ∧
      IsLeast {z | ∃ v, InBox lo hi v ∧ toMorton c v = z ∧ xd < z} r) ↔
      (c.w = 32 → ∀ d, (lo d).msb = (hi d).msb) := by
  have h := lawful_of_mem hc
  have hlt : xd < toMorton c hi := by
    refine BitVec.lt_of_le_ne hhi fun heq => hout ?_
    rw [heq, fromMorton_toMorton h]
    exact fun d => ⟨hle d, BitVec.le_refl _⟩
  have hxlt : xd.toNat < 2 ^ (c.D * c.w) := lt_of_le_of_lt hhi (toMorton_lt h hi)
  constructor
  · rintro ⟨r, hr, _⟩ h32 d
    by_contra hne
    have hboth : toMorton c lo < toMorton c hi :=
      lt_of_le_of_lt (BitVec.le_def.mp hlo) (BitVec.lt_def.mp hlt)
    rw [computeBigMin_undefined hc hlo hhi hboth h32 hne] at hr
    exact absurd hr.symm (Option.some_ne_none r)
  · intro hmsb
    have hagree : ∀ q, c.D * min c.w 31 ≤ q →
        (toMorton c lo).getLsbD q = (toMorton c hi).getLsbD q := fun q hq => agree_of_msb h hmsb hq
    have hcoord : ∀ d < c.D, coord c.D c.w (toMorton c lo).toNat d ≤
        coord c.D c.w (toMorton c hi).toNat d := fun d hd => by
      rw [coord_toMorton h lo ⟨d, hd⟩, coord_toMorton h hi ⟨d, hd⟩]
      exact hle ⟨d, hd⟩
    obtain ⟨r, hr, hfound⟩ := loop_found h (Nat.mul_le_mul_left _ (Nat.min_le_left _ _))
      (fun q hq => by
        have hdiv := Nat.div_lt_of_lt_mul hq
        omega)
      (toMorton c lo) (toMorton c hi) 0 hxlt (toMorton_lt h lo) hcoord
      (agree_of_between hagree hlo hhi) hagree
    refine ⟨r, ?_, isLeast_of_found h hfound hlt hle⟩
    rw [computeBigMin_short hc hlo hhi hmsb]
    exact hr

/-- A box in one quarter of the plane. -/
theorem computeBigMin_quarter :
    ∃ r, computeBigMin curve2D32 4 (toMorton curve2D32 fun _ => 1) (toMorton curve2D32 fun _ => 3) =
      some r ∧ IsLeast {z | ∃ v, InBox (c := curve2D32) (fun _ => 1) (fun _ => 3) v ∧
        toMorton curve2D32 v = z ∧ 4 < z} r := by
  refine (computeBigMin_iff (List.mem_cons_self ..) (fun _ => 1) (fun _ => 3) (fun _ => by decide) 4
    (by decide +kernel) (by decide +kernel) (fun h => ?_)).mpr fun _ _ => by decide
  have hout : ¬(1#32 ≤ fromMorton curve2D32 4 (1 : Fin 2)) := by decide +kernel
  exact hout (h (1 : Fin 2)).1

/-- The box from 5 to 2³¹ + 5 on one line, and the point on the next line before its middle. -/
theorem computeBigMin_not_exact :
    ¬∀ lo hi : Fin 2 → BitVec 32, (∀ d, lo d ≤ hi d) → ∀ xd, toMorton curve2D32 lo ≤ xd →
      xd ≤ toMorton curve2D32 hi → ¬InBox (c := curve2D32) lo hi (fromMorton curve2D32 xd) →
      ∃ r, computeBigMin curve2D32 xd (toMorton curve2D32 lo) (toMorton curve2D32 hi) = some r ∧
        IsLeast {z | ∃ v, InBox (c := curve2D32) lo hi v ∧ toMorton curve2D32 v = z ∧ xd < z} r := by
  intro hall
  have hout : ¬fromMorton curve2D32 0x1555555555555557 (1 : Fin 2) ≤ 0#32 := by decide +kernel
  obtain ⟨r, hr, _⟩ := hall (fun d => if d.val = 0 then 5 else 0) (fun d => if d.val = 0 then 0x80000005 else 0) (by decide) 0x1555555555555557
    (by decide +kernel) (by decide +kernel) (fun h => hout (h (1 : Fin 2)).2)
  have hnone : computeBigMin curve2D32 0x1555555555555557 (toMorton curve2D32 (fun d => if d.val = 0 then 5 else 0))
      (toMorton curve2D32 (fun d => if d.val = 0 then 0x80000005 else 0)) = none := by decide +kernel
  exact absurd (hnone.symm.trans hr).symm (Option.some_ne_none r)

end HM4.BigMin
