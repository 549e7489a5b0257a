import Mathlib.Data.Nat.Bitwise
import Mathlib.Data.Finset.Basic
import Mathlib.Order.Bounds.Basic
import Mathlib.Tactic.Linarith

/-!
# Interleaved numbers

The bits of several coordinates of equal width are interleaved to one code. Codes are ordered
like the points of a curve through all coordinates. A box is the set of the codes each of whose
coordinates lies between those of two corners. A bit in which the corners differ, and above
which they agree, cuts a box in two halves; this gives the least code of a box above any
code, without looking at the codes between.
-/

namespace HM4.Interleave

variable {D w : ℕ}

variable (D w) in
/-- A coordinate of a code. -/
def coord (z d : ℕ) : ℕ := Nat.ofBits fun i : Fin w => z.testBit (i * D + d)

theorem testBit_coord (z d i : ℕ) :
    (coord D w z d).testBit i = (decide (i < w) && z.testBit (i * D + d)) := by
  by_cases hi : i < w
  · rw [coord, Nat.testBit_ofBits_lt _ _ hi, decide_eq_true hi, Bool.true_and]
  · rw [coord, Nat.testBit_ofBits_ge _ _ (Nat.not_lt.mp hi), decide_eq_false hi, Bool.false_and]

/-- A code with a place has a coordinate. -/
theorem dims_pos {p : ℕ} (hp : p < D * w) : 0 < D := Nat.pos_of_ne_zero fun h0 => by
  rw [h0, Nat.zero_mul] at hp
  exact absurd hp (Nat.not_lt_zero p)

/-- A place in a code tells a coordinate and a place in it. -/
theorem testBit_eq_coord (z : ℕ) {p : ℕ} (hp : p < D * w) :
    z.testBit p = (coord D w z (p % D)).testBit (p / D) := by
  have hlt : p / D < w := Nat.div_lt_of_lt_mul hp
  rw [testBit_coord, decide_eq_true hlt, Bool.true_and, Nat.mul_comm, Nat.div_add_mod]

/-- The place of a bit of a coordinate. -/
theorem place_lt {d i : ℕ} (hd : d < D) (hi : i < w) : i * D + d < D * w := by
  have h := Nat.mul_le_mul_right D (Nat.succ_le_of_lt hi)
  rw [Nat.succ_mul, Nat.mul_comm w D] at h
  omega

/-- Numbers are ordered by the highest bit in which they differ. -/
theorem exists_top_of_lt {x y : ℕ} (h : x < y) :
    ∃ p, x.testBit p = false ∧ y.testBit p = true ∧ ∀ q, p < q → x.testBit q = y.testBit q := by
  have hne : x ^^^ y ≠ 0 := fun h0 => h.ne (Nat.xor_eq_zero_iff.mp h0)
  obtain ⟨p, hp, htop⟩ := Nat.exists_most_significant_bit hne
  have habove : ∀ q, p < q → x.testBit q = y.testBit q := fun q hq => by
    have hq' := htop q hq
    rw [Nat.testBit_xor] at hq'
    simpa using hq'
  rw [Nat.testBit_xor] at hp
  cases hx : x.testBit p with
  | false =>
    rw [hx, Bool.false_xor] at hp
    exact ⟨p, hx, hp, habove⟩
  | true =>
    rw [hx, Bool.true_xor, Bool.not_eq_true'] at hp
    exact absurd (Nat.lt_of_testBit p hp hx fun q hq => (habove q hq).symm) h.not_gt

/-- A code with greater coordinates is greater. -/
theorem le_of_coord_le {a b : ℕ} (ha : a < 2 ^ (D * w))
    (h : ∀ d < D, coord D w a d ≤ coord D w b d) : a ≤ b := by
  by_contra hlt
  obtain ⟨p, hb, hap, habove⟩ := exists_top_of_lt (not_le.mp hlt)
  have hp : p < D * w := by
    by_contra hc
    have hz := Nat.testBit_lt_two_pow (ha.trans_le
      (Nat.pow_le_pow_right Nat.two_pos (Nat.not_lt.mp hc)))
    rw [hap] at hz
    exact Bool.false_ne_true hz.symm
  have hD := dims_pos hp
  refine absurd (h (p % D) (Nat.mod_lt p hD)) (not_le.mpr ?_)
  refine Nat.lt_of_testBit (p / D) ?_ ?_ fun i hi => ?_
  · rw [← testBit_eq_coord b hp]
    exact hb
  · rw [← testBit_eq_coord a hp]
    exact hap
  · have hplace : p < i * D + p % D := by
      have hmul := Nat.mul_le_mul_right D (Nat.succ_le_of_lt hi)
      have hsplit := Nat.div_add_mod p D
      rw [Nat.succ_mul, Nat.mul_comm] at hmul
      omega
    rw [testBit_coord, testBit_coord, habove _ hplace]

variable (D w) in
/-- The codes of a box. -/
def Inside (lo hi z : ℕ) : Prop :=
  ∀ d < D, coord D w lo d ≤ coord D w z d ∧ coord D w z d ≤ coord D w hi d

/-! ## The halves of a range -/

section Range

variable {a b c k : ℕ}

/-- Numbers that agree from a bit on have the same quotient. -/
theorem div_eq_of_agree (h : ∀ i, k ≤ i → a.testBit i = b.testBit i) : a / 2 ^ k = b / 2 ^ k := by
  refine Nat.eq_of_testBit_eq fun i => ?_
  rw [Nat.testBit_div_two_pow, Nat.testBit_div_two_pow]
  exact h _ (Nat.le_add_left k i)

/-- What lies between numbers that agree from a bit on agrees with them. -/
theorem div_eq_of_between (h : ∀ i, k ≤ i → a.testBit i = b.testBit i) (hac : a ≤ c)
    (hcb : c ≤ b) : c / 2 ^ k = a / 2 ^ k :=
  le_antisymm ((Nat.div_le_div_right hcb).trans (div_eq_of_agree h).ge) (Nat.div_le_div_right hac)

/-- The first number above the half in which a bit is not set. -/
def middle (k a : ℕ) : ℕ := 2 ^ (k + 1) * (a / 2 ^ (k + 1)) + 2 ^ k

theorem testBit_middle (k a i : ℕ) :
    (middle k a).testBit i = if i ≤ k then decide (i = k) else a.testBit i := by
  rw [middle, Nat.testBit_two_pow_mul_add _ (Nat.pow_lt_pow_right Nat.one_lt_two (Nat.lt_succ_self k))]
  by_cases hi : i ≤ k
  · rw [if_pos (Nat.lt_succ_of_le hi), if_pos hi, Nat.testBit_two_pow]
    exact decide_eq_decide.mpr eq_comm
  · rw [if_neg (by omega), if_neg hi, Nat.testBit_div_two_pow]
    congr 1
    omega

theorem testBit_middle_sub_one (k a i : ℕ) :
    (middle k a - 1).testBit i = if i ≤ k then decide (i ≠ k) else a.testBit i := by
  have hpos : 0 < 2 ^ k := Nat.two_pow_pos k
  have hsub : middle k a - 1 = 2 ^ (k + 1) * (a / 2 ^ (k + 1)) + (2 ^ k - 1) := by
    rw [middle]
    omega
  have hlt : 2 ^ k - 1 < 2 ^ (k + 1) :=
    (Nat.sub_lt hpos Nat.one_pos).trans (Nat.pow_lt_pow_right Nat.one_lt_two (Nat.lt_succ_self k))
  rw [hsub, Nat.testBit_two_pow_mul_add _ hlt]
  by_cases hi : i ≤ k
  · rw [if_pos (Nat.lt_succ_of_le hi), if_pos hi, Nat.testBit_two_pow_sub_one]
    exact decide_eq_decide.mpr ⟨Nat.ne_of_lt, lt_of_le_of_ne hi⟩
  · rw [if_neg (by omega), if_neg hi, Nat.testBit_div_two_pow]
    congr 1
    omega

/-- A number without the bit is below the middle. -/
theorem lt_middle (ha : a.testBit k = false) : a < middle k a := by
  refine Nat.lt_of_testBit k ha ?_ fun i hi => ?_
  · rw [testBit_middle, if_pos le_rfl, decide_eq_true rfl]
  · rw [testBit_middle, if_neg (not_le.mpr hi)]

variable (h : ∀ i, k < i → a.testBit i = b.testBit i)

include h

/-- In a range whose ends agree above a bit, the bit tells the half. -/
theorem testBit_iff_middle_le (hac : a ≤ c) (hcb : c ≤ b) :
    c.testBit k = true ↔ middle k a ≤ c := by
  have hc : c / 2 ^ (k + 1) = a / 2 ^ (k + 1) := div_eq_of_between h hac hcb
  have hsplit := Nat.div_add_mod c (2 ^ (k + 1))
  rw [hc] at hsplit
  have hmod := Nat.testBit_mod_two_pow c (k + 1) k
  have hlt : c % 2 ^ (k + 1) < 2 ^ (k + 1) := Nat.mod_lt _ (Nat.two_pow_pos _)
  rw [decide_eq_true (Nat.lt_succ_self k), Bool.true_and] at hmod
  rw [middle]
  constructor
  · intro hbit
    have hge : 2 ^ k ≤ c % 2 ^ (k + 1) := by
      by_contra hnot
      rw [hbit, Nat.testBit_lt_two_pow (Nat.not_le.mp hnot)] at hmod
      exact Bool.false_ne_true hmod
    omega
  · intro hle
    rw [← hmod]
    exact Nat.testBit_of_two_pow_le_and_two_pow_add_one_gt (by omega) hlt

/-- The middle lies between ends that differ in the bit. -/
theorem middle_between (hab : a ≤ b) (ha : a.testBit k = false) (hb : b.testBit k = true) :
    a < middle k a ∧ middle k a ≤ b :=
  ⟨lt_middle ha, (testBit_iff_middle_le h hab le_rfl).mp hb⟩

end Range

/-! ## The halves of a box -/

variable (D) in
/-- A code in which the bits of one coordinate from a place down are a one and zeros, as in
the least corner of the half with the bit. -/
structure LoadsHigh (p z z' : ℕ) : Prop where
  bits : ∀ q, z'.testBit q = if q % D = p % D ∧ q ≤ p then decide (q = p) else z.testBit q

variable (D) in
/-- A code in which they are a zero and ones, as in the greatest corner of the half without. -/
structure LoadsLow (p z z' : ℕ) : Prop where
  bits : ∀ q, z'.testBit q = if q % D = p % D ∧ q ≤ p then decide (q ≠ p) else z.testBit q

section Load

variable {p z z' d : ℕ}

theorem place_div_mod {d i : ℕ} (hd : d < D) : (i * D + d) % D = d ∧ (i * D + d) / D = i := by
  have hD : 0 < D := (Nat.zero_le d).trans_lt hd
  refine ⟨?_, ?_⟩
  · rw [Nat.mul_comm, Nat.mul_add_mod, Nat.mod_eq_of_lt hd]
  · rw [Nat.add_comm, Nat.add_mul_div_right _ _ hD, Nat.div_eq_of_lt hd, Nat.zero_add]

theorem place_le_iff {i : ℕ} (hd : d < D) (hpd : d = p % D) : i * D + d ≤ p ↔ i ≤ p / D := by
  have hD : 0 < D := (Nat.zero_le d).trans_lt hd
  rw [Nat.le_div_iff_mul_le hD]
  have hsplit := Nat.div_add_mod p D
  rw [← hpd] at hsplit
  refine ⟨fun h => by omega, fun h => ?_⟩
  have hle := (Nat.le_div_iff_mul_le hD).mpr h
  have hmul := Nat.mul_le_mul_right D hle
  rw [Nat.mul_comm] at hsplit
  omega

theorem place_eq_iff {i : ℕ} (hd : d < D) (hpd : d = p % D) : i * D + d = p ↔ i = p / D := by
  constructor
  · rintro rfl
    exact (place_div_mod hd).2.symm
  · rintro rfl
    rw [hpd, Nat.mul_comm, Nat.div_add_mod]

/-- The coordinate of a loaded code. -/
theorem LoadsHigh.coord (h : LoadsHigh D p z z') (hp : p / D < w) (hd : d < D) :
    coord D w z' d = if d = p % D then middle (p / D) (coord D w z d) else coord D w z d := by
  refine Nat.eq_of_testBit_eq fun i => ?_
  rw [testBit_coord, h.bits, (place_div_mod hd).1]
  by_cases hpd : d = p % D
  · rw [if_pos hpd, testBit_middle, testBit_coord]
    simp only [hpd.symm, true_and, place_le_iff hd hpd, place_eq_iff hd hpd]
    by_cases hi : i ≤ p / D
    · rw [if_pos hi, if_pos hi, decide_eq_true (hi.trans_lt hp), Bool.true_and]
    · rw [if_neg hi, if_neg hi]
  · rw [if_neg hpd, if_neg fun hc => hpd hc.1, testBit_coord]

@[inherit_doc LoadsHigh.coord]
theorem LoadsLow.coord (h : LoadsLow D p z z') (hp : p / D < w) (hd : d < D) :
    coord D w z' d = if d = p % D then middle (p / D) (coord D w z d) - 1 else coord D w z d := by
  refine Nat.eq_of_testBit_eq fun i => ?_
  rw [testBit_coord, h.bits, (place_div_mod hd).1]
  by_cases hpd : d = p % D
  · rw [if_pos hpd, testBit_middle_sub_one, testBit_coord]
    simp only [hpd.symm, true_and, place_le_iff hd hpd, ne_eq, place_eq_iff hd hpd]
    by_cases hi : i ≤ p / D
    · rw [if_pos hi, if_pos hi, decide_eq_true (hi.trans_lt hp), Bool.true_and]
    · rw [if_neg hi, if_neg hi]
  · rw [if_neg hpd, if_neg fun hc => hpd hc.1, testBit_coord]

/-- A loaded code has no further bits. -/
theorem LoadsHigh.lt {n : ℕ} (h : LoadsHigh D p z z') (hp : p < n) (hz : z < 2 ^ n) :
    z' < 2 ^ n := by
  refine Nat.lt_pow_two_of_testBit _ fun q hq => ?_
  rw [h.bits, if_neg (by omega), Nat.testBit_lt_two_pow]
  exact hz.trans_le (Nat.pow_le_pow_right Nat.two_pos hq)

end Load

section Halves

variable {lo hi lo' hi' z p : ℕ}

/-- Corners that agree from a place on give the bits of the box there. -/
theorem Inside.testBit_eq (hz : Inside D w lo hi z) (h : ∀ q, p ≤ q → lo.testBit q = hi.testBit q)
    {q : ℕ} (hq : p ≤ q) (hlt : q < D * w) : z.testBit q = lo.testBit q := by
  have hD := dims_pos hlt
  obtain ⟨hlo, hhi⟩ := hz (q % D) (Nat.mod_lt q hD)
  have hagree : ∀ i, q / D ≤ i →
      (coord D w lo (q % D)).testBit i = (coord D w hi (q % D)).testBit i := fun i hi => by
    have hmul := Nat.mul_le_mul_right D hi
    have hsplit := Nat.div_add_mod q D
    rw [Nat.mul_comm] at hmul
    rw [testBit_coord, testBit_coord, h (i * D + q % D) (by omega)]
  have hdiv := div_eq_of_between hagree hlo hhi
  rw [testBit_eq_coord z hlt, testBit_eq_coord lo hlt]
  have hbit := congrArg (fun n => n.testBit 0) hdiv
  simp only [Nat.testBit_div_two_pow, Nat.zero_add] at hbit
  exact hbit

variable (hp : p < D * w) (h : ∀ q, p < q → lo.testBit q = hi.testBit q)
  (hle : ∀ d < D, coord D w lo d ≤ coord D w hi d) (hlo : lo.testBit p = false)
  (hhi : hi.testBit p = true)

include hp h

/-- The corners agree above the bit in its coordinate. -/
theorem coord_agree : ∀ i, p / D < i →
    (coord D w lo (p % D)).testBit i = (coord D w hi (p % D)).testBit i := fun i hi => by
  have hD := dims_pos hp
  have hmul := Nat.mul_le_mul_right D (Nat.succ_le_of_lt hi)
  have hsplit := Nat.div_add_mod p D
  have hmod := Nat.mod_lt p hD
  rw [Nat.succ_mul, Nat.mul_comm] at hmul
  rw [testBit_coord, testBit_coord, h (i * D + p % D) (by omega)]

include hle hlo hhi

/-- The middle lies between the corners. -/
theorem middle_between_corners :
    coord D w lo (p % D) < middle (p / D) (coord D w lo (p % D)) ∧
      middle (p / D) (coord D w lo (p % D)) ≤ coord D w hi (p % D) := by
  have hD := dims_pos hp
  refine middle_between (coord_agree hp h) (hle _ (Nat.mod_lt p hD)) ?_ ?_
  · rw [← testBit_eq_coord lo hp]
    exact hlo
  · rw [← testBit_eq_coord hi hp]
    exact hhi

/-- The lower corner of the half with the bit lies in the box. -/
theorem high_corner (hl : LoadsHigh D p lo lo') :
    ∀ d < D, coord D w lo' d ≤ coord D w hi d := fun d hd => by
  rw [hl.coord (Nat.div_lt_of_lt_mul hp) hd]
  by_cases hpd : d = p % D
  · rw [if_pos hpd]
    subst hpd
    exact (middle_between_corners hp h hle hlo hhi).2
  · rw [if_neg hpd]
    exact hle d hd

omit hle hlo hhi in
/-- The middle seen from the upper corner. -/
theorem middle_upper : middle (p / D) (coord D w hi (p % D)) = middle (p / D) (coord D w lo (p % D)) := by
  rw [middle, middle, div_eq_of_agree (k := p / D + 1) (coord_agree hp h)]

/-- The upper corner of the half without the bit lies in the box. -/
theorem low_corner (hl : LoadsLow D p hi hi') :
    ∀ d < D, coord D w lo d ≤ coord D w hi' d := fun d hd => by
  rw [hl.coord (Nat.div_lt_of_lt_mul hp) hd]
  by_cases hpd : d = p % D
  · rw [if_pos hpd]
    subst hpd
    rw [middle_upper hp h]
    exact Nat.le_sub_one_of_lt (middle_between_corners hp h hle hlo hhi).1
  · rw [if_neg hpd]
    exact hle d hd

/-- The half of a box with the bit. -/
theorem inside_high_iff (hl : LoadsHigh D p lo lo') :
    Inside D w lo' hi z ↔ Inside D w lo hi z ∧ z.testBit p = true := by
  have hk : p / D < w := Nat.div_lt_of_lt_mul hp
  obtain ⟨hm1, hm2⟩ := middle_between_corners hp h hle hlo hhi
  have hagree := coord_agree hp h
  rw [testBit_eq_coord z hp]
  constructor
  · intro hz
    have hz' : Inside D w lo hi z := fun d hd => by
      obtain ⟨h1, h2⟩ := hz d hd
      rw [hl.coord hk hd] at h1
      refine ⟨?_, h2⟩
      by_cases hpd : d = p % D
      · rw [if_pos hpd] at h1
        rw [hpd] at h1 ⊢
        exact hm1.le.trans h1
      · rw [if_neg hpd] at h1
        exact h1
    refine ⟨hz', ?_⟩
    have hD := dims_pos hp
    have hd := Nat.mod_lt p hD
    refine (testBit_iff_middle_le hagree (hz' _ hd).1 (hz' _ hd).2).mpr ?_
    have h1 := (hz _ hd).1
    rw [hl.coord hk hd, if_pos rfl] at h1
    exact h1
  · rintro ⟨hz, hbit⟩ d hd
    refine ⟨?_, (hz d hd).2⟩
    rw [hl.coord hk hd]
    by_cases hpd : d = p % D
    · rw [if_pos hpd]
      subst hpd
      exact (testBit_iff_middle_le hagree (hz _ hd).1 (hz _ hd).2).mp hbit
    · rw [if_neg hpd]
      exact (hz d hd).1

/-- The half of a box without the bit. -/
theorem inside_low_iff (hl : LoadsLow D p hi hi') :
    Inside D w lo hi' z ↔ Inside D w lo hi z ∧ z.testBit p = false := by
  have hk : p / D < w := Nat.div_lt_of_lt_mul hp
  obtain ⟨hm1, hm2⟩ := middle_between_corners hp h hle hlo hhi
  have hagree := coord_agree hp h
  have hmiddle := middle_upper hp h
  rw [testBit_eq_coord z hp, ← Bool.not_eq_true]
  constructor
  · intro hz
    have hz' : Inside D w lo hi z := fun d hd => by
      obtain ⟨h1, h2⟩ := hz d hd
      rw [hl.coord hk hd] at h2
      refine ⟨h1, ?_⟩
      by_cases hpd : d = p % D
      · rw [if_pos hpd] at h2
        rw [hpd] at h2 ⊢
        rw [hmiddle] at h2
        exact (h2.trans (Nat.sub_le _ _)).trans hm2
      · rw [if_neg hpd] at h2
        exact h2
    refine ⟨hz', fun hbit => ?_⟩
    have hD := dims_pos hp
    have hd := Nat.mod_lt p hD
    have hge := (testBit_iff_middle_le hagree (hz' _ hd).1 (hz' _ hd).2).mp hbit
    have h2 := (hz _ hd).2
    rw [hl.coord hk hd, if_pos rfl, hmiddle] at h2
    omega
  · rintro ⟨hz, hbit⟩ d hd
    refine ⟨(hz d hd).1, ?_⟩
    rw [hl.coord hk hd]
    by_cases hpd : d = p % D
    · rw [if_pos hpd]
      subst hpd
      have hlt := mt (testBit_iff_middle_le hagree (hz _ hd).1 (hz _ hd).2).mpr hbit
      rw [hmiddle]
      omega
    · rw [if_neg hpd]
      exact (hz d hd).2

end Halves

/-! ## The least code of a box above a code -/

variable (D w) in
/-- The codes of a box above a code. -/
def Above (lo hi x : ℕ) : Set ℕ := {z | z < 2 ^ (D * w) ∧ Inside D w lo hi z ∧ x < z}

variable (D w) in
/-- The least code of a box above a code, or another one if there is none. -/
def Found (lo hi x big r : ℕ) : Prop :=
  IsLeast (Above D w lo hi x) r ∨ Above D w lo hi x = ∅ ∧ r = big

section Found

variable {lo hi lo' hi' x big r p : ℕ}

/-- Two codes that agree from above a place on. -/
def AgreeAbove (p a b : ℕ) : Prop := ∀ q, p < q → a.testBit q = b.testBit q

/-- Codes of a box and a code that agree with its corners above a place are ordered by the bit
there. -/
theorem lt_of_bits (hx : x < 2 ^ (D * w)) (hxlo : AgreeAbove p x lo) (h : AgreeAbove p lo hi)
    {z : ℕ} (hz : z < 2 ^ (D * w)) (hin : Inside D w lo hi z) :
    (x.testBit p = false → z.testBit p = true → x < z) ∧
      (x.testBit p = true → z.testBit p = false → z < x) := by
  have hagree : AgreeAbove p z x := fun q hq => by
    by_cases hlt : q < D * w
    · rw [hin.testBit_eq (p := p + 1) (fun q hq => h q hq) hq hlt, hxlo q hq]
    · have hpow := Nat.pow_le_pow_right Nat.two_pos (Nat.not_lt.mp hlt)
      rw [Nat.testBit_lt_two_pow (hz.trans_le hpow), Nat.testBit_lt_two_pow (hx.trans_le hpow)]
  exact ⟨fun h0 h1 => Nat.lt_of_testBit p h0 h1 fun q hq => (hagree q hq).symm,
    fun h0 h1 => Nat.lt_of_testBit p h1 h0 hagree⟩

/-- The lower corner is the least code of a box. -/
theorem Inside.le {z : ℕ} (hlo : lo < 2 ^ (D * w)) (hz : Inside D w lo hi z) : lo ≤ z :=
  le_of_coord_le hlo fun d hd => (hz d hd).1

variable (hx : x < 2 ^ (D * w)) (hle : ∀ d < D, coord D w lo d ≤ coord D w hi d) (hxlo : AgreeAbove p x lo)
  (h : AgreeAbove p lo hi)

/-- Corners that agree with a code have nothing above it. -/
theorem found_end (hx0 : x = lo) (h0 : lo = hi) (big : ℕ) : Found D w lo hi x big big := by
  subst hx0 h0
  refine .inr ⟨Set.eq_empty_iff_forall_notMem.mpr fun z hz => ?_, rfl⟩
  obtain ⟨hlt, hin, habove⟩ := hz
  exact absurd (le_of_coord_le hlt fun d hd => (hin d hd).2) (not_le.mpr habove)

include hx hxlo h

/-- A box whose bit is set lies above a code without it. -/
theorem found_all (hx0 : x.testBit p = false) (hlo1 : lo.testBit p = true)
    (hlolt : lo < 2 ^ (D * w)) (hle : ∀ d < D, coord D w lo d ≤ coord D w hi d) (big : ℕ) : Found D w lo hi x big lo := by
  have hself : Inside D w lo hi lo := fun d hd => ⟨le_rfl, hle d hd⟩
  refine .inl ⟨⟨hlolt, hself, (lt_of_bits hx hxlo h hlolt hself).1 hx0 hlo1⟩, fun z hz => ?_⟩
  exact hz.2.1.le hlolt

/-- A box whose bit is not set lies below a code with it. -/
theorem found_none (hp : p < D * w) (hx1 : x.testBit p = true) (hlo0 : lo.testBit p = false)
    (hhi0 : hi.testBit p = false) (big : ℕ) : Found D w lo hi x big big := by
  have hagree : ∀ q, p ≤ q → lo.testBit q = hi.testBit q := fun q hq => by
    rcases Nat.eq_or_lt_of_le hq with rfl | hq
    · rw [hlo0, hhi0]
    · exact h q hq
  refine .inr ⟨Set.eq_empty_iff_forall_notMem.mpr fun z hz => ?_, rfl⟩
  obtain ⟨hlt, hin, habove⟩ := hz
  have hbit := (hin.testBit_eq hagree le_rfl hp).trans hlo0
  exact absurd ((lt_of_bits hx hxlo h hlt hin).2 hx1 hbit) habove.not_gt

variable (hp : p < D * w) (hlo0 : lo.testBit p = false) (hhi1 : hi.testBit p = true)

include hle hp hlo0 hhi1

/-- A code with the bit looks at the half with the bit only. -/
theorem found_high (hx1 : x.testBit p = true) (hl : LoadsHigh D p lo lo')
    (hf : Found D w lo' hi x big r) : Found D w lo hi x big r := by
  have hset : Above D w lo' hi x = Above D w lo hi x := by
    ext z
    refine and_congr_right fun hz => and_congr_left fun habove => ?_
    rw [inside_high_iff hp h hle hlo0 hhi1 hl]
    refine ⟨And.left, fun hin => ⟨hin, ?_⟩⟩
    by_contra hbit
    rw [Bool.not_eq_true] at hbit
    exact absurd ((lt_of_bits hx hxlo h hz hin).2 hx1 hbit) habove.not_gt
  unfold Found at hf ⊢
  rw [hset] at hf
  exact hf

/-- A code without the bit looks at the half without it; if it finds nothing, the least code
of the other half is next. -/
theorem found_low (hx0 : x.testBit p = false) (hl : LoadsHigh D p lo lo') (hl' : LoadsLow D p hi hi')
    (hlolt' : lo' < 2 ^ (D * w)) (hf : Found D w lo hi' x lo' r) : Found D w lo hi x big r := by
  have hlow := fun z => inside_low_iff (z := z) hp h hle hlo0 hhi1 hl'
  have hhigh := fun z => inside_high_iff (z := z) hp h hle hlo0 hhi1 hl
  have hself : Inside D w lo' hi lo' := fun d hd =>
    ⟨le_rfl, high_corner hp h hle hlo0 hhi1 hl d hd⟩
  refine .inl ?_
  rcases hf with ⟨⟨hlt, hin, habove⟩, hleast⟩ | ⟨hempty, rfl⟩
  · refine ⟨⟨hlt, ((hlow r).mp hin).1, habove⟩, fun z hz => ?_⟩
    obtain ⟨hzlt, hzin, hzabove⟩ := hz
    cases hbit : z.testBit p with
    | false => exact hleast ⟨hzlt, (hlow z).mpr ⟨hzin, hbit⟩, hzabove⟩
    | true =>
      -- the code that was found agrees with the corners above the bit and does not have it
      have hrlo : AgreeAbove p r lo := fun q hq => by
        by_cases hq' : q < D * w
        · exact ((hlow r).mp hin).1.testBit_eq (p := p + 1) (fun q hq => h q hq) hq hq'
        · have hpow := Nat.pow_le_pow_right Nat.two_pos (Nat.not_lt.mp hq')
          rw [Nat.testBit_lt_two_pow (hlt.trans_le hpow), ← hxlo q hq,
            Nat.testBit_lt_two_pow (hx.trans_le hpow)]
      exact ((lt_of_bits hlt hrlo h hzlt hzin).1 ((hlow r).mp hin).2 hbit).le
  · obtain ⟨hin, hbit⟩ := (hhigh r).mp hself
    refine ⟨⟨hlolt', hin, (lt_of_bits hx hxlo h hlolt' hin).1 hx0 hbit⟩, fun z hz => ?_⟩
    obtain ⟨hzlt, hzin, hzabove⟩ := hz
    cases hzbit : z.testBit p with
    | false =>
      have hmem : z ∈ Above D w lo hi' x := ⟨hzlt, (hlow z).mpr ⟨hzin, hzbit⟩, hzabove⟩
      rw [hempty] at hmem
      exact absurd hmem (Set.notMem_empty z)
    | true => exact ((hhigh z).mpr ⟨hzin, hzbit⟩).le hlolt'

end Found

end HM4.Interleave
