import HM4.HexConvert
import HM4.MortonCurve

/-!
# Keys of Morton codes

The commands of the Morton curves write the code of a point in hexadecimal text into its keys. A
coordinate that grows alone moves the code, and so the key, in its direction.
-/

namespace HM4.MortonKeys

open Bytes BitVec Interleave MortonCurve HexConvert

/-- The options of the keys. -/
def keyOptions : Options := ⟨false, false⟩

/-- `toHex` of a code into an `MCBuffer`. -/
def toHex {W : ℕ} (z : BitVec W) (buffer : Key) : Key := HexConvert.toHex keyOptions z buffer

section Code

variable {c : Curve} (h : Lawful c)

include h

/-- A bit of a coordinate has one place in the code. -/
theorem existsUnique_place (d : Fin c.D) {i : ℕ} (hi : i < c.w) :
    ∃! j, j < c.W ∧ ∀ v : Fin c.D → BitVec c.w,
      (toMorton c v).getLsbD j = (v d).getLsbD i := by
  obtain ⟨hmod, hdiv⟩ := place_div_mod (i := i) d.isLt
  refine ⟨i * c.D + d, ⟨?_, fun v => ?_⟩, fun j ⟨_, hj⟩ => ?_⟩
  · exact (place_lt d.isLt hi).trans_le h.width
  · rw [getLsbD_toMorton h]
    simp only [hmod, hdiv, Fin.eta]
  · -- a point with this bit only has it at no other place
    have hbit := hj (Function.update (fun _ => 0#c.w) d (twoPow c.w i))
    rw [Function.update_self, getLsbD_twoPow, decide_eq_true hi, decide_eq_true rfl,
      getLsbD_toMorton h] at hbit
    by_cases hd : (⟨j % c.D, Nat.mod_lt j h.pos⟩ : Fin c.D) = d
    · rw [hd, Function.update_self, getLsbD_twoPow, decide_eq_true hi, Bool.true_and] at hbit
      have hij : i = j / c.D := of_decide_eq_true hbit
      have hdj : j % c.D = d.val := congrArg Fin.val hd
      rw [hij, ← hdj, Nat.div_add_mod']
    · rw [Function.update_of_ne hd, getLsbD_zero] at hbit
      exact absurd hbit Bool.false_ne_true

/-- Codes are ordered like the points of a box. -/
theorem toMorton_le {v v' : Fin c.D → BitVec c.w} (hle : ∀ d, v d ≤ v' d) :
    toMorton c v ≤ toMorton c v' := by
  refine BitVec.le_def.mpr (le_of_coord_le (D := c.D) (w := c.w) (toMorton_lt h v) fun d hd => ?_)
  have hv := coord_toMorton h v ⟨d, hd⟩
  have hv' := coord_toMorton h v' ⟨d, hd⟩
  rw [hv, hv']
  exact BitVec.le_def.mp (hle ⟨d, hd⟩)

theorem toMorton_injective : Function.Injective (toMorton c) :=
  Function.LeftInverse.injective (fromMorton_toMorton h)

/-- The order of the codes of points that differ in one coordinate. -/
theorem toMorton_update_lt_iff (v : Fin c.D → BitVec c.w) (d : Fin c.D) (x y : BitVec c.w) :
    toMorton c (Function.update v d x) < toMorton c (Function.update v d y) ↔ x < y := by
  have hmono : ∀ {x y : BitVec c.w}, x ≤ y →
      toMorton c (Function.update v d x) ≤ toMorton c (Function.update v d y) := fun hxy =>
    toMorton_le h fun e => by
      by_cases he : e = d
      · rw [he, Function.update_self, Function.update_self]
        exact hxy
      · rw [Function.update_of_ne he, Function.update_of_ne he]
        exact BitVec.le_refl _
  constructor
  · intro hlt
    by_contra hnot
    exact BitVec.not_lt.mpr (hmono (BitVec.not_lt.mp hnot)) hlt
  · intro hxy
    have hle := BitVec.le_def.mp (hmono (BitVec.le_of_lt hxy))
    refine BitVec.lt_def.mpr (Nat.lt_of_le_of_ne hle fun heq => ?_)
    have hupdate := congrFun (toMorton_injective h (eq_of_toNat_eq heq)) d
    rw [Function.update_self, Function.update_self] at hupdate
    exact BitVec.ne_of_lt hxy hupdate

end Code

theorem dvd_of_mem {c : Curve} (h : c ∈ curves) : 8 ∣ c.W := by
  simp only [curves, List.mem_cons, List.not_mem_nil, or_false] at h
  rcases h with rfl | rfl | rfl | rfl | rfl
  all_goals decide

/-- For each curve, points are read back from their codes, a bit of a coordinate has one place in
the code, so that a coordinate orders the codes in which it varies alone, and the texts in the
keys have a fixed width, are ordered like the codes and are read back. -/
theorem codes_and_keys {c : Curve} (h : c ∈ curves) :
    (∀ v : Fin c.D → BitVec c.w, fromMorton c (toMorton c v) = v) ∧
    (∀ (d : Fin c.D) (i : ℕ), i < c.w → ∃! j, j < c.W ∧ ∀ v : Fin c.D → BitVec c.w,
      (toMorton c v).getLsbD j = (v d).getLsbD i) ∧
    (∀ (v : Fin c.D → BitVec c.w) (d : Fin c.D) (x y : BitVec c.w),
      toMorton c (Function.update v d x) < toMorton c (Function.update v d y) ↔ x < y) ∧
    (∀ (z : BitVec c.W) (buffer : Key), hexSize c.W ≤ buffer.length →
      (toHex z buffer).length = hexSize c.W ∧ fromHex c.W (toHex z buffer) = z) ∧
    (∀ (z z' : BitVec c.W) (buffer buffer' : Key), hexSize c.W ≤ buffer.length →
      hexSize c.W ≤ buffer'.length → (toHex z buffer < toHex z' buffer' ↔ z < z')) :=
  have hlawful := lawful_of_mem h
  have hT := dvd_of_mem h
  ⟨fromMorton_toMorton hlawful, fun d _ hi => existsUnique_place hlawful d hi,
    toMorton_update_lt_iff hlawful,
    fun z _ hbuffer => ⟨length_toHex keyOptions hT z hbuffer,
      fromHex_toHex keyOptions hT z hbuffer⟩,
    fun z z' _ _ hbuffer hbuffer' => toHex_lt_iff keyOptions hT z z' hbuffer hbuffer'⟩

/-- The curve of two coordinates. -/
theorem codes_and_keys_2D32 :
    (∀ v : Fin 2 → BitVec 32, fromMorton curve2D32 (toMorton curve2D32 v) = v) ∧
      fromHex 64 (toHex 0xABCDEF#64 (List.replicate 16 0)) = 0xABCDEF#64 :=
  have hall := codes_and_keys (c := curve2D32) List.mem_cons_self
  ⟨hall.1, (hall.2.2.2.1 0xABCDEF#64 (List.replicate 16 0) (by decide)).2⟩

end HM4.MortonKeys
