import HM4.General.Consecutive
import HM4.TieredMemoryRuns

/-!
# The sizes of the tiers

The constructor of `TieredMemoryManager` computes the octets of a tier as a product of two
`uint32_t`. The eight slabs always lie one behind the other and fill the buffer, but a tier whose
blocks do not fit into 32 bits has only what is left of the product.
-/

namespace HM4.TieredMemoryManager

open Consecutive

/-- `SlabAllocator::getNumBlocks`. -/
def getNumBlocks (tier : ℕ) (slab : Slab) : ℕ := slab.size / sizeOf tier

/-- How many blocks are too many for a tier, rounded up: 2^32 by the size of one. -/
def limit (tier : ℕ) : ℕ := 2 ^ 18 / 4 ^ tier

theorem sizeOf_mul_lt_iff {t : ℕ} (ht : t < 8) (n : ℕ) : sizeOf t * n < 2 ^ 32 ↔ n < limit t := by
  interval_cases t <;>
    simp only [sizeOf, SIZES, KB, MB, limit, List.getD_cons_zero, List.getD_cons_succ] <;> omega

/-- The divisors of the tiers are such that all reach their limits at the same time. -/
theorem div_divisor_lt_iff {t : ℕ} (ht : t < 8) (n : ℕ) :
    n / DIVISORS.getD t 0 < limit t ↔ n < 2 ^ 18 := by
  interval_cases t <;>
    simp only [DIVISORS, limit, List.getD_cons_zero, List.getD_cons_succ] <;> omega

theorem two_lt_limit {t : ℕ} (ht : t < 8) : MIN_COUNT < limit t := by
  interval_cases t <;> decide

theorem limit_le {t : ℕ} (ht : t < 8) : limit t ≤ 2 ^ 18 := by
  interval_cases t <;> decide

/-- One more client, unless there are as many as can be. -/
theorem calcMaxClients_lt_iff {n : ℕ} (maxClients : ℕ) (hn : n ≤ 2 ^ 18) :
    calcMaxClients maxClients < n ↔ maxClients + 1 < n := by
  unfold calcMaxClients maxUInt
  split_ifs with hmax <;> omega

/-- The number of blocks asked for is one that the tier can have: none at all, one computed from
fewer than 2^18 - 1 clients, or one below the limit, by itself or for want of clients. -/
def Within (tier value maxClients : ℕ) : Prop :=
  value = maxUInt ∨ (value = 0 ∧ maxClients + 1 < 2 ^ 18) ∨
    (value ≠ 0 ∧ (value < limit tier ∨ maxClients + 1 < limit tier))

theorem calcMinimumCount_lt_iff {t : ℕ} (ht : t < 8) (value maxClients : ℕ) :
    calcMinimumCount t value maxClients < limit t ↔ Within t value maxClients := by
  have hlimit := limit_le ht
  have htwo := two_lt_limit ht
  unfold calcMinimumCount Within
  split_ifs with hmax hzero
  · have hpos : 0 < limit t := by omega
    simp only [hmax, hpos, true_or]
  · have hclients := calcMaxClients_lt_iff maxClients hlimit
    simp only [min_lt_iff, hclients, hmax, hzero, false_or, false_and, ne_eq, not_false_eq_true,
      true_and]
  · have hclients := calcMaxClients_lt_iff maxClients (le_refl (2 ^ 18))
    have hvalue : value = 0 := by omega
    rw [max_lt_iff, div_divisor_lt_iff ht, hclients]
    subst hvalue
    simp only [htwo, hmax, and_true, false_or, true_and, ne_eq, not_true_eq_false, false_and,
      or_false]

/-- A product of two `uint32_t` is exact as long as it is one. -/
theorem cSize_eq_iff (counts : ℕ → ℕ) (maxClients : ℕ) {t : ℕ} (ht : t < 8) :
    cSize counts maxClients t = sizeOf t * calcMinimumCount t (counts t) maxClients ↔
      Within t (counts t) maxClients := by
  rw [← calcMinimumCount_lt_iff ht, ← sizeOf_mul_lt_iff ht]
  unfold cSize
  exact Nat.mod_eq_iff_lt (by decide)

section Slabs

variable {counts : ℕ → ℕ} {maxClients : ℕ}

/-- A slab, as the constructor leaves it. -/
def Resource.slab (r : Resource counts maxClients) (tier : ℕ) : Slab := (r.slabs 8).2 tier

theorem Resource.slab_buffer (r : Resource counts maxClients) {t : ℕ} (ht : t < 8) :
    (r.slab t).data = r.cPtr t ∧ (r.slab t).size = cSize counts maxClients t :=
  (slabs_spec r 8 le_rfl t ht).1

/-- The first slabs lie one behind the other, from the start of the buffer on. -/
theorem Resource.slabs_from (r : Resource counts maxClients) (n : ℕ) (hn : n ≤ 8) :
    From (fun t => (r.slab t).data) (fun t => (r.slab t).size) r.data (List.range n) ∧
      total (fun t => (r.slab t).size) (List.range n) = offset counts maxClients n := by
  induction n with
  | zero => exact ⟨trivial, rfl⟩
  | succ n ih =>
    obtain ⟨hfrom, htotal⟩ := ih (by omega)
    obtain ⟨hdata, hsize⟩ := r.slab_buffer (t := n) (by omega)
    rw [List.range_succ]
    constructor
    · apply hfrom.concat
      rw [htotal]
      exact hdata
    · rw [total_concat, htotal, hsize, offset]

/-- What the constructor is for: each tier has the octets of its blocks, the slabs lie one behind
the other and fill the buffer, and each slab is cut into the blocks of its tier. -/
structure Sized (r : Resource counts maxClients) : Prop where
  size : ∀ t < 8,
    cSize counts maxClients t = sizeOf t * calcMinimumCount t (counts t) maxClients
  behind : From (fun t => (r.slab t).data) (fun t => (r.slab t).size) r.data (List.range 8)
  fills : total (fun t => (r.slab t).size) (List.range 8) = offset counts maxClients 8
  slab : ∀ t < 8, (r.slab t).size = cSize counts maxClients t
  numBlocks : ∀ t < 8,
    getNumBlocks t (r.slab t) = calcMinimumCount t (counts t) maxClients

/-- The sizes are exact for just those numbers of blocks and of clients that every tier can
have. -/
theorem sized_iff (counts : ℕ → ℕ) (maxClients : ℕ) (r : Resource counts maxClients) :
    Sized r ↔ ∀ t < 8, Within t (counts t) maxClients := by
  constructor
  · intro h t ht
    exact (cSize_eq_iff counts maxClients ht).mp (h.size t ht)
  · intro h
    have hsize := fun t ht => (cSize_eq_iff counts maxClients ht).mpr (h t ht)
    obtain ⟨hfrom, htotal⟩ := r.slabs_from 8 le_rfl
    refine ⟨hsize, hfrom, htotal, fun t ht => (r.slab_buffer ht).2, fun t ht => ?_⟩
    have hpos := Nat.zero_lt_of_lt (width_lt_sizeOf ht)
    unfold getNumBlocks
    rw [(r.slab_buffer ht).2, hsize t ht]
    exact Nat.mul_div_cancel_left _ hpos

/-- Sixty-four blocks of 64 MB are 2^32 octets: the tier is left with none. -/
theorem not_sized : ¬ ∀ (counts : ℕ → ℕ) (maxClients : ℕ) (r : Resource counts maxClients),
    (∀ t < 8, counts t < 2 ^ 32) → maxClients < 2 ^ 32 → Sized r := by
  intro h
  let counts : ℕ → ℕ := fun t => if t = 6 then 64 else 0
  have hsized := h counts 100 ⟨4096, fun _ => 0, by decide, by decide⟩
    (fun t _ => by dsimp only [counts]; split_ifs <;> norm_num) (by norm_num)
  have hsize := hsized.size 6 (by norm_num)
  exact absurd hsize (by decide)

end Slabs

end HM4.TieredMemoryManager
