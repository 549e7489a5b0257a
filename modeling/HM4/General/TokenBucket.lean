import Mathlib.Algebra.Order.Field.Basic
import Mathlib.Algebra.BigOperators.Group.List.Basic
import Mathlib.Tactic.Linarith
import Mathlib.Tactic.Ring

/-!
# Token buckets

A bucket is refilled at a constant rate up to a capacity. What is drawn from it leaves at most
the rest, taken at the time of the draw or later. So what is drawn in any interval of time is
bounded by the capacity and what flows in.
-/

namespace HM4.TokenBucket

variable {K : Type*} [Field K] [LinearOrder K]

/-- How much a bucket held, and when. -/
structure Bucket (K : Type*) where
  level : K
  time : K

variable (capacity rate : K)

/-- An amount is drawn at a time. -/
structure Draws (b : Bucket K) (t amount : K) (b' : Bucket K) : Prop where
  le_draw : b.time ≤ t
  draw_le : t ≤ b'.time
  amount_nonneg : 0 ≤ amount
  level_nonneg : 0 ≤ b'.level
  room : b'.level + amount ≤ capacity
  refill : b'.level + amount ≤ b.level + (t - b.time) * rate

/-- A bucket from which amounts are drawn at times, one after the other. Nothing may be drawn at
any time. -/
inductive Drawn : Bucket K → List (K × K) → Prop
  | nil (b) : Drawn b []
  | idle {b l} (t) : Drawn b l → Drawn b ((t, 0) :: l)
  | draw {b b' t amount l} : Draws capacity rate b t amount b' → Drawn b' l →
      Drawn b ((t, amount) :: l)

/-- What is drawn in an interval of time. -/
def drawnIn (t1 t2 : K) (l : List (K × K)) : K :=
  ((l.filter fun d => decide (t1 ≤ d.1 ∧ d.1 ≤ t2)).map Prod.snd).sum

section Sums

variable {t1 t2 t amount : K} {l : List (K × K)}

theorem drawnIn_cons (d : K × K) :
    drawnIn t1 t2 (d :: l) = (if t1 ≤ d.1 ∧ d.1 ≤ t2 then d.2 else 0) + drawnIn t1 t2 l := by
  unfold drawnIn
  by_cases h : t1 ≤ d.1 ∧ d.1 ≤ t2
  · have hd : decide (t1 ≤ d.1 ∧ d.1 ≤ t2) = true := decide_eq_true h
    rw [if_pos h, List.filter_cons, if_pos hd, List.map_cons, List.sum_cons]
  · have hd : ¬decide (t1 ≤ d.1 ∧ d.1 ≤ t2) = true := fun hc => h (of_decide_eq_true hc)
    rw [if_neg h, List.filter_cons, if_neg hd, zero_add]

theorem drawnIn_idle : drawnIn t1 t2 ((t, 0) :: l) = drawnIn t1 t2 l := by
  rw [drawnIn_cons, ite_self, zero_add]

theorem drawnIn_of_mem (h1 : t1 ≤ t) (h2 : t ≤ t2) :
    drawnIn t1 t2 ((t, amount) :: l) = amount + drawnIn t1 t2 l := by
  rw [drawnIn_cons, if_pos ⟨h1, h2⟩]

theorem drawnIn_of_not_mem (h : ¬(t1 ≤ t ∧ t ≤ t2)) :
    drawnIn t1 t2 ((t, amount) :: l) = drawnIn t1 t2 l := by
  rw [drawnIn_cons, if_neg h, zero_add]

end Sums

variable {capacity rate} {b : Bucket K} {l : List (K × K)}

/-- After the time of the bucket nothing is drawn before it. -/
theorem Drawn.eq_zero (h : Drawn capacity rate b l) {t1 t2 : K} (ht : t2 < b.time) :
    drawnIn t1 t2 l = 0 := by
  induction h with
  | nil b => rfl
  | idle t _ ih => exact drawnIn_idle.trans (ih ht)
  | draw hd _ ih =>
    have hlt := ht.trans_le hd.le_draw
    rw [drawnIn_of_not_mem fun hc => absurd hc.2 (not_le.mpr hlt)]
    exact ih (hlt.trans_le hd.draw_le)

variable [IsStrictOrderedRing K]

/-- From the time of the bucket on its level and the refill bound what is drawn. -/
theorem Drawn.le_level (h : Drawn capacity rate b l) (hrate : 0 ≤ rate) {t1 t2 : K}
    (ht : b.time ≤ t2) (hlevel : 0 ≤ b.level) :
    drawnIn t1 t2 l ≤ b.level + (t2 - b.time) * rate := by
  induction h with
  | nil b => exact add_nonneg hlevel (mul_nonneg (sub_nonneg.mpr ht) hrate)
  | idle t _ ih => exact drawnIn_idle.trans_le (ih ht hlevel)
  | @draw b b' t amount l hd hrest ih =>
    have hflow : (t2 - b.time) * rate = (t2 - t) * rate + (t - b.time) * rate := by ring
    have hrefill := hd.refill
    have hnext := hd.level_nonneg
    by_cases htt : t ≤ t2
    · have hflow' := mul_nonneg (sub_nonneg.mpr htt) hrate
      -- the rest is bounded by the new level and what flows in after it
      have hle : drawnIn t1 t2 l ≤ b'.level + (t2 - t) * rate := by
        rcases le_or_gt b'.time t2 with hb | hb
        · have hlater := mul_le_mul_of_nonneg_right (sub_le_sub_left hd.draw_le t2) hrate
          exact (ih hb hnext).trans (add_le_add_right hlater _)
        · rw [hrest.eq_zero hb]
          exact add_nonneg hnext hflow'
      by_cases h1 : t1 ≤ t
      · rw [drawnIn_of_mem h1 htt, hflow]
        linarith
      · rw [drawnIn_of_not_mem fun hc => h1 hc.1, hflow]
        linarith [hd.amount_nonneg]
    · rw [drawnIn_of_not_mem fun hc => htt hc.2,
        hrest.eq_zero ((not_le.mp htt).trans_le hd.draw_le)]
      exact add_nonneg hlevel (mul_nonneg (sub_nonneg.mpr ht) hrate)

/-- In an interval of time at most the capacity and what flows in meanwhile is drawn. -/
theorem Drawn.le_capacity (h : Drawn capacity rate b l) (hcapacity : 0 ≤ capacity)
    (hrate : 0 ≤ rate) {t1 t2 : K} (ht : t1 ≤ t2) :
    drawnIn t1 t2 l ≤ capacity + (t2 - t1) * rate := by
  have hflow := mul_nonneg (sub_nonneg.mpr ht) hrate
  induction h with
  | nil b => exact add_nonneg hcapacity hflow
  | idle t _ ih => exact drawnIn_idle.trans_le ih
  | @draw b b' t amount l hd hrest ih =>
    by_cases hin : t1 ≤ t ∧ t ≤ t2
    · rw [drawnIn_of_mem hin.1 hin.2]
      have hroom := hd.room
      have hless := mul_le_mul_of_nonneg_right (sub_le_sub_left hin.1 t2) hrate
      rcases le_or_gt b'.time t2 with hb | hb
      · have hle : drawnIn t1 t2 l ≤ b'.level + (t2 - b'.time) * rate :=
          hrest.le_level hrate hb hd.level_nonneg
        have hlater := mul_le_mul_of_nonneg_right (sub_le_sub_left hd.draw_le t2) hrate
        linarith
      · rw [hrest.eq_zero hb]
        linarith [hd.level_nonneg]
    · rw [drawnIn_of_not_mem hin]
      exact ih

end HM4.TokenBucket
