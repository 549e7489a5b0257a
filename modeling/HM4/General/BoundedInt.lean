import Mathlib.Algebra.BigOperators.Group.List.Basic
import Mathlib.Algebra.Order.Ring.Int

/-!
# Integers of a machine type

A machine type has a range of integers. An operation on it is defined only if its result lies in
the range; a saturating operation takes the end of the range instead.
-/

namespace HM4.BoundedInt

/-- A range of integers around zero. -/
structure Range where
  lo : ℤ
  hi : ℤ
  lo_nonpos : lo ≤ 0
  hi_nonneg : 0 ≤ hi

namespace Range

variable (T : Range)

/-- A number of the range. -/
def Mem (n : ℤ) : Prop := T.lo ≤ n ∧ n ≤ T.hi

instance (n : ℤ) : Decidable (T.Mem n) := inferInstanceAs (Decidable (_ ∧ _))

/-- The result of an operation, unless it overflows. -/
def checked (n : ℤ) : Option ℤ := if T.Mem n then some n else none

/-- The number of the range that is next to a number. -/
def clamp (n : ℤ) : ℤ := max T.lo (min T.hi n)

variable {T} {n : ℤ}

theorem checked_of_mem (h : T.Mem n) : T.checked n = some n := if_pos h

theorem checked_eq_none (h : ¬T.Mem n) : T.checked n = none := if_neg h

theorem clamp_mem (T : Range) (n : ℤ) : T.Mem (T.clamp n) := by
  have hlo := T.lo_nonpos
  have hhi := T.hi_nonneg
  unfold Mem clamp
  omega

theorem clamp_of_mem (h : T.Mem n) : T.clamp n = n := by
  unfold Mem at h
  unfold clamp
  omega

theorem clamp_of_gt (h : T.hi < n) : T.clamp n = T.hi := by
  have hlo := T.lo_nonpos
  have hhi := T.hi_nonneg
  unfold clamp
  omega

theorem clamp_of_lt (h : n < T.lo) : T.clamp n = T.lo := by
  unfold clamp
  omega

theorem zero_mem (T : Range) : T.Mem 0 := ⟨T.lo_nonpos, T.hi_nonneg⟩

/-- A quotient of a number of the range by a natural number. -/
theorem mem_tdiv (h : T.Mem n) (m : ℕ) : T.Mem (n.tdiv m) := by
  have hlo := T.lo_nonpos
  have hhi := T.hi_nonneg
  unfold Mem at h ⊢
  by_cases hneg : n < 0
  · have hpos : 0 ≤ (-n).tdiv m := Int.tdiv_nonneg (by omega) (Int.natCast_nonneg m)
    have hle : (-n).tdiv m ≤ -n := Int.tdiv_le_self m (by omega)
    rw [Int.neg_tdiv] at hpos hle
    omega
  · have hpos : 0 ≤ n.tdiv m := Int.tdiv_nonneg (by omega) (Int.natCast_nonneg m)
    have hle : n.tdiv m ≤ n := Int.tdiv_le_self m (by omega)
    omega

/-! ## Sums along a list -/

/-- A sum is told if none of the sums on the way overflows. -/
theorem foldlM_add_of_mem {s : ℤ} {l : List ℤ} (h : ∀ k, T.Mem (s + (l.take k).sum)) :
    l.foldlM (fun s n => T.checked (s + n)) s = some (s + l.sum) := by
  induction l generalizing s with
  | nil => simp
  | cons n l ih =>
    have hone := h 1
    rw [List.take_succ_cons, List.take_zero, List.sum_singleton] at hone
    rw [List.foldlM_cons, checked_of_mem hone, List.sum_cons, ← add_assoc]
    refine ih fun k => ?_
    have hk := h (k + 1)
    rwa [List.take_succ_cons, List.sum_cons, ← add_assoc] at hk

/-- A sum that is told has not overflowed on the way. -/
theorem mem_of_foldlM_add {s r : ℤ} (hs : T.Mem s) {l : List ℤ}
    (h : l.foldlM (fun s n => T.checked (s + n)) s = some r) (k : ℕ) :
    T.Mem (s + (l.take k).sum) := by
  induction l generalizing s k with
  | nil => simpa using hs
  | cons n l ih =>
    rw [List.foldlM_cons] at h
    by_cases hn : T.Mem (s + n)
    · rw [checked_of_mem hn] at h
      cases k with
      | zero => simpa using hs
      | succ k =>
        rw [List.take_succ_cons, List.sum_cons, ← add_assoc]
        exact ih hn h k
    · rw [checked_eq_none hn] at h
      exact nomatch h

end Range

end HM4.BoundedInt
