import Mathlib.Algebra.Order.Field.Basic
import Mathlib.Algebra.Order.AbsoluteValue.Basic
import Mathlib.Tactic.Linarith
import Mathlib.Tactic.FieldSimp
import Mathlib.Tactic.Ring

/-!
# Cells of a range that is halved

A range is halved again and again. After some steps it is made of cells of one width, which are
numbered from the left. The next halves of a cell have twice its number and one more. A point near
a point in the right half of a cell is in no cell to the left of it.
-/

namespace HM4.Bisection

variable {K : Type*} [Field K] [LinearOrder K] [IsStrictOrderedRing K] {lo width : K}

/-- The left end of a cell after so many steps. -/
def left (lo width : K) (n i : ℕ) : K := lo + width * i / 2 ^ n

/-- The width of a cell. -/
def size (width : K) (n : ℕ) : K := width / 2 ^ n

/-- A point is in a cell, without its right end. -/
def InCell (lo width : K) (n i : ℕ) (t : K) : Prop :=
  left lo width n i ≤ t ∧ t < left lo width n (i + 1)

/-- The middle of a cell. -/
def middle (lo width : K) (n i : ℕ) : K := (left lo width n i + left lo width n (i + 1)) / 2

omit [LinearOrder K] [IsStrictOrderedRing K] in
theorem left_zero : left lo width 0 0 = lo := by simp [left]

omit [LinearOrder K] [IsStrictOrderedRing K] in
theorem left_one : left lo width 0 1 = lo + width := by simp [left]

omit [LinearOrder K] [IsStrictOrderedRing K] in
theorem left_first (n : ℕ) : left lo width n 0 = lo := by simp [left]

theorem left_last (n : ℕ) : left lo width n (2 ^ n) = lo + width := by
  unfold left
  push_cast
  rw [mul_div_cancel_right₀ _ (pow_ne_zero n two_ne_zero)]

omit [LinearOrder K] [IsStrictOrderedRing K] in
theorem left_succ (n i : ℕ) : left lo width n (i + 1) = left lo width n i + size width n := by
  unfold left size
  push_cast
  ring

/-- The halves of a cell start where it starts, and in its middle. -/
theorem left_double (n i : ℕ) : left lo width (n + 1) (2 * i) = left lo width n i := by
  unfold left
  push_cast
  rw [pow_succ]
  field_simp

theorem left_double_succ (n i : ℕ) :
    left lo width (n + 1) (2 * i + 1) = middle lo width n i := by
  unfold middle left
  push_cast
  rw [pow_succ]
  field_simp
  ring

omit [LinearOrder K] [IsStrictOrderedRing K] in
theorem left_succ_sub (n i : ℕ) : left lo width n (i + 1) - left lo width n i = size width n := by
  rw [left_succ, add_sub_cancel_left]

theorem size_pos (hw : 0 < width) (n : ℕ) : 0 < size width n := div_pos hw (pow_pos two_pos n)

theorem left_strictMono (hw : 0 < width) (n : ℕ) : StrictMono (left lo width n) := by
  refine strictMono_nat_of_lt_succ fun i => ?_
  rw [left_succ]
  exact lt_add_of_pos_right _ (size_pos hw n)

omit [IsStrictOrderedRing K] in
/-- A cell that does not start where the range starts is not the first. -/
theorem pos_of_lt_left {n i : ℕ} (h : lo < left lo width n i) : 0 < i := by
  rw [Nat.pos_iff_ne_zero]
  rintro rfl
  rw [left_first] at h
  exact lt_irrefl lo h

theorem lt_of_left_lt (hw : 0 < width) {n i : ℕ} (h : left lo width n i < lo + width) :
    i < 2 ^ n := by
  rw [← left_last n] at h
  exact (left_strictMono hw n).lt_iff_lt.mp h

omit [LinearOrder K] [IsStrictOrderedRing K] in
theorem middle_eq [CharZero K] (n i : ℕ) :
    middle lo width n i = left lo width n i + size width n / 2 := by
  unfold middle
  rw [left_succ]
  ring

variable {n i j : ℕ} {t t' : K}

/-- A point is in one cell. -/
theorem InCell.unique (hw : 0 < width) (h : InCell lo width n i t) (h' : InCell lo width n j t) :
    i = j := by
  have hmono : StrictMono (left lo width n) := left_strictMono hw n
  have hij := hmono.lt_iff_lt.mp (h.1.trans_lt h'.2)
  have hji := hmono.lt_iff_lt.mp (h'.1.trans_lt h.2)
  omega

/-- A point less than half a cell from a point that is not left of the middle is in no cell to the
left. -/
theorem InCell.le_of_middle_le (hw : 0 < width) (h' : InCell lo width n j t')
    (hmid : middle lo width n i ≤ t) (hnear : |t' - t| < size width n / 2) : i ≤ j := by
  have hlt : left lo width n i < left lo width n (j + 1) := by
    rw [middle_eq] at hmid
    have habs := (abs_lt.mp hnear).1
    linarith [h'.2]
  exact Nat.le_of_lt_succ ((left_strictMono hw n).lt_iff_lt.mp hlt)

/-- And to the right. -/
theorem InCell.le_of_le_middle (hw : 0 < width) (h' : InCell lo width n j t')
    (hmid : t ≤ middle lo width n i) (hnear : |t' - t| < size width n / 2) : j ≤ i := by
  have hlt : left lo width n j < left lo width n (i + 1) := by
    rw [middle_eq] at hmid
    rw [left_succ]
    have habs := (abs_lt.mp hnear).2
    linarith [h'.1]
  exact Nat.le_of_lt_succ ((left_strictMono hw n).lt_iff_lt.mp hlt)

/-- Near a point left of the middle there is a point in the cell to the left. -/
theorem InCell.exists_left (h : InCell lo width n (i + 1) t)
    (hmid : t < middle lo width n (i + 1)) :
    ∃ t', InCell lo width n i t' ∧ |t' - t| < size width n / 2 := by
  have hstep : left lo width n (i + 1) = _ := left_succ n i
  rw [middle_eq] at hmid
  obtain ⟨hle, -⟩ := h
  refine ⟨(left lo width n (i + 1) + (t - size width n / 2)) / 2, ⟨?_, ?_⟩, ?_⟩
  · linarith
  · linarith
  · rw [abs_lt]
    constructor <;> linarith

/-- Near a point right of the middle there is a point in the cell to the right. -/
theorem InCell.exists_right (h : InCell lo width n i t) (hmid : middle lo width n i < t) :
    ∃ t', InCell lo width n (i + 1) t' ∧ |t' - t| < size width n / 2 := by
  have hstep : left lo width n (i + 1) = _ := left_succ n i
  have hstep' : left lo width n (i + 1 + 1) = _ := left_succ n (i + 1)
  rw [middle_eq] at hmid
  obtain ⟨-, hlt⟩ := h
  refine ⟨(left lo width n (i + 1) + (t + size width n / 2)) / 2, ⟨?_, ?_⟩, ?_⟩
  · linarith
  · linarith
  · rw [abs_lt]
    constructor <;> linarith

end HM4.Bisection
