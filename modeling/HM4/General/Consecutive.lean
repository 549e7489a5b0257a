import Mathlib.Algebra.BigOperators.Group.List.Basic
import Mathlib.Algebra.GroupWithZero.Nat

/-!
# Consecutive intervals

Intervals with an offset and a size, of which each starts where the one before it ends. They are
disjoint, and together they cover everything from the first offset to the last end.
-/

namespace HM4.Consecutive

variable {α : Type*} (off size : α → ℕ)

/-- Each interval starts where the one before it ends, the first one at the given place. -/
def From : ℕ → List α → Prop
  | _, [] => True
  | a, x :: xs => off x = a ∧ From (a + size x) xs

/-- All sizes together. -/
def total (xs : List α) : ℕ := (xs.map size).sum

variable {off size} {xs : List α} {x : α} {a i j k : ℕ}

theorem total_cons (x : α) (xs : List α) : total size (x :: xs) = size x + total size xs := by
  unfold total
  rw [List.map_cons, List.sum_cons]

theorem total_concat (xs : List α) (x : α) :
    total size (xs ++ [x]) = total size xs + size x := by
  unfold total
  rw [List.map_append, List.sum_append, List.map_singleton, List.sum_singleton]

/-- One more interval at the end. -/
theorem From.concat (h : From off size a xs) (hx : off x = a + total size xs) :
    From off size a (xs ++ [x]) := by
  induction xs generalizing a with
  | nil => exact ⟨hx, trivial⟩
  | cons y xs ih =>
    obtain ⟨hy, hys⟩ := h
    rw [total_cons, ← Nat.add_assoc] at hx
    exact ⟨hy, ih hys hx⟩

/-- An interval starts behind all those before it. -/
theorem From.off_eq (h : From off size a xs) (hi : xs[i]? = some x) :
    off x = a + total size (xs.take i) := by
  induction xs generalizing a i with
  | nil => exact absurd hi (by simp)
  | cons y xs ih =>
    obtain ⟨hy, hys⟩ := h
    cases i with
    | zero =>
      obtain rfl : y = x := by simpa using hi
      simpa [total] using hy
    | succ i =>
      rw [List.getElem?_cons_succ] at hi
      rw [ih hys hi, List.take_succ_cons, total_cons, Nat.add_assoc]

theorem total_take_le (xs : List α) (h : i ≤ j) :
    total size (xs.take i) ≤ total size (xs.take j) := by
  have htake : xs.take i = (xs.take j).take i := by
    rw [List.take_take, Nat.min_eq_left h]
  have hsum := congrArg (fun zs => (zs.map size).sum) (List.take_append_drop i (xs.take j))
  simp only [List.map_append, List.sum_append, ← htake] at hsum
  unfold total
  omega

theorem total_take_succ (hi : xs[i]? = some x) :
    total size (xs.take (i + 1)) = total size (xs.take i) + size x := by
  rw [List.take_add_one, hi, Option.toList_some, total_concat]

/-- An interval ends before each that comes later starts. -/
theorem From.end_le (h : From off size a xs) {y : α} (hi : xs[i]? = some x) (hj : xs[j]? = some y)
    (hij : i < j) : off x + size x ≤ off y := by
  rw [h.off_eq hi, h.off_eq hj, Nat.add_assoc, ← total_take_succ hi]
  exact Nat.add_le_add_left (total_take_le xs hij) a

/-- Different intervals lie beside each other. -/
theorem From.beside (h : From off size a xs) {y : α} (hi : xs[i]? = some x) (hj : xs[j]? = some y)
    (hij : i ≠ j) : off x + size x ≤ off y ∨ off y + size y ≤ off x :=
  (Nat.lt_or_gt_of_ne hij).imp (h.end_le hi hj) (h.end_le hj hi)

/-- An interval ends inside the whole. -/
theorem From.end_le_total (h : From off size a xs) (hi : xs[i]? = some x) :
    off x + size x ≤ a + total size xs := by
  have hlt := (List.getElem?_eq_some_iff.mp hi).1
  have hle : total size (xs.take (i + 1)) ≤ total size (xs.take xs.length) :=
    total_take_le xs (Nat.succ_le_of_lt hlt)
  rw [total_take_succ hi, List.take_length] at hle
  rw [h.off_eq hi]
  omega

/-- Each place of the whole lies in an interval. -/
theorem From.covers (h : From off size a xs) (ha : a ≤ k) (hk : k < a + total size xs) :
    ∃ (i : ℕ) (x : α), xs[i]? = some x ∧ off x ≤ k ∧ k < off x + size x := by
  induction xs generalizing a with
  | nil =>
    change k < a + 0 at hk
    omega
  | cons y xs ih =>
    obtain ⟨hy, hys⟩ := h
    rw [total_cons] at hk
    by_cases hin : k < a + size y
    · exact ⟨0, y, rfl, by omega, by omega⟩
    · obtain ⟨i, x, hi, hx⟩ := ih hys (by omega) (by omega)
      exact ⟨i + 1, x, hi, hx⟩

/-- Each place of the whole lies in exactly one interval. -/
theorem From.existsUnique (h : From off size a xs) (ha : a ≤ k) (hk : k < a + total size xs) :
    ∃! i : ℕ, ∃ x, xs[i]? = some x ∧ off x ≤ k ∧ k < off x + size x := by
  obtain ⟨i, x, hi, hx⟩ := h.covers ha hk
  refine ⟨i, ⟨x, hi, hx⟩, fun j ⟨y, hj, hy⟩ => ?_⟩
  by_contra hne
  rcases h.beside hi hj (Ne.symm hne) with hle | hle <;> omega

end HM4.Consecutive
