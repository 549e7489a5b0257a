import Mathlib.Algebra.Group.Nat.Defs
import Mathlib.Data.List.Basic
import Mathlib.Algebra.Order.Ring.Nat
import Mathlib.Tactic.Linarith

/-!
# Decimal numerals

The digits of a natural number, the highest first and without leading zeros,
and the value of a list of digits. Reading a numeral back gives the number, and
a number below a power of ten has no more digits than the exponent.
-/

namespace HM4.Decimal

/-- The decimal digits, the highest first. -/
def digits (n : ℕ) : List ℕ :=
  if n < 10 then [n] else digits (n / 10) ++ [n % 10]
termination_by n
decreasing_by omega

/-- The value of digits that follow a value read so far. -/
def valueFrom (acc : ℕ) (ds : List ℕ) : ℕ := ds.foldl (fun acc d => 10 * acc + d) acc

/-- The value of a list of digits. -/
def value (ds : List ℕ) : ℕ := valueFrom 0 ds

theorem digits_of_lt {n : ℕ} (h : n < 10) : digits n = [n] := by
  rw [digits, if_pos h]

theorem digits_of_le {n : ℕ} (h : 10 ≤ n) : digits n = digits (n / 10) ++ [n % 10] := by
  rw [digits, if_neg (Nat.not_lt.mpr h)]

theorem valueFrom_append (acc : ℕ) (ds es : List ℕ) :
    valueFrom acc (ds ++ es) = valueFrom (valueFrom acc ds) es := List.foldl_append

/-- A numeral is read back as its number. -/
theorem value_digits (n : ℕ) : value (digits n) = n := by
  induction n using Nat.strong_induction_on with
  | h n ih =>
    by_cases hn : n < 10
    · rw [digits_of_lt hn]
      exact Nat.zero_add n
    · have hle : 10 ≤ n := Nat.not_lt.mp hn
      have htail := ih (n / 10) (by omega)
      rw [digits_of_le hle, value, valueFrom_append]
      rw [value] at htail
      rw [htail]
      exact Nat.div_add_mod n 10

/-- Every digit is below ten. -/
theorem digit_lt_ten (n : ℕ) : ∀ d ∈ digits n, d < 10 := by
  induction n using Nat.strong_induction_on with
  | h n ih =>
    intro d hd
    by_cases hn : n < 10
    · rw [digits_of_lt hn, List.mem_singleton] at hd
      rw [hd]
      exact hn
    · have hle : 10 ≤ n := Nat.not_lt.mp hn
      rw [digits_of_le hle, List.mem_append, List.mem_singleton] at hd
      rcases hd with hd | hd
      · exact ih (n / 10) (by omega) d hd
      · omega

theorem digits_ne_nil (n : ℕ) : digits n ≠ [] := by
  by_cases hn : n < 10
  · rw [digits_of_lt hn]
    exact List.cons_ne_nil _ _
  · rw [digits_of_le (Nat.not_lt.mp hn)]
    exact List.append_ne_nil_of_right_ne_nil _ (List.cons_ne_nil _ _)

/-- A number below a power of ten has at most as many digits as the exponent. -/
theorem digits_length_le {k n : ℕ} (h : n < 10 ^ (k + 1)) : (digits n).length ≤ k + 1 := by
  induction k generalizing n with
  | zero =>
    rw [digits_of_lt (by simpa using h)]
    exact le_rfl
  | succ k ih =>
    by_cases hn : n < 10
    · rw [digits_of_lt hn]
      exact Nat.le_add_left _ _
    · have hdiv : n / 10 < 10 ^ (k + 1) := by
        rw [pow_succ] at h
        exact Nat.div_lt_of_lt_mul (by omega)
      have htail := ih hdiv
      rw [digits_of_le (Nat.not_lt.mp hn), List.length_append, List.length_singleton]
      omega

theorem le_valueFrom (acc : ℕ) (ds : List ℕ) : acc ≤ valueFrom acc ds := by
  induction ds generalizing acc with
  | nil => exact le_rfl
  | cons d ds ih => exact le_trans (by omega) (ih (10 * acc + d))

/-- The first digits of a numeral have no greater value. -/
theorem value_le_append (ds es : List ℕ) : value ds ≤ value (ds ++ es) := by
  rw [value, value, valueFrom_append]
  exact le_valueFrom _ _

/-- The first digit of a positive number is positive. -/
theorem digits_head_pos {n : ℕ} (h : 0 < n) : ∀ d ∈ (digits n).head?, 0 < d := by
  induction n using Nat.strong_induction_on with
  | h n ih =>
    intro d hd
    by_cases hn : n < 10
    · rw [digits_of_lt hn, List.head?_singleton, Option.mem_some_iff] at hd
      rw [← hd]
      exact h
    · have hle : 10 ≤ n := Nat.not_lt.mp hn
      rw [digits_of_le hle, List.head?_append_of_ne_nil _ (digits_ne_nil _)] at hd
      exact ih (n / 10) (by omega) (by omega) d hd

/-- The first digits of a positive number have a positive value. -/
theorem value_pos {n : ℕ} (h : 0 < n) {ds es : List ℕ} (hne : ds ≠ [])
    (hds : ds ++ es = digits n) : 0 < value ds := by
  cases ds with
  | nil => exact absurd rfl hne
  | cons d ds =>
    have hd : 0 < d := digits_head_pos h d (by rw [← hds]; rfl)
    exact lt_of_lt_of_le (by omega) (le_valueFrom (10 * 0 + d) ds)

end HM4.Decimal
