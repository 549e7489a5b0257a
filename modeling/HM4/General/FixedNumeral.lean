import Mathlib.Data.List.Lex
import Mathlib.Order.Basic
import Mathlib.Tactic.Ring

/-!
# Numerals of a fixed width

All numerals have the same number of digits, the most significant first. Written with letters that
come in the order of their digits, they are ordered like their numbers.
-/

namespace HM4.FixedNumeral

variable (b : ℕ)

/-- The last digits of a number, the most significant first. -/
def digits : ℕ → ℕ → List ℕ
  | 0, _ => []
  | k + 1, n => n / b ^ k % b :: digits k n

/-- The number of some digits. -/
def value (ds : List ℕ) : ℕ := ds.foldl (fun v d => v * b + d) 0

variable {b} {k m n : ℕ}

theorem length_digits (k n : ℕ) : (digits b k n).length = k := by
  induction k with
  | zero => rfl
  | succ k ih => rw [digits, List.length_cons, ih]

/-- The digit at a place. -/
theorem getElem?_digits {j : ℕ} (h : j < k) :
    (digits b k n)[j]? = some (n / b ^ (k - 1 - j) % b) := by
  induction k generalizing j with
  | zero => exact absurd h (Nat.not_lt_zero j)
  | succ k ih =>
    cases j with
    | zero => rfl
    | succ j =>
      have hj : k + 1 - 1 - (j + 1) = k - 1 - j := by omega
      rw [digits, List.getElem?_cons_succ, ih (Nat.lt_of_succ_lt_succ h), hj]

theorem digit_lt (hb : 0 < b) : ∀ d ∈ digits b k n, d < b := by
  induction k with
  | zero => exact fun d hd => absurd hd List.not_mem_nil
  | succ k ih => exact List.forall_mem_cons.mpr ⟨Nat.mod_lt _ hb, ih⟩

/-- Digits are read back. -/
theorem value_digits (k n : ℕ) : value b (digits b k n) = n % b ^ k := by
  have hfold : ∀ v, (digits b k n).foldl (fun v d => v * b + d) v = v * b ^ k + n % b ^ k := by
    induction k with
    | zero => intro v; rw [digits, List.foldl_nil, pow_zero, Nat.mod_one]; omega
    | succ k ih =>
      intro v
      rw [digits, List.foldl_cons, ih, Nat.mod_pow_succ]
      ring
  rw [value, hfold, Nat.zero_mul, Nat.zero_add]

/-- Numerals are ordered like their numbers. -/
theorem map_digits_lt_iff {β : Type*} [LinearOrder β] {f : ℕ → β}
    (hf : ∀ d < b, ∀ e < b, f d < f e ↔ d < e) (hb : 0 < b) :
    (digits b k m).map f < (digits b k n).map f ↔ m % b ^ k < n % b ^ k := by
  induction k with
  | zero =>
    rw [pow_zero, Nat.mod_one, Nat.mod_one]
    exact iff_of_false (List.lt_irrefl []) (Nat.lt_irrefl 0)
  | succ k ih =>
    have hm := Nat.mod_lt (m / b ^ k) hb
    have hn := Nat.mod_lt (n / b ^ k) hb
    have hpow : 0 < b ^ k := Nat.pow_pos hb
    have hm' := Nat.mod_lt m hpow
    have hn' := Nat.mod_lt n hpow
    rw [digits, digits, List.map_cons, List.map_cons, List.cons_lt_cons_iff, ih, hf _ hm _ hn,
      Nat.mod_pow_succ, Nat.mod_pow_succ]
    generalize m % b ^ k = m' at hm' ⊢
    generalize n % b ^ k = n' at hn' ⊢
    rcases Nat.lt_trichotomy (m / b ^ k % b) (n / b ^ k % b) with hlt | heq | hgt
    · have hmul := Nat.mul_le_mul_left (b ^ k) (Nat.succ_le_of_lt hlt)
      rw [Nat.mul_succ] at hmul
      exact iff_of_true (.inl hlt) (by omega)
    · rw [heq]
      constructor
      · rintro (hlt | ⟨-, hlt⟩)
        · exact absurd hlt (Nat.lt_irrefl _)
        · omega
      · intro hlt
        exact .inr ⟨rfl, by omega⟩
    · have hmul := Nat.mul_le_mul_left (b ^ k) (Nat.succ_le_of_lt hgt)
      rw [Nat.mul_succ] at hmul
      refine iff_of_false ?_ (by omega)
      rintro (hlt | ⟨heq, -⟩)
      · exact Nat.lt_asymm hlt hgt
      · exact absurd heq (ne_of_gt ((hf _ hn _ hm).mpr hgt))

end HM4.FixedNumeral
