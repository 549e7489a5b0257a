import Mathlib.Data.Fintype.BigOperators
import Mathlib.Data.Fintype.Fin
import Mathlib.Data.Fin.Tuple.Basic

/-!
# Sequences of draws

A sequence of draws has a number from a range of its own at each of its places. All sequences
count alike. With one more draw a property is counted by the last draws that each shorter sequence
leaves to it.
-/

namespace HM4.Draws

/-- The sequences of numbers from these ranges. -/
abbrev Sequence (range : ℕ → ℕ) (m : ℕ) : Type := (j : Fin m) → Fin (range j)

variable {range : ℕ → ℕ} {m : ℕ}

/-- A sequence with one more draw. -/
def snoc (d : Sequence range m) (i : Fin (range m)) : Sequence range (m + 1) :=
  Fin.snocEquiv (fun j : Fin (m + 1) => Fin (range j)) (i, d)

theorem snoc_castSucc (d : Sequence range m) (i : Fin (range m)) (j : Fin m) :
    snoc d i j.castSucc = d j :=
  Fin.snoc_castSucc (α := fun j : Fin (m + 1) => Fin (range j)) i d j

theorem snoc_last (d : Sequence range m) (i : Fin (range m)) : snoc d i (Fin.last m) = i :=
  Fin.snoc_last (α := fun j : Fin (m + 1) => Fin (range j)) i d

/-- The number of all sequences. -/
def total (range : ℕ → ℕ) (m : ℕ) : ℕ := Fintype.card (Sequence range m)

/-- The number of sequences with a property. -/
def countWith (P : Sequence range m → Prop) [DecidablePred P] : ℕ := (Finset.univ.filter P).card

/-- The number of last draws with a property. -/
def lastCount (P : Fin (range m) → Prop) [DecidablePred P] : ℕ := (Finset.univ.filter P).card

theorem total_zero : total range 0 = 1 := Fintype.card_unique

theorem total_succ : total range (m + 1) = total range m * range m := by
  have hequiv := Fintype.card_congr (Fin.snocEquiv fun j : Fin (m + 1) => Fin (range j))
  rw [Fintype.card_prod, Fintype.card_fin, Nat.mul_comm] at hequiv
  exact hequiv.symm

theorem total_pos (h : ∀ j, 0 < range j) : 0 < total range m := by
  induction m with
  | zero => rw [total_zero]; exact Nat.one_pos
  | succ m ih => rw [total_succ]; exact Nat.mul_pos ih (h m)

theorem countWith_true : countWith (fun _ : Sequence range m => True) = total range m := by
  rw [countWith, Finset.filter_true, Finset.card_univ, total]

/-- Every shorter sequence counts with its last draws. -/
theorem countWith_succ (P : Sequence range (m + 1) → Prop) [DecidablePred P] :
    countWith P = ∑ d : Sequence range m, lastCount fun i => P (snoc d i) := by
  have hsum := Fintype.sum_equiv (Fin.snocEquiv fun j : Fin (m + 1) => Fin (range j))
    (fun x => if P (snoc x.2 x.1) then 1 else 0) (fun d => if P d then 1 else 0) fun _ => rfl
  rw [countWith, Finset.card_filter, ← hsum, Fintype.sum_prod_type_right]
  refine Finset.sum_congr rfl fun d _ => ?_
  rw [lastCount, Finset.card_filter]
  rfl

/-- If the shorter sequences with one property have the same number of last draws, and the others
none, then the property is counted by this number. -/
theorem countWith_succ_of {P : Sequence range (m + 1) → Prop} [DecidablePred P] {Q : Sequence range m → Prop}
    [DecidablePred Q] {c : ℕ}
    (h : ∀ d, (lastCount fun i => P (snoc d i)) = if Q d then c else 0) :
    countWith P = countWith Q * c := by
  rw [countWith_succ, Finset.sum_congr rfl fun d _ => h d, ← Finset.sum_filter,
    Finset.sum_const_nat fun _ _ => rfl, countWith]

end HM4.Draws
