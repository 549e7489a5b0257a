import Mathlib.Data.Nat.Bitwise

/-!
# Bit-linear maps of words

A map of words that takes disjoint words apart, whether it joins them by a disjunction or by
an exclusive one, is known from the words with one bit.
-/

namespace HM4.BitLinear

open BitVec

variable {V W : ℕ}

/-- Bits that two disjoint words do not both set are set by their sum if one of them sets
them. -/
def Linear (f : BitVec V → BitVec W) : Prop :=
  ∀ x y, (∀ i, (x.getLsbD i && y.getLsbD i) = false) → ∀ j,
    ((f x).getLsbD j && (f y).getLsbD j) = false →
      (f (x ||| y)).getLsbD j = ((f x).getLsbD j || (f y).getLsbD j)

theorem linear_of_or {f : BitVec V → BitVec W} (h : ∀ x y, f (x ||| y) = f x ||| f y) :
    Linear f := fun x y _ j _ => by rw [h, getLsbD_or]

theorem linear_of_xor {f : BitVec V → BitVec W} (h : ∀ x y, f (x ^^^ y) = f x ^^^ f y) :
    Linear f := fun x y hxy j hj => by
  have hor : x ||| y = x ^^^ y := by
    refine eq_of_getLsbD_eq fun i _ => ?_
    have hi := hxy i
    rw [getLsbD_or, getLsbD_xor]
    revert hi
    cases x.getLsbD i <;> cases y.getLsbD i <;> simp
  rw [hor, h, getLsbD_xor]
  revert hj
  cases (f x).getLsbD j <;> cases (f y).getLsbD j <;> simp

/-- What a word with one bit contributes decides. -/
theorem Linear.getLsbD {f : BitVec V → BitVec W} (hf : Linear f) (h0 : f 0#V = 0#W)
    (place : ℕ → Option ℕ)
    (hone : ∀ i < V, ∀ j, (f (twoPow V i)).getLsbD j = decide (place j = some i))
    (x : BitVec V) (j : ℕ) :
    (f x).getLsbD j = ((place j).elim false fun i => x.getLsbD i) := by
  have hstep : ∀ k, ∀ x : BitVec V, (∀ i, k ≤ i → x.getLsbD i = false) →
      ∀ j, (f x).getLsbD j = ((place j).elim false fun i => x.getLsbD i) := by
    intro k
    induction k with
    | zero =>
      intro x hx j
      have hzero : x = 0#V := eq_of_getLsbD_eq fun i _ => by
        rw [hx i (Nat.zero_le i), getLsbD_zero]
      rw [hzero, h0, getLsbD_zero]
      cases place j with
      | none => rfl
      | some i => exact getLsbD_zero.symm
    | succ k ih =>
      intro x hx j
      cases hk : x.getLsbD k with
      | false =>
        refine ih x (fun i hi => ?_) j
        rcases Nat.eq_or_lt_of_le hi with rfl | hi
        · exact hk
        · exact hx i hi
      | true =>
        have hkV : k < V := lt_of_getLsbD hk
        -- the word without its highest bit
        have hbits : ∀ i, (x &&& ~~~twoPow V k).getLsbD i = (x.getLsbD i && decide (i ≠ k)) := by
          intro i
          rw [getLsbD_and, getLsbD_not, getLsbD_twoPow, decide_eq_true hkV, Bool.true_and]
          by_cases hi : i < V
          · rw [decide_eq_true hi, Bool.true_and]
            by_cases hik : k = i
            · rw [decide_eq_true hik, decide_eq_false (not_not.mpr hik.symm), Bool.not_true]
            · rw [decide_eq_false hik, decide_eq_true (Ne.symm hik), Bool.not_false]
          · rw [getLsbD_of_ge x i (Nat.not_lt.mp hi), Bool.false_and, Bool.false_and]
        have hone' : ∀ i, (twoPow V k).getLsbD i = decide (k = i) := fun i => by
          rw [getLsbD_twoPow, decide_eq_true hkV, Bool.true_and]
        have hsum : x = (x &&& ~~~twoPow V k) ||| twoPow V k := by
          refine eq_of_getLsbD_eq fun i _ => ?_
          rw [getLsbD_or, hbits, hone']
          by_cases hik : k = i
          · rw [decide_eq_true hik, Bool.or_true, ← hik]
            exact hk
          · rw [decide_eq_false hik, Bool.or_false, decide_eq_true (Ne.symm hik), Bool.and_true]
        have hdisj : ∀ i, ((x &&& ~~~twoPow V k).getLsbD i && (twoPow V k).getLsbD i) = false := by
          intro i
          rw [hbits, hone']
          by_cases hik : k = i
          · rw [decide_eq_false (not_not.mpr hik.symm), Bool.and_false, Bool.false_and]
          · rw [decide_eq_false hik, Bool.and_false]
        have hrest := ih (x &&& ~~~twoPow V k) (fun i hi => by
          rw [hbits]
          rcases Nat.eq_or_lt_of_le hi with rfl | hi
          · rw [decide_eq_false (not_not.mpr rfl), Bool.and_false]
          · rw [hx i hi, Bool.false_and]) j
        have hlin := hf _ _ hdisj j
        rw [← hsum, hrest, hone k hkV] at hlin
        cases hplace : place j with
        | none =>
          rw [hplace] at hlin
          exact hlin rfl
        | some i =>
          rw [hplace, Option.elim_some, hbits] at hlin
          by_cases hik : i = k
          · subst hik
            rw [decide_eq_false (not_not.mpr rfl), Bool.and_false] at hlin
            rw [hlin rfl, Option.elim_some, hk, Bool.false_or]
            exact decide_eq_true rfl
          · rw [decide_eq_false (fun hc => hik (Option.some.inj hc)), Bool.and_false,
              decide_eq_true hik, Bool.and_true, Bool.or_false] at hlin
            exact hlin rfl
  exact hstep V x (fun i hi => getLsbD_of_ge x i hi) j

end HM4.BitLinear
