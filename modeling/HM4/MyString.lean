import HM4.Bytes

/-!
# Comparing and matching whole strings

`compare` looks at the first characters before it calls `memcmp`. The first
characters are plain `char` values and the rest are octets, so `compare` is the
lexicographic order of the words whose first letter is signed. It is a total
order, and it is the order of octets only between keys of one half.
-/

namespace HM4.MyString

open LexPrefix Bytes

/-- `memcmp`: the first different octet among the first `n` decides. -/
def memcmp : Key → Key → ℕ → Ordering
  | a :: as, b :: bs, n + 1 => if a = b then memcmp as bs n else cmp a b
  | _, _, _ => .eq

/-- `compare`: first characters, then `memcmp`, then sizes. -/
def compare (s1 s2 : Key) : Ordering :=
  if s1.length ≠ 0 ∧ s2.length ≠ 0 ∧ byteAt s1 0 ≠ byteAt s2 0 then
    cmp (charValue (byteAt s1 0)) (charValue (byteAt s2 0))
  else
    let minSize := min s1.length s2.length
    if minSize ≠ 0 ∧ memcmp s1 s2 minSize ≠ .eq then
      memcmp s1 s2 minSize
    else
      cmp s1.length s2.length

/-- `equals`: sizes, then `memcmp`. -/
def equals (s1 s2 : Key) : Bool :=
  s1.length == s2.length && memcmp s1 s2 s1.length == .eq

theorem memcmp_cons_cons (a b : Byte) (as bs : Key) (n : ℕ) :
    memcmp (a :: as) (b :: bs) (n + 1) = if a = b then memcmp as bs n else cmp a b := rfl

theorem memcmp_zero (a b : Key) : memcmp a b 0 = .eq := by
  cases a <;> cases b <;> rfl

/-- `memcmp` over the shorter length and the lengths give the order of octets. -/
theorem memcmp_then_length (a b : Key) :
    (memcmp a b (min a.length b.length)).then (cmp a.length b.length) = lex a b := by
  induction a generalizing b with
  | nil =>
    cases b with
    | nil => rfl
    | cons y b => exact (Nat.succ_pos _).cmp_eq_lt
  | cons x a ih =>
    cases b with
    | nil => exact (Nat.succ_pos _).cmp_eq_gt
    | cons y b =>
      rw [List.length_cons, List.length_cons, Nat.add_min_add_right, memcmp_cons_cons]
      by_cases hxy : x = y
      · subst hxy
        rw [if_pos rfl, lex_cons_self, ← ih b]
        congr 1
        rcases lt_trichotomy a.length b.length with h | h | h
        · rw [h.cmp_eq_lt, (Nat.succ_lt_succ h).cmp_eq_lt]
        · rw [h, cmp_self_eq_eq, cmp_self_eq_eq]
        · rw [h.cmp_eq_gt, (Nat.succ_lt_succ h).cmp_eq_gt]
      · rw [if_neg hxy, lex_cons_of_ne hxy]
        rcases lt_or_gt_of_ne hxy with h | h
        · rw [h.cmp_eq_lt, Ordering.lt_then]
        · rw [h.cmp_eq_gt, Ordering.gt_then]

/-- `equals` is equality. -/
theorem equals_iff (a b : Key) : equals a b = true ↔ a = b := by
  unfold equals
  by_cases hl : a.length = b.length
  · have h := memcmp_then_length a b
    rw [hl, min_self, cmp_self_eq_eq, Ordering.then_eq] at h
    simp only [hl, beq_self_eq_true, Bool.true_and, beq_iff_eq, h]
    exact lex_eq_eq
  · have hab : a ≠ b := fun h => hl (congrArg List.length h)
    simp [hl, hab]

/-- The letters that `compare` looks at: a signed one, then octets. -/
def signedWord : Key → List ℤ
  | [] => []
  | b :: bs => charValue b :: bs.map (fun c => (c.val : ℤ))

theorem charValue_injective {a b : Byte} (h : charValue a = charValue b) : a = b := by
  have ha := a.isLt
  have hb := b.isLt
  unfold charValue at h
  apply Fin.ext
  split at h <;> split at h <;> omega

theorem signedWord_injective : Function.Injective signedWord := by
  intro a b h
  cases a with
  | nil =>
    cases b with
    | nil => rfl
    | cons y b => exact absurd h.symm (List.cons_ne_nil _ _)
  | cons x a =>
    cases b with
    | nil => exact absurd h (List.cons_ne_nil _ _)
    | cons y b =>
      simp only [signedWord, List.cons.injEq] at h
      have ht : a = b := by
        refine List.map_injective_iff.mpr ?_ h.2
        intro c d hcd
        exact Fin.ext (Int.ofNat.inj hcd)
      rw [charValue_injective h.1, ht]

/-- Octets keep their order as letters. -/
theorem lex_map_val (a b : Key) :
    lex (a.map (fun c => (c.val : ℤ))) (b.map (fun c => (c.val : ℤ))) = lex a b := by
  induction a generalizing b with
  | nil => cases b <;> rfl
  | cons x a ih =>
    cases b with
    | nil => rfl
    | cons y b =>
      rw [List.map_cons, List.map_cons]
      rcases lt_trichotomy x y with h | rfl | h
      · have hv : (x.val : ℤ) < y.val := Int.ofNat_lt.mpr h
        rw [lex_cons_of_ne h.ne, lex_cons_of_ne hv.ne, h.cmp_eq_lt, hv.cmp_eq_lt]
      · rw [lex_cons_self, lex_cons_self, ih]
      · have hv : (y.val : ℤ) < x.val := Int.ofNat_lt.mpr h
        rw [lex_cons_of_ne h.ne', lex_cons_of_ne hv.ne', h.cmp_eq_gt, hv.cmp_eq_gt]

/-- After the first-character check `compare` is the order of octets. -/
theorem compare_of_head_eq {a b : Key}
    (h : ¬ (a.length ≠ 0 ∧ b.length ≠ 0 ∧ byteAt a 0 ≠ byteAt b 0)) :
    compare a b = lex a b := by
  rw [compare, if_neg h, ← memcmp_then_length]
  dsimp only
  cases hm : memcmp a b (min a.length b.length) with
  | eq => rw [if_neg (fun hc => hc.2 rfl), Ordering.eq_then]
  | lt =>
    have h0 : min a.length b.length ≠ 0 := by
      intro hz
      rw [hz, memcmp_zero] at hm
      exact Ordering.noConfusion hm
    rw [if_pos ⟨h0, Ordering.noConfusion⟩, Ordering.lt_then]
  | gt =>
    have h0 : min a.length b.length ≠ 0 := by
      intro hz
      rw [hz, memcmp_zero] at hm
      exact Ordering.noConfusion hm
    rw [if_pos ⟨h0, Ordering.noConfusion⟩, Ordering.gt_then]

/-- Equal first characters leave `compare` to the octets. -/
theorem compare_cons_self (x : Byte) (a b : Key) : compare (x :: a) (x :: b) = lex a b := by
  have h : ¬ ((x :: a).length ≠ 0 ∧ (x :: b).length ≠ 0 ∧
      byteAt (x :: a) 0 ≠ byteAt (x :: b) 0) := fun h => h.2.2 rfl
  rw [compare_of_head_eq h, lex_cons_self]

/-- Different first characters decide `compare` by their `char` values. -/
theorem compare_cons_of_ne {x y : Byte} (h : x ≠ y) (a b : Key) :
    compare (x :: a) (y :: b) = cmp (charValue x) (charValue y) :=
  if_pos ⟨Nat.succ_ne_zero _, Nat.succ_ne_zero _, h⟩

/-- `compare` is the lexicographic order of the signed words. -/
theorem compare_eq_lex_signedWord (a b : Key) :
    compare a b = lex (signedWord a) (signedWord b) := by
  cases a with
  | nil =>
    rw [compare_of_head_eq (fun h => h.1 rfl)]
    cases b <;> rfl
  | cons x a =>
    cases b with
    | nil =>
      rw [compare_of_head_eq (fun h => h.2.1 rfl)]
      rfl
    | cons y b =>
      rw [signedWord, signedWord]
      by_cases hxy : x = y
      · subst hxy
        rw [compare_cons_self, lex_cons_self, lex_map_val]
      · have hc : charValue x ≠ charValue y := fun h => hxy (charValue_injective h)
        rw [compare_cons_of_ne hxy, lex_cons_of_ne hc]

/-- The first octets, where both keys have one, have the same sign. -/
def SameHalfHead (a b : Key) : Prop :=
  a ≠ [] → b ≠ [] → SameHalf (byteAt a 0) (byteAt b 0)

instance (a b : Key) : Decidable (SameHalfHead a b) :=
  inferInstanceAs (Decidable (a ≠ [] → b ≠ [] → SameHalf (byteAt a 0) (byteAt b 0)))

/-- `compare` is the order of octets exactly between keys of one half. -/
theorem compare_eq_lex_iff (a b : Key) : compare a b = lex a b ↔ SameHalfHead a b := by
  unfold SameHalfHead
  cases a with
  | nil =>
    rw [compare_of_head_eq (fun h => h.1 rfl)]
    simp
  | cons x a =>
    cases b with
    | nil =>
      rw [compare_of_head_eq (fun h => h.2.1 rfl)]
      simp
    | cons y b =>
      have hx : byteAt (x :: a) 0 = x := rfl
      have hy : byteAt (y :: b) 0 = y := rfl
      simp only [hx, hy, ne_eq, List.cons_ne_nil, not_false_eq_true, forall_const]
      by_cases hxy : x = y
      · subst hxy
        rw [compare_cons_self, lex_cons_self]
        exact iff_of_true rfl (sameHalf_refl x)
      · rw [compare_cons_of_ne hxy, lex_cons_of_ne hxy]
        exact cmp_charValue x y

/-- `compare` finds two keys equal only if they are. -/
theorem compare_eq_eq {a b : Key} : compare a b = .eq ↔ a = b := by
  rw [compare_eq_lex_signedWord, lex_eq_eq]
  exact signedWord_injective.eq_iff

end HM4.MyString
