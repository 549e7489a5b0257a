import Mathlib.Data.List.Lex
import Mathlib.Order.Compare
import Mathlib.Order.BoundedOrder.Basic
import Mathlib.Order.Lattice

/-!
# Lexicographic order and common prefixes

Lists over a linear order carry the lexicographic order with a proper prefix
first. A common prefix can be dropped from a comparison, truncation is
monotone, and every list between two lists that share a prefix has that
prefix too. Padding with the least element is monotone as well, but it is not
injective: it only decides a comparison when the padded words differ.
-/

namespace HM4.LexPrefix

variable {α : Type*} [LinearOrder α]

/-- Three-way lexicographic comparison: the first difference decides, and a
proper prefix comes first. -/
def lex : List α → List α → Ordering
  | [], [] => .eq
  | [], _ :: _ => .lt
  | _ :: _, [] => .gt
  | a :: as, b :: bs => (cmp a b).then (lex as bs)

@[simp] theorem lex_nil_nil : lex ([] : List α) [] = .eq := rfl

@[simp] theorem lex_nil_cons (b : α) (bs : List α) : lex [] (b :: bs) = .lt := rfl

@[simp] theorem lex_cons_nil (a : α) (as : List α) : lex (a :: as) [] = .gt := rfl

theorem lex_cons_cons (a b : α) (as bs : List α) :
    lex (a :: as) (b :: bs) = (cmp a b).then (lex as bs) := rfl

/-- Equal first elements leave the comparison to the tails. -/
@[simp] theorem lex_cons_self (a : α) (as bs : List α) :
    lex (a :: as) (a :: bs) = lex as bs := by
  rw [lex_cons_cons, cmp_self_eq_eq, Ordering.eq_then]

/-- Different first elements decide the comparison. -/
theorem lex_cons_of_ne {a b : α} (h : a ≠ b) (as bs : List α) :
    lex (a :: as) (b :: bs) = cmp a b := by
  rw [lex_cons_cons]
  rcases lt_or_gt_of_ne h with hl | hg
  · rw [hl.cmp_eq_lt, Ordering.lt_then]
  · rw [hg.cmp_eq_gt, Ordering.gt_then]

/-- The three-way comparison decides the order of lists. -/
theorem lex_compares (as bs : List α) : (lex as bs).Compares as bs := by
  induction as generalizing bs with
  | nil =>
    cases bs with
    | nil => rfl
    | cons b bs => exact List.Lex.nil
  | cons a as ih =>
    cases bs with
    | nil => exact List.Lex.nil
    | cons b bs =>
      rcases lt_trichotomy a b with h | rfl | h
      · rw [lex_cons_of_ne h.ne, h.cmp_eq_lt]
        exact List.Lex.rel h
      · rw [lex_cons_self]
        have ht := ih bs
        cases hc : lex as bs with
        | lt => rw [hc] at ht; exact List.Lex.cons ht
        | eq => rw [hc] at ht; exact congrArg (a :: ·) ht
        | gt => rw [hc] at ht; exact List.Lex.cons ht
      · rw [lex_cons_of_ne h.ne', h.cmp_eq_gt]
        exact List.Lex.rel h

theorem lex_eq_lt {as bs : List α} : lex as bs = .lt ↔ as < bs :=
  (lex_compares as bs).eq_lt

theorem lex_eq_gt {as bs : List α} : lex as bs = .gt ↔ bs < as :=
  (lex_compares as bs).eq_gt

theorem lex_eq_eq {as bs : List α} : lex as bs = .eq ↔ as = bs :=
  (lex_compares as bs).eq_eq

@[simp] theorem lex_self (as : List α) : lex as as = .eq := lex_eq_eq.mpr rfl

theorem lex_ne_gt {as bs : List α} : lex as bs ≠ .gt ↔ as ≤ bs := by
  rw [Ne, lex_eq_gt, not_lt]

/-- A shared prefix does not take part in a comparison. -/
theorem lex_append_left (p as bs : List α) : lex (p ++ as) (p ++ bs) = lex as bs := by
  induction p with
  | nil => rfl
  | cons a p ih => rw [List.cons_append, List.cons_append, lex_cons_self, ih]

/-- Lists with the same first `n` elements compare as the rest of them does. -/
theorem lex_drop {n : ℕ} {as bs : List α} (h : as.take n = bs.take n) :
    lex as bs = lex (as.drop n) (bs.drop n) := by
  conv_lhs => rw [← List.take_append_drop n as, ← List.take_append_drop n bs, h]
  exact lex_append_left _ _ _

/-- The number of leading elements two lists share. -/
def lcp : List α → List α → ℕ
  | a :: as, b :: bs => if a = b then lcp as bs + 1 else 0
  | _, _ => 0

@[simp] theorem lcp_nil_left (bs : List α) : lcp [] bs = 0 := rfl

@[simp] theorem lcp_nil_right (as : List α) : lcp as [] = 0 := by cases as <;> rfl

theorem lcp_cons_cons (a b : α) (as bs : List α) :
    lcp (a :: as) (b :: bs) = if a = b then lcp as bs + 1 else 0 := rfl

theorem lcp_le_left (as bs : List α) : lcp as bs ≤ as.length := by
  induction as generalizing bs with
  | nil => simp
  | cons a as ih =>
    cases bs with
    | nil => simp
    | cons b bs =>
      rw [lcp_cons_cons]
      split
      · exact Nat.succ_le_succ (ih bs)
      · exact Nat.zero_le _

theorem lcp_comm (as bs : List α) : lcp as bs = lcp bs as := by
  induction as generalizing bs with
  | nil => cases bs <;> rfl
  | cons a as ih =>
    cases bs with
    | nil => rfl
    | cons b bs => simp only [lcp_cons_cons, ih bs, eq_comm]

theorem lcp_le_right (as bs : List α) : lcp as bs ≤ bs.length :=
  lcp_comm as bs ▸ lcp_le_left bs as

/-- The shared elements really are shared. -/
theorem take_lcp (as bs : List α) : as.take (lcp as bs) = bs.take (lcp as bs) := by
  induction as generalizing bs with
  | nil => cases bs <;> simp
  | cons a as ih =>
    cases bs with
    | nil => simp
    | cons b bs =>
      rw [lcp_cons_cons]
      split
      · next h => rw [List.take_succ_cons, List.take_succ_cons, ih bs, h]
      · simp

/-- A shared prefix of known length adds to the common prefix of the rest. -/
theorem lcp_drop {n : ℕ} {as bs : List α} (h : as.take n = bs.take n) (ha : n ≤ as.length)
    (hb : n ≤ bs.length) : lcp as bs = n + lcp (as.drop n) (bs.drop n) := by
  induction n generalizing as bs with
  | zero => simp
  | succ n ih =>
    cases as with
    | nil => simp at ha
    | cons a as =>
      cases bs with
      | nil => simp at hb
      | cons b bs =>
        simp only [List.take_succ_cons, List.cons.injEq] at h
        rw [lcp_cons_cons, if_pos h.1, List.drop_succ_cons, List.drop_succ_cons,
          ih h.2 (Nat.le_of_succ_le_succ ha) (Nat.le_of_succ_le_succ hb)]
        omega

/-- Lists agree up to any point before the end of their common prefix. -/
theorem take_eq_of_le_lcp {n : ℕ} {as bs : List α} (h : n ≤ lcp as bs) :
    as.take n = bs.take n := by
  have ht := congrArg (List.take n) (take_lcp as bs)
  rwa [List.take_take, List.take_take, min_eq_left h] at ht

/-- Agreement within both lists is counted by the common prefix. -/
theorem le_lcp_of_take_eq {n : ℕ} {as bs : List α} (h : as.take n = bs.take n)
    (ha : n ≤ as.length) (hb : n ≤ bs.length) : n ≤ lcp as bs := by
  rw [lcp_drop h ha hb]
  exact Nat.le_add_right n _

/-- Truncation bounds the common prefix. -/
theorem lcp_take (n : ℕ) (as bs : List α) :
    lcp (as.take n) (bs.take n) = min n (lcp as bs) := by
  induction n generalizing as bs with
  | zero => simp
  | succ n ih =>
    cases as with
    | nil => simp
    | cons a as =>
      cases bs with
      | nil => simp
      | cons b bs =>
        rw [List.take_succ_cons, List.take_succ_cons, lcp_cons_cons,
          lcp_cons_cons, ih]
        split
        · exact (Nat.add_min_add_right n _ 1).symm
        · simp

/-- Lists that agree as far as the shorter one goes compare as their lengths do. -/
theorem lex_eq_cmp_length {as bs : List α} (h : min as.length bs.length ≤ lcp as bs) :
    lex as bs = cmp as.length bs.length := by
  induction as generalizing bs with
  | nil =>
    cases bs with
    | nil => rfl
    | cons b bs => exact (Nat.succ_pos _).cmp_eq_lt.symm
  | cons a as ih =>
    cases bs with
    | nil => exact (Nat.succ_pos _).cmp_eq_gt.symm
    | cons b bs =>
      rw [lcp_cons_cons, List.length_cons, List.length_cons] at h
      split at h
      · next hab =>
        subst hab
        rw [lex_cons_self, ih (by omega), List.length_cons, List.length_cons]
        rcases lt_trichotomy as.length bs.length with hl | hl | hl
        · rw [hl.cmp_eq_lt, (Nat.succ_lt_succ hl).cmp_eq_lt]
        · rw [hl, cmp_self_eq_eq, cmp_self_eq_eq]
        · rw [hl.cmp_eq_gt, (Nat.succ_lt_succ hl).cmp_eq_gt]
      · omega

/-- Truncating both sides keeps the order. -/
theorem take_le_take {as bs : List α} (h : as ≤ bs) (n : ℕ) : as.take n ≤ bs.take n := by
  induction n generalizing as bs with
  | zero => simp
  | succ n ih =>
    cases as with
    | nil =>
      rw [List.take_nil]
      exact not_lt.mp (List.not_lt_nil _)
    | cons a as =>
      cases bs with
      | nil => exact absurd h (not_le.mpr List.Lex.nil)
      | cons b bs =>
        rw [List.take_succ_cons, List.take_succ_cons]
        rcases lt_or_eq_of_le h with hl | he
        · cases hl with
          | rel hab => exact le_of_lt (List.Lex.rel hab)
          | cons ht => exact List.cons_le_cons a (ih (le_of_lt ht))
        · cases he
          exact le_rfl

/-- A list between two lists with a common prefix starts with that prefix. -/
theorem take_eq_of_between {lo mid hi : List α} {n : ℕ} (hl : lo ≤ mid) (hh : mid ≤ hi)
    (h : lo.take n = hi.take n) : mid.take n = lo.take n :=
  le_antisymm (h ▸ take_le_take hh n) (take_le_take hl n)

/-- A prefix is not greater than the list it is a prefix of. -/
theorem le_of_isPrefix {as bs : List α} (h : as <+: bs) : as ≤ bs := by
  obtain ⟨t, rfl⟩ := h
  cases t with
  | nil => rw [List.append_nil]
  | cons b t =>
    apply le_of_lt
    have hc : lex (as ++ []) (as ++ b :: t) = .lt := by
      rw [lex_append_left, lex_nil_cons]
    rw [List.append_nil] at hc
    exact lex_eq_lt.mp hc

/-- A list that ends inside a shared prefix is not greater than the other. -/
theorem le_of_take_eq {as bs : List α} {n : ℕ} (h : as.take n = bs.take n)
    (hn : as.length ≤ n) : as ≤ bs := by
  apply le_of_isPrefix
  rw [← List.take_of_length_le hn, h]
  exact List.take_prefix n bs

section Padding

variable [OrderBot α]

/-- The first `n` elements, filled up with the least element. -/
def pad : ℕ → List α → List α
  | 0, _ => []
  | n + 1, [] => ⊥ :: pad n []
  | n + 1, a :: as => a :: pad n as

@[simp] theorem pad_zero (as : List α) : pad 0 as = [] := rfl

@[simp] theorem pad_nil (n : ℕ) : pad (n + 1) ([] : List α) = ⊥ :: pad n [] := rfl

@[simp] theorem pad_cons (n : ℕ) (a : α) (as : List α) : pad (n + 1) (a :: as) = a :: pad n as :=
  rfl

@[simp] theorem pad_length (n : ℕ) (as : List α) : (pad n as).length = n := by
  induction n generalizing as with
  | zero => rfl
  | succ n ih => cases as <;> simp [ih]

/-- A list that is long enough is only truncated. -/
theorem pad_eq_take {n : ℕ} {as : List α} (h : n ≤ as.length) : pad n as = as.take n := by
  induction n generalizing as with
  | zero => simp
  | succ n ih =>
    cases as with
    | nil => simp at h
    | cons a as => rw [pad_cons, List.take_succ_cons, ih (Nat.le_of_succ_le_succ h)]

/-- A list that needs padding is a prefix of the padded word. -/
theorem isPrefix_pad {n : ℕ} {as : List α} (h : as.length ≤ n) : as <+: pad n as := by
  induction n generalizing as with
  | zero =>
    rw [List.length_eq_zero_iff.mp (Nat.le_zero.mp h)]
    exact List.nil_prefix
  | succ n ih =>
    cases as with
    | nil => exact List.nil_prefix
    | cons a as =>
      rw [pad_cons, List.prefix_cons_inj]
      exact ih (Nat.le_of_succ_le_succ h)

/-- Where the padded words differ they decide the comparison. -/
theorem lex_pad {n : ℕ} {as bs : List α} (h : pad n as ≠ pad n bs) :
    lex (pad n as) (pad n bs) = lex as bs := by
  induction n generalizing as bs with
  | zero => exact absurd rfl h
  | succ n ih =>
    cases as with
    | nil =>
      cases bs with
      | nil => exact absurd rfl h
      | cons b bs =>
        rw [pad_nil, pad_cons, lex_nil_cons]
        rcases eq_or_lt_of_le (bot_le : ⊥ ≤ b) with rfl | hb
        · have hne : pad n [] ≠ pad n bs := by simpa using h
          rw [lex_cons_self, ih hne]
          cases bs with
          | nil => exact absurd rfl hne
          | cons c cs => exact lex_nil_cons c cs
        · rw [lex_cons_of_ne hb.ne, hb.cmp_eq_lt]
    | cons a as =>
      cases bs with
      | nil =>
        rw [pad_cons, pad_nil, lex_cons_nil]
        rcases eq_or_lt_of_le (bot_le : ⊥ ≤ a) with rfl | ha
        · have hne : pad n as ≠ pad n [] := by simpa using h
          rw [lex_cons_self, ih hne]
          cases as with
          | nil => exact absurd rfl hne
          | cons c cs => exact lex_cons_nil c cs
        · rw [lex_cons_of_ne ha.ne', ha.cmp_eq_gt]
      | cons b bs =>
        rw [pad_cons, pad_cons]
        by_cases hab : a = b
        · subst hab
          rw [lex_cons_self, lex_cons_self]
          exact ih (by simpa using h)
        · rw [lex_cons_of_ne hab, lex_cons_of_ne hab]

/-- A word that is shorter than the pad ends in the least element. -/
theorem pad_getLast? {n : ℕ} {as : List α} (h : as.length < n) :
    (pad n as).getLast? = some ⊥ := by
  induction n generalizing as with
  | zero => exact absurd h (Nat.not_lt_zero _)
  | succ n ih =>
    cases n with
    | zero =>
      rw [List.length_eq_zero_iff.mp (Nat.lt_one_iff.mp h)]
      rfl
    | succ n =>
      cases as with
      | nil =>
        have hz : (pad (n + 1) ([] : List α)).getLast? = some ⊥ := ih (Nat.succ_pos n)
        rw [pad_nil, List.getLast?_cons, hz]
        rfl
      | cons a as =>
        have hz := ih (Nat.lt_of_succ_lt_succ h)
        rw [pad_cons, List.getLast?_cons, hz]
        rfl

end Padding

end HM4.LexPrefix
