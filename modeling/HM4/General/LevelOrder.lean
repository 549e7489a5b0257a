import Mathlib.Data.List.Flatten
import Mathlib.Algebra.BigOperators.Group.Finset.Basic
import Mathlib.Algebra.Order.BigOperators.Group.Finset
import Mathlib.Tactic.Ring

/-!
# Complete trees in level order

A complete tree of `k` branches is written level by level. A walk that visits
each level on its own from the root lists the same nodes as the recursion that
puts the root before the children of everything listed so far, and the `c`-th
child of the node at position `m` stands at position `k * m + c + 1`.
-/

namespace HM4.LevelOrder

variable {α : Type*} (children : α → List α)

/-- The nodes of one level below a node, from left to right. -/
def level : ℕ → α → List α
  | 0, a => [a]
  | n + 1, a => (children a).flatMap (level n)

/-- The nodes of the first levels of a tree, level by level. -/
def levelOrder (root : α) : ℕ → List α
  | 0 => []
  | n + 1 => root :: (levelOrder root n).flatMap children

/-- The next level consists of the children of a level. -/
theorem level_succ (n : ℕ) (a : α) :
    level children (n + 1) a = (level children n a).flatMap children := by
  induction n generalizing a with
  | zero => simp [level]
  | succ n ih =>
    have hrest : level children (n + 1) = fun b => (level children n b).flatMap children :=
      funext ih
    change (children a).flatMap (level children (n + 1)) =
      ((children a).flatMap (level children n)).flatMap children
    rw [hrest, List.flatMap_assoc]

/-- Listing one more level appends it. -/
theorem levelOrder_succ (root : α) (n : ℕ) :
    levelOrder children root (n + 1) = levelOrder children root n ++ level children n root := by
  induction n with
  | zero => rfl
  | succ n ih =>
    have hstep : levelOrder children root (n + 2) =
        root :: (levelOrder children root (n + 1)).flatMap children := rfl
    rw [hstep, ih, List.flatMap_append, ← level_succ, ← ih]
    rfl

section Branching

variable {children : α → List α} {k : ℕ} (hk : ∀ a, (children a).length = k)
include hk

theorem length_flatMap_children (l : List α) : (l.flatMap children).length = k * l.length := by
  induction l with
  | nil => rfl
  | cons a l ih =>
    rw [List.flatMap_cons, List.length_append, hk, ih, List.length_cons]
    ring

/-- A level of a tree of `k` branches has a power of `k` nodes. -/
theorem length_level (n : ℕ) (a : α) : (level children n a).length = k ^ n := by
  induction n with
  | zero => rfl
  | succ n ih => rw [level_succ, length_flatMap_children hk, ih, pow_succ, Nat.mul_comm]

/-- The number of nodes on the first levels. -/
theorem length_levelOrder (root : α) (n : ℕ) :
    (levelOrder children root n).length = ∑ i ∈ Finset.range n, k ^ i := by
  induction n with
  | zero => rfl
  | succ n ih =>
    rw [levelOrder_succ, List.length_append, ih, length_level hk, Finset.sum_range_succ]

/-- The children of the listed nodes stand in blocks of `k`. -/
theorem getElem?_flatMap_children (l : List α) {m c : ℕ} {a : α} (ha : l[m]? = some a)
    (hc : c < k) : (l.flatMap children)[k * m + c]? = (children a)[c]? := by
  induction l generalizing m with
  | nil => exact absurd ha (by simp)
  | cons b l ih =>
    rw [List.flatMap_cons]
    cases m with
    | zero =>
      have hb : b = a := by simpa using ha
      subst hb
      rw [Nat.mul_zero, Nat.zero_add, List.getElem?_append_left (by rw [hk]; exact hc)]
    | succ m =>
      have hle : (children b).length ≤ k * (m + 1) + c := by
        rw [hk, Nat.mul_succ]
        omega
      have hsub : k * (m + 1) + c - (children b).length = k * m + c := by
        rw [hk, Nat.mul_succ]
        omega
      rw [List.getElem?_append_right hle, hsub]
      exact ih (by simpa using ha)

/-- Where the `c`-th child of a listed node is itself listed. -/
theorem getElem?_child (root : α) (n : ℕ) {m c : ℕ} {a : α}
    (ha : (levelOrder children root n)[m]? = some a) (hc : c < k)
    (hlt : k * m + c + 1 < (levelOrder children root n).length) :
    (levelOrder children root n)[k * m + c + 1]? = (children a)[c]? := by
  cases n with
  | zero => exact absurd hlt (Nat.not_lt_zero _)
  | succ n =>
    have hlen : k * m + c < k * (levelOrder children root n).length := by
      have h : k * m + c + 1 <
          ((levelOrder children root n).flatMap children).length + 1 := hlt
      rw [length_flatMap_children hk] at h
      omega
    have hm : m < (levelOrder children root n).length := by
      by_contra hge
      have hmul := Nat.mul_le_mul_left k (not_lt.mp hge)
      omega
    have ha' : (levelOrder children root n)[m]? = some a := by
      rwa [levelOrder_succ, List.getElem?_append_left hm] at ha
    rw [levelOrder, List.getElem?_cons_succ]
    exact getElem?_flatMap_children hk _ ha' hc

end Branching

end HM4.LevelOrder
