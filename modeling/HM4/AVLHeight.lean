import HM4.AVLContents
import Mathlib.Data.Nat.Fib.Basic

/-!
# How deep the AVL list gets

A balanced tree of some height has at least as many nodes as the sparsest one of that
height, whose numbers grow as those of Fibonacci do. So the loops of a lookup, an insert
and an erase, which go down one way, end after logarithmically many steps.
-/

namespace HM4.AVLHeight

open Pairs MemList LinkedTree LinkedTree.LTree AVLList AVLBalance AVLSearch AVLContents

/-- The number of nodes of a balanced tree grows as the numbers of Fibonacci. -/
theorem fib_height_le {t : LTree Item} (h : Avl t) :
    Nat.fib (t.height + 2) ≤ (pairsOf t).length + 1 := by
  induction t with
  | nil => simp [height, pairsOf_nil]
  | node i v l r ihl ihr =>
    obtain ⟨hbalance, hlo, hhi, hl, hr⟩ := h
    have hleft := ihl hl
    have hright := ihr hr
    have hlen : (pairsOf (node i v l r)).length = (pairsOf l).length + 1 + (pairsOf r).length := by
      rw [pairsOf_node, List.length_append, List.length_cons]
      omega
    have hfib : Nat.fib (max l.height r.height + 1 + 2) =
        Nat.fib (max l.height r.height + 1) + Nat.fib (max l.height r.height + 2) := Nat.fib_add_two
    rw [height, hfib, hlen]
    -- the higher subtree counts with its height, the other one with one less
    rcases le_total l.height r.height with hle | hle
    · have hlow : Nat.fib (r.height + 1) ≤ Nat.fib (l.height + 2) := Nat.fib_mono (by omega)
      rw [max_eq_right hle]
      omega
    · have hlow : Nat.fib (l.height + 1) ≤ Nat.fib (r.height + 2) := Nat.fib_mono (by omega)
      rw [max_eq_left hle]
      omega

/-- Less than `2 ^ 32` pairs stand in a tree of at most 45 levels. -/
theorem height_le {t : LTree Item} (h : Avl t) (hlen : (pairsOf t).length < 2 ^ 32) :
    t.height ≤ 45 := by
  by_contra hlarge
  have hfib := fib_height_le h
  have hmono : Nat.fib 48 ≤ Nat.fib (t.height + 2) := Nat.fib_mono (by omega)
  have h48 : Nat.fib 48 = 4807526976 := by decide +kernel
  omega

/-- In every run the height of the tree is bounded by the logarithm of the number of pairs, and
the loops of a lookup and of an insert end within that height, whatever key they look for. -/
theorem run_logarithmic {σ : Type} (allocator : Allocator σ) (alloc : σ) (ops : List Op) :
    ∃ list m t, Together (fun op list => step allocator list op) (answers allocator)
        (AVL.empty alloc) [] ops list m ∧ list.links.Stands t ∧ pairsOf t = m ∧
      Nat.fib (t.height + 2) ≤ m.length + 1 ∧ (m.length < 2 ^ 32 → t.height ≤ 45) ∧
      ∀ key ≠ [], (∃ x, search list.links key (t.height + 1) ⟨0, 0⟩ list.links.root = some x ∧
          Searched key t x) ∧
        ∀ root, list.links.root = some root →
          ∃ place, locate list.links key (t.height + 1) ⟨0, 0⟩ root = some place := by
  have hstep : ∀ op (list : AVL σ) m, Represents list m → ∃ r list' m' a,
      answers allocator list op a ∧ step allocator list op = some (r, list') ∧
      plainStep op a m = (r, m') ∧ Represents list' m' := by
    rintro op list m ⟨t, hv, rfl⟩
    obtain ⟨r, list', t', a, ha, hlist, hplain, hv'⟩ := step_spec allocator op hv
    exact ⟨r, list', pairsOf t', a, ha, hlist, hplain, t', hv', rfl⟩
  obtain ⟨list, m, hrun, t, hv, rfl⟩ :=
    Together.exists_of_step hstep ops ⟨nil, valid_empty alloc, rfl⟩
  have hroot : list.links.root = t.addr := hv.stands.root_eq
  refine ⟨list, pairsOf t, t, hrun, hv.stands, rfl, fib_height_le hv.avl, height_le hv.avl,
    fun key hkey => ⟨?_, fun root hsome => ?_⟩⟩
  · rw [hroot]
    exact search_spec (c := []) hv.stands (between_root hkey hv.fits.sorted) (Nat.lt_succ_self _)
  · obtain ⟨place, e, -⟩ := locate_spec (c := []) hv.stands
      (between_root hkey hv.fits.sorted) (hroot ▸ hsome) (Nat.lt_succ_self _)
    exact ⟨place, e⟩

end HM4.AVLHeight
