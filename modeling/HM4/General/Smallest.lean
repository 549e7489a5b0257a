import HM4.General.TopHeap
import Mathlib.Order.Lattice

/-!
# The smallest values of a list

The answer to a search for the smallest values of a list under a linear order, what a bounded heap
makes of a list, and what the answers for the parts of a list say of the whole list.
-/

namespace HM4.TopHeap

open BinaryHeap

variable {α : Type*} [LinearOrder α]

/-- `k` values of a list in their order, or all of them, with no smaller value left out. -/
structure Smallest (k : ℕ) (xs shown : List α) : Prop where
  length : shown.length = min k xs.length
  sorted : shown.Pairwise (· ≤ ·)
  rest : ∃ rest, xs.Perm (shown ++ rest) ∧ ∀ a ∈ shown, ∀ b ∈ rest, a ≤ b

/-- The comparator of a linear order. -/
def lessThan (a b : α) : Bool := decide (a < b)

theorem strictWeak_lessThan : StrictWeak (lessThan (α := α)) where
  asymm h := decide_eq_false (of_decide_eq_true h).asymm
  trans hab hbc := decide_eq_false
    (not_lt.mpr ((not_lt.mp (of_decide_eq_false hbc)).trans (not_lt.mp (of_decide_eq_false hab))))

/-- A sorted heap of a list holds its smallest values. -/
theorem smallest_sortHeap {k : ℕ} (hk : 0 < k) (xs : List α) :
    Smallest k xs (sortHeap lessThan (xs.foldl (offer lessThan k) #[])) := by
  obtain ⟨rest, hperm, hlength, hsorted, hrest⟩ := sortHeap_foldl strictWeak_lessThan
    (fun a => decide_eq_false (lt_irrefl a)) hk xs
  have hle : ∀ {a b : α}, lessThan b a = false → a ≤ b := fun h => not_lt.mp (of_decide_eq_false h)
  exact ⟨hlength, hsorted.imp hle, rest, hperm, fun a ha b hb => hle (hrest a ha b hb)⟩

namespace Smallest

variable {k : ℕ} {xs shown : List α}

theorem subset (h : Smallest k xs shown) {a : α} (ha : a ∈ shown) : a ∈ xs := by
  obtain ⟨rest, hrest, -⟩ := h.rest
  exact hrest.mem_iff.mpr (List.mem_append_left rest ha)

/-- A value that is left out has `k` smaller ones. -/
theorem le_length_filter (h : Smallest k xs shown) {x : α} (hx : x ∈ xs) (hout : x ∉ shown) :
    k ≤ (xs.filter fun a => decide (a < x)).length := by
  obtain ⟨rest, hrest, hle⟩ := h.rest
  have hmem : x ∈ rest := (List.mem_append.mp (hrest.mem_iff.mp hx)).resolve_left hout
  have hall : shown.filter (fun a => decide (a < x)) = shown := List.filter_eq_self.mpr fun a ha =>
    decide_eq_true (lt_of_le_of_ne (hle a ha x hmem) fun heq => hout (heq ▸ ha))
  have hfull : shown.length = k := by
    have hlength := h.length
    have htotal := hrest.length_eq
    rw [List.length_append] at htotal
    have hpos := List.length_pos_of_mem hmem
    omega
  rw [(hrest.filter _).length_eq, List.filter_append, List.length_append, hall, hfull]
  exact Nat.le_add_right _ _

end Smallest

/-- A value that has fewer than `k` smaller ones in the whole list is in the answer for one of its
parts. -/
theorem mem_of_parts {k : ℕ} {parts : List (List α × List α)}
    (h : ∀ part ∈ parts, Smallest k part.1 part.2) {x : α} (hx : x ∈ parts.flatMap Prod.fst)
    (hsmall : ((parts.flatMap Prod.fst).filter fun a => decide (a < x)).length < k) :
    x ∈ parts.flatMap Prod.snd := by
  obtain ⟨part, hpart, hmem⟩ := List.mem_flatMap.mp hx
  refine List.mem_flatMap.mpr ⟨part, hpart, ?_⟩
  by_contra hout
  have hle := (h part hpart).le_length_filter hmem hout
  have hsub : (part.1.filter fun a => decide (a < x)).length ≤
      ((parts.flatMap Prod.fst).filter fun a => decide (a < x)).length := by
    refine List.Sublist.length_le (List.Sublist.filter _ ?_)
    rw [List.flatMap]
    exact List.sublist_flatten_of_mem (List.mem_map_of_mem hpart)
  omega

end HM4.TopHeap
