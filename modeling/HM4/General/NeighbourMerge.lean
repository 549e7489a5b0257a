import Mathlib.Data.List.Basic
import Mathlib.Algebra.BigOperators.Group.List.Basic
import Mathlib.Algebra.GroupWithZero.Nat
import Mathlib.Algebra.Order.Group.Nat

/-!
# Merging neighbours

A pass over a list merges the entry that it holds with the next one as long as they may be merged.
It merges nothing exactly if no two neighbours of the list may be merged. A merge that keeps
weights and stays between its entries keeps the total weight and the order of the list.
-/

namespace HM4.NeighbourMerge

variable {α : Type*} (ok : α → α → Bool) (merge : α → α → α)

/-- A pass that holds an entry. -/
def pass : α → List α → List α
  | current, [] => [current]
  | current, x :: l =>
    if ok current x = true then pass (merge current x) l else current :: pass x l

attribute [local simp] pass

/-- Some two neighbours of a list are related. -/
def SomeNeighbours (r : α → α → Prop) (l : List α) : Prop :=
  ∃ l1 x y l2, l = l1 ++ x :: y :: l2 ∧ r x y

variable {ok merge} {r : α → α → Prop}

theorem someNeighbours_cons_iff {x y : α} {l : List α} :
    SomeNeighbours r (x :: y :: l) ↔ r x y ∨ SomeNeighbours r (y :: l) := by
  constructor
  · rintro ⟨l1, a, b, l2, heq, hr⟩
    cases l1 with
    | nil =>
      rw [List.nil_append] at heq
      obtain ⟨rfl, hrest⟩ := List.cons.inj heq
      obtain ⟨rfl, -⟩ := List.cons.inj hrest
      exact .inl hr
    | cons z l1 => exact .inr ⟨l1, a, b, l2, (List.cons.inj heq).2, hr⟩
  · rintro (hr | ⟨l1, a, b, l2, heq, hr⟩)
    · exact ⟨[], x, y, l, rfl, hr⟩
    · exact ⟨x :: l1, a, b, l2, congrArg (x :: ·) heq, hr⟩

theorem not_someNeighbours_singleton (x : α) : ¬SomeNeighbours r [x] := by
  rintro ⟨l1, a, b, l2, heq, -⟩
  have hlen := congrArg List.length heq
  simp only [List.length_append, List.length_cons, List.length_nil] at hlen
  omega

theorem someNeighbours_iff_zip {l : List α} :
    SomeNeighbours r l ↔ ∃ x ∈ l.zip l.tail, r x.1 x.2 := by
  induction l with
  | nil =>
    refine iff_of_false ?_ fun ⟨x, hx, _⟩ => absurd hx List.not_mem_nil
    rintro ⟨l1, x, y, l2, heq, -⟩
    exact absurd heq.symm (List.append_ne_nil_of_right_ne_nil _ (List.cons_ne_nil _ _))
  | cons x l ih =>
    cases l with
    | nil =>
      exact iff_of_false (not_someNeighbours_singleton x) fun ⟨x, hx, _⟩ => absurd hx List.not_mem_nil
    | cons y l =>
      rw [someNeighbours_cons_iff, ih]
      simp only [List.tail_cons, List.zip_cons_cons, List.mem_cons, exists_eq_or_imp]

theorem SomeNeighbours.imp {r' : α → α → Prop} {l : List α} (h : SomeNeighbours r l)
    (himp : ∀ x y, r x y → r' x y) : SomeNeighbours r' l := by
  obtain ⟨l1, x, y, l2, heq, hr⟩ := h
  exact ⟨l1, x, y, l2, heq, himp x y hr⟩

theorem length_pass_le (x : α) (l : List α) : (pass ok merge x l).length ≤ l.length + 1 := by
  induction l generalizing x with
  | nil => exact le_rfl
  | cons y l ih =>
    rw [pass]
    split
    · exact (ih _).trans (Nat.le_succ _)
    · exact Nat.succ_le_succ (ih y)

/-- A pass makes a list shorter if some neighbours may be merged. -/
theorem length_pass_lt_iff (x : α) (l : List α) :
    (pass ok merge x l).length < l.length + 1 ↔
      SomeNeighbours (fun a b => ok a b = true) (x :: l) := by
  induction l generalizing x with
  | nil => exact iff_of_false (lt_irrefl _) (not_someNeighbours_singleton x)
  | cons y l ih =>
    rw [pass, someNeighbours_cons_iff, ← ih y]
    split
    · next hok => exact iff_of_true (Nat.lt_succ_of_le (length_pass_le _ l)) (.inl hok)
    · next hok =>
      rw [List.length_cons, List.length_cons, Nat.succ_lt_succ_iff, or_iff_right hok]

/-- Otherwise it changes nothing. -/
theorem pass_eq_self {x : α} {l : List α}
    (h : ¬SomeNeighbours (fun a b => ok a b = true) (x :: l)) : pass ok merge x l = x :: l := by
  induction l generalizing x with
  | nil => rfl
  | cons y l ih =>
    obtain ⟨hok, hrest⟩ := not_or.mp (someNeighbours_cons_iff.not.mp h)
    rw [pass, if_neg hok, ih hrest]

section Kept

variable {P : α → Prop} {w : α → ℕ} {bound : ℕ}
  (hmerge : ∀ x y, P x → P y → w x + w y < bound → P (merge x y) ∧ w (merge x y) = w x + w y)

include hmerge

/-- A pass keeps what a merge keeps, and the total weight as long as it is below the bound. -/
theorem pass_kept {x : α} {l : List α} (hall : ∀ y ∈ x :: l, P y)
    (htotal : w x + (l.map w).sum < bound) :
    (∀ y ∈ pass ok merge x l, P y) ∧ ((pass ok merge x l).map w).sum = w x + (l.map w).sum := by
  induction l generalizing x with
  | nil =>
    refine ⟨hall, ?_⟩
    rw [pass, List.map_singleton, List.sum_singleton, List.map_nil, List.sum_nil, Nat.add_zero]
  | cons y l ih =>
    obtain ⟨hx, hl⟩ := List.forall_mem_cons.mp hall
    obtain ⟨hy, hrest⟩ := List.forall_mem_cons.mp hl
    rw [List.map_cons, List.sum_cons] at htotal ⊢
    rw [pass]
    split
    · obtain ⟨hP, hw⟩ := hmerge x y hx hy (by omega)
      obtain ⟨hpass, hsum⟩ := ih (List.forall_mem_cons.mpr ⟨hP, hrest⟩) (by omega)
      exact ⟨hpass, by omega⟩
    · obtain ⟨hpass, hsum⟩ := ih hl (by omega)
      rw [List.map_cons, List.sum_cons, hsum]
      exact ⟨List.forall_mem_cons.mpr ⟨hx, hpass⟩, rfl⟩

variable {β : Type*} [Preorder β] {key : α → β}
  (hbetween : ∀ x y, P x → P y → w x + w y < bound → key x ≤ key y →
    key x ≤ key (merge x y) ∧ key (merge x y) ≤ key y)

include hbetween

/-- A pass over a list in order keeps the order, and what it gives is not before the first. -/
theorem pass_sorted {x : α} {l : List α} (hall : ∀ y ∈ x :: l, P y)
    (htotal : w x + (l.map w).sum < bound)
    (hsorted : (x :: l).Pairwise fun a b => key a ≤ key b) :
    (pass ok merge x l).Pairwise (fun a b => key a ≤ key b) ∧
      ∀ y ∈ pass ok merge x l, key x ≤ key y := by
  induction l generalizing x with
  | nil =>
    refine ⟨List.pairwise_singleton _ _, fun y hy => ?_⟩
    rw [List.mem_singleton.mp hy]
  | cons y l ih =>
    obtain ⟨hx, hl⟩ := List.forall_mem_cons.mp hall
    obtain ⟨hy, hrest⟩ := List.forall_mem_cons.mp hl
    obtain ⟨hfirst, htail⟩ := List.pairwise_cons.mp hsorted
    obtain ⟨hsecond, hbehind⟩ := List.pairwise_cons.mp htail
    have hxy := hfirst y List.mem_cons_self
    rw [List.map_cons, List.sum_cons] at htotal
    rw [pass]
    split
    · have hfits : w x + w y < bound := by omega
      obtain ⟨hP, hw⟩ := hmerge x y hx hy hfits
      obtain ⟨hlow, hhigh⟩ := hbetween x y hx hy hfits hxy
      have hmerged : (merge x y :: l).Pairwise fun a b => key a ≤ key b :=
        List.pairwise_cons.mpr ⟨fun z hz => hhigh.trans (hsecond z hz), hbehind⟩
      obtain ⟨hpass, hle⟩ := ih (List.forall_mem_cons.mpr ⟨hP, hrest⟩) (by omega) hmerged
      exact ⟨hpass, fun z hz => hlow.trans (hle z hz)⟩
    · obtain ⟨hpass, hle⟩ := ih hl (by omega) htail
      refine ⟨List.pairwise_cons.mpr ⟨fun z hz => hxy.trans (hle z hz), hpass⟩, fun z hz => ?_⟩
      rcases List.mem_cons.mp hz with rfl | hz
      · exact le_rfl
      · exact hxy.trans (hle z hz)

end Kept

end HM4.NeighbourMerge
