import HM4.General.BinaryHeap
import Mathlib.Data.List.Perm.Subperm

/-!
# The largest values of a stream

A heap of bounded size with the smallest of its values on top takes each value of a stream, or
drops one that the others come before. At the end the heap holds the first values of the stream in
the order of the comparator, and sorting the heap puts them in this order.
-/

namespace HM4.TopHeap

open BinaryHeap

variable {α : Type*} (less : α → α → Bool)

/-- Take one value into a heap of `k` values; the last one in the order is on top. -/
def offer (k : ℕ) (heap : Array α) (x : α) : Array α :=
  if heap.size < k then pushHeap less (heap.push x)
  else
    match heap[0]? with
    | none => heap
    | some top =>
      if less x top then pushHeap less ((popHeap less heap).pop.push x) else heap

/-- The loop of `sortHeap`: the top goes in front of what was taken off before it. -/
def sortLoop : ℕ → Array α → List α → List α
  | 0, _, out => out
  | n + 1, heap, out =>
    match (popHeap less heap).back? with
    | none => out
    | some x => sortLoop n (popHeap less heap).pop (x :: out)

/-- Sort a heap. -/
def sortHeap (heap : Array α) : List α := sortLoop less heap.size heap []

/-- The heap holds `k` values of a stream, or all of them, and no other comes before one of
these. -/
structure Best (k : ℕ) (xs : List α) (heap : Array α) : Prop where
  isHeap : IsHeap less heap heap.size
  size : heap.size = min k xs.length
  rest : ∃ rest, xs.Perm (heap.toList ++ rest) ∧ ∀ a ∈ heap, ∀ b ∈ rest, less b a = false

variable {less} {k : ℕ}

section Steps

variable {heap : Array α}

/-- Popping splits the top from the others. -/
theorem popHeap_eq_push (h : 0 < heap.size) :
    ∃ others : Array α, popHeap less heap = others.push heap[0] ∧ others.size + 1 = heap.size ∧
      heap.toList.Perm (heap[0] :: others.toList) := by
  have hsize := @size_popHeap α less heap
  obtain ⟨others, x, hpop⟩ := Array.exists_push_of_size_pos (hsize.symm ▸ h)
  have hothers : others.size + 1 = heap.size := by
    rw [← hsize, hpop, Array.size_push]
  have hback := @getElem_popHeap α less heap h (by omega)
  have hx : x = heap[0] := by
    rw [← hback]
    simp only [hpop, ← hothers, Nat.add_sub_cancel, Array.getElem_push_eq]
  subst hx
  refine ⟨others, hpop, hothers, ?_⟩
  refine (@popHeap_perm α less heap).symm.trans ?_
  rw [hpop, Array.toList_push]
  exact List.perm_append_singleton _ _

/-- What lies before the back of a heap with a new back is a heap. -/
theorem isHeap_push {n : ℕ} (h : IsHeap less heap n) (hn : n ≤ heap.size) (x : α) :
    IsHeap less (heap.push x) n := by
  intro j hj hpos hjn
  have hold := h j (by omega) hpos hjn
  rw [Array.getElem_push_lt (by omega), Array.getElem_push_lt (by omega)]
  exact hold

/-- A heap takes a value. -/
theorem isHeap_pushHeap_push (hless : StrictWeak less) (h : IsHeap less heap heap.size) (x : α) :
    IsHeap less (pushHeap less (heap.push x)) (pushHeap less (heap.push x)).size := by
  have hpush : IsHeap less (heap.push x) ((heap.push x).size - 1) := by
    rw [Array.size_push]
    exact isHeap_push h le_rfl x
  rw [size_pushHeap]
  exact hpush.pushHeap hless

theorem pushHeap_push_perm (x : α) :
    (pushHeap less (heap.push x)).toList.Perm (x :: heap.toList) := by
  refine (pushHeap_perm _).trans ?_
  rw [Array.toList_push]
  exact List.perm_append_singleton _ _

/-- The others are a heap again. -/
theorem isHeap_others (hless : StrictWeak less) (h : IsHeap less heap heap.size)
    {others : Array α} {top : α} (hpop : popHeap less heap = others.push top)
    (hsize : others.size + 1 = heap.size) : IsHeap less others others.size := by
  have hheap := h.popHeap hless
  rw [hpop] at hheap
  intro j hj hpos hjn
  have hold := hheap j (by rw [Array.size_push]; omega) hpos (by omega)
  rw [Array.getElem_push_lt (by omega), Array.getElem_push_lt (by omega)] at hold
  exact hold

/-- The top is the last of a heap. -/
theorem less_top (hless : StrictWeak less) (hirr : ∀ a, less a a = false)
    (h : IsHeap less heap heap.size) (hpos : 0 < heap.size) {a : α} (ha : a ∈ heap) :
    less heap[0] a = false := by
  obtain ⟨j, hj, rfl⟩ := Array.mem_iff_getElem.mp ha
  exact h.root hless hirr hj hj

end Steps

section Stream

variable (hless : StrictWeak less) (hirr : ∀ a, less a a = false)

theorem best_nil (k : ℕ) : Best less k [] #[] where
  isHeap := fun _ hj _ _ => absurd hj (Nat.not_lt_zero _)
  size := (Nat.min_zero k).symm
  rest := ⟨[], List.Perm.refl _, fun _ ha => absurd ha (Array.not_mem_empty _)⟩

include hless hirr

/-- A value that comes before none in the heap is dropped, and one that comes before the top takes
its place. -/
theorem Best.offer (hk : 0 < k) {xs : List α} {heap : Array α} (h : Best less k xs heap) (x : α) :
    Best less k (x :: xs) (offer less k heap x) := by
  obtain ⟨rest, hperm, hrest⟩ := h.rest
  have hlen : xs.length = heap.size + rest.length := by
    rw [hperm.length_eq, List.length_append, Array.length_toList]
  have hsize := h.size
  unfold TopHeap.offer
  split
  · next hroom =>
    -- so far nothing was dropped
    have hnone : rest = [] := List.eq_nil_of_length_eq_zero (by omega)
    refine ⟨isHeap_pushHeap_push hless h.isHeap x, ?_, [], ?_,
      fun _ _ _ hb => absurd hb List.not_mem_nil⟩
    · rw [size_pushHeap, Array.size_push, List.length_cons]
      omega
    · rw [hnone, List.append_nil] at hperm
      rw [List.append_nil]
      exact (hperm.cons x).trans (pushHeap_push_perm x).symm
  · next hfull =>
    have hpos : 0 < heap.size := by omega
    rw [Array.getElem?_eq_getElem hpos]
    dsimp only
    have htop : ∀ a ∈ heap, less heap[0] a = false := fun a ha =>
      less_top hless hirr h.isHeap hpos ha
    split
    · next hx =>
      obtain ⟨others, hpop, hothers, hsplit⟩ := @popHeap_eq_push α less heap hpos
      rw [hpop, Array.pop_push]
      refine ⟨isHeap_pushHeap_push hless (isHeap_others hless h.isHeap hpop hothers) x, ?_,
        heap[0] :: rest, ?_, fun a ha b hb => ?_⟩
      · rw [size_pushHeap, Array.size_push, List.length_cons]
        omega
      · calc (x :: xs).Perm (x :: (heap[0] :: others.toList ++ rest)) :=
              (hperm.trans (hsplit.append_right rest)).cons x
          _ |>.Perm (x :: (others.toList ++ heap[0] :: rest)) :=
              (List.perm_middle.symm).cons x
          _ |>.Perm ((pushHeap less (others.push x)).toList ++ heap[0] :: rest) :=
              (pushHeap_push_perm x).symm.append_right _
      · have hafter : less heap[0] x = false := hless.asymm hx
        have hlast : ∀ b ∈ heap[0] :: rest, less b heap[0] = false := fun b hb => by
          rcases List.mem_cons.mp hb with rfl | hb
          · exact hirr _
          · exact hrest _ (Array.getElem_mem hpos) b hb
        have hmem : a = x ∨ a ∈ heap := by
          have ha' := (pushHeap_push_perm x).mem_iff.mp (Array.mem_toList_iff.mpr ha)
          rcases List.mem_cons.mp ha' with hax | ha'
          · exact .inl hax
          · exact .inr (Array.mem_toList_iff.mp
              (hsplit.mem_iff.mpr (List.mem_cons_of_mem _ ha')))
        rcases hmem with rfl | ha
        · exact hless.trans (hlast b hb) hafter
        · exact hless.trans (hlast b hb) (htop a ha)
    · next hx =>
      refine ⟨h.isHeap, ?_, x :: rest, ?_, fun a ha b hb => ?_⟩
      · rw [List.length_cons]
        omega
      · exact (hperm.cons x).trans List.perm_middle.symm
      · rcases List.mem_cons.mp hb with rfl | hb
        · exact hless.trans (Bool.eq_false_iff.mpr hx) (htop a ha)
        · exact hrest a ha b hb

/-- A whole stream. -/
theorem best_foldl (hk : 0 < k) (xs ys : List α) {heap : Array α} (h : Best less k ys heap) :
    ∃ zs, zs.Perm (xs ++ ys) ∧ Best less k zs (xs.foldl (TopHeap.offer less k) heap) := by
  induction xs generalizing ys heap with
  | nil => exact ⟨ys, List.Perm.refl _, h⟩
  | cons x xs ih =>
    obtain ⟨zs, hperm, hbest⟩ := ih (x :: ys) (h.offer hless hirr hk x)
    exact ⟨zs, hperm.trans List.perm_middle, hbest⟩

/-- A heap is taken apart from the last to the first. -/
theorem sortLoop_spec {n : ℕ} {heap : Array α} (hn : n = heap.size)
    (h : IsHeap less heap heap.size) {out : List α}
    (hout : out.Pairwise fun a b => less b a = false)
    (hbetween : ∀ a ∈ heap, ∀ b ∈ out, less b a = false) :
    (sortLoop less n heap out).Perm (heap.toList ++ out) ∧
      (sortLoop less n heap out).Pairwise fun a b => less b a = false := by
  induction n generalizing heap out with
  | zero =>
    have hnil : heap.toList = [] := List.eq_nil_of_length_eq_zero hn.symm
    rw [hnil]
    exact ⟨List.Perm.refl _, hout⟩
  | succ n ih =>
    have hpos : 0 < heap.size := by omega
    obtain ⟨others, hpop, hothers, hsplit⟩ := @popHeap_eq_push α less heap hpos
    have hback : (others.push heap[0]).back? = some heap[0] := Array.back?_push ..
    have hsub : ∀ a ∈ others, a ∈ heap := fun a ha => Array.mem_toList_iff.mp
      (hsplit.mem_iff.mpr (List.mem_cons_of_mem _ (Array.mem_toList_iff.mpr ha)))
    have htop := fun a (ha : a ∈ heap) => less_top hless hirr h hpos ha
    rw [sortLoop, hpop, hback, Array.pop_push]
    dsimp only
    obtain ⟨hperm, hsorted⟩ := ih (by omega) (isHeap_others hless h hpop hothers)
      (List.pairwise_cons.mpr ⟨hbetween _ (Array.getElem_mem hpos), hout⟩) fun a ha b hb => by
        rcases List.mem_cons.mp hb with rfl | hb
        · exact htop a (hsub a ha)
        · exact hbetween a (hsub a ha) b hb
    exact ⟨hperm.trans (List.perm_middle.trans (hsplit.symm.append_right out)), hsorted⟩

/-- The sorted heap of a stream: so many of its values in their order, and no other value comes
before one of these. -/
theorem sortHeap_foldl (hk : 0 < k) (xs : List α) :
    ∃ rest, xs.Perm (sortHeap less (xs.foldl (TopHeap.offer less k) #[]) ++ rest) ∧
      (sortHeap less (xs.foldl (TopHeap.offer less k) #[])).length = min k xs.length ∧
      (sortHeap less (xs.foldl (TopHeap.offer less k) #[])).Pairwise
        (fun a b => less b a = false) ∧
      ∀ a ∈ sortHeap less (xs.foldl (TopHeap.offer less k) #[]), ∀ b ∈ rest,
        less b a = false := by
  obtain ⟨zs, hzs, hbest⟩ := best_foldl hless hirr hk xs [] (best_nil k)
  rw [List.append_nil] at hzs
  obtain ⟨rest, hperm, hrest⟩ := hbest.rest
  obtain ⟨hsort, hsorted⟩ := sortLoop_spec hless hirr rfl hbest.isHeap
    List.Pairwise.nil fun _ _ _ hb => absurd hb List.not_mem_nil
  rw [List.append_nil] at hsort
  refine ⟨rest, hzs.symm.trans (hperm.trans (hsort.symm.append_right rest)), ?_, hsorted,
    fun a ha => hrest a (Array.mem_toList_iff.mp (hsort.mem_iff.mp ha))⟩
  rw [sortHeap, hsort.length_eq, Array.length_toList, hbest.size, hzs.length_eq]

end Stream

end HM4.TopHeap
