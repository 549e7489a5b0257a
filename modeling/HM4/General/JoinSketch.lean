import Mathlib.Data.Fintype.Basic
import Mathlib.Order.Bounds.Basic
import Mathlib.Order.Lattice

/-!
# Sketches that join their items

A sketch starts at the bottom of a semilattice and joins what each item stands for. It is the least
upper bound of its items, so it depends on their set alone, and the sketch of two sequences is the
join of both sketches. A table of registers of which each holds the largest number that it was given
is such a sketch.
-/

namespace HM4.JoinSketch

variable {ι S T : Type*}

/-- What is expected of a sketch with a merge. -/
structure Mergeable (sketch : List ι → T) (merge : T → T → T) : Prop where
  append : ∀ xs ys, sketch (xs ++ ys) = merge (sketch xs) (sketch ys)
  assoc : ∀ X Y Z, merge (merge X Y) Z = merge X (merge Y Z)
  comm : ∀ X Y, merge X Y = merge Y X
  idem : ∀ X, merge X X = X
  same_items : ∀ xs ys, (∀ x, x ∈ xs ↔ x ∈ ys) → sketch xs = sketch ys

section Join

variable [SemilatticeSup S] [OrderBot S] (single : ι → S)

/-- The join of all items. -/
def joinAll (xs : List ι) : S := xs.foldl (fun M x => M ⊔ single x) ⊥

theorem foldl_join (M : S) (xs : List ι) :
    xs.foldl (fun M x => M ⊔ single x) M = M ⊔ joinAll single xs := by
  unfold joinAll
  induction xs generalizing M with
  | nil => simp
  | cons x xs ih =>
    rw [List.foldl_cons, List.foldl_cons, ih, ih (⊥ ⊔ single x), bot_sup_eq, sup_assoc]

/-- Steps of which each is seen as the join of an item. -/
theorem view_foldl {view : T → S} {step : T → ι → T}
    (hstep : ∀ M x, view (step M x) = view M ⊔ single x) {init : T} (hinit : view init = ⊥)
    (xs : List ι) : view (xs.foldl step init) = joinAll single xs := by
  have h : ∀ M, view (xs.foldl step M) = xs.foldl (fun M x => M ⊔ single x) (view M) := by
    intro M
    induction xs generalizing M with
    | nil => rfl
    | cons x xs ih => rw [List.foldl_cons, List.foldl_cons, ih, hstep]
  rw [h, hinit, joinAll]

theorem joinAll_append (xs ys : List ι) :
    joinAll single (xs ++ ys) = joinAll single xs ⊔ joinAll single ys := by
  have h : joinAll single (xs ++ ys) =
      ys.foldl (fun M x => M ⊔ single x) (joinAll single xs) := List.foldl_append
  rw [h, foldl_join]

theorem joinAll_cons (x : ι) (xs : List ι) :
    joinAll single (x :: xs) = single x ⊔ joinAll single xs := by
  have h := joinAll_append single [x] xs
  simpa [joinAll] using h

/-- A sketch is the least upper bound of its items. -/
theorem isLUB_joinAll (xs : List ι) : IsLUB {y | ∃ x ∈ xs, single x = y} (joinAll single xs) := by
  induction xs with
  | nil => simp [joinAll]
  | cons x xs ih =>
    have hset : {y | ∃ z ∈ x :: xs, single z = y} =
        {single x} ∪ {y | ∃ z ∈ xs, single z = y} := by
      ext y
      simp [eq_comm]
    rw [hset, joinAll_cons]
    exact isLUB_singleton.union ih

/-- The order and the number of the items do not matter. -/
theorem joinAll_congr {xs ys : List ι} (h : ∀ x, x ∈ xs ↔ x ∈ ys) :
    joinAll single xs = joinAll single ys := by
  have hset : {y | ∃ x ∈ xs, single x = y} = {y | ∃ x ∈ ys, single x = y} := by
    ext y
    simp [h]
  have hxs := isLUB_joinAll single xs
  rw [hset] at hxs
  exact hxs.unique (isLUB_joinAll single ys)

/-- A sketch that is seen as a join of its items, with a merge that is seen as a join. -/
theorem Mergeable.of_view {view : T → S} (hview : Function.Injective view) {sketch : List ι → T}
    {merge : T → T → T} (hsketch : ∀ xs, view (sketch xs) = joinAll single xs)
    (hmerge : ∀ X Y, view (merge X Y) = view X ⊔ view Y) : Mergeable sketch merge where
  append xs ys := hview (by rw [hmerge, hsketch, hsketch, hsketch, joinAll_append])
  assoc X Y Z := hview (by rw [hmerge, hmerge, hmerge, hmerge, sup_assoc])
  comm X Y := hview (by rw [hmerge, hmerge, sup_comm])
  idem X := hview (by rw [hmerge, sup_idem])
  same_items xs ys h := hview (by rw [hsketch, hsketch, joinAll_congr single h])

end Join

/-! ## Registers -/

section Registers

variable {α : Type*} {m : ℕ}

/-- A loop over all registers that gives each another content. -/
def forEach (f : Fin m → α → α) (M : Vector α m) : Vector α m :=
  (List.finRange m).foldl (fun M (i : Fin m) => M.set i (f i M[i]) i.isLt) M

theorem foldl_set_getElem (f : Fin m → α → α) (M : Vector α m) {is : List (Fin m)}
    (hnodup : is.Nodup) (j : Fin m) :
    (is.foldl (fun M (i : Fin m) => M.set i (f i M[i]) i.isLt) M)[j] =
      if j ∈ is then f j M[j] else M[j] := by
  induction is generalizing M with
  | nil => simp
  | cons i is ih =>
    obtain ⟨hi, his⟩ := List.nodup_cons.mp hnodup
    rw [List.foldl_cons, ih _ his]
    by_cases hj : j = i
    · subst hj
      simp [hi]
    · have hne : i.val ≠ j.val := fun h => hj (Fin.ext h.symm)
      simp [hj, hne]

/-- Each register is changed once. -/
theorem forEach_getElem (f : Fin m → α → α) (M : Vector α m) (j : Fin m) :
    (forEach f M)[j] = f j M[j] := by
  unfold forEach
  rw [foldl_set_getElem f M (List.nodup_finRange m), if_pos (List.mem_finRange j)]

/-- To raise one register is to join a table that has nothing else. -/
theorem sup_update_bot [LinearOrder α] [OrderBot α] (M : Fin m → α) (i : Fin m) (r : α) :
    M ⊔ Function.update ⊥ i r = Function.update M i (max (M i) r) := by
  funext j
  by_cases hj : j = i
  · subst hj
    simp
  · simp [hj]

theorem sup_update_bot_of_le [LinearOrder α] [OrderBot α] {M : Fin m → α} {i : Fin m} {r : α}
    (h : r ≤ M i) : M ⊔ Function.update ⊥ i r = M := by
  rw [sup_update_bot, max_eq_left h, Function.update_eq_self]

theorem sup_update_bot_of_ge [LinearOrder α] [OrderBot α] {M : Fin m → α} {i : Fin m} {r : α}
    (h : M i ≤ r) : M ⊔ Function.update ⊥ i r = Function.update M i r := by
  rw [sup_update_bot, max_eq_right h]

end Registers

end HM4.JoinSketch
