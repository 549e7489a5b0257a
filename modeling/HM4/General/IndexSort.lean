import Mathlib.Data.List.Basic
import Mathlib.Data.List.Nodup

/-!
# Sorting by a strict comparison, and moving elements by their indices

A standard library sort promises a permutation in which nothing comes before a
smaller element; the order of equal elements is its own affair. A container is
sorted through indices: the indices are sorted, then each element is moved out
of its place into a new container.
-/

namespace HM4.IndexSort

variable {α β : Type*}

/-- What a comparison has to be for a sort by it to mean something. -/
structure Strict (less : α → α → Bool) : Prop where
  /-- Of two elements at most one is smaller. -/
  asymm : ∀ a b, less a b = true → less b a = false
  /-- Being not greater is transitive. -/
  trans : ∀ a b c, less b a = false → less c b = false → less c a = false

/-- A sort, with the promises that its documentation makes. -/
structure StdSort (α : Type*) where
  /-- The sorted list. -/
  sort : (α → α → Bool) → List α → List α
  /-- Nothing is lost and nothing is made up. -/
  perm : ∀ less l, (sort less l).Perm l
  /-- Nothing comes before a smaller element. -/
  sorted : ∀ less l, Strict less → (sort less l).Pairwise (fun a b => less b a = false)

namespace StdSort

theorem le_total {less : α → α → Bool} (h : Strict less) (a b : α) :
    (!less b a || !less a b) = true := by
  cases hab : less a b with
  | false => exact Bool.or_true _
  | true => rw [h.asymm a b hab]; rfl

theorem le_trans {less : α → α → Bool} (h : Strict less) (a b c : α)
    (hab : (!less b a) = true) (hbc : (!less c b) = true) : (!less c a) = true := by
  rw [Bool.not_eq_true'] at hab hbc ⊢
  exact h.trans a b c hab hbc

theorem pairwise_mergeSort {less : α → α → Bool} (h : Strict less) (l : List α) :
    (l.mergeSort (fun a b => !less b a)).Pairwise (fun a b => less b a = false) :=
  (List.pairwise_mergeSort (le_trans h) (le_total h) l).imp
    (fun hab => (Bool.not_eq_true' _).mp hab)

/-- A sort that keeps equal elements in their order. -/
def stable (α : Type*) : StdSort α where
  sort less l := l.mergeSort (fun a b => !less b a)
  perm _ l := l.mergeSort_perm _
  sorted _ l h := pairwise_mergeSort h l

/-- A sort that turns the order of equal elements round. -/
def turning (α : Type*) : StdSort α where
  sort less l := l.reverse.mergeSort (fun a b => !less b a)
  perm _ l := (l.reverse.mergeSort_perm _).trans l.reverse_perm
  sorted _ l h := pairwise_mergeSort h l.reverse

/-- Two members of a list stand in it in one order or in the other. -/
theorem pair_sublist {a b : α} {l : List α} (ha : a ∈ l) (hb : b ∈ l) (hne : a ≠ b) :
    [a, b].Sublist l ∨ [b, a].Sublist l := by
  induction l with
  | nil => exact absurd ha List.not_mem_nil
  | cons c l ih =>
    rcases List.mem_cons.mp ha with rfl | hal
    · have hbl : b ∈ l := (List.mem_cons.mp hb).resolve_left (Ne.symm hne)
      exact Or.inl ((List.singleton_sublist.mpr hbl).cons_cons a)
    · rcases List.mem_cons.mp hb with rfl | hbl
      · exact Or.inr ((List.singleton_sublist.mpr hal).cons_cons b)
      · rcases ih hal hbl with h | h
        · exact Or.inl (h.cons c)
        · exact Or.inr (h.cons c)

/-- Some sort puts an element before each other one that is not smaller. -/
theorem exists_sublist {less : α → α → Bool} (h : Strict less) {a b : α} {l : List α}
    (ha : a ∈ l) (hb : b ∈ l) (hne : a ≠ b) (hab : less b a = false) :
    ∃ s : StdSort α, [a, b].Sublist (s.sort less l) := by
  have hle : (!less b a) = true := by rw [hab]; rfl
  rcases pair_sublist ha hb hne with hs | hs
  · exact ⟨stable α, List.pair_sublist_mergeSort (le_trans h) (le_total h) hle hs⟩
  · have hr : [a, b].Sublist l.reverse := List.reverse_sublist.mpr hs
    exact ⟨turning α, List.pair_sublist_mergeSort (le_trans h) (le_total h) hle hr⟩

end StdSort

/-- A comparison of keys, the greater key first. -/
def descending (key : α → ℕ) (a b : α) : Bool := decide (key b < key a)

theorem strict_descending (key : α → ℕ) : Strict (descending key) where
  asymm a b h := by
    unfold descending at *
    rw [decide_eq_true_eq] at h
    exact decide_eq_false (by omega)
  trans a b c hab hbc := by
    unfold descending at *
    rw [decide_eq_false_iff_not] at hab hbc ⊢
    omega

theorem descending_eq_false {key : α → ℕ} {a b : α} :
    descending key b a = false ↔ key b ≤ key a := by
  unfold descending
  rw [decide_eq_false_iff_not]
  omega

/-! ### Moving by indices -/

/-- One element is moved to the end of a new container; what is left in its
place is given by `moved`. -/
def moveOut (moved : β → β) (s : List β × List β) (i : ℕ) : List β × List β :=
  (s.1 ++ s.2[i]?.toList, s.2.modify i moved)

/-- Elements moved in the order of distinct indices are the elements at these
indices. -/
theorem foldl_moveOut (moved : β → β) {ix : List ℕ} (hix : ix.Nodup) (out src : List β) :
    (ix.foldl (moveOut moved) (out, src)).1 = out ++ ix.flatMap (fun i => src[i]?.toList) := by
  induction ix generalizing out src with
  | nil => rw [List.foldl_nil, List.flatMap_nil, List.append_nil]
  | cons i ix ih =>
    obtain ⟨hi, hix⟩ := List.nodup_cons.mp hix
    have hrest : ix.flatMap (fun j => (src.modify i moved)[j]?.toList) =
        ix.flatMap (fun j => src[j]?.toList) := by
      refine List.flatMap_congr fun j hj => ?_
      have hne : i ≠ j := fun h => hi (h ▸ hj)
      rw [List.getElem?_modify_ne moved src hne]
    rw [List.foldl_cons]
    unfold moveOut at ih ⊢
    rw [ih hix, hrest, List.flatMap_cons, List.append_assoc]

/-- All indices in their order give the list itself. -/
theorem flatMap_range (src : List β) :
    (List.range src.length).flatMap (fun i => src[i]?.toList) = src := by
  induction src with
  | nil => rfl
  | cons b src ih =>
    rw [List.length_cons, List.range_succ_eq_map, List.flatMap_cons, List.flatMap_map]
    exact congrArg (b :: ·) ih

/-- A permutation of all indices gives a permutation of the elements. -/
theorem flatMap_perm {ix : List ℕ} {src : List β} (h : ix.Perm (List.range src.length)) :
    (ix.flatMap (fun i => src[i]?.toList)).Perm src := by
  have hp := h.flatMap_right (fun i => src[i]?.toList)
  rwa [flatMap_range] at hp

/-- Fewer indices give fewer elements. -/
theorem sublist_flatMap {γ : Type*} (f : α → List γ) {ix ix' : List α} (h : ix.Sublist ix') :
    (ix.flatMap f).Sublist (ix'.flatMap f) := by
  induction h with
  | slnil => exact List.Sublist.refl []
  | cons i _ ih => exact ih.trans (List.sublist_append_right (f i) _)
  | cons_cons i _ ih => exact (List.Sublist.refl (f i)).append ih

/-- What holds of the indices in their order holds of the elements. -/
theorem pairwise_flatMap {r : β → β → Prop} {ix : List ℕ} {src : List β}
    (h : ix.Pairwise (fun i j => ∀ a b, src[i]? = some a → src[j]? = some b → r a b)) :
    (ix.flatMap (fun i => src[i]?.toList)).Pairwise r := by
  refine List.pairwise_flatMap.mpr ⟨fun i _ => ?_, ?_⟩
  · cases src[i]? with
    | none => exact List.Pairwise.nil
    | some a => exact List.pairwise_singleton r a
  · refine h.imp fun {i j} hij a ha b hb => ?_
    exact hij a b (Option.mem_toList.mp ha) (Option.mem_toList.mp hb)

end HM4.IndexSort
