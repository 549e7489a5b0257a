import Mathlib.Data.List.Basic

/-!
# A buffer that is written from its start

Each round writes some values over the first places of a buffer and leaves the places behind them
as they were. Who reads the whole buffer and can tell the places that were never written sees the
last round alone if and only if no earlier round was longer.
-/

namespace HM4.Overwritten

variable {α : Type*} {used : α → Bool} {mark : ℕ} {xs values : List α}

/-- A round. -/
def overwrite (xs values : List α) : List α := values ++ xs.drop values.length

theorem length_overwrite (h : values.length ≤ xs.length) :
    (overwrite xs values).length = xs.length := by
  rw [overwrite, List.length_append, List.length_drop]
  omega

theorem getElem?_overwrite (xs values : List α) (i : ℕ) :
    (overwrite xs values)[i]? = if i < values.length then values[i]? else xs[i]? := by
  unfold overwrite
  split
  · next h => rw [List.getElem?_append_left h]
  · next h =>
    have hle : values.length ≤ i := by omega
    rw [List.getElem?_append_right hle, List.getElem?_drop, Nat.add_sub_cancel' hle]

/-- So many places at the start were written, and no others. -/
def Marked (used : α → Bool) (mark : ℕ) (xs : List α) : Prop :=
  ∀ i x, xs[i]? = some x → (used x = true ↔ i < mark)

theorem marked_replicate {x : α} (h : used x = false) (n : ℕ) :
    Marked used 0 (List.replicate n x) := by
  intro i y hy
  have hx : y = x := List.eq_of_mem_replicate (List.mem_of_getElem? hy)
  rw [hx, h]
  simp

/-- A round that is longer than all others moves the mark. -/
theorem Marked.overwrite (h : Marked used mark xs) (hvalues : ∀ x ∈ values, used x = true) :
    Marked used (max mark values.length) (overwrite xs values) := by
  intro i x hx
  rw [getElem?_overwrite] at hx
  split at hx
  · next hlt =>
    have hused := hvalues x (List.mem_of_getElem? hx)
    simp only [hused, true_iff]
    omega
  · next hnot =>
    rw [h i x hx]
    omega

/-- What is read of a buffer. -/
theorem Marked.filter_eq (h : Marked used mark xs) : xs.filter used = xs.take mark := by
  induction xs generalizing mark with
  | nil => simp
  | cons x xs ih =>
    have hx := h 0 x rfl
    cases mark with
    | zero =>
      have hunused : ¬used x = true := fun hused => Nat.not_lt_zero 0 (hx.mp hused)
      have hrest : Marked used 0 xs := fun i y hy => by
        rw [h (i + 1) y hy]
        omega
      rw [List.filter_cons_of_neg hunused, ih hrest, List.take_zero, List.take_zero]
    | succ mark =>
      have hused : used x = true := hx.mpr (Nat.succ_pos mark)
      have hrest : Marked used mark xs := fun i y hy => by
        rw [h (i + 1) y hy]
        omega
      rw [List.filter_cons_of_pos hused, ih hrest, List.take_succ_cons]

/-- The last round alone is read, through any view of the values, if and only if no earlier one was
longer. -/
theorem Marked.map_filter_overwrite_iff {β : Type*} (f : α → β) (h : Marked used mark xs)
    (hmark : mark ≤ xs.length) (hlen : values.length ≤ xs.length)
    (hvalues : ∀ x ∈ values, used x = true) :
    ((Overwritten.overwrite xs values).filter used).map f = values.map f ↔
      mark ≤ values.length := by
  rw [(h.overwrite hvalues).filter_eq]
  constructor
  · intro heq
    have hlength := congrArg List.length heq
    rw [List.length_map, List.length_map, List.length_take, length_overwrite hlen] at hlength
    omega
  · intro hle
    rw [Nat.max_eq_right hle, Overwritten.overwrite, List.take_left]

end HM4.Overwritten
