import Mathlib.Data.List.Basic

/-!
# Writes into a block

A write replaces some places of a block by others in the same number, and fails if it does not lie
inside the block. What was written is read back, and all places beside it are as they were.
-/

namespace HM4.Patch

variable {α : Type*}

/-- So many places from one on. -/
def slice (xs : List α) (i n : ℕ) : List α := (xs.drop i).take n

/-- A write at a place. -/
def put (xs : List α) (i : ℕ) (ys : List α) : Option (List α) :=
  if i + ys.length ≤ xs.length then some (xs.take i ++ (ys ++ xs.drop (i + ys.length))) else none

/-- Writes one after another. -/
def puts (xs : List α) (writes : List (ℕ × List α)) : Option (List α) :=
  writes.foldlM (fun xs w => put xs w.1 w.2) xs

variable {xs ys zs : List α} {i n : ℕ}

theorem put_eq_some_iff : put xs i ys = some zs ↔
    i + ys.length ≤ xs.length ∧ zs = xs.take i ++ (ys ++ xs.drop (i + ys.length)) := by
  unfold put
  split
  · next h => exact ⟨fun heq => ⟨h, (Option.some.inj heq).symm⟩, fun heq => congrArg some heq.2.symm⟩
  · next h => exact ⟨fun heq => absurd heq.symm (Option.some_ne_none _), fun heq => absurd heq.1 h⟩

/-- A write succeeds exactly inside the block. -/
theorem exists_put_iff : (∃ zs, put xs i ys = some zs) ↔ i + ys.length ≤ xs.length :=
  ⟨fun ⟨_, h⟩ => (put_eq_some_iff.mp h).1, fun h => ⟨_, put_eq_some_iff.mpr ⟨h, rfl⟩⟩⟩

theorem length_put (h : put xs i ys = some zs) : zs.length = xs.length := by
  obtain ⟨hle, rfl⟩ := put_eq_some_iff.mp h
  rw [List.length_append, List.length_append, List.length_take, List.length_drop]
  omega

/-- What was written is read back. -/
theorem slice_put (h : put xs i ys = some zs) : slice zs i ys.length = ys := by
  obtain ⟨hle, rfl⟩ := put_eq_some_iff.mp h
  have hlen : (xs.take i).length = i := List.length_take_of_le (by omega)
  unfold slice
  rw [List.drop_left' hlen, List.take_left]

/-- A read beside the write is as before. -/
theorem slice_put_of_disjoint (h : put xs i ys = some zs) {j n : ℕ}
    (hj : j + n ≤ i ∨ i + ys.length ≤ j) : slice zs j n = slice xs j n := by
  obtain ⟨hle, rfl⟩ := put_eq_some_iff.mp h
  have hlen : (xs.take i).length = i := List.length_take_of_le (by omega)
  refine List.ext_getElem? fun k => ?_
  unfold slice
  by_cases hk : k < n
  · rw [List.getElem?_take_of_lt hk, List.getElem?_take_of_lt hk, List.getElem?_drop,
      List.getElem?_drop]
    rcases hj with hj | hj
    · rw [List.getElem?_append_left (by omega), List.getElem?_take_of_lt (by omega)]
    · rw [List.getElem?_append_right (by omega), List.getElem?_append_right (by omega),
        List.getElem?_drop, hlen]
      congr 1
      omega
  · rw [List.getElem?_take, List.getElem?_take, if_neg hk, if_neg hk]

/-- Two writes one behind the other are one write. -/
theorem put_append (xs ys zs : List α) (i : ℕ) :
    (put xs i ys).bind (fun xs => put xs (i + ys.length) zs) = put xs i (ys ++ zs) := by
  by_cases hy : i + ys.length ≤ xs.length
  · have hlen : (xs.take i ++ ys).length = i + ys.length := by
      rw [List.length_append, List.length_take_of_le (by omega)]
    have hdrop : ((xs.take i ++ ys) ++ xs.drop (i + ys.length)).drop (i + ys.length + zs.length) =
        xs.drop (i + ys.length + zs.length) := by
      rw [← List.drop_drop, List.drop_left' hlen, List.drop_drop]
    rw [put, if_pos hy, Option.bind_some, ← List.append_assoc, put, put, List.take_left' hlen, hdrop,
      List.length_append, hlen, List.length_drop, List.length_append, List.append_assoc,
      List.append_assoc]
    by_cases hz : i + ys.length + zs.length ≤ xs.length
    · rw [if_pos (by omega), if_pos (by omega), Nat.add_assoc]
    · rw [if_neg (by omega), if_neg (by omega)]
  · have hyz : ¬i + (ys ++ zs).length ≤ xs.length := by
      rw [List.length_append]
      omega
    rw [put, if_neg hy, put, if_neg hyz]
    rfl

/-- A part of a part. -/
theorem slice_slice {j k : ℕ} (h : j + k ≤ n) : slice (slice xs i n) j k = slice xs (i + j) k := by
  unfold slice
  rw [List.drop_take, List.take_take, List.drop_drop, Nat.min_eq_left (by omega)]

/-- Two parts one behind the other. -/
theorem slice_add (xs : List α) (i n m : ℕ) :
    slice xs i (n + m) = slice xs i n ++ slice xs (i + n) m := by
  unfold slice
  rw [List.take_add, List.drop_drop]

theorem slice_append_left (h : i + n ≤ xs.length) : slice (xs ++ ys) i n = slice xs i n := by
  unfold slice
  rw [List.drop_append_of_le_length (by omega), List.take_append_of_le_length]
  rw [List.length_drop]
  omega

theorem slice_length (xs ys zs : List α) : slice (xs ++ (ys ++ zs)) xs.length ys.length = ys := by
  unfold slice
  rw [List.drop_left, List.take_left]

theorem puts_cons (w : ℕ × List α) (writes : List (ℕ × List α)) :
    puts xs (w :: writes) = (put xs w.1 w.2).bind fun xs => puts xs writes := by
  unfold puts
  rw [List.foldlM_cons]
  rfl

/-- Writes inside the block all succeed, and leave what none of them touches. -/
theorem exists_puts {writes : List (ℕ × List α)} (xs : List α)
    (h : ∀ w ∈ writes, w.1 + w.2.length ≤ xs.length) :
    ∃ zs, puts xs writes = some zs ∧ zs.length = xs.length ∧
      ∀ j n, (∀ w ∈ writes, j + n ≤ w.1 ∨ w.1 + w.2.length ≤ j) → slice zs j n = slice xs j n := by
  induction writes generalizing xs with
  | nil => exact ⟨xs, rfl, rfl, fun _ _ _ => rfl⟩
  | cons w writes ih =>
    obtain ⟨hw, hws⟩ := List.forall_mem_cons.mp h
    obtain ⟨ys, hys⟩ := exists_put_iff.mpr hw
    have hlen := length_put hys
    obtain ⟨zs, hzs, hlen', hframe⟩ := ih ys fun w' hw' => hlen.symm ▸ hws w' hw'
    refine ⟨zs, ?_, hlen'.trans hlen, fun j n hjn => ?_⟩
    · rw [puts_cons, hys]
      exact hzs
    · obtain ⟨hj, hjs⟩ := List.forall_mem_cons.mp hjn
      rw [hframe j n hjs, slice_put_of_disjoint hys hj]

end HM4.Patch
