import Mathlib.Data.List.Basic
import Mathlib.Data.List.Infix

/-!
# Separated strings

A string is cut into pieces at each separator; a separator at its end opens no piece. What is
written with separators is read back as long as no piece holds one.
-/

namespace HM4.Separated

variable {α : Type*} [DecidableEq α] (d : α)

/-- The pieces of a string. -/
def pieces : List α → List (List α)
  | [] => []
  | x :: s =>
    if x = d then [] :: pieces s
    else
      match pieces s with
      | [] => [[x]]
      | t :: ts => (x :: t) :: ts

/-- Some pieces, each with a separator behind it. -/
def terminated (parts : List (List α)) : List α := parts.flatMap fun t => t ++ [d]

variable {d}

/-- A piece ends at the first separator. -/
theorem pieces_append {t : List α} (ht : d ∉ t) (s : List α) :
    pieces d (t ++ d :: s) = t :: pieces d s := by
  induction t with
  | nil => exact if_pos rfl
  | cons x t ih =>
    obtain ⟨hx, ht'⟩ := not_or.mp (List.mem_cons.not.mp ht)
    rw [List.cons_append, pieces, if_neg (Ne.symm hx), ih ht']

/-- A string without separators is one piece. -/
theorem pieces_of_notMem {t : List α} (ht : d ∉ t) (hne : t ≠ []) : pieces d t = [t] := by
  induction t with
  | nil => exact absurd rfl hne
  | cons x t ih =>
    obtain ⟨hx, ht'⟩ := not_or.mp (List.mem_cons.not.mp ht)
    rw [pieces, if_neg (Ne.symm hx)]
    cases t with
    | nil => rfl
    | cons y t => rw [ih ht' (List.cons_ne_nil y t)]

/-- The pieces of a string behind a separator do not depend on what is in front of it. -/
theorem pieces_append_cons (y s : List α) :
    pieces d (y ++ d :: s) = pieces d (y ++ [d]) ++ pieces d s := by
  induction y with
  | nil => simp [pieces]
  | cons x y ih =>
    by_cases hx : x = d
    · rw [List.cons_append, List.cons_append, pieces, if_pos hx, pieces, if_pos hx, ih,
        List.cons_append]
    · rw [List.cons_append, List.cons_append, pieces, if_neg hx, pieces, if_neg hx, ih]
      cases hp : pieces d (y ++ [d]) with
      | nil =>
        cases y with
        | nil => simp [pieces] at hp
        | cons z y =>
          rw [List.cons_append, pieces] at hp
          split_ifs at hp
          split at hp <;> exact absurd hp (List.cons_ne_nil _ _)
      | cons t ts => rfl

omit [DecidableEq α] in
theorem terminated_cons (t : List α) (parts : List (List α)) :
    terminated d (t :: parts) = t ++ d :: terminated d parts := by
  simp only [terminated, List.flatMap_cons, List.append_assoc, List.cons_append, List.nil_append]

omit [DecidableEq α] in
theorem terminated_cons_append (t : List α) (parts : List (List α)) (s : List α) :
    terminated d (t :: parts) ++ s = t ++ d :: (terminated d parts ++ s) := by
  rw [terminated_cons, List.append_assoc, List.cons_append]

/-- The pieces of a terminated string. -/
theorem pieces_terminated {parts : List (List α)} (h : ∀ t ∈ parts, d ∉ t) (s : List α) :
    pieces d (terminated d parts ++ s) = parts ++ pieces d s := by
  induction parts with
  | nil => rfl
  | cons t parts ih =>
    rw [terminated_cons_append, pieces_append (h t List.mem_cons_self),
      ih fun u hu => h u (List.mem_cons_of_mem t hu), List.cons_append]

/-- Pieces with separators between them are read back when the last one is not empty. -/
theorem pieces_intercalate_of_last {parts : List (List α)} (h : ∀ t ∈ parts, d ∉ t)
    (hlast : ∀ t ∈ parts.getLast?, t ≠ []) : pieces d (List.intercalate [d] parts) = parts := by
  induction parts with
  | nil => rfl
  | cons t parts ih =>
    have ht := h t List.mem_cons_self
    cases parts with
    | nil =>
      rw [List.intercalate_singleton]
      exact pieces_of_notMem ht (hlast t rfl)
    | cons u parts =>
      have hrest := ih (fun v hv => h v (List.mem_cons_of_mem t hv))
        (by rwa [List.getLast?_cons_cons] at hlast)
      rw [List.intercalate_cons_cons, List.append_assoc, List.singleton_append,
        pieces_append ht, hrest]

/-- Pieces with separators between them are read back. -/
theorem pieces_intercalate {parts : List (List α)} (h : ∀ t ∈ parts, d ∉ t ∧ t ≠ []) :
    pieces d (List.intercalate [d] parts) = parts :=
  pieces_intercalate_of_last (fun t ht => (h t ht).1)
    fun t ht => (h t (List.mem_of_getLast? ht)).2

omit [DecidableEq α] in
/-- The first separators of equal strings stand at the same place. -/
theorem cut_unique {t u s s' : List α} (ht : d ∉ t) (hu : d ∉ u)
    (h : t ++ d :: s = u ++ d :: s') : t = u ∧ s = s' := by
  induction t generalizing u with
  | nil =>
    cases u with
    | nil => exact ⟨rfl, (List.cons.inj h).2⟩
    | cons y u =>
      have hy : d = y := (List.cons.inj h).1
      exact absurd (hy ▸ List.mem_cons_self) hu
  | cons x t ih =>
    obtain ⟨hx, ht'⟩ := not_or.mp (List.mem_cons.not.mp ht)
    cases u with
    | nil =>
      have hy : x = d := (List.cons.inj h).1
      exact absurd hy.symm hx
    | cons y u =>
      obtain ⟨rfl, htail⟩ := List.cons.inj h
      obtain ⟨rfl, rfl⟩ := ih ht' (not_or.mp (List.mem_cons.not.mp hu)).2 htail
      exact ⟨rfl, rfl⟩

omit [DecidableEq α] in
/-- A piece and its separator at the front of a string are the first piece. -/
theorem cut_initial {t u s : List α} (ht : d ∉ t) (hu : d ∉ u) (h : t ++ [d] <+: u ++ d :: s) :
    t = u := by
  obtain ⟨r, hr⟩ := h
  rw [List.append_assoc] at hr
  exact (cut_unique ht hu hr).1

omit [DecidableEq α] in
/-- A string without separators is the front of a string if it is the front of its first piece. -/
theorem isPrefix_append_iff {t u s : List α} (ht : d ∉ t) : t <+: u ++ d :: s ↔ t <+: u := by
  refine ⟨fun h => ?_, fun h => h.trans (List.prefix_append u _)⟩
  rcases List.prefix_or_prefix_of_prefix h (List.prefix_append u (d :: s)) with hu | ⟨r, rfl⟩
  · exact hu
  · cases r with
    | nil => rw [List.append_nil]
    | cons x r =>
      rw [List.prefix_append_right_inj, List.cons_prefix_cons] at h
      exact absurd (List.mem_append_right u (h.1 ▸ List.mem_cons_self)) ht

omit [DecidableEq α] in
/-- Terminated strings of equally many pieces are equal only if all pieces are. -/
theorem terminated_inj {ps qs : List (List α)} {s s' : List α} (hp : ∀ t ∈ ps, d ∉ t)
    (hq : ∀ t ∈ qs, d ∉ t) (hlen : ps.length = qs.length)
    (h : terminated d ps ++ s = terminated d qs ++ s') : ps = qs ∧ s = s' := by
  induction ps generalizing qs with
  | nil =>
    cases qs with
    | nil => exact ⟨rfl, h⟩
    | cons q qs => exact absurd hlen.symm (Nat.succ_ne_zero _)
  | cons p ps ih =>
    cases qs with
    | nil => exact absurd hlen (Nat.succ_ne_zero _)
    | cons q qs =>
      rw [terminated_cons_append, terminated_cons_append] at h
      obtain ⟨rfl, hrest⟩ := cut_unique (hp p List.mem_cons_self) (hq q List.mem_cons_self) h
      obtain ⟨rfl, rfl⟩ := ih (fun t ht => hp t (List.mem_cons_of_mem p ht))
        (fun t ht => hq t (List.mem_cons_of_mem p ht)) (Nat.succ.inj hlen) hrest
      exact ⟨rfl, rfl⟩

omit [DecidableEq α] in
theorem terminated_append (ps qs : List (List α)) :
    terminated d (ps ++ qs) = terminated d ps ++ terminated d qs := List.flatMap_append

end HM4.Separated
