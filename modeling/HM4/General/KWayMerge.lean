import Mathlib.Data.List.Destutter
import Mathlib.Data.List.Sort
import Mathlib.Order.Basic
import Mathlib.Data.List.Perm.Lattice

/-!
# Merging sorted runs

A merge takes, as often as it can, the head of a run that no other head is ahead
of. What comes out is a permutation of the runs; it is sorted if the runs are.
For values with a key and a time, ordered by key and then newest first, the first
of every block of equal keys is the newest value of its key.
-/

namespace HM4.KWayMerge

variable {α : Type*}

/-- A sequence that a merge of the runs may give. -/
inductive Merges (ahead : α → α → Prop) : List (List α) → List α → Prop
  | nil {runs : List (List α)} (h : ∀ r ∈ runs, r = []) : Merges ahead runs []
  | cons {runs others : List (List α)} {x : α} {r out : List α}
      (hruns : runs.Perm ((x :: r) :: others))
      (hfirst : ∀ q ∈ others, ∀ y ∈ q.head?, ¬ ahead y x)
      (h : Merges ahead (r :: others) out) : Merges ahead runs (x :: out)

variable {ahead : α → α → Prop} {runs runs' : List (List α)} {out out' : List α}

/-- The order of the runs does not matter. -/
theorem Merges.of_perm (h : Merges ahead runs out) (hp : runs.Perm runs') :
    Merges ahead runs' out := by
  cases h with
  | nil h => exact .nil fun r hr => h r (hp.symm.subset hr)
  | cons hruns hfirst h => exact .cons (hp.symm.trans hruns) hfirst h

/-- A run that has ended may be dropped or kept. -/
theorem Merges.cons_nil (h : Merges ahead runs out) : Merges ahead ([] :: runs) out := by
  induction h with
  | nil h =>
    refine .nil fun r hr => ?_
    rcases List.mem_cons.mp hr with rfl | hr
    · rfl
    · exact h r hr
  | @cons runs others x r out hruns hfirst _ ih =>
    have hperm := (hruns.cons []).trans (.swap _ _ others)
    refine .cons hperm ?_ (ih.of_perm (.swap _ _ _))
    intro q hq y hy
    rcases List.mem_cons.mp hq with rfl | hq
    · simp at hy
    · exact hfirst q hq y hy

/-- Only the runs that hold something matter. -/
theorem Merges.of_filter (p : List α → Bool) (hp : ∀ r ∈ runs, p r = false → r = [])
    (h : Merges ahead (runs.filter p) out) : Merges ahead runs out := by
  have hadd : ∀ ends : List (List α), (∀ r ∈ ends, r = []) →
      Merges ahead (ends ++ runs.filter p) out := by
    intro ends hends
    induction ends with
    | nil => exact h
    | cons r ends ih =>
      obtain ⟨rfl, hrest⟩ := List.forall_mem_cons.mp hends
      exact (ih hrest).cons_nil
  refine (hadd (runs.filter (fun r => !p r)) fun r hr => ?_).of_perm
    (List.perm_append_comm.trans (List.filter_append_perm p runs))
  obtain ⟨hr, hpr⟩ := List.mem_filter.mp hr
  exact hp r hr (by simpa using hpr)

/-- What comes out is what the runs hold. -/
theorem Merges.perm (h : Merges ahead runs out) : out.Perm runs.flatten := by
  induction h with
  | @nil runs h =>
    rw [List.flatten_eq_nil_iff.mpr h]
  | @cons runs others x r out hruns _ _ ih =>
    have hflat : runs.flatten.Perm (x :: (r :: others).flatten) := hruns.flatten
    exact (ih.cons x).trans hflat.symm

/-- A merge of sorted runs is sorted. -/
theorem Merges.sorted (htrans : ∀ {p q r}, ¬ ahead q p → ¬ ahead r q → ¬ ahead r p)
    (h : Merges ahead runs out)
    (hs : ∀ r ∈ runs, r.Pairwise (fun p q => ¬ ahead q p)) : out.Pairwise (fun p q => ¬ ahead q p) := by
  induction h with
  | nil _ => exact .nil
  | @cons runs others x r out hruns hfirst hrest ih =>
    have hs' : ∀ q ∈ (x :: r) :: others, q.Pairwise (fun p q => ¬ ahead q p) :=
      fun q hq => hs q (hruns.symm.subset hq)
    obtain ⟨hxr, hothers⟩ := List.forall_mem_cons.mp hs'
    obtain ⟨hx, hr⟩ := List.pairwise_cons.mp hxr
    refine List.pairwise_cons.mpr ⟨fun y hy => ?_, ih (List.forall_mem_cons.mpr ⟨hr, hothers⟩)⟩
    obtain ⟨q, hq, hyq⟩ := List.mem_flatten.mp (hrest.perm.subset hy)
    rcases List.mem_cons.mp hq with rfl | hq
    · exact hx y hyq
    · -- the head of the run of `y` is not ahead of `x`, and `y` is not ahead of that head
      cases q with
      | nil => exact absurd hyq List.not_mem_nil
      | cons z q =>
        have hzx : ¬ ahead z x := hfirst _ hq z rfl
        rcases List.mem_cons.mp hyq with rfl | hyq
        · exact hzx
        · exact htrans hzx ((List.pairwise_cons.mp (hothers _ hq)).1 y hyq)

section Keys

variable {K : Type*} [LinearOrder K] (key : α → K) (time : α → ℕ)

/-- The order of a merge: by key, and newest first among equal keys. -/
def Ahead (p q : α) : Prop := key p < key q ∨ key p = key q ∧ time q < time p

/-- What a merge by keys has to visit: every key of the runs once, in increasing
order, with a newest value of the key. -/
structure Visits (runs : List (List α)) (out : List α) : Prop where
  increasing : out.Pairwise (fun p q => key p < key q)
  mem : ∀ p ∈ out, ∃ r ∈ runs, p ∈ r
  newest : ∀ p ∈ out, ∀ r ∈ runs, ∀ q ∈ r, key q = key p → time q ≤ time p
  complete : ∀ r ∈ runs, ∀ q ∈ r, ∃ p ∈ out, key p = key q

/-- The values of a key are told apart by their times. -/
def NoTie (runs : List (List α)) (k : K) : Prop :=
  ∀ r ∈ runs, ∀ r' ∈ runs, ∀ p ∈ r, ∀ q ∈ r', key p = k → key q = k → time p = time q → p = q

/-- A value and the firsts of the blocks of other keys after it. -/
def firstsFrom (p : α) (l : List α) : List α := l.destutter' (fun p q => key p ≠ key q) p

/-- The first of every block of equal keys. -/
def firsts (l : List α) : List α := l.destutter (fun p q => key p ≠ key q)

variable {key time}

theorem not_ahead_iff {p q : α} :
    ¬ Ahead key time q p ↔ key p < key q ∨ key p = key q ∧ time q ≤ time p := by
  unfold Ahead
  rw [not_or, not_lt, not_and, not_lt]
  constructor
  · rintro ⟨hle, ht⟩
    rcases hle.lt_or_eq with h | h
    · exact .inl h
    · exact .inr ⟨h, ht h.symm⟩
  · rintro (h | ⟨h, ht⟩)
    · exact ⟨h.le, fun heq => absurd heq h.ne'⟩
    · exact ⟨h.le, fun _ => ht⟩

theorem Ahead.asymm {p q : α} (h : Ahead key time p q) : ¬ Ahead key time q p := by
  rw [not_ahead_iff]
  exact h.imp_right fun ⟨hkey, ht⟩ => ⟨hkey, ht.le⟩

theorem not_ahead_trans {p q r : α} (h : ¬ Ahead key time q p) (h' : ¬ Ahead key time r q) :
    ¬ Ahead key time r p := by
  rw [not_ahead_iff] at *
  rcases h with h | ⟨h, ht⟩ <;> rcases h' with h' | ⟨h', ht'⟩
  · exact .inl (h.trans h')
  · exact .inl (h' ▸ h)
  · exact .inl (h ▸ h')
  · exact .inr ⟨h.trans h', ht'.trans ht⟩

/-- A run with increasing keys is sorted for the merge. -/
theorem pairwise_not_ahead {r : List α} (h : r.Pairwise (fun p q => key p < key q)) :
    r.Pairwise (fun p q => ¬ Ahead key time q p) :=
  h.imp fun hlt => not_ahead_iff.mpr (.inl hlt)

@[simp] theorem firsts_nil : firsts key [] = [] := rfl

@[simp] theorem firsts_cons (p : α) (l : List α) : firsts key (p :: l) = firstsFrom key p l := rfl

@[simp] theorem firstsFrom_nil (p : α) : firstsFrom key p [] = [p] := rfl

theorem firstsFrom_cons_of_eq {p q : α} (h : key p = key q) (l : List α) :
    firstsFrom key p (q :: l) = firstsFrom key p l :=
  List.destutter'_cons_neg _ (not_not.mpr h)

theorem firstsFrom_cons_of_ne {p q : α} (h : key p ≠ key q) (l : List α) :
    firstsFrom key p (q :: l) = p :: firstsFrom key q l :=
  List.destutter'_cons_pos _ h

theorem firsts_subset (l : List α) : firsts key l ⊆ l := (List.destutter_sublist _ l).subset

/-- After equal keys the same firsts follow. -/
theorem cons_tail_firstsFrom {p p' : α} (h : key p = key p') (l : List α) :
    p :: (firstsFrom key p' l).tail = firstsFrom key p l := by
  induction l with
  | nil => rfl
  | cons q l ih =>
    by_cases hq : key p = key q
    · rw [firstsFrom_cons_of_eq (h.symm.trans hq), firstsFrom_cons_of_eq hq, ih]
    · have hq' : key p' ≠ key q := by rwa [← h]
      rw [firstsFrom_cons_of_ne hq', firstsFrom_cons_of_ne hq, List.tail_cons]

/-- The firsts of a sorted sequence have increasing keys, and are the newest of their keys. -/
theorem firstsFrom_spec {a : α} {l : List α}
    (h : (a :: l).Pairwise (fun p q => ¬ Ahead key time q p)) :
    (firstsFrom key a l).Pairwise (fun p q => key p < key q) ∧
      ∀ q ∈ a :: l, ∃ p ∈ firstsFrom key a l, key p = key q ∧ time q ≤ time p := by
  induction l generalizing a with
  | nil => simp
  | cons b l ih =>
    obtain ⟨ha, hl⟩ := List.pairwise_cons.mp h
    by_cases hab : key a = key b
    · -- `b` belongs to the block of `a`
      rw [firstsFrom_cons_of_eq hab]
      have hal : (a :: l).Pairwise (fun p q => ¬ Ahead key time q p) :=
        List.pairwise_cons.mpr ⟨fun q hq => ha q (List.mem_cons_of_mem b hq), hl.of_cons⟩
      obtain ⟨hinc, hcov⟩ := ih hal
      refine ⟨hinc, fun q hq => ?_⟩
      rcases List.mem_cons.mp hq with rfl | hq
      · exact hcov q List.mem_cons_self
      · rcases List.mem_cons.mp hq with rfl | hq
        · obtain ⟨p, hp, hpa, hta⟩ := hcov a List.mem_cons_self
          rcases not_ahead_iff.mp (ha q List.mem_cons_self) with hlt | ⟨_, ht⟩
          · exact absurd hab hlt.ne
          · exact ⟨p, hp, hpa.trans hab, ht.trans hta⟩
        · exact hcov q (List.mem_cons_of_mem a hq)
    · rw [firstsFrom_cons_of_ne hab]
      obtain ⟨hinc, hcov⟩ := ih hl
      have hlt : key a < key b := by
        rcases not_ahead_iff.mp (ha b List.mem_cons_self) with hlt | ⟨heq, _⟩
        · exact hlt
        · exact absurd heq hab
      refine ⟨List.pairwise_cons.mpr ⟨fun q hq => ?_, hinc⟩, fun q hq => ?_⟩
      · rcases List.mem_cons.mp (firsts_subset (b :: l) hq) with rfl | hq'
        · exact hlt
        · rcases not_ahead_iff.mp ((List.pairwise_cons.mp hl).1 q hq') with h' | ⟨h', _⟩
          · exact hlt.trans h'
          · exact h' ▸ hlt
      · rcases List.mem_cons.mp hq with rfl | hq
        · exact ⟨q, List.mem_cons_self, rfl, le_rfl⟩
        · obtain ⟨p, hp, hkt⟩ := hcov q hq
          exact ⟨p, List.mem_cons_of_mem a hp, hkt⟩

/-- Values with the same key are the same in what is visited. -/
theorem eq_of_increasing (h : out.Pairwise (fun p q => key p < key q)) {p q : α} (hp : p ∈ out)
    (hq : q ∈ out) (hkey : key p = key q) : p = q := by
  have hnodup : (out.map key).Nodup := List.pairwise_map.mpr (h.imp ne_of_lt)
  exact List.inj_on_of_nodup_map hnodup hp hq hkey

/-- The firsts of a sorted sequence of all values visit every key with its newest value. -/
theorem visits_firsts (hperm : out.Perm runs.flatten)
    (hsorted : out.Pairwise (fun p q => ¬ Ahead key time q p)) :
    Visits key time runs (firsts key out) := by
  have hmem : ∀ p, p ∈ out ↔ ∃ r ∈ runs, p ∈ r := fun p => hperm.mem_iff.trans List.mem_flatten
  obtain ⟨hinc, hcov⟩ : (firsts key out).Pairwise (fun p q => key p < key q) ∧
      ∀ q ∈ out, ∃ p ∈ firsts key out, key p = key q ∧ time q ≤ time p := by
    cases out with
    | nil => simp
    | cons a l => exact firstsFrom_spec hsorted
  refine ⟨hinc, fun p hp => (hmem p).mp (firsts_subset out hp), ?_, ?_⟩
  · intro p hp r hr q hq hkey
    obtain ⟨p', hp', hkey', ht⟩ := hcov q ((hmem q).mpr ⟨r, hr, hq⟩)
    rwa [eq_of_increasing hinc hp' hp (hkey'.trans hkey)] at ht
  · intro r hr q hq
    obtain ⟨p, hp, hkey, _⟩ := hcov q ((hmem q).mpr ⟨r, hr, hq⟩)
    exact ⟨p, hp, hkey⟩

/-- The firsts of a merge of sorted runs visit every key with its newest value. -/
theorem Merges.visits (h : Merges (Ahead key time) runs out)
    (hs : ∀ r ∈ runs, r.Pairwise (fun p q => key p < key q)) :
    Visits key time runs (firsts key out) :=
  visits_firsts h.perm (h.sorted not_ahead_trans fun r hr => pairwise_not_ahead (hs r hr))

/-- If the firsts have increasing keys, the keys do not decrease. -/
theorem pairwise_le_of_firstsFrom {a : α} {l : List α}
    (h : (firstsFrom key a l).Pairwise (fun p q => key p < key q)) :
    (a :: l).Pairwise (fun p q => key p ≤ key q) := by
  induction l generalizing a with
  | nil => exact List.pairwise_singleton _ _
  | cons b l ih =>
    by_cases hab : key a = key b
    · rw [firstsFrom_cons_of_eq hab] at h
      obtain ⟨ha, hl⟩ := List.pairwise_cons.mp (ih h)
      refine List.pairwise_cons.mpr ⟨?_, List.pairwise_cons.mpr ⟨fun q hq => hab ▸ ha q hq, hl⟩⟩
      exact List.forall_mem_cons.mpr ⟨hab.le, ha⟩
    · rw [firstsFrom_cons_of_ne hab] at h
      obtain ⟨ha, hbl⟩ := List.pairwise_cons.mp h
      have hle := ih hbl
      have hab' : key a ≤ key b := by
        refine (ha b ?_).le
        rw [← cons_tail_firstsFrom rfl l]
        exact List.mem_cons_self
      refine List.pairwise_cons.mpr ⟨List.forall_mem_cons.mpr ⟨hab', fun q hq => ?_⟩, hle⟩
      exact hab'.trans ((List.pairwise_cons.mp hle).1 q hq)

theorem pairwise_le_of_firsts {l : List α} (h : (firsts key l).Pairwise (fun p q => key p < key q)) :
    l.Pairwise (fun p q => key p ≤ key q) := by
  cases l with
  | nil => exact .nil
  | cons a l => exact pairwise_le_of_firstsFrom h

/-- Keys that are equal together have the same firsts. -/
theorem firsts_congr {K' : Type*} [LinearOrder K'] {key' : α → K'}
    (h : ∀ p q, key p = key q ↔ key' p = key' q) (l : List α) : firsts key l = firsts key' l := by
  unfold firsts
  cases l with
  | nil => rfl
  | cons a l =>
    change firstsFrom key a l = firstsFrom key' a l
    induction l generalizing a with
    | nil => rfl
    | cons b l ih =>
      by_cases hab : key a = key b
      · rw [firstsFrom_cons_of_eq hab, firstsFrom_cons_of_eq ((h a b).mp hab), ih]
      · rw [firstsFrom_cons_of_ne hab, firstsFrom_cons_of_ne (mt (h a b).mpr hab), ih]

/-- In a run with increasing keys the values from the first one that is not below
a key are those that are not below it. -/
theorem dropWhile_eq_filter {r : List α} (h : r.Pairwise (fun p q => key p < key q)) {k : K}
    {f g : α → Bool} (hf : ∀ p, f p = true ↔ key p < k) (hg : ∀ p, g p = true ↔ k ≤ key p) :
    r.dropWhile f = r.filter g := by
  induction r with
  | nil => rfl
  | cons p r ih =>
    obtain ⟨hp, hr⟩ := List.pairwise_cons.mp h
    by_cases hk : key p < k
    · have hgp : ¬ g p = true := fun hgp => ((hg p).mp hgp).not_gt hk
      rw [List.dropWhile_cons_of_pos ((hf p).mpr hk), List.filter_cons_of_neg hgp, ih hr]
    · have hle : k ≤ key p := not_lt.mp hk
      rw [List.dropWhile_cons_of_neg (fun hfp => hk ((hf p).mp hfp)), List.filter_eq_self.mpr]
      intro q hq
      rcases List.mem_cons.mp hq with rfl | hq
      · exact (hg q).mpr hle
      · exact (hg q).mpr (hle.trans (hp q hq).le)

/-- What is visited first, and then what is left of the runs. -/
theorem Visits.cons {x : α} (h : Visits key time runs' out) (hx : ∃ r ∈ runs, x ∈ r)
    (hgt : ∀ r ∈ runs', ∀ q ∈ r, key x < key q) (hsub : ∀ r' ∈ runs', ∃ r ∈ runs, r' ⊆ r)
    (hcov : ∀ r ∈ runs, ∀ q ∈ r, key q = key x ∧ time q ≤ time x ∨ ∃ r' ∈ runs', q ∈ r') :
    Visits key time runs (x :: out) where
  increasing := by
    refine List.pairwise_cons.mpr ⟨fun q hq => ?_, h.increasing⟩
    obtain ⟨r, hr, hqr⟩ := h.mem q hq
    exact hgt r hr q hqr
  mem p hp := by
    rcases List.mem_cons.mp hp with rfl | hp
    · exact hx
    · obtain ⟨r', hr', hpr⟩ := h.mem p hp
      obtain ⟨r, hr, hsubset⟩ := hsub r' hr'
      exact ⟨r, hr, hsubset hpr⟩
  newest p hp r hr q hq hkey := by
    rcases List.mem_cons.mp hp with rfl | hp
    · rcases hcov r hr q hq with ⟨_, ht⟩ | ⟨r', hr', hqr⟩
      · exact ht
      · exact absurd hkey.symm (hgt r' hr' q hqr).ne
    · rcases hcov r hr q hq with ⟨hqx, _⟩ | ⟨r', hr', hqr⟩
      · obtain ⟨r', hr', hpr⟩ := h.mem p hp
        exact absurd (hqx.symm.trans hkey) (hgt r' hr' p hpr).ne
      · exact h.newest p hp r' hr' q hqr hkey
  complete r hr q hq := by
    rcases hcov r hr q hq with ⟨hqx, _⟩ | ⟨r', hr', hqr⟩
    · exact ⟨x, List.mem_cons_self, hqx.symm⟩
    · obtain ⟨p, hp, hkey⟩ := h.complete r' hr' q hqr
      exact ⟨p, List.mem_cons_of_mem x hp, hkey⟩

section TwoRuns

variable {p q : α} {ps qs : List α}

/-- The head of the first of two runs is visited first. -/
theorem Visits.cons_left (h : Visits key time [ps, qs] out) (hps : ∀ y ∈ ps, key p < key y)
    (hqs : ∀ y ∈ qs, key p < key y) : Visits key time [p :: ps, qs] (p :: out) := by
  refine h.cons ⟨_, List.mem_cons_self, List.mem_cons_self⟩ ?_ ?_ ?_
  · simpa using ⟨hps, hqs⟩
  · simp
  · simpa using ⟨fun a ha => .inr (.inl ha), fun a ha => .inr (.inr ha)⟩

/-- The order of the runs does not matter. -/
theorem Visits.perm (h : Visits key time runs out) (hp : runs.Perm runs') :
    Visits key time runs' out where
  increasing := h.increasing
  mem p hout := by
    obtain ⟨r, hr, hpr⟩ := h.mem p hout
    exact ⟨r, hp.subset hr, hpr⟩
  newest p hout r hr := h.newest p hout r (hp.symm.subset hr)
  complete r hr := h.complete r (hp.symm.subset hr)

/-- The head of the second of two runs is visited first. -/
theorem Visits.cons_right (h : Visits key time [ps, qs] out) (hps : ∀ y ∈ ps, key q < key y)
    (hqs : ∀ y ∈ qs, key q < key y) : Visits key time [ps, q :: qs] (q :: out) :=
  ((h.perm (.swap _ _ _)).cons_left hqs hps).perm (.swap _ _ _)

/-- Heads with the same key are passed together, and the newer one is visited. -/
theorem Visits.cons_both (h : Visits key time [ps, qs] out) (hkey : key p = key q)
    (hps : ∀ y ∈ ps, key p < key y) (hqs : ∀ y ∈ qs, key q < key y) :
    Visits key time [p :: ps, q :: qs] ((if time p < time q then q else p) :: out) := by
  obtain ⟨x, hx⟩ : ∃ x, x = if time p < time q then q else p := ⟨_, rfl⟩
  have hxkey : key x = key p := by
    rw [hx]
    split
    · exact hkey.symm
    · rfl
  have hxtime : time p ≤ time x ∧ time q ≤ time x := by
    rw [hx]
    split <;> omega
  have hxmem : x = p ∨ x = q := by
    rw [hx]
    split <;> simp
  rw [← hx]
  refine h.cons ?_ ?_ ?_ ?_
  · simpa using hxmem.imp .inl .inl
  · simpa [hxkey] using ⟨hps, fun y hy => hkey ▸ hqs y hy⟩
  · simp
  · simpa [hxkey, hkey, hxtime] using ⟨fun a ha => .inr (.inl ha), fun a ha => .inr (.inr ha)⟩

end TwoRuns

/-- The part of the keys that satisfy a condition is visited in the filtered runs. -/
theorem Visits.filter (h : Visits key time runs out) {g : α → Bool}
    (hg : ∀ p q, key p = key q → g p = g q) :
    Visits key time (runs.map (List.filter g)) (out.filter g) where
  increasing := h.increasing.filter _
  mem p hp := by
    obtain ⟨hp, hgp⟩ := List.mem_filter.mp hp
    obtain ⟨r, hr, hpr⟩ := h.mem p hp
    exact ⟨_, List.mem_map_of_mem hr, List.mem_filter.mpr ⟨hpr, hgp⟩⟩
  newest p hp r' hr' q hq hkey := by
    obtain ⟨r, hr, rfl⟩ := List.mem_map.mp hr'
    exact h.newest p (List.mem_filter.mp hp).1 r hr q (List.mem_filter.mp hq).1 hkey
  complete r' hr' q hq := by
    obtain ⟨r, hr, rfl⟩ := List.mem_map.mp hr'
    obtain ⟨hq, hgq⟩ := List.mem_filter.mp hq
    obtain ⟨p, hp, hkey⟩ := h.complete r hr q hq
    exact ⟨p, List.mem_filter.mpr ⟨hp, (hg p q hkey).trans hgq⟩, hkey⟩

/-- Whatever is visited in the same runs has the same keys and times. -/
theorem Visits.times_eq (h : Visits key time runs out) (h' : Visits key time runs out') :
    out.map (fun p => (key p, time p)) = out'.map (fun p => (key p, time p)) := by
  have hsub : ∀ {a b : List α}, Visits key time runs a → Visits key time runs b →
      ∀ p ∈ a, ∃ q ∈ b, key q = key p ∧ time q = time p := by
    intro a b ha hb p hp
    obtain ⟨r, hr, hpr⟩ := ha.mem p hp
    obtain ⟨q, hq, hkey⟩ := hb.complete r hr p hpr
    obtain ⟨r', hr', hqr⟩ := hb.mem q hq
    exact ⟨q, hq, hkey, le_antisymm (ha.newest p hp r' hr' q hqr hkey)
      (hb.newest q hq r hr p hpr hkey.symm)⟩
  have hpair : ∀ {a : List α}, Visits key time runs a →
      (a.map (fun p => (key p, time p))).Pairwise (fun x y : K × ℕ => x.1 < y.1) :=
    fun ha => List.pairwise_map.mpr ha.increasing
  have : Std.Irrefl (fun x y : K × ℕ => x.1 < y.1) := ⟨fun x => lt_irrefl x.1⟩
  have : Std.Asymm (fun x y : K × ℕ => x.1 < y.1) := ⟨fun x y => lt_asymm⟩
  refine (hpair h).eq_of_mem_iff (hpair h') fun x => ?_
  simp only [List.mem_map]
  constructor
  · rintro ⟨p, hp, rfl⟩
    obtain ⟨q, hq, hkey, ht⟩ := hsub h h' p hp
    exact ⟨q, hq, Prod.ext hkey ht⟩
  · rintro ⟨p, hp, rfl⟩
    obtain ⟨q, hq, hkey, ht⟩ := hsub h' h p hp
    exact ⟨q, hq, Prod.ext hkey ht⟩

/-- Whatever is visited in the same runs is the same, for keys without a tie. -/
theorem Visits.eq_of_noTie (h : Visits key time runs out) (h' : Visits key time runs out')
    {p q : α} (hp : p ∈ out) (hq : q ∈ out') (hkey : key p = key q) (hno : NoTie key time runs (key p)) :
    p = q := by
  obtain ⟨r, hr, hpr⟩ := h.mem p hp
  obtain ⟨r', hr', hqr⟩ := h'.mem q hq
  exact hno r hr r' hr' p hpr q hqr rfl hkey.symm
    (le_antisymm (h'.newest q hq r hr p hpr hkey) (h.newest p hp r' hr' q hqr hkey.symm))

end Keys

end HM4.KWayMerge
