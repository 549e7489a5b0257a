import Mathlib.Data.List.Count
import Mathlib.Order.MinMax
import Mathlib.Data.Nat.Find

/-!
# Sketches of counters

Each item has some places in a table of counters that stop at a largest number. An addition
goes to all places of its item, and the least counter at the places of an item estimates how
much was added to it. Other items only make the counters larger, so the estimate is never too
small.
-/

namespace HM4.CountSketch

variable {K : Type*} [DecidableEq K] (M : ℕ)

/-- One counter after an addition. -/
def bump (x v : ℕ) : ℕ := min (v + x) M

/-- The table after an addition at some places, one after the other. -/
def add (x : ℕ) (places : List K) (c : K → ℕ) : K → ℕ :=
  places.foldl (fun c k => Function.update c k (bump M x (c k))) c

/-- The least counter at some places, from a number on. -/
def least (c : K → ℕ) (places : List K) (init : ℕ) : ℕ :=
  places.foldl (fun m k => min m (c k)) init

/-- The least number a counter had just after it was added to. -/
def leastAdded (x : ℕ) : List K → (K → ℕ) → ℕ → ℕ
  | [], _, init => init
  | k :: places, c, init =>
    leastAdded x places (Function.update c k (bump M x (c k))) (min init (bump M x (c k)))

variable {M} {x : ℕ} {c : K → ℕ}

theorem bump_le (x v : ℕ) : bump M x v ≤ M := min_le_right _ _

theorem le_bump {v : ℕ} (x : ℕ) (h : v ≤ M) : v ≤ bump M x v := le_min (Nat.le_add_right v x) h

theorem bump_mono (x : ℕ) {v w : ℕ} (h : v ≤ w) : bump M x v ≤ bump M x w :=
  min_le_min_right M (Nat.add_le_add_right h x)

/-- A counter gets an addition as many times as its place occurs. -/
theorem add_apply (hc : ∀ k, c k ≤ M) (places : List K) (k : K) :
    add M x places c k = min (c k + places.count k * x) M := by
  induction places generalizing c with
  | nil => rw [add, List.foldl_nil, List.count_nil, Nat.zero_mul, Nat.add_zero, min_eq_left (hc k)]
  | cons p places ih =>
    have hc' : ∀ j, Function.update c p (bump M x (c p)) j ≤ M := fun j => by
      rw [Function.update_apply]
      split
      · exact bump_le x _
      · exact hc j
    have hstep := ih hc'
    rw [add] at hstep ⊢
    rw [List.foldl_cons, hstep, Function.update_apply, List.count_cons]
    by_cases hk : k = p
    · subst hk
      rw [if_pos rfl, beq_self_eq_true, if_pos rfl, bump, Nat.succ_mul]
      omega
    · rw [if_neg hk, if_neg fun h => hk (eq_of_beq h).symm, Nat.add_zero]

theorem add_le (hc : ∀ k, c k ≤ M) (places : List K) (k : K) : add M x places c k ≤ M := by
  rw [add_apply hc]
  exact min_le_right _ _

theorem le_add (hc : ∀ k, c k ≤ M) (places : List K) (k : K) : c k ≤ add M x places c k := by
  rw [add_apply hc]
  exact le_min (Nat.le_add_right _ _) (hc k)

/-- At its places an addition is seen. -/
theorem bump_le_add (hc : ∀ k, c k ≤ M) {places : List K} {k : K} (hk : k ∈ places) :
    bump M x (c k) ≤ add M x places c k := by
  rw [add_apply hc]
  refine min_le_min_right M (Nat.add_le_add_left ?_ _)
  exact Nat.le_mul_of_pos_left x (List.count_pos_iff.mpr hk)

omit [DecidableEq K] in
theorem le_least_iff {m : ℕ} (places : List K) (init : ℕ) :
    m ≤ least c places init ↔ m ≤ init ∧ ∀ k ∈ places, m ≤ c k := by
  induction places generalizing init with
  | nil => exact ⟨fun h => ⟨h, fun _ hk => absurd hk List.not_mem_nil⟩, And.left⟩
  | cons k places ih =>
    have hstep := ih (min init (c k))
    rw [least] at hstep ⊢
    rw [List.foldl_cons, hstep, le_min_iff, List.forall_mem_cons, and_assoc]

theorem le_leastAdded_iff {m : ℕ} (hc : ∀ k, c k ≤ M) (places : List K) (init : ℕ) :
    m ≤ leastAdded M x places c init ↔ m ≤ init ∧ ∀ k ∈ places, m ≤ bump M x (c k) := by
  induction places generalizing c init with
  | nil => exact ⟨fun h => ⟨h, fun _ hk => absurd hk List.not_mem_nil⟩, And.left⟩
  | cons p places ih =>
    have hc' : ∀ j, Function.update c p (bump M x (c p)) j ≤ M := fun j => by
      rw [Function.update_apply]
      split
      · exact bump_le x _
      · exact hc j
    rw [leastAdded, ih hc', le_min_iff, List.forall_mem_cons, and_assoc]
    refine and_congr_right fun _ => and_congr_right fun hp => forall₂_congr fun k _ => ?_
    rw [Function.update_apply]
    by_cases hk : k = p
    · -- A place that was met before holds more by now, and what it held then was enough.
      subst hk
      rw [if_pos rfl]
      exact iff_of_true (hp.trans (le_bump x (bump_le x _))) hp
    · rw [if_neg hk]

omit [DecidableEq K] in
/-- Some place has the least counter. -/
theorem exists_least (c : K → ℕ) {places : List K} (hne : places ≠ []) :
    ∃ k ∈ places, ∀ j ∈ places, c k ≤ c j := by
  obtain ⟨k, hk⟩ := List.exists_mem_of_ne_nil _ hne
  have hex : ∃ v, ∃ j ∈ places, c j = v := ⟨_, k, hk, rfl⟩
  classical
  obtain ⟨j, hj, hv⟩ := Nat.find_spec hex
  exact ⟨j, hj, fun i hi => hv ▸ Nat.find_min' hex ⟨i, hi, rfl⟩⟩

/-- The least number met on the way is the least counter in the end exactly if, among the
places with the least counter, one occurs once or is full in the end. -/
theorem leastAdded_eq_least_iff (hc : ∀ k, c k ≤ M) (hx : 0 < x) {places : List K}
    (hne : places ≠ []) {init : ℕ} (hinit : M ≤ init) :
    leastAdded M x places c init = least (add M x places c) places init ↔
      ∃ k ∈ places, (∀ j ∈ places, c k ≤ c j) ∧ (places.count k = 1 ∨ M ≤ c k + x) := by
  obtain ⟨k, hk, hmin⟩ := exists_least c hne
  have hway : leastAdded M x places c init = bump M x (c k) := by
    refine le_antisymm ?_ ?_
    · exact ((le_leastAdded_iff hc places init).mp le_rfl).2 k hk
    · exact (le_leastAdded_iff hc places init).mpr
        ⟨(bump_le x _).trans hinit, fun j hj => bump_mono x (hmin j hj)⟩
  have hle : bump M x (c k) ≤ least (add M x places c) places init :=
    (le_least_iff places init).mpr ⟨(bump_le x _).trans hinit, fun j hj =>
      (bump_mono x (hmin j hj)).trans (bump_le_add hc hj)⟩
  rw [hway]
  constructor
  · intro heq
    by_cases hfull : M ≤ c k + x
    · exact ⟨k, hk, hmin, .inr hfull⟩
    · -- Some place ends with the least number, so it began with it and occurs once.
      obtain ⟨j, hj, hjle⟩ : ∃ j ∈ places, add M x places c j ≤ bump M x (c k) := by
        by_contra hno
        have hmore : bump M x (c k) + 1 ≤ least (add M x places c) places init :=
          (le_least_iff places init).mpr ⟨by rw [bump]; omega, fun j hj =>
            Nat.lt_of_not_le fun h => hno ⟨j, hj, h⟩⟩
        omega
      have hone : 0 < places.count j := List.count_pos_iff.mpr hj
      have hmul : places.count j * x = (places.count j - 1) * x + x := by
        rw [← Nat.succ_mul, Nat.succ_eq_add_one, Nat.sub_add_cancel hone]
      have hj' := hmin j hj
      rw [add_apply hc, bump, hmul] at hjle
      have hzero : (places.count j - 1) * x = 0 := by omega
      have hcount := (Nat.mul_eq_zero.mp hzero).resolve_right hx.ne'
      exact ⟨j, hj, fun i hi => le_trans (by omega) (hmin i hi), .inl (by omega)⟩
  · rintro ⟨j, hj, hjmin, hj1⟩
    have hcj : c j = c k := le_antisymm (hjmin k hk) (hmin j hj)
    refine le_antisymm hle ?_
    have hend := ((le_least_iff (c := add M x places c) places init).mp le_rfl).2 j hj
    refine hend.trans ?_
    rw [add_apply hc, bump, hcj]
    rcases hj1 with hcount | hfull
    · rw [hcount, Nat.one_mul]
    · rw [hcj] at hfull
      omega

/-- The counters cover what was added to each item. -/
structure Covers {I : Type*} (M : ℕ) (places : I → List K) (total : I → ℕ) (c : K → ℕ) : Prop where
  le : ∀ k, c k ≤ M
  covers : ∀ i, ∀ k ∈ places i, min (total i) M ≤ c k

section Covers

variable {I : Type*} {places : I → List K} {total : I → ℕ}

omit [DecidableEq K] in
theorem Covers.zero : Covers M places (fun _ => 0) (fun _ => 0) :=
  ⟨fun _ => Nat.zero_le M, fun _ _ _ => min_le_left _ _⟩

/-- An addition that is not made smaller keeps the counters above. -/
theorem Covers.add [DecidableEq I] (h : Covers M places total c) (i : I) (x : ℕ) :
    Covers M places (Function.update total i (total i + x)) (CountSketch.add M x (places i) c) := by
  refine ⟨fun k => add_le h.le (places i) k, fun j k hk => ?_⟩
  rw [Function.update_apply]
  by_cases hj : j = i
  · subst hj
    rw [if_pos rfl]
    have hbefore := h.covers j k hk
    refine le_trans ?_ (bump_le_add h.le hk)
    unfold bump
    omega
  · rw [if_neg hj]
    exact (h.covers j k hk).trans (le_add h.le (places i) k)

omit [DecidableEq K] in
/-- The estimate is not below what was added. -/
theorem Covers.le_least (h : Covers M places total c) (i : I) {init : ℕ} (hinit : M ≤ init) :
    min (total i) M ≤ least c (places i) init :=
  (le_least_iff (places i) init).mpr ⟨(min_le_right _ _).trans hinit, h.covers i⟩

end Covers

end HM4.CountSketch
