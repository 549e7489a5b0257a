import Mathlib.Data.Vector.Basic
import Mathlib.Data.List.Perm.Basic

/-!
# Binary heaps

The heap functions of a standard library over a vector in level order. Taking
the top off moves the hole that it leaves down to a leaf, always along the
larger child, and then lets the value that fills the hole climb up again. What
such a hole preserves is one statement; every operation follows from it.
-/

namespace HM4.BinaryHeap

variable {α : Type*} {m : ℕ} (less : α → α → Bool)

/-- The laws a comparator has to obey: neither way for equivalent values. -/
structure StrictWeak (less : α → α → Bool) : Prop where
  asymm : ∀ {a b}, less a b = true → less b a = false
  trans : ∀ {a b c}, less a b = false → less b c = false → less a c = false

/-- Let the value in the hole climb up to its place, no further than to `top`. -/
def climb (top : ℕ) (v : Vector α m) (hole : ℕ) (h : hole < m) : Vector α m :=
  if hup : top < hole ∧ less (v[(hole - 1) / 2]) v[hole] then
    climb top (v.swap ((hole - 1) / 2) hole (by omega) h) ((hole - 1) / 2) (by omega)
  else v
termination_by hole
decreasing_by omega

/-- Move the hole down along the larger children to a leaf of the first `n`
values, and let its value climb up again. -/
def adjust (n : ℕ) (hn : n ≤ m) (top : ℕ) (v : Vector α m) (hole : ℕ) (h : hole < n) :
    Vector α m :=
  if h2 : 2 * hole + 2 < n then
    if less v[2 * hole + 2] v[2 * hole + 1] then
      adjust n hn top (v.swap hole (2 * hole + 1)) (2 * hole + 1) (by omega)
    else
      adjust n hn top (v.swap hole (2 * hole + 2)) (2 * hole + 2) h2
  else if h1 : 2 * hole + 2 = n then
    climb less top (v.swap hole (2 * hole + 1)) (2 * hole + 1) (by omega)
  else climb less top v hole (by omega)
termination_by n - hole
decreasing_by all_goals omega

/-- The loop of `makeHeap` over the parents below `k`, the last one first. -/
def makeLoop (n : ℕ) (hn : n ≤ m) : (k : ℕ) → k ≤ n → Vector α m → Vector α m
  | 0, _, v => v
  | k + 1, hk, v => makeLoop n hn k (by omega) (adjust less n hn k v k hk)

/-- Make all values a heap. -/
def makeHeap (a : Array α) : Array α :=
  (makeLoop less a.size le_rfl (a.size / 2) (by omega) a.toVector).toArray

/-- Swap the top to the back and make the others a heap. -/
def popHeap (a : Array α) : Array α :=
  if h : 1 < a.size then
    (adjust less (a.size - 1) (by omega) 0
      (a.toVector.swap 0 (a.size - 1) (by omega) (by omega)) 0 (by omega)).toArray
  else a

/-- Let the value at the back join the heap of the others. -/
def pushHeap (a : Array α) : Array α :=
  if h : 0 < a.size then (climb less 0 a.toVector (a.size - 1) (by omega)).toArray else a

/-- The first `n` values are a heap. -/
def IsHeap (a : Array α) (n : ℕ) : Prop :=
  ∀ j (hj : j < a.size), 0 < j → j < n → less (a[(j - 1) / 2]) a[j] = false

/-- A place in the tree below another one, or the same. -/
inductive Below (top : ℕ) : ℕ → Prop
  | refl : Below top top
  | child {j : ℕ} (hj : 0 < j) (h : Below top ((j - 1) / 2)) : Below top j

/-- Among the first `n` values no child at or below `top` is above its parent. -/
def HeapOn (v : Vector α m) (n : ℕ) (hn : n ≤ m) (top : ℕ) : Prop :=
  ∀ j (hj : j < n), 0 < j → top ≤ (j - 1) / 2 → less (v[(j - 1) / 2]) v[j] = false

/-- As `HeapOn`, but for the edges at the hole; the children of the hole are not
above its parent. -/
structure HoleAt (v : Vector α m) (n : ℕ) (hn : n ≤ m) (top hole : ℕ) : Prop where
  bound : hole < n
  below : Below top hole
  other : ∀ j (hj : j < n), 0 < j → top ≤ (j - 1) / 2 → j ≠ hole → (j - 1) / 2 ≠ hole →
    less (v[(j - 1) / 2]) v[j] = false
  bridge : ∀ j (hj : j < n), 0 < j → (j - 1) / 2 = hole → top < hole →
    less (v[(hole - 1) / 2]) v[j] = false

/-- The children of the hole are not above it. -/
def Settled (v : Vector α m) (n : ℕ) (hn : n ≤ m) (hole : ℕ) : Prop :=
  ∀ j (hj : j < n), 0 < j → (j - 1) / 2 = hole → less (v[(j - 1) / 2]) v[j] = false

section Prefix

variable {less} {n top hole : ℕ} {hn : n ≤ m} {v : Vector α m}

theorem parent_lt {j : ℕ} (h : 0 < j) : (j - 1) / 2 < j := by omega

theorem Below.le {j : ℕ} (h : Below top j) : top ≤ j := by
  induction h with
  | refl => exact le_rfl
  | child hj _ ih => exact ih.trans (parent_lt hj).le

/-- A place below another one has its parent there as well. -/
theorem Below.parent {j : ℕ} (h : Below top j) (hlt : top < j) : Below top ((j - 1) / 2) := by
  cases h with
  | refl => exact absurd hlt (lt_irrefl _)
  | child _ h => exact h

/-- One step up. -/
theorem HoleAt.up (hless : StrictWeak less) (h : HoleAt less v n hn top hole)
    (hs : Settled less v n hn hole) (htop : top < hole) (hhole : hole < m)
    (hup : less (v[(hole - 1) / 2]) v[hole] = true) :
    HoleAt less (v.swap ((hole - 1) / 2) hole (by omega) hhole) n hn top ((hole - 1) / 2) ∧
      Settled less (v.swap ((hole - 1) / 2) hole (by omega) hhole) n hn ((hole - 1) / 2) := by
  have hb := h.bound
  have hp : (hole - 1) / 2 < hole := parent_lt (by omega)
  have hle := (h.below.parent htop).le
  -- a sibling is not above the parent, hence not above what replaces it
  have hsibling : ∀ j (hj : j < n), 0 < j → (j - 1) / 2 = (hole - 1) / 2 → j ≠ hole →
      less v[hole] v[j] = false := by
    intro j hj hpos hpp hjh
    have hold := h.other j hj hpos (by omega) hjh (by omega)
    exact hless.trans (hless.asymm hup) (by simpa only [hpp] using hold)
  refine ⟨⟨by omega, h.below.parent htop, fun j hj hpos htj hne hpne => ?_,
    fun j hj hpos hpar htp => ?_⟩, fun j hj hpos hpar => ?_⟩
  · by_cases hpj : (j - 1) / 2 = hole
    · have := h.bridge j hj hpos hpj htop
      grind
    · have := h.other j hj hpos htj (by grind) hpj
      grind
  · have hpp := ((h.below.parent htop).parent htp).le
    have hedge := h.other ((hole - 1) / 2) (by omega) (by omega) hpp (by omega) (by omega)
    by_cases hjh : j = hole
    · subst hjh
      grind
    · have hold := h.other j hj hpos (by omega) hjh (by omega)
      have := hless.trans hedge (by simpa only [hpar] using hold)
      grind
  · by_cases hjh : j = hole
    · subst hjh
      have := hless.asymm hup
      grind
    · have := hsibling j hj hpos hpar hjh
      grind

/-- Climbing repairs a heap with a hole. -/
theorem heapOn_climb (hless : StrictWeak less) (h : HoleAt less v n hn top hole)
    (hs : Settled less v n hn hole) (hhole : hole < m) :
    HeapOn less (climb less top v hole hhole) n hn top := by
  induction hole using Nat.strong_induction_on generalizing v with
  | h hole ih =>
    rw [climb]
    split
    · next hup =>
      obtain ⟨hhole', hs'⟩ := h.up hless hs hup.1 hhole hup.2
      exact ih _ (parent_lt (by omega)) hhole' hs' _
    · next hup =>
      intro j hj hpos htj
      by_cases hjh : j = hole
      · subst hjh
        have hlt : top < j := by omega
        simpa [hlt] using hup
      · by_cases hpj : (j - 1) / 2 = hole
        · exact hs j hj hpos hpj
        · exact h.other j hj hpos htj hjh hpj

/-- One step down to a child that its sibling is not above. -/
theorem HoleAt.down (h : HoleAt less v n hn top hole) {c : ℕ} (hc : c < n) (hpos : 0 < c)
    (hpar : (c - 1) / 2 = hole)
    (hlarger : ∀ j (hj : j < n), 0 < j → (j - 1) / 2 = hole → j ≠ c → less v[c] v[j] = false) :
    HoleAt less (v.swap hole c (by omega) (by omega)) n hn top c := by
  have hlt : hole < c := by omega
  have htop := h.below.le
  have hbelow : Below top c := .child hpos (by rw [hpar]; exact h.below)
  refine ⟨hc, hbelow, fun j hj hjpos htj hne hpne => ?_, fun j hj hjpos hjpar htc => ?_⟩
  · by_cases hjh : j = hole
    · subst hjh
      have := h.bridge c hc hpos hpar (by omega)
      grind
    · by_cases hpj : (j - 1) / 2 = hole
      · have := hlarger j hj hjpos hpj hne
        grind
      · have := h.other j hj hjpos htj hjh hpj
        grind
  · have := h.other j hj hjpos (by omega) (by omega) (by omega)
    grind

/-- A hole without children is settled. -/
theorem settled_leaf (h : n ≤ 2 * hole + 1) : Settled less v n hn hole := by
  intro j hj hpos hpar
  omega

/-- Moving the hole down and its value up repairs a heap with a hole. -/
theorem heapOn_adjust (hless : StrictWeak less) (h : HoleAt less v n hn top hole) :
    HeapOn less (adjust less n hn top v hole h.bound) n hn top := by
  induction hk : n - hole using Nat.strong_induction_on generalizing v hole with
  | h k ih =>
    subst hk
    rw [adjust]
    split
    · next h2 =>
      split
      · next hl =>
        refine ih _ (by omega) (h.down (by omega) (by omega) (by omega) ?_) rfl
        intro j hj hpos hpar hne
        obtain rfl : j = 2 * hole + 2 := by omega
        exact hless.asymm hl
      · next hl =>
        refine ih _ (by omega) (h.down h2 (by omega) (by omega) ?_) rfl
        intro j hj hpos hpar hne
        obtain rfl : j = 2 * hole + 1 := by omega
        exact Bool.eq_false_iff.mpr hl
    · next h2 =>
      split
      · next h1 =>
        refine heapOn_climb hless (h.down (by omega) (by omega) (by omega) ?_)
          (settled_leaf (by omega)) _
        intro j hj hpos hpar hne
        omega
      · next h1 => exact heapOn_climb hless h (settled_leaf (by omega)) _

theorem climb_perm (hhole : hole < m) :
    (climb less top v hole hhole).toList.Perm v.toList := by
  induction hole using Nat.strong_induction_on generalizing v with
  | h hole ih =>
    rw [climb]
    split
    · next hup =>
      exact (ih _ (parent_lt (by omega)) _).trans
        (Vector.perm_iff_toList_perm.mp (Vector.swap_perm _ _))
    · exact List.Perm.refl _

theorem adjust_perm (hhole : hole < n) :
    (adjust less n hn top v hole hhole).toList.Perm v.toList := by
  induction hk : n - hole using Nat.strong_induction_on generalizing v hole with
  | h k ih =>
    subst hk
    have hswap : ∀ {c : ℕ} (hc : c < n),
        (v.swap hole c (by omega) (by omega)).toList.Perm v.toList :=
      fun hc => Vector.perm_iff_toList_perm.mp (Vector.swap_perm _ _)
    rw [adjust]
    split
    · split
      · exact (ih _ (by omega) _ rfl).trans (hswap (by omega))
      · exact (ih _ (by omega) _ rfl).trans (hswap (by omega))
    · split
      · exact (climb_perm _).trans (hswap (by omega))
      · exact climb_perm _

/-- Climbing moves values above the hole only. -/
theorem getElem_climb (hhole : hole < m) {i : ℕ} (hi : i < m) (h : hole < i) :
    (climb less top v hole hhole)[i] = v[i] := by
  induction hole using Nat.strong_induction_on generalizing v with
  | h hole ih =>
    rw [climb]
    split
    · next hup =>
      rw [ih _ (parent_lt (by omega)) _ (by omega)]
      exact Vector.getElem_swap_of_ne (by omega) (by omega)
    · rfl

/-- The values from `n` on stay where they are. -/
theorem getElem_adjust (hhole : hole < n) {i : ℕ} (hi : i < m) (h : n ≤ i) :
    (adjust less n hn top v hole hhole)[i] = v[i] := by
  induction hk : n - hole using Nat.strong_induction_on generalizing v hole with
  | h k ih =>
    subst hk
    have hswap : ∀ {c : ℕ} (hc : c < n), (v.swap hole c (by omega) (by omega))[i] = v[i] :=
      fun hc => Vector.getElem_swap_of_ne (by omega) (by omega)
    rw [adjust]
    split
    · split
      · exact (ih _ (by omega) _ rfl).trans (hswap (by omega))
      · exact (ih _ (by omega) _ rfl).trans (hswap (by omega))
    · split
      · exact (getElem_climb _ hi (by omega)).trans (hswap (by omega))
      · exact getElem_climb _ hi (by omega)

theorem heapOn_makeLoop (hless : StrictWeak less) {k : ℕ} (hk : k ≤ n)
    (h : HeapOn less v n hn k) : HeapOn less (makeLoop less n hn k hk v) n hn 0 := by
  induction k generalizing v with
  | zero => exact h
  | succ k ih =>
    refine ih _ (heapOn_adjust hless ⟨hk, .refl, ?_, fun _ _ _ _ hlt => absurd hlt (lt_irrefl k)⟩)
    intro j hj hpos htj _ hne
    exact h j hj hpos (by omega)

theorem makeLoop_perm {k : ℕ} (hk : k ≤ n) :
    (makeLoop less n hn k hk v).toList.Perm v.toList := by
  induction k generalizing v with
  | zero => exact List.Perm.refl _
  | succ k ih => exact (ih _).trans (adjust_perm _)

theorem HeapOn.isHeap (h : HeapOn less v n hn 0) : IsHeap less v.toArray n := by
  intro j hj hpos hlt
  simp only [Vector.getElem_toArray]
  exact h j hlt hpos (Nat.zero_le _)

end Prefix

variable {less} {n : ℕ}

/-- `makeHeap` makes a heap. -/
theorem isHeap_makeHeap (hless : StrictWeak less) (a : Array α) :
    IsHeap less (makeHeap less a) a.size := by
  refine (heapOn_makeLoop hless _ ?_).isHeap
  intro j hj hpos htj
  omega

theorem makeHeap_perm (a : Array α) : (makeHeap less a).toList.Perm a.toList :=
  makeLoop_perm _

theorem size_makeHeap (a : Array α) : (makeHeap less a).size = a.size :=
  (makeHeap_perm a).length_eq

/-- The top of a heap is not below any of its values. -/
theorem IsHeap.root (hless : StrictWeak less) (hirr : ∀ a, less a a = false) {a : Array α}
    (h : IsHeap less a n) {j : ℕ} (hj : j < a.size) (hjn : j < n) :
    less (a[0]) a[j] = false := by
  induction j using Nat.strong_induction_on with
  | h j ih =>
    rcases Nat.eq_zero_or_pos j with rfl | hpos
    · exact hirr _
    · exact hless.trans (ih _ (parent_lt hpos) _ (by omega)) (h j hj hpos hjn)

theorem popHeap_perm (a : Array α) : (popHeap less a).toList.Perm a.toList := by
  unfold popHeap
  split
  · exact (adjust_perm _).trans (Vector.perm_iff_toList_perm.mp (Vector.swap_perm _ _))
  · exact List.Perm.refl _

theorem size_popHeap (a : Array α) : (popHeap less a).size = a.size :=
  (popHeap_perm a).length_eq

/-- Popping moves the top to the back. -/
theorem getElem_popHeap (a : Array α) (h : 0 < a.size) (hb : a.size - 1 < (popHeap less a).size) :
    (popHeap less a)[a.size - 1] = a[0] := by
  by_cases hsize : 1 < a.size
  · simp only [popHeap, hsize, dite_true, Vector.getElem_toArray]
    rw [getElem_adjust _ _ (by omega), Vector.getElem_swap_right]
    rfl
  · have hone : a.size - 1 = 0 := by omega
    simp only [popHeap, hsize, dite_false, hone]

/-- Popping leaves a heap before the back. -/
theorem IsHeap.popHeap (hless : StrictWeak less) {a : Array α} (h : IsHeap less a a.size) :
    IsHeap less (popHeap less a) (a.size - 1) := by
  unfold BinaryHeap.popHeap
  split
  · next hsize =>
    refine (heapOn_adjust hless ⟨by omega, .refl, ?_, fun _ _ _ _ hlt => absurd hlt (lt_irrefl 0)⟩).isHeap
    intro j hj hpos _ _ hne
    have hold := h j (by omega) hpos (by omega)
    rw [Vector.getElem_swap_of_ne (by omega) (by omega),
      Vector.getElem_swap_of_ne (by omega) (by omega)]
    exact hold
  · intro j hj hpos hlt
    omega

theorem pushHeap_perm (a : Array α) : (pushHeap less a).toList.Perm a.toList := by
  unfold pushHeap
  split
  · exact climb_perm _
  · exact List.Perm.refl _

theorem size_pushHeap (a : Array α) : (pushHeap less a).size = a.size :=
  (pushHeap_perm a).length_eq

/-- Pushing the back makes all values a heap. -/
theorem IsHeap.pushHeap (hless : StrictWeak less) {a : Array α} (h : IsHeap less a (a.size - 1)) :
    IsHeap less (pushHeap less a) a.size := by
  unfold BinaryHeap.pushHeap
  split
  · next hsize =>
    have hbelow : ∀ j, Below 0 j := by
      intro j
      induction j using Nat.strong_induction_on with
      | h j ih =>
        rcases Nat.eq_zero_or_pos j with rfl | hpos
        · exact .refl
        · exact .child hpos (ih _ (parent_lt hpos))
    refine @HeapOn.isHeap _ _ _ _ le_rfl _ (heapOn_climb hless ⟨by omega, hbelow _, ?_, ?_⟩
      (settled_leaf (by omega)) _)
    · intro j hj hpos _ hne _
      exact h j hj hpos (by omega)
    · intro j hj hpos hpar
      omega
  · intro j hj hpos hlt
    omega

end HM4.BinaryHeap
