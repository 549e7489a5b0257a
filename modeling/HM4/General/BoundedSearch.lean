import Mathlib.Order.Compare
import Mathlib.Data.Option.Basic
import Mathlib.Tactic.Linarith

/-!
# Binary search with a linear tail

A range of positions is halved until it is short and is walked in order after
that. The comparator is asked for one position at a time. It carries a state
and may fail, as a comparator does that remembers how much of the key is known
to match. A search is right if the comparator tells the order of every
position that the search asks for, under an invariant of its state and of the
open range.
-/

namespace HM4.BoundedSearch

/-- Whether the position holds the key, and the position. -/
structure SearchResult where
  /-- The key was met. -/
  found : Bool
  /-- Where it was met, or where it would be inserted. -/
  pos : ℕ
  deriving DecidableEq, Repr

/-- A comparator with state: the order of the element at a position relative
to the key, and the next state. -/
abbrev Comparator (σ : Type*) := σ → ℕ → Option (Ordering × σ)

/-- The comparator that remembers nothing and never fails. -/
def pureComparator (order : ℕ → Ordering) : Comparator Unit := fun _ i => some (order i, ())

variable {σ : Type*}

/-- Walk at most `n` positions from `first`. -/
def linearSearch (comp : Comparator σ) : ℕ → σ → ℕ → Option SearchResult
  | 0, _, first => some ⟨false, first⟩
  | n + 1, s, first =>
    match comp s first with
    | none => none
    | some (.eq, _) => some ⟨true, first⟩
    | some (.gt, _) => some ⟨false, first⟩
    | some (.lt, s') => linearSearch comp n s' (first + 1)

/-- Halve the range while more than `minimumDistance` positions are left. -/
def binarySearch (comp : Comparator σ) (minimumDistance : ℕ) (s : σ) (start stop : ℕ) :
    Option SearchResult :=
  if start + minimumDistance < stop then
    let mid := start + (stop - start) / 2
    match comp s mid with
    | none => none
    | some (.lt, s') => binarySearch comp minimumDistance s' (mid + 1) stop
    | some (.gt, s') => binarySearch comp minimumDistance s' start mid
    | some (.eq, _) => some ⟨true, mid⟩
  else
    linearSearch comp (stop - start) s start
termination_by stop - start

/-- The result is the first position of the range that is not below the key. -/
structure Locates (order : ℕ → Ordering) (lo hi : ℕ) (r : SearchResult) : Prop where
  lo_le : lo ≤ r.pos
  le_hi : r.pos ≤ hi
  below : ∀ i, lo ≤ i → i < r.pos → order i = .lt
  above : ∀ i, r.pos ≤ i → i < hi → order i ≠ .lt
  found_iff : r.found = true ↔ r.pos < hi ∧ order r.pos = .eq

/-- There is one result that locates the key. -/
theorem Locates.unique {order : ℕ → Ordering} {lo hi : ℕ} {r r' : SearchResult}
    (h : Locates order lo hi r) (h' : Locates order lo hi r') : r = r' := by
  have hpos : r.pos = r'.pos := by
    rcases lt_trichotomy r.pos r'.pos with hlt | he | hgt
    · exact absurd (h'.below _ h.lo_le hlt) (h.above _ le_rfl (hlt.trans_le h'.le_hi))
    · exact he
    · exact absurd (h.below _ h'.lo_le hgt) (h'.above _ le_rfl (hgt.trans_le h.le_hi))
  have hfound : r.found = r'.found := by
    rw [Bool.eq_iff_iff, h.found_iff, h'.found_iff, hpos]
  cases r
  cases r'
  exact congrArg₂ _ hfound hpos

/-- Positions of a strictly increasing sequence: nothing after a position that
is not below the key is below it or equal to it. -/
def StrictOrder (order : ℕ → Ordering) (lo hi : ℕ) : Prop :=
  ∀ i j, lo ≤ i → i < j → j < hi → order i ≠ .lt → order j = .gt

/-- The order is strict on every part of the range. -/
theorem StrictOrder.mono {order : ℕ → Ordering} {lo hi lo' hi' : ℕ}
    (h : StrictOrder order lo hi) (hl : lo ≤ lo') (hh : hi' ≤ hi) : StrictOrder order lo' hi' :=
  fun i j hi0 hij hj => h i j (hl.trans hi0) hij (hj.trans_le hh)

/-- A position that is not above the key has only lower ones before it. -/
theorem StrictOrder.lt_of_ne_gt {order : ℕ → Ordering} {lo hi i j : ℕ}
    (h : StrictOrder order lo hi) (hl : lo ≤ i) (hij : i < j) (hj : j < hi)
    (hne : order j ≠ .gt) : order i = .lt := by
  by_contra hc
  exact hne (h i j hl hij hj hc)

/-- A result for the part behind lower positions is a result for the whole. -/
theorem Locates.extend_left {order : ℕ → Ordering} {lo mid hi : ℕ} {r : SearchResult}
    (h : Locates order mid hi r) (hl : lo ≤ mid)
    (hlt : ∀ i, lo ≤ i → i < mid → order i = .lt) : Locates order lo hi r where
  lo_le := hl.trans h.lo_le
  le_hi := h.le_hi
  below i h1 h2 := by
    by_cases hm : i < mid
    · exact hlt i h1 hm
    · exact h.below i (not_lt.mp hm) h2
  above := h.above
  found_iff := h.found_iff

/-- A result for the part before higher positions is a result for the whole. -/
theorem Locates.extend_right {order : ℕ → Ordering} {lo mid hi : ℕ} {r : SearchResult}
    (h : Locates order lo mid r) (hm : mid ≤ hi)
    (hgt : ∀ i, mid ≤ i → i < hi → order i = .gt) : Locates order lo hi r where
  lo_le := h.lo_le
  le_hi := h.le_hi.trans hm
  below := h.below
  above i h1 h2 := by
    by_cases hi' : i < mid
    · exact h.above i h1 hi'
    · rw [hgt i (not_lt.mp hi') h2]
      exact Ordering.noConfusion
  found_iff := by
    rw [h.found_iff]
    constructor
    · exact fun hp => ⟨hp.1.trans_le hm, hp.2⟩
    · intro hp
      refine ⟨?_, hp.2⟩
      by_contra hc
      have hg := hgt r.pos (not_lt.mp hc) hp.1
      rw [hp.2] at hg
      exact Ordering.noConfusion hg

/-- A position that holds the key is located there. -/
theorem StrictOrder.locates_eq {order : ℕ → Ordering} {lo hi mid : ℕ}
    (h : StrictOrder order lo hi) (hl : lo ≤ mid) (hh : mid < hi) (he : order mid = .eq) :
    Locates order lo hi ⟨true, mid⟩ where
  lo_le := hl
  le_hi := hh.le
  below i h1 h2 := h.lt_of_ne_gt h1 h2 hh (by rw [he]; exact Ordering.noConfusion)
  above i h1 h2 := by
    rcases Nat.eq_or_lt_of_le h1 with hi' | hi'
    · subst hi'
      exact he ▸ Ordering.noConfusion
    · rw [h mid i hl hi' h2 (by rw [he]; exact Ordering.noConfusion)]
      exact Ordering.noConfusion
  found_iff := iff_of_true rfl ⟨hh, he⟩

/-- The comparator tells the order of every position in the open range, and its
state stays right for the range that is left. -/
structure Tells (comp : Comparator σ) (order : ℕ → Ordering) (inv : σ → ℕ → ℕ → Prop) : Prop where
  step : ∀ s lo hi mid, inv s lo hi → lo ≤ mid → mid < hi →
    ∃ s', comp s mid = some (order mid, s') ∧
      (order mid = .lt → inv s' (mid + 1) hi) ∧ (order mid = .gt → inv s' lo mid)

/-- The linear walk locates the key. -/
theorem linearSearch_locates {comp : Comparator σ} {order : ℕ → Ordering}
    {inv : σ → ℕ → ℕ → Prop} (ht : Tells comp order inv) {n : ℕ} {s : σ} {lo : ℕ}
    (hs : StrictOrder order lo (lo + n)) (hinv : inv s lo (lo + n)) :
    ∃ r, linearSearch comp n s lo = some r ∧ Locates order lo (lo + n) r := by
  induction n generalizing s lo with
  | zero =>
    refine ⟨⟨false, lo⟩, rfl, le_rfl, le_rfl, ?_, ?_, ?_⟩
    · intro i h1 h2
      exact absurd h1 (not_le.mpr h2)
    · intro i h1 h2
      exact absurd h1 (not_le.mpr h2)
    · exact iff_of_false Bool.false_ne_true (fun h => absurd h.1 (lt_irrefl _))
  | succ n ih =>
    obtain ⟨s', hc, hlt, hgt⟩ := ht.step s lo (lo + (n + 1)) lo hinv le_rfl (by omega)
    rw [linearSearch, hc]
    cases ho : order lo with
    | eq =>
      exact ⟨_, rfl, hs.locates_eq le_rfl (by omega) ho⟩
    | gt =>
      refine ⟨_, rfl, le_rfl, by dsimp only; omega, ?_, ?_, ?_⟩
      · intro i h1 h2
        exact absurd h1 (not_le.mpr h2)
      · intro i h1 h2
        rcases Nat.eq_or_lt_of_le h1 with hi' | hi'
        · rw [← hi', ho]
          exact Ordering.noConfusion
        · rw [hs lo i le_rfl hi' h2 (by rw [ho]; exact Ordering.noConfusion)]
          exact Ordering.noConfusion
      · refine iff_of_false Bool.false_ne_true (fun h => ?_)
        rw [ho] at h
        exact Ordering.noConfusion h.2
    | lt =>
      have hn : lo + (n + 1) = lo + 1 + n := by omega
      rw [hn] at hs hlt ⊢
      obtain ⟨r, hr, hloc⟩ := ih (hs.mono (Nat.le_succ lo) le_rfl) (hlt ho)
      refine ⟨r, hr, hloc.extend_left (Nat.le_succ lo) ?_⟩
      intro i h1 h2
      rw [show i = lo by omega, ho]

/-- The search locates the key, whatever the minimum distance. -/
theorem binarySearch_locates {comp : Comparator σ} {order : ℕ → Ordering}
    {inv : σ → ℕ → ℕ → Prop} (ht : Tells comp order inv) (md : ℕ) {s : σ} {lo hi : ℕ}
    (hle : lo ≤ hi) (hs : StrictOrder order lo hi) (hinv : inv s lo hi) :
    ∃ r, binarySearch comp md s lo hi = some r ∧ Locates order lo hi r := by
  induction hd : hi - lo using Nat.strong_induction_on generalizing s lo hi with
  | _ d ih =>
    rw [binarySearch]
    by_cases hlong : lo + md < hi
    · rw [if_pos hlong]
      dsimp only
      have h1 : lo ≤ lo + (hi - lo) / 2 := Nat.le_add_right _ _
      have h2 : lo + (hi - lo) / 2 < hi := by omega
      generalize lo + (hi - lo) / 2 = mid at h1 h2 ⊢
      obtain ⟨s', hc, hlt, hgt⟩ := ht.step s lo hi mid hinv h1 h2
      rw [hc]
      cases ho : order mid with
      | eq => exact ⟨_, rfl, hs.locates_eq h1 h2 ho⟩
      | lt =>
        obtain ⟨r, hr, hloc⟩ := ih (hi - (mid + 1)) (by omega) h2
          (hs.mono (by omega) le_rfl) (hlt ho) rfl
        refine ⟨r, hr, hloc.extend_left (by omega) ?_⟩
        intro i hi1 hi2
        rcases Nat.eq_or_lt_of_le (Nat.le_of_lt_succ hi2) with he | hl
        · rw [he, ho]
        · exact hs.lt_of_ne_gt hi1 hl h2 (by rw [ho]; exact Ordering.noConfusion)
      | gt =>
        obtain ⟨r, hr, hloc⟩ := ih (mid - lo) (by omega) h1
          (hs.mono le_rfl h2.le) (hgt ho) rfl
        refine ⟨r, hr, hloc.extend_right h2.le ?_⟩
        intro i hi1 hi2
        rcases Nat.eq_or_lt_of_le hi1 with he | hl
        · rw [← he, ho]
        · exact hs mid i h1 hl hi2 (by rw [ho]; exact Ordering.noConfusion)
    · rw [if_neg hlong]
      have hn : lo + (hi - lo) = hi := by omega
      rw [← hn] at hs hinv
      have hlin := linearSearch_locates ht hs hinv
      rwa [hn] at hlin

/-! ## What a search asks for -/

/-- The positions that the walk asks for, and the state in which it asks for each. -/
def linearAsked (comp : Comparator σ) : ℕ → σ → ℕ → List (ℕ × σ)
  | 0, _, _ => []
  | n + 1, s, first =>
    (first, s) :: match comp s first with
      | some (.lt, s') => linearAsked comp n s' (first + 1)
      | _ => []

/-- The positions that the search asks for, and the state in which it asks for each. -/
def binaryAsked (comp : Comparator σ) (minimumDistance : ℕ) (s : σ) (start stop : ℕ) :
    List (ℕ × σ) :=
  if start + minimumDistance < stop then
    let mid := start + (stop - start) / 2
    (mid, s) :: match comp s mid with
      | some (.lt, s') => binaryAsked comp minimumDistance s' (mid + 1) stop
      | some (.gt, s') => binaryAsked comp minimumDistance s' start mid
      | _ => []
  else
    linearAsked comp (stop - start) s start
termination_by stop - start

/-- The position is in the range, and the comparator tells its order in the state. -/
def Told (comp : Comparator σ) (order : ℕ → Ordering) (lo hi : ℕ) (x : ℕ × σ) : Prop :=
  lo ≤ x.1 ∧ x.1 < hi ∧ ∃ s', comp x.2 x.1 = some (order x.1, s')

theorem Told.mono {comp : Comparator σ} {order : ℕ → Ordering} {lo hi lo' hi' : ℕ} {x : ℕ × σ}
    (h : Told comp order lo hi x) (hl : lo' ≤ lo) (hh : hi ≤ hi') : Told comp order lo' hi' x :=
  ⟨hl.trans h.1, h.2.1.trans_le hh, h.2.2⟩

/-- The linear walk is told the order of each position that it asks for. -/
theorem linearAsked_told {comp : Comparator σ} {order : ℕ → Ordering} {inv : σ → ℕ → ℕ → Prop}
    (ht : Tells comp order inv) {n : ℕ} {s : σ} {lo : ℕ} (hinv : inv s lo (lo + n)) :
    ∀ x ∈ linearAsked comp n s lo, Told comp order lo (lo + n) x := by
  induction n generalizing s lo with
  | zero => exact List.forall_mem_nil _
  | succ n ih =>
    obtain ⟨s', hc, hlt, -⟩ := ht.step s lo (lo + (n + 1)) lo hinv le_rfl (by omega)
    rw [linearAsked, hc]
    refine List.forall_mem_cons.mpr ⟨⟨le_rfl, by dsimp only; omega, s', hc⟩, ?_⟩
    cases ho : order lo with
    | lt =>
      have hn : lo + (n + 1) = lo + 1 + n := by omega
      rw [hn] at hlt ⊢
      exact fun x hx => (ih (hlt ho) x hx).mono (Nat.le_succ lo) le_rfl
    | eq => exact List.forall_mem_nil _
    | gt => exact List.forall_mem_nil _

/-- The search is told the order of each position that it asks for. -/
theorem binaryAsked_told {comp : Comparator σ} {order : ℕ → Ordering} {inv : σ → ℕ → ℕ → Prop}
    (ht : Tells comp order inv) (md : ℕ) {s : σ} {lo hi : ℕ} (hle : lo ≤ hi) (hinv : inv s lo hi) :
    ∀ x ∈ binaryAsked comp md s lo hi, Told comp order lo hi x := by
  induction hd : hi - lo using Nat.strong_induction_on generalizing s lo hi with
  | _ d ih =>
    rw [binaryAsked]
    by_cases hlong : lo + md < hi
    · rw [if_pos hlong]
      dsimp only
      have h1 : lo ≤ lo + (hi - lo) / 2 := Nat.le_add_right _ _
      have h2 : lo + (hi - lo) / 2 < hi := by omega
      generalize lo + (hi - lo) / 2 = mid at h1 h2 ⊢
      obtain ⟨s', hc, hlt, hgt⟩ := ht.step s lo hi mid hinv h1 h2
      rw [hc]
      refine List.forall_mem_cons.mpr ⟨⟨h1, h2, s', hc⟩, ?_⟩
      cases ho : order mid with
      | eq => exact List.forall_mem_nil _
      | lt =>
        exact fun x hx => (ih (hi - (mid + 1)) (by omega) h2 (hlt ho) rfl x hx).mono
          (by omega) le_rfl
      | gt =>
        exact fun x hx => (ih (mid - lo) (by omega) h1 (hgt ho) rfl x hx).mono le_rfl h2.le
    · rw [if_neg hlong]
      have hn : lo + (hi - lo) = hi := by omega
      rw [← hn] at hinv
      have hlin := linearAsked_told ht hinv
      rwa [hn] at hlin

/-- A comparator without state tells its own order. -/
theorem tells_pureComparator (order : ℕ → Ordering) :
    Tells (pureComparator order) order (fun _ _ _ => True) where
  step _ _ _ _ _ _ _ := ⟨(), rfl, fun _ => trivial, fun _ => trivial⟩

/-- A result for the whole is a result for a part that everything after is above. -/
theorem Locates.restrict_right {order : ℕ → Ordering} {lo mid hi : ℕ} {r : SearchResult}
    (h : Locates order lo hi r) (hl : lo ≤ mid) (hm : mid ≤ hi)
    (hgt : ∀ i, mid ≤ i → i < hi → order i = .gt) : Locates order lo mid r where
  lo_le := h.lo_le
  le_hi := by
    by_contra hc
    have hlt := h.below mid hl (not_le.mp hc)
    rw [hgt mid le_rfl ((not_le.mp hc).trans_le h.le_hi)] at hlt
    exact Ordering.noConfusion hlt
  below := h.below
  above i h1 h2 := h.above i h1 (h2.trans_le hm)
  found_iff := by
    rw [h.found_iff]
    constructor
    · intro hp
      refine ⟨?_, hp.2⟩
      by_contra hc
      have hg := hgt r.pos (not_lt.mp hc) hp.1
      rw [hp.2] at hg
      exact Ordering.noConfusion hg
    · exact fun hp => ⟨hp.1.trans_le hm, hp.2⟩

/-- A result for the whole is a result for a part that everything before is below. -/
theorem Locates.restrict_left {order : ℕ → Ordering} {lo mid hi : ℕ} {r : SearchResult}
    (h : Locates order lo hi r) (hl : lo ≤ mid) (hm : mid ≤ hi)
    (hlt : ∀ i, lo ≤ i → i < mid → order i = .lt) : Locates order mid hi r where
  lo_le := by
    by_contra hc
    exact h.above r.pos le_rfl ((not_le.mp hc).trans_le hm) (hlt _ h.lo_le (not_le.mp hc))
  le_hi := h.le_hi
  below i h1 h2 := h.below i (hl.trans h1) h2
  above := h.above
  found_iff := h.found_iff

/-- A key that was not met belongs at the end exactly if everything is below it. -/
theorem locates_end_iff {order : ℕ → Ordering} {lo hi : ℕ} (h : lo ≤ hi) :
    Locates order lo hi ⟨false, hi⟩ ↔ ∀ i, lo ≤ i → i < hi → order i = .lt := by
  constructor
  · exact fun hl => hl.below
  · intro hlt
    refine ⟨h, le_rfl, hlt, fun i h1 h2 => absurd h1 (not_le.mpr h2), ?_⟩
    exact iff_of_false Bool.false_ne_true (fun hf => absurd hf.1 (lt_irrefl hi))

/-- A key that was not met belongs at the start exactly if the first is above it. -/
theorem StrictOrder.locates_start_iff {order : ℕ → Ordering} {lo hi : ℕ}
    (h : StrictOrder order lo hi) (hlt : lo < hi) :
    Locates order lo hi ⟨false, lo⟩ ↔ order lo = .gt := by
  constructor
  · intro hl
    cases ho : order lo with
    | lt => exact absurd ho (hl.above lo le_rfl hlt)
    | eq => exact absurd (hl.found_iff.mpr ⟨hlt, ho⟩) Bool.false_ne_true
    | gt => rfl
  · intro ho
    refine ⟨le_rfl, hlt.le, fun i h1 h2 => absurd h1 (not_le.mpr h2), ?_, ?_⟩
    · intro i h1 h2
      rcases Nat.eq_or_lt_of_le h1 with he | hl
      · rw [← he, ho]
        exact Ordering.noConfusion
      · rw [h lo i le_rfl hl h2 (by rw [ho]; exact Ordering.noConfusion)]
        exact Ordering.noConfusion
    · refine iff_of_false Bool.false_ne_true (fun hf => ?_)
      rw [ho] at hf
      exact Ordering.noConfusion hf.2

/-- A key that was met at the start is there. -/
theorem StrictOrder.locates_found_iff {order : ℕ → Ordering} {lo hi mid : ℕ}
    (h : StrictOrder order lo hi) (h1 : lo ≤ mid) (h2 : mid < hi) :
    Locates order lo hi ⟨true, mid⟩ ↔ order mid = .eq :=
  ⟨fun hl => (hl.found_iff.mp rfl).2, fun ho => h.locates_eq h1 h2 ho⟩

section Counting

variable {α : Type*}

/-- In a list along which a property is only lost, it holds exactly at the
positions below the number of elements that have it. -/
theorem getElem_iff_lt_countP {P : α → Bool} {l : List α}
    (h : l.Pairwise (fun a b => P b = true → P a = true)) {i : ℕ} (hi : i < l.length) :
    P l[i] = true ↔ i < l.countP P := by
  induction l generalizing i with
  | nil => exact absurd hi (Nat.not_lt_zero _)
  | cons a l ih =>
    obtain ⟨ha, hl⟩ := List.pairwise_cons.mp h
    by_cases hp : P a = true
    · rw [List.countP_cons_of_pos hp]
      cases i with
      | zero => exact iff_of_true hp (Nat.succ_pos _)
      | succ i =>
        rw [List.getElem_cons_succ, ih hl (Nat.lt_of_succ_lt_succ hi), Nat.succ_lt_succ_iff]
    · have hnone : ∀ b ∈ l, ¬ P b = true := fun b hb hbp => hp (ha b hb hbp)
      rw [List.countP_cons_of_neg hp, List.countP_eq_zero.mpr hnone]
      refine iff_of_false ?_ (Nat.not_lt_zero _)
      cases i with
      | zero => exact hp
      | succ i => exact hnone _ (List.getElem_mem _)

end Counting

end HM4.BoundedSearch
