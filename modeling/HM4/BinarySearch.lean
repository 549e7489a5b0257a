import HM4.General.BoundedSearch
import Mathlib.Data.Nat.Log

/-!
# The search in a sorted range

The search halves a range and hands over to the linear one when the range is short. Before it
compares it prefetches the elements in the middle of both halves. The right half of a range of one
or two elements is empty, and its middle is the end of the range: at the end of the array there is
no element.
-/

namespace HM4.BinarySearch

open BoundedSearch

variable {σ : Type*}

/-- What a search returns, and the positions that it touches. -/
abbrev Run := Option SearchResult × List ℕ

/-- `linearSearch` of `n` elements from `first`. -/
def linearSearch (comp : Comparator σ) : ℕ → σ → ℕ → Run
  | 0, _, first => (some ⟨false, first⟩, [])
  | n + 1, s, first =>
    match comp s first with
    | none => (none, [first])
    | some (.eq, _) => (some ⟨true, first⟩, [first])
    | some (.gt, _) => (some ⟨false, first⟩, [first])
    | some (.lt, s') =>
      let r := linearSearch comp n s' (first + 1)
      (r.1, first :: r.2)

/-- The elements that are prefetched unless `Prefetch` is `std::nullptr_t`: for the processor those
in the middle of both halves, for the caller the one in the middle of the right half, twice. -/
def prefetched (prefetch : Bool) (start mid stop : ℕ) : List ℕ :=
  if prefetch then
    let start1 := mid + 1
    let end1 := mid
    [start1 + (stop - start1) / 2, start + (end1 - start) / 2, start1 + (stop - start1) / 2,
      start1 + (stop - start1) / 2]
  else []

/-- The loop of `binarySearch` with the linear search behind it. -/
def binarySearch (comp : Comparator σ) (prefetch : Bool) (minimumDistance : ℕ) (s : σ)
    (start stop : ℕ) : Run :=
  if start + minimumDistance < stop then
    let mid := start + (stop - start) / 2
    let touched := prefetched prefetch start mid stop ++ [mid]
    match comp s mid with
    | none => (none, touched)
    | some (.lt, s') =>
      let r := binarySearch comp prefetch minimumDistance s' (mid + 1) stop
      (r.1, touched ++ r.2)
    | some (.gt, s') =>
      let r := binarySearch comp prefetch minimumDistance s' start mid
      (r.1, touched ++ r.2)
    | some (.eq, _) => (some ⟨true, mid⟩, touched)
  else
    linearSearch comp (stop - start) s start
termination_by stop - start

/-! ## Results -/

theorem linearSearch_fst (comp : Comparator σ) (n : ℕ) (s : σ) (first : ℕ) :
    (linearSearch comp n s first).1 = BoundedSearch.linearSearch comp n s first := by
  induction n generalizing s first with
  | zero => rfl
  | succ n ih =>
    rw [linearSearch, BoundedSearch.linearSearch]
    cases comp s first with
    | none => rfl
    | some x =>
      obtain ⟨o, s'⟩ := x
      cases o with
      | lt => exact ih s' (first + 1)
      | eq => rfl
      | gt => rfl

theorem binarySearch_fst (comp : Comparator σ) (prefetch : Bool) (md : ℕ) (s : σ)
    (start stop : ℕ) :
    (binarySearch comp prefetch md s start stop).1 =
      BoundedSearch.binarySearch comp md s start stop := by
  induction hd : stop - start using Nat.strong_induction_on generalizing s start stop with
  | _ d ih =>
    rw [binarySearch, BoundedSearch.binarySearch]
    by_cases hlong : start + md < stop
    · rw [if_pos hlong, if_pos hlong]
      dsimp only
      cases comp s (start + (stop - start) / 2) with
      | none => rfl
      | some x =>
        obtain ⟨o, s'⟩ := x
        cases o with
        | lt => exact ih _ (by omega) s' _ _ rfl
        | eq => rfl
        | gt => exact ih _ (by omega) s' _ _ rfl
    · rw [if_neg hlong, if_neg hlong]
      exact linearSearch_fst comp _ s start

/-- The lower bound of a key: found if some element compares equal, and otherwise the first
position whose element is greater. -/
structure IsLowerBound (order : ℕ → Ordering) (size : ℕ) (r : SearchResult) : Prop where
  found_iff : r.found = true ↔ ∃ i, i < size ∧ order i = .eq
  found : r.found = true → r.pos < size ∧ order r.pos = .eq
  le_size : r.pos ≤ size
  below : ∀ i, i < r.pos → order i = .lt
  above : r.found = false → r.pos < size → order r.pos = .gt


/-- The result that locates the key in a strict order is the lower bound. -/
theorem isLowerBound_of_locates {order : ℕ → Ordering} {size : ℕ} {r : SearchResult}
    (hs : StrictOrder order 0 size) (h : Locates order 0 size r) : IsLowerBound order size r where
  found_iff := by
    constructor
    · intro hr
      exact ⟨r.pos, h.found_iff.mp hr⟩
    · intro ⟨i, hi, ho⟩
      have hle : r.pos ≤ i := by
        by_contra hlt
        have hbelow := h.below i (Nat.zero_le i) (Nat.not_le.mp hlt)
        simp [ho] at hbelow
      obtain rfl | hlt := Nat.eq_or_lt_of_le hle
      · exact h.found_iff.mpr ⟨hi, ho⟩
      · have hgt := hs r.pos i (Nat.zero_le _) hlt hi (h.above r.pos le_rfl (hlt.trans hi))
        simp [ho] at hgt
  found := h.found_iff.mp
  le_size := h.le_hi
  below i hi := h.below i (Nat.zero_le i) hi
  above hr hlt := by
    cases ho : order r.pos with
    | lt => exact absurd ho (h.above r.pos le_rfl hlt)
    | eq => exact absurd (h.found_iff.mpr ⟨hlt, ho⟩) (by simp [hr])
    | gt => rfl

/-! ## Touched positions -/

/-- The linear search touches what lies in its range. -/
theorem linearSearch_touched (comp : Comparator σ) {n : ℕ} {s : σ} {first : ℕ} :
    ∀ i ∈ (linearSearch comp n s first).2, i < first + n := by
  induction n generalizing s first with
  | zero => exact List.forall_mem_nil _
  | succ n ih =>
    rw [linearSearch]
    have hfirst : ∀ i ∈ [first], i < first + (n + 1) := by simp
    cases comp s first with
    | none => exact hfirst
    | some x =>
      obtain ⟨o, s'⟩ := x
      cases o with
      | lt =>
        intro i hi
        have hi' : i = first ∨ i ∈ (linearSearch comp n s' (first + 1)).2 := by simpa using hi
        obtain rfl | hi' := hi'
        · omega
        · have hlt := ih i hi'
          omega
      | eq => exact hfirst
      | gt => exact hfirst

/-- What is prefetched lies in the range if the right half has an element, and its end is
prefetched if not. -/
theorem prefetched_lt_iff {prefetch : Bool} {start mid stop size : ℕ} (h1 : start ≤ mid)
    (h2 : mid < stop) (h3 : stop ≤ size) :
    (∀ i ∈ prefetched prefetch start mid stop ++ [mid], i < size) ↔
      (prefetch = true → mid + 1 < stop ∨ stop < size) := by
  cases prefetch with
  | false =>
    simp [prefetched]
    omega
  | true =>
    simp [prefetched]
    omega

/-- A search that does not prefetch, or in a range that ends inside the array, touches nothing
outside. -/
theorem touched_lt_of_lt (comp : Comparator σ) {prefetch : Bool} (md : ℕ) {size : ℕ} {s : σ}
    {start stop : ℕ} (hstop : prefetch = true → stop < size) (hle : start ≤ stop)
    (hsize : stop ≤ size) :
    ∀ i ∈ (binarySearch comp prefetch md s start stop).2, i < size := by
  induction hd : stop - start using Nat.strong_induction_on generalizing s start stop with
  | _ d ih =>
    rw [binarySearch]
    by_cases hlong : start + md < stop
    · rw [if_pos hlong]
      dsimp only
      have h1 : start ≤ start + (stop - start) / 2 := Nat.le_add_right _ _
      have h2 : start + (stop - start) / 2 < stop := by omega
      generalize start + (stop - start) / 2 = mid at h1 h2 ⊢
      have htouched := (prefetched_lt_iff h1 h2 hsize).mpr fun hp => .inr (hstop hp)
      cases comp s mid with
      | none => exact htouched
      | some x =>
        obtain ⟨o, s'⟩ := x
        cases o with
        | lt => exact List.forall_mem_append.mpr ⟨htouched, ih _ (by omega) hstop h2 hsize rfl⟩
        | eq => exact htouched
        | gt =>
          have hmid : prefetch = true → mid < size := fun _ => by omega
          exact List.forall_mem_append.mpr ⟨htouched, ih _ (by omega) hmid h1 (by omega) rfl⟩
    · rw [if_neg hlong]
      intro i hi
      have hlt := linearSearch_touched comp i hi
      omega

/-- How many elements are left when a search has always gone right and comes to the last one or
two: the two highest bits of the size and one are this number and one. -/
def lastRange (size : ℕ) : ℕ := (size + 1) / 2 ^ (Nat.log 2 (size + 1) - 1) - 1

theorem lastRange_half {n : ℕ} (h : 3 ≤ n) : lastRange ((n - 1) / 2) = lastRange n := by
  have hhalf : (n - 1) / 2 + 1 = (n + 1) / 2 := by omega
  have hlog : 0 < Nat.log 2 ((n + 1) / 2) := Nat.log_pos (by norm_num) (by omega)
  unfold lastRange
  rw [hhalf, Nat.log_of_one_lt_of_le (n := n + 1) (by norm_num) (by omega), Nat.add_sub_cancel]
  congr 1
  have hpow : 2 ^ Nat.log 2 ((n + 1) / 2) = 2 * 2 ^ (Nat.log 2 ((n + 1) / 2) - 1) := by
    rw [← Nat.pow_succ', Nat.succ_eq_add_one, Nat.sub_add_cancel hlog]
  rw [hpow, ← Nat.div_div_eq_div_mul]

theorem lastRange_small {n : ℕ} (h : n ≤ 2) : lastRange n = n := by
  obtain rfl | rfl | rfl : n = 0 ∨ n = 1 ∨ n = 2 := by omega
  · decide
  · decide
  · decide

theorem lastRange_le (n : ℕ) : lastRange n ≤ n := by
  unfold lastRange
  have h := Nat.div_le_self (n + 1) (2 ^ (Nat.log 2 (n + 1) - 1))
  omega

/-- A search of the array with this number of elements behind `start` prefetches only elements:
none are left, or the linear search takes the last range, or the element before the last range is
not below the key. -/
def StaysInside (order : ℕ → Ordering) (md size start : ℕ) : Prop :=
  start = size ∨ lastRange (size - start) ≤ md ∨
    lastRange (size - start) < size - start ∧
      order (size - lastRange (size - start) - 1) ≠ .lt

section Search

variable {comp : Comparator σ} {order : ℕ → Ordering} {inv : σ → ℕ → ℕ → Prop}

/-- In a strict order, a middle that is not below the key has nothing below the key behind it. -/
theorem staysInside_of_ne_lt {size start : ℕ} (hs : StrictOrder order 0 size)
    (hlong : 3 ≤ size - start) (ho : order (start + (size - start) / 2) ≠ .lt) (md : ℕ) :
    StaysInside order md size start := by
  have hlast := lastRange_le ((size - start - 1) / 2)
  rw [lastRange_half hlong] at hlast
  have hle : start + (size - start) / 2 ≤ size - lastRange (size - start) - 1 := by omega
  refine .inr (.inr ⟨by omega, ?_⟩)
  obtain heq | hlt := Nat.eq_or_lt_of_le hle
  · rwa [← heq]
  · have hgt := hs _ _ (Nat.zero_le _) hlt (by omega) ho
    simp [hgt]

/-- A middle that is below the key leaves the question to the right half. -/
theorem staysInside_right {size start : ℕ} (hlong : 3 ≤ size - start) (md : ℕ)
    (ho : order (start + (size - start) / 2) = .lt) :
    StaysInside order md size (start + (size - start) / 2 + 1) ↔
      StaysInside order md size start := by
  have hright : size - (start + (size - start) / 2 + 1) = (size - start - 1) / 2 := by omega
  have hlast := lastRange_le ((size - start - 1) / 2)
  unfold StaysInside
  rw [hright, lastRange_half hlong]
  rw [lastRange_half hlong] at hlast
  generalize lastRange (size - start) = k at hlast ⊢
  constructor
  · rintro (h | h | ⟨h, hne⟩)
    · omega
    · exact .inr (.inl h)
    · exact .inr (.inr ⟨by omega, hne⟩)
  · rintro (h | h | ⟨h, hne⟩)
    · omega
    · exact .inr (.inl h)
    · refine .inr (.inr ⟨?_, hne⟩)
      by_contra hk
      have hmid : size - k - 1 = start + (size - start) / 2 := by omega
      rw [hmid] at hne
      exact hne ho

/-- From any place a search touches elements alone exactly if it stays inside. -/
theorem touched_lt_iff (ht : Tells comp order inv) (md : ℕ) {size start : ℕ} {s : σ}
    (hs : StrictOrder order 0 size) (hle : start ≤ size) (hinv : inv s start size) :
    (∀ i ∈ (binarySearch comp true md s start size).2, i < size) ↔
      StaysInside order md size start := by
  induction hd : size - start using Nat.strong_induction_on generalizing s start with
  | _ d ih =>
    rw [binarySearch]
    by_cases hlong : start + md < size
    · rw [if_pos hlong]
      dsimp only
      have h1 : start ≤ start + (size - start) / 2 := Nat.le_add_right _ _
      have h2 : start + (size - start) / 2 < size := by omega
      obtain ⟨s', hc, hlt, hgt⟩ := ht.step s start size _ hinv h1 h2
      have htouched := @prefetched_lt_iff true _ _ _ _ h1 h2 le_rfl
      by_cases hshort : size - start ≤ 2
      · -- The end of the array is prefetched.
        have hfirst : ¬∀ i ∈ prefetched true start (start + (size - start) / 2) size ++
            [start + (size - start) / 2], i < size := by
          rw [htouched]
          simp
          omega
        have hout : ¬StaysInside order md size start := by
          unfold StaysInside
          rw [lastRange_small hshort]
          omega
        refine iff_of_false (fun h => hfirst fun i hi => h i ?_) hout
        rw [hc]
        cases order (start + (size - start) / 2) with
        | lt => exact List.mem_append_left _ hi
        | eq => exact hi
        | gt => exact List.mem_append_left _ hi
      · have hfirst := htouched.mpr fun _ => .inl (by omega)
        rw [hc]
        cases ho : order (start + (size - start) / 2) with
        | lt =>
          dsimp only
          rw [List.forall_mem_append, and_iff_right hfirst,
            ih _ (by omega) (by omega) (hlt ho) rfl, staysInside_right (by omega) md ho]
        | eq =>
          refine iff_of_true hfirst (staysInside_of_ne_lt hs (by omega) ?_ md)
          simp [ho]
        | gt =>
          refine iff_of_true (List.forall_mem_append.mpr ⟨hfirst, ?_⟩)
            (staysInside_of_ne_lt hs (by omega) (by simp [ho]) md)
          exact touched_lt_of_lt comp md (fun _ => h2) h1 h2.le
    · rw [if_neg hlong]
      have hlast := lastRange_le (size - start)
      refine iff_of_true (fun i hi => ?_) (.inr (.inl (by omega)))
      have hlt := linearSearch_touched comp i hi
      omega

/-- The search returns the lower bound, which is what the linear search returns. -/
theorem binarySearch_result (ht : Tells comp order inv) (prefetch : Bool) (md : ℕ) {size : ℕ}
    {s : σ} (hs : StrictOrder order 0 size) (hinv : inv s 0 size) :
    ∃ r, (binarySearch comp prefetch md s 0 size).1 = some r ∧ IsLowerBound order size r ∧
      (linearSearch comp size s 0).1 = some r := by
  rw [binarySearch_fst, linearSearch_fst]
  obtain ⟨r, hr, hloc⟩ := binarySearch_locates ht md (Nat.zero_le size) hs hinv
  rw [← Nat.zero_add size] at hs hinv
  obtain ⟨r', hr', hloc'⟩ := linearSearch_locates ht hs hinv
  rw [Nat.zero_add] at hs hloc'
  exact ⟨r, hr, isLowerBound_of_locates hs hloc, hloc'.unique hloc ▸ hr'⟩

/-- For every strictly sorted array, every comparison that tells its order and every minimum
distance: the search returns the lower bound, which is what the linear search returns, and touches
only elements of the array, exactly if it does not prefetch or stays inside. -/
theorem binarySearch_iff (ht : Tells comp order inv) (prefetch : Bool) (md : ℕ) {size : ℕ} {s : σ}
    (hs : StrictOrder order 0 size) (hinv : inv s 0 size) :
    ((∃ r, (binarySearch comp prefetch md s 0 size).1 = some r ∧ IsLowerBound order size r ∧
          (linearSearch comp size s 0).1 = some r) ∧
        ∀ i ∈ (binarySearch comp prefetch md s 0 size).2, i < size) ↔
      (prefetch = true → StaysInside order md size 0) := by
  rw [and_iff_right (binarySearch_result ht prefetch md hs hinv)]
  cases prefetch with
  | false =>
    refine iff_of_true ?_ (by simp)
    exact touched_lt_of_lt comp md (by simp) (Nat.zero_le size) le_rfl
  | true => simp [touched_lt_iff ht md hs (Nat.zero_le size) hinv]

end Search

/-- The order of the elements of a sorted list to a key. -/
def orderTo {α : Type*} [LinearOrder α] (xs : List α) (key : α) (i : ℕ) : Ordering :=
  match xs[i]? with
  | some x => compare x key
  | none => .gt

/-- The elements of a sorted list are in a strict order to any key. -/
theorem strictOrder_orderTo {α : Type*} [LinearOrder α] {xs : List α} (h : xs.Pairwise (· < ·))
    (key : α) : StrictOrder (orderTo xs key) 0 xs.length := by
  intro i j _ hij hj hne
  have hlt : xs[i] < xs[j] := List.pairwise_iff_getElem.mp h i j (by omega) hj hij
  unfold orderTo at hne ⊢
  rw [List.getElem?_eq_getElem (by omega)] at hne
  rw [List.getElem?_eq_getElem hj]
  dsimp only at hne ⊢
  rw [compare_gt_iff_gt]
  rw [Ne, compare_lt_iff_lt, not_lt] at hne
  exact lt_of_le_of_lt hne hlt

/-- The search of three elements for one that is not there, with a prefetch and down to the last
element. -/
theorem binarySearch_iff_three :
    ((∃ r, (binarySearch (pureComparator (orderTo [1, 3, 5] 2)) true 0 () 0 3).1 = some r ∧
          IsLowerBound (orderTo [1, 3, 5] 2) 3 r ∧
          (linearSearch (pureComparator (orderTo [1, 3, 5] 2)) 3 () 0).1 = some r) ∧
        ∀ i ∈ (binarySearch (pureComparator (orderTo [1, 3, 5] 2)) true 0 () 0 3).2, i < 3) ↔
      (true = true → StaysInside (orderTo [1, 3, 5] 2) 0 3 0) :=
  binarySearch_iff (tells_pureComparator _) true 0
    (@strictOrder_orderTo ℕ _ [1, 3, 5] (by decide) 2) trivial

/-- The search of one element for a greater one, with a prefetch and without a minimum distance,
touches the end of the array. -/
theorem touches_end :
    ¬∀ i ∈ (binarySearch (pureComparator (orderTo [1] 2)) true 0 () 0 1).2, i < 1 := by
  have hfirst : 1 ∈ (binarySearch (pureComparator (orderTo [1] 2)) true 0 () 0 1).2 := by
    rw [binarySearch]
    decide
  intro h
  exact absurd (h 1 hfirst) (by decide)

end HM4.BinarySearch
