import HM4.Bytes
import Mathlib.Algebra.BigOperators.Group.List.Basic
import Mathlib.Data.List.Rotate

/-!
# The sort of the unsorted list

A range is sorted by the character at one place of the keys: it is cut into the elements below a
pivot, the elements that have the same character, which are sorted by the next one, and those above.
Small ranges, and ranges that were cut too often, are sorted by comparing the rests of the keys. A
character is signed, and there the octets from 128 on come before the end of a key.
-/

namespace HM4.ThreeWayQuickSort

open LexPrefix Bytes

variable {α : Type*} (p : α → Key)

/-! ## Comparing -/

/-- `compareLT`: the rests of the keys from a digit on. -/
def compareLT (a b : α) (digit : ℕ) : Bool := (p a).drop digit < (p b).drop digit

/-- `compareGT`. -/
def compareGT (a b : α) (digit : ℕ) : Bool := compareLT p b a digit

/-- A `char` as `int`. -/
def char (b : Byte) : ℤ := if b.val < 128 then b.val else b.val - 256

/-- `charAt`. -/
def charAt (digit : ℕ) (x : α) : ℤ :=
  match (p x)[digit]? with
  | some b => char b
  | none => -1

/-! ## Small ranges -/

/-- `std::iter_swap` of two elements that are not in order. -/
def order (digit : ℕ) (a b : α) : α × α := if compareGT p a b digit = true then (b, a) else (a, b)

/-- `super2_Sort`. -/
def super2_Sort (digit : ℕ) (a b : α) : List α :=
  let (a, b) := order p digit a b
  [a, b]

/-- `super3_Sort`. -/
def super3_Sort (digit : ℕ) (a b c : α) : List α :=
  let (a, b) := order p digit a b
  let (b, c) := order p digit b c
  let (a, b) := order p digit a b
  [a, b, c]

/-- The inner loop of `insertion_Sort`: the elements before, the last first. -/
def sink (digit : ℕ) (x : α) : List α → List α
  | [] => [x]
  | y :: before =>
    if compareLT p x y digit = true then y :: sink digit x before else x :: y :: before

/-- `insertion_Sort`. -/
def insertion_Sort (digit : ℕ) (range : List α) : List α :=
  (range.foldl (fun before x => sink p digit x before) []).reverse

/-! ## Shell sort -/

/-- The inner loop of `shell_Sort`, and what is written behind it. -/
def shift (digit gap : ℕ) (temp : α) (j : ℕ) (range : List α) : List α :=
  if 0 < gap ∧ gap ≤ j then
    match range[j - gap]? with
    | some y =>
      if compareLT p temp y digit = true then shift digit gap temp (j - gap) (range.set j y)
      else range.set j temp
    | none => range
  else range.set j temp
termination_by j
decreasing_by
  have h : 0 < gap ∧ gap ≤ j := ‹_›
  exact Nat.sub_lt (h.1.trans_le h.2) h.1

/-- A pass with one gap. -/
def shellPass (digit gap : ℕ) (range : List α) : List α :=
  (List.range (range.length - gap)).foldl
    (fun l i =>
      match l[gap + i]? with
      | some temp => shift p digit gap temp (gap + i) l
      | none => l)
    range

/-- The passes from a gap on. -/
def shellGaps (digit gap : ℕ) (range : List α) : List α :=
  if gap = 0 then range else shellGaps digit (gap / 2) (shellPass p digit gap range)
termination_by gap
decreasing_by exact Nat.div_lt_self (Nat.pos_of_ne_zero ‹_›) Nat.one_lt_two

/-- `shell_Sort`. -/
def shell_Sort (digit : ℕ) (range : List α) : List α := shellGaps p digit (range.length / 2) range

/-! ## Partition -/

/-- `std::iter_swap`. -/
def iter_swap (i j : ℕ) (range : List α) : List α :=
  match range[i]?, range[j]? with
  | some x, some y => (range.set i y).set j x
  | _, _ => range

/-- `median`: one of three elements becomes the first of a range up to its last place. -/
def median (digit last : ℕ) (range : List α) : List α :=
  let mid := last / 2
  match range[0]?, range[mid]?, range[last]? with
  | some xa, some xb, some xc =>
    let a := charAt p digit xa
    let b := charAt p digit xb
    let c := charAt p digit xc
    if a > b then
      if b > c then iter_swap 0 mid range
      else if a > c then iter_swap 0 last range
      else range
    else if a > c then range
    else if b > c then iter_swap 0 last range
    else iter_swap 0 mid range
  | _, _, _ => range

/-- What `lt`, `it` and `gt` cut a range into. -/
@[ext]
structure Parts (α : Type*) where
  /-- Before `lt`. -/
  less : List α
  /-- From `lt` up to `it`. -/
  equal : List α
  /-- Behind `gt`. -/
  greater : List α

/-- The last element takes the first place. -/
def lastToFront (l : List α) : List α := l.getLast?.toList ++ l.dropLast

theorem lastToFront_perm (l : List α) : (lastToFront l).Perm l := by
  rcases List.eq_nil_or_concat l with rfl | ⟨before, y, rfl⟩
  · exact List.Perm.refl _
  · rw [lastToFront, List.concat_eq_append, List.getLast?_concat, List.dropLast_concat]
    exact List.perm_append_comm

/-- The loop over what lies between `it` and `gt`. -/
def partition (digit : ℕ) (pivot : ℤ) (rest : List α) (parts : Parts α) : Parts α :=
  match rest with
  | [] => parts
  | x :: rest =>
    let t := charAt p digit x
    if t < pivot then
      -- the first of the equal elements takes the place behind them
      partition digit pivot rest
        { parts with less := parts.less ++ [x], equal := parts.equal.rotate 1 }
    else if t > pivot then
      -- the last of the rest takes the place at `it`
      partition digit pivot (lastToFront rest) { parts with greater := x :: parts.greater }
    else partition digit pivot rest { parts with equal := parts.equal ++ [x] }
termination_by rest.length
decreasing_by
  · exact Nat.lt_succ_self _
  · exact Nat.lt_succ_of_le (lastToFront_perm rest).length_eq.le
  · exact Nat.lt_succ_self _

/-- The pivot that `median` leaves in the first place, and what it cuts the range into. -/
def split (digit : ℕ) (range : List α) : ℤ × Parts α :=
  match median p digit (range.length - 1) range with
  | [] => (-1, ⟨[], [], []⟩)
  | x :: rest => (charAt p digit x, partition p digit (charAt p digit x) rest ⟨[], [x], []⟩)

/-! ## What the parts are -/

variable {p}

theorem iter_swap_perm (i j : ℕ) (range : List α) : (iter_swap i j range).Perm range := by
  unfold iter_swap
  split
  · next x y hx hy =>
    obtain ⟨hi, rfl⟩ := List.getElem?_eq_some_iff.mp hx
    obtain ⟨hj, rfl⟩ := List.getElem?_eq_some_iff.mp hy
    exact List.set_set_perm hi hj
  · exact List.Perm.refl _

theorem median_perm (digit last : ℕ) (range : List α) :
    (median p digit last range).Perm range := by
  unfold median
  dsimp only
  split
  · split_ifs
    all_goals first | exact List.Perm.refl _ | exact iter_swap_perm _ _ _
  · exact List.Perm.refl _

/-- The elements of the parts. -/
def Parts.all (parts : Parts α) : List α := parts.less ++ (parts.equal ++ parts.greater)

/-- The parts of a range that was cut at a pivot. -/
structure Cut (p : α → Key) (digit : ℕ) (pivot : ℤ) (parts : Parts α) : Prop where
  less : ∀ x ∈ parts.less, charAt p digit x < pivot
  equal : ∀ x ∈ parts.equal, charAt p digit x = pivot
  greater : ∀ x ∈ parts.greater, pivot < charAt p digit x

/-- The steps of the loop keep the elements. -/
theorem all_perm (x : α) (rest : List α) (parts : Parts α) :
    (rest ++ Parts.all { parts with less := parts.less ++ [x], equal := parts.equal.rotate 1 }).Perm
        (x :: rest ++ parts.all) ∧
      (lastToFront rest ++ Parts.all { parts with greater := x :: parts.greater }).Perm
        (x :: rest ++ parts.all) ∧
      (rest ++ Parts.all { parts with equal := parts.equal ++ [x] }).Perm
        (x :: rest ++ parts.all) := by
  classical
  have hrotate := fun a => (List.rotate_perm parts.equal 1).count_eq a
  have hlast := fun a => (lastToFront_perm rest).count_eq a
  refine ⟨List.perm_iff_count.mpr fun a => ?_, List.perm_iff_count.mpr fun a => ?_,
    List.perm_iff_count.mpr fun a => ?_⟩
  all_goals
    simp only [Parts.all, List.count_append, List.count_cons, List.count_nil, hrotate, hlast]
    omega

/-- The loop cuts all elements. -/
theorem partition_spec {digit : ℕ} {pivot : ℤ} (rest : List α) {parts : Parts α}
    (h : Cut p digit pivot parts) :
    Cut p digit pivot (partition p digit pivot rest parts) ∧
      (partition p digit pivot rest parts).all.Perm (rest ++ parts.all) ∧
      parts.equal.length ≤ (partition p digit pivot rest parts).equal.length := by
  induction hn : rest.length generalizing rest parts with
  | zero =>
    rw [List.length_eq_zero_iff.mp hn]
    unfold partition
    exact ⟨h, List.Perm.refl _, le_rfl⟩
  | succ n ih =>
    cases rest with
    | nil => exact absurd hn (Nat.succ_ne_zero n).symm
    | cons x rest =>
      have hlen : rest.length = n := Nat.succ.inj hn
      obtain ⟨hless, hgreater, hequal⟩ := all_perm x rest parts
      unfold partition
      dsimp only
      split
      · next hlt =>
        have hcut : Cut p digit pivot
            { parts with less := parts.less ++ [x], equal := parts.equal.rotate 1 } :=
          ⟨fun y hy => (List.mem_append.mp hy).elim (h.less y) fun hy =>
              List.mem_singleton.mp hy ▸ hlt,
            fun y hy => h.equal y (List.mem_rotate.mp hy), h.greater⟩
        obtain ⟨hcut', hperm, hle⟩ := ih rest hcut hlen
        exact ⟨hcut', hperm.trans hless, (List.length_rotate parts.equal 1).ge.trans hle⟩
      · split
        · next hgt =>
          have hcut : Cut p digit pivot { parts with greater := x :: parts.greater } :=
            ⟨h.less, h.equal, List.forall_mem_cons.mpr ⟨hgt, h.greater⟩⟩
          obtain ⟨hcut', hperm, hle⟩ := ih _ hcut ((lastToFront_perm rest).length_eq.trans hlen)
          exact ⟨hcut', hperm.trans hgreater, hle⟩
        · next hge hle =>
          have hx : charAt p digit x = pivot := le_antisymm (not_lt.mp hle) (not_lt.mp hge)
          have hcut : Cut p digit pivot { parts with equal := parts.equal ++ [x] } :=
            ⟨h.less, fun y hy => (List.mem_append.mp hy).elim (h.equal y) fun hy =>
              List.mem_singleton.mp hy ▸ hx, h.greater⟩
          obtain ⟨hcut', hperm, hle'⟩ := ih rest hcut hlen
          refine ⟨hcut', hperm.trans hequal, le_trans ?_ hle'⟩
          rw [List.length_append]
          exact Nat.le_add_right _ _

/-- A range is cut into parts, of which the middle one is not empty. -/
theorem split_spec (p : α → Key) (digit : ℕ) (range : List α) :
    Cut p digit (split p digit range).1 (split p digit range).2 ∧
      (split p digit range).2.all.Perm range ∧
      (range ≠ [] → (split p digit range).2.equal ≠ []) := by
  have hperm := median_perm (p := p) digit (range.length - 1) range
  unfold split
  cases hmedian : median p digit (range.length - 1) range with
  | nil =>
    rw [hmedian] at hperm
    have hnil : range = [] := List.nil_perm.mp hperm
    exact ⟨⟨fun _ h => absurd h List.not_mem_nil, fun _ h => absurd h List.not_mem_nil,
      fun _ h => absurd h List.not_mem_nil⟩, hperm, fun h => absurd hnil h⟩
  | cons x rest =>
    rw [hmedian] at hperm
    have hcut : Cut p digit (charAt p digit x) ⟨[], [x], []⟩ :=
      ⟨fun _ h => absurd h List.not_mem_nil, List.forall_mem_singleton.mpr rfl,
        fun _ h => absurd h List.not_mem_nil⟩
    obtain ⟨hcut', hall, hle⟩ := partition_spec rest hcut
    refine ⟨hcut', hall.trans (List.perm_append_comm.trans hperm), fun _ hnil => ?_⟩
    dsimp only at hnil
    rw [hnil] at hle
    exact absurd hle (Nat.not_succ_le_zero 0)

/-! ## The sort -/

/-- The characters that are left in a range, each key with its end. -/
def size (p : α → Key) (digit : ℕ) (range : List α) : ℕ :=
  (range.map fun x => (p x).length - digit + 1).sum

theorem size_append (digit : ℕ) (l l' : List α) :
    size p digit (l ++ l') = size p digit l + size p digit l' := by
  rw [size, List.map_append, List.sum_append, size, size]

theorem size_perm (p : α → Key) (digit : ℕ) {l l' : List α} (h : l.Perm l') :
    size p digit l = size p digit l' :=
  (h.map _).sum_eq

theorem size_pos {digit : ℕ} {l : List α} (h : l ≠ []) : 0 < size p digit l := by
  cases l with
  | nil => exact absurd rfl h
  | cons x l => exact Nat.add_pos_left (Nat.succ_pos _) _

/-- A digit further on each key is shorter. -/
theorem size_succ {digit : ℕ} {l : List α} (h : ∀ x ∈ l, digit < (p x).length) :
    size p (digit + 1) l + l.length = size p digit l := by
  induction l with
  | nil => rfl
  | cons x l ih =>
    obtain ⟨hx, hl⟩ := List.forall_mem_cons.mp h
    have hrest := ih hl
    simp only [size, List.map_cons, List.sum_cons, List.length_cons] at hrest ⊢
    omega

theorem charAt_of_lt {digit : ℕ} {x : α} (h : digit < (p x).length) :
    charAt p digit x = char (p x)[digit] := by
  unfold charAt
  rw [List.getElem?_eq_getElem h]

theorem charAt_of_le {digit : ℕ} {x : α} (h : (p x).length ≤ digit) : charAt p digit x = -1 := by
  unfold charAt
  rw [List.getElem?_eq_none h]

theorem lt_length_of_charAt {digit : ℕ} {x : α} (h : charAt p digit x ≠ -1) :
    digit < (p x).length := by
  by_contra hle
  exact h (charAt_of_le (Nat.not_lt.mp hle))

/-- The parts are smaller, the middle one at the next digit. -/
theorem size_split (p : α → Key) (digit : ℕ) {range : List α} (hne : range ≠ []) :
    size p digit (split p digit range).2.less < size p digit range ∧
      size p digit (split p digit range).2.greater < size p digit range ∧
      (0 ≤ (split p digit range).1 →
        size p (digit + 1) (split p digit range).2.equal < size p digit range) := by
  obtain ⟨hcut, hperm, hequal⟩ := split_spec p digit range
  have hpos : 0 < size p digit (split p digit range).2.equal := size_pos (hequal hne)
  have hlen := List.length_pos_of_ne_nil (hequal hne)
  have hsum := size_perm p digit hperm
  rw [Parts.all, size_append, size_append] at hsum
  refine ⟨by omega, by omega, fun hpivot => ?_⟩
  have hlt := size_succ (p := p) (l := (split p digit range).2.equal) fun x hx =>
    @lt_length_of_charAt _ p digit x (by rw [hcut.equal x hx]; omega)
  omega

variable (p) (cutoff : ℕ)

/-- Which of the parts is the largest. -/
inductive M3
  | a
  | b
  | c
  deriving DecidableEq

/-- `max3`. -/
def max3 (a b c : ℕ) : M3 := if a > b then if a > c then .a else .c else if b > c then .b else .c

/-- The ranges that are not cut. -/
def smallSort (digit : ℕ) : List α → List α
  | [] => []
  | [a] => [a]
  | [a, b] => super2_Sort p digit a b
  | [a, b, c] => super3_Sort p digit a b c
  | range => insertion_Sort p digit range

/-- `Quick3Way_Sort::sort`, in its loop. The largest part is left to the loop, the others are
sorted one level deeper. -/
def sort (digit deep : ℕ) (range : List α) : List α :=
  if range.length ≤ 6 then smallSort p digit range
  else if deep > cutoff then shell_Sort p digit range
  else
    let parts := (split p digit range).2
    let max := max3 parts.less.length parts.equal.length parts.greater.length
    sort digit (if max = .a then deep else deep + 1) parts.less ++
      ((if hpivot : 0 ≤ (split p digit range).1 then
          sort (digit + 1) (if max = .b then deep else deep + 1) parts.equal
        else parts.equal) ++
        sort digit (if max = .c then deep else deep + 1) parts.greater)
termination_by size p digit range
decreasing_by
  all_goals
    have hsmall : ¬range.length ≤ 6 := ‹_›
    have hne : range ≠ [] := fun h => hsmall (h ▸ Nat.zero_le 6)
    have h := size_split p digit hne
    first | exact h.1 | exact h.2.1 | exact h.2.2 hpivot

/-- `MIN_CUTOFF_DEEP`. -/
def MIN_CUTOFF_DEEP : ℕ := 16

/-- `threeWayQuickSort`. -/
def threeWayQuickSort (range : List α) : List α := sort p MIN_CUTOFF_DEEP 0 1 range

/-! ## The elements are kept -/

theorem order_perm (digit : ℕ) (a b : α) (rest : List α) :
    ((order p digit a b).1 :: (order p digit a b).2 :: rest).Perm (a :: b :: rest) := by
  unfold order
  split
  · exact List.Perm.swap a b rest
  · exact List.Perm.refl _

theorem super3_Sort_perm (digit : ℕ) (a b c : α) : (super3_Sort p digit a b c).Perm [a, b, c] :=
  (order_perm p digit _ _ _).trans
    (((order_perm p digit _ c []).cons _).trans (order_perm p digit a b [c]))

theorem sink_perm (digit : ℕ) (x : α) (before : List α) :
    (sink p digit x before).Perm (x :: before) := by
  induction before with
  | nil => exact List.Perm.refl _
  | cons y before ih =>
    rw [sink]
    split
    · exact (ih.cons y).trans (List.Perm.swap x y before)
    · exact List.Perm.refl _

theorem foldl_sink_perm (digit : ℕ) (range before : List α) :
    (range.foldl (fun before x => sink p digit x before) before).Perm (range ++ before) := by
  induction range generalizing before with
  | nil => exact List.Perm.refl _
  | cons x range ih =>
    exact (ih _).trans (((sink_perm p digit x before).append_left range).trans List.perm_middle)

theorem insertion_Sort_perm (digit : ℕ) (range : List α) :
    (insertion_Sort p digit range).Perm range := by
  have h := foldl_sink_perm p digit range []
  rw [List.append_nil] at h
  exact (List.reverse_perm _).trans h

/-- A hole is filled with the element that was taken out. -/
theorem shift_perm (digit gap : ℕ) (temp : α) {j : ℕ} {range : List α} (hj : j < range.length) :
    (shift p digit gap temp j range).Perm (range.set j temp) := by
  induction j using Nat.strong_induction_on generalizing range with
  | _ j ih =>
    unfold shift
    by_cases hgap : 0 < gap ∧ gap ≤ j
    · rw [if_pos hgap]
      have hlt : j - gap < j := Nat.sub_lt (hgap.1.trans_le hgap.2) hgap.1
      have hprev : j - gap < range.length := hlt.trans hj
      rw [List.getElem?_eq_getElem hprev]
      dsimp only
      split
      · have hrest := @ih (j - gap) hlt (range.set j range[j - gap])
          ((List.length_set ..).symm ▸ hprev)
        have hlen : j < (range.set j temp).length := (List.length_set ..).symm ▸ hj
        have hlen' : j - gap < (range.set j temp).length := (List.length_set ..).symm ▸ hprev
        have hswap := List.set_set_perm hlen hlen'
        rw [List.getElem_set_self, List.getElem_set_ne hlt.ne', List.set_set] at hswap
        exact hrest.trans hswap
      · exact List.Perm.refl _
    · rw [if_neg hgap]

theorem shellPass_perm (digit gap : ℕ) (range : List α) :
    (shellPass p digit gap range).Perm range := by
  refine List.foldlRecOn (motive := fun l : List α => l.Perm range) _ _ (List.Perm.refl range)
    fun l hl i _ => ?_
  split
  · next temp htemp =>
    obtain ⟨hlt, rfl⟩ := List.getElem?_eq_some_iff.mp htemp
    have h := shift_perm p digit gap l[gap + i] hlt
    rw [List.set_getElem_self] at h
    exact h.trans hl
  · exact hl

theorem shellGaps_perm (digit gap : ℕ) (range : List α) :
    (shellGaps p digit gap range).Perm range := by
  induction gap using Nat.strong_induction_on generalizing range with
  | _ gap ih =>
    unfold shellGaps
    by_cases hgap : gap = 0
    · rw [if_pos hgap]
    · rw [if_neg hgap]
      exact (ih _ (Nat.div_lt_self (Nat.pos_of_ne_zero hgap) Nat.one_lt_two) _).trans
        (shellPass_perm p digit gap range)

theorem smallSort_perm (digit : ℕ) (range : List α) : (smallSort p digit range).Perm range := by
  unfold smallSort
  split
  · exact List.Perm.refl _
  · exact List.Perm.refl _
  · exact order_perm p digit _ _ []
  · exact super3_Sort_perm p digit _ _ _
  · exact insertion_Sort_perm p digit _

/-- Whatever the order, no element is lost. -/
theorem sort_perm (digit deep : ℕ) (range : List α) :
    (sort p cutoff digit deep range).Perm range := by
  induction hn : size p digit range using Nat.strong_induction_on generalizing digit deep range with
  | _ n ih =>
    unfold sort
    by_cases hsmall : range.length ≤ 6
    · rw [if_pos hsmall]
      exact smallSort_perm p digit range
    · rw [if_neg hsmall]
      split
      · exact shellGaps_perm p digit _ range
      · have hne : range ≠ [] := fun h => hsmall (h ▸ Nat.zero_le 6)
        obtain ⟨hless, hgreater, hequal⟩ := size_split p digit hne
        have hall := (split_spec p digit range).2.1
        refine List.Perm.trans (List.Perm.append (ih _ (hn ▸ hless) _ _ _ rfl)
          (List.Perm.append ?_ (ih _ (hn ▸ hgreater) _ _ _ rfl))) hall
        split
        · next hpivot => exact ih _ (hn ▸ hequal hpivot) _ _ _ rfl
        · exact List.Perm.refl _

/-- What becomes of the parts. -/
theorem sort_eq_parts (digit deep : ℕ) {range : List α} (hlarge : ¬range.length ≤ 6)
    (hdeep : ¬deep > cutoff) : ∃ l m g, sort p cutoff digit deep range = l ++ (m ++ g) ∧
      l.Perm (split p digit range).2.less ∧ m.Perm (split p digit range).2.equal ∧
      g.Perm (split p digit range).2.greater := by
  unfold sort
  rw [if_neg hlarge, if_neg hdeep]
  refine ⟨_, _, _, rfl, sort_perm p cutoff _ _ _, ?_, sort_perm p cutoff _ _ _⟩
  split
  · exact sort_perm p cutoff _ _ _
  · exact List.Perm.refl _

/-! ## The order -/

/-- The elements are in the order of their keys. -/
def Sorted (p : α → Key) (l : List α) : Prop := l.Pairwise fun x y => p x ≤ p y

/-- The keys of a range agree up to a digit. -/
def Agree (p : α → Key) (digit : ℕ) (range : List α) : Prop :=
  ∃ u : Key, u.length = digit ∧ ∀ x ∈ range, u <+: p x

variable {p}

theorem Agree.subset {digit : ℕ} {l l' : List α} (h : Agree p digit l) (hsub : l' ⊆ l) :
    Agree p digit l' :=
  have ⟨u, hu, hpre⟩ := h
  ⟨u, hu, fun x hx => hpre x (hsub hx)⟩

theorem Agree.perm {digit : ℕ} {l l' : List α} (h : Agree p digit l) (hperm : l'.Perm l) :
    Agree p digit l' := h.subset hperm.subset

/-- Where keys agree, their rests are compared as they are. -/
theorem Agree.compareLT_iff {digit : ℕ} {range : List α} (h : Agree p digit range) {x y : α}
    (hx : x ∈ range) (hy : y ∈ range) : compareLT p x y digit = true ↔ p x < p y := by
  obtain ⟨u, rfl, hpre⟩ := h
  obtain ⟨xs, hxs⟩ := hpre x hx
  obtain ⟨ys, hys⟩ := hpre y hy
  unfold compareLT
  rw [← hxs, ← hys, List.drop_left, List.drop_left, decide_eq_true_iff, ← lex_eq_lt, ← lex_eq_lt,
    lex_append_left]

/-- The elements before are in order, the last first. -/
def Descending (p : α → Key) (l : List α) : Prop := l.Pairwise fun x y => p y ≤ p x

theorem sink_descending {digit : ℕ} {x : α} {before : List α}
    (hagree : Agree p digit (x :: before)) (h : Descending p before) :
    Descending p (sink p digit x before) := by
  induction before with
  | nil => exact List.pairwise_singleton _ _
  | cons y before ih =>
    obtain ⟨hy, hbefore⟩ := List.pairwise_cons.mp h
    have hcompare := hagree.compareLT_iff (x := x) (y := y) List.mem_cons_self
      (List.mem_cons_of_mem x List.mem_cons_self)
    rw [sink]
    split
    · next hlt =>
      have hagree' : Agree p digit (x :: before) := by
        obtain ⟨u, hu, hpre⟩ := hagree
        exact ⟨u, hu, List.forall_mem_cons.mpr ⟨hpre x List.mem_cons_self,
          fun z hz => hpre z (List.mem_cons_of_mem x (List.mem_cons_of_mem y hz))⟩⟩
      refine List.pairwise_cons.mpr ⟨fun z hz => ?_, ih hagree' hbefore⟩
      rcases List.mem_cons.mp ((sink_perm p digit x before).mem_iff.mp hz) with rfl | hz
      · exact (hcompare.mp hlt).le
      · exact hy z hz
    · next hge =>
      have hle : p y ≤ p x := not_lt.mp fun hlt => hge (hcompare.mpr hlt)
      exact List.pairwise_cons.mpr
        ⟨List.forall_mem_cons.mpr ⟨hle, fun z hz => (hy z hz).trans hle⟩, h⟩

/-- `insertion_Sort` sorts. -/
theorem insertion_Sort_sorted {digit : ℕ} {range : List α} (hagree : Agree p digit range) :
    Sorted p (insertion_Sort p digit range) := by
  have hfold : ∀ before : List α, Agree p digit (range ++ before) → Descending p before →
      Descending p (range.foldl (fun before x => sink p digit x before) before) := by
    clear hagree
    induction range with
    | nil => exact fun before _ h => h
    | cons x range ih =>
      intro before hagree h
      refine ih _ (hagree.perm ?_) (sink_descending ?_ h)
      · exact ((sink_perm p digit x before).append_left range).trans List.perm_middle
      · obtain ⟨u, hu, hpre⟩ := hagree
        refine ⟨u, hu, List.forall_mem_cons.mpr ⟨hpre x List.mem_cons_self, fun z hz => ?_⟩⟩
        exact hpre z (List.mem_append_right _ hz)
  exact List.pairwise_reverse.mpr (hfold [] (by rwa [List.append_nil]) List.Pairwise.nil)

/-- The last pass of `shell_Sort` inserts each element into those before. -/
theorem shift_one (digit : ℕ) (temp hole : α) (before rest : List α) :
    shift p digit 1 temp before.length (before.reverse ++ hole :: rest) =
      (sink p digit temp before).reverse ++ rest := by
  have hset : ∀ (x y : α) (l l' : List α), (l.reverse ++ x :: l').set l.length y =
      l.reverse ++ y :: l' := fun x y l l' => by
    rw [← List.length_reverse, List.set_append_right _ _ le_rfl, Nat.sub_self, List.set_cons_zero]
  induction before generalizing hole rest with
  | nil =>
    unfold shift
    rw [if_neg fun h => Nat.not_succ_le_zero 0 h.2]
    rfl
  | cons y before ih =>
    have hgap : 0 < 1 ∧ 1 ≤ (y :: before).length := ⟨Nat.one_pos, Nat.succ_le_succ (Nat.zero_le _)⟩
    have hprev : ((y :: before).reverse ++ hole :: rest)[(y :: before).length - 1]? = some y := by
      rw [List.reverse_cons, List.append_assoc, List.getElem?_append_right (by simp)]
      simp
    unfold shift
    rw [if_pos hgap, hprev, sink]
    dsimp only
    split
    · rw [hset, List.reverse_cons, List.append_assoc, List.length_cons, Nat.add_sub_cancel]
      have hrest := ih y (y :: rest)
      rw [List.singleton_append, hrest, List.reverse_cons, List.append_assoc, List.singleton_append]
    · rw [hset, @List.reverse_cons _ temp, List.append_assoc, List.singleton_append]

/-- A pass with the gap one is `insertion_Sort`. -/
theorem shellPass_one (digit : ℕ) (range : List α) :
    shellPass p digit 1 range = insertion_Sort p digit range := by
  cases range with
  | nil => rfl
  | cons x range =>
    have hloop : ∀ k ≤ range.length, (List.range k).foldl
        (fun l i =>
          match l[1 + i]? with
          | some temp => shift p digit 1 temp (1 + i) l
          | none => l) (x :: range) =
        ((range.take k).foldl (fun before x => sink p digit x before) [x]).reverse ++
          range.drop k := by
      intro k
      induction k with
      | zero => exact fun _ => rfl
      | succ k ih =>
        intro hk
        have hlen : ((range.take k).foldl (fun before x => sink p digit x before) [x]).length =
            1 + k := by
          rw [(foldl_sink_perm p digit (range.take k) [x]).length_eq, List.length_append,
            List.length_take, Nat.min_eq_left (Nat.le_of_succ_le hk), Nat.add_comm]
          rfl
        have hdrop : range.drop k = range[k] :: range.drop (k + 1) := List.drop_eq_getElem_cons hk
        have htake : range.take (k + 1) = range.take k ++ [range[k]] :=
          List.take_succ_eq_append_getElem hk
        have hget : (((range.take k).foldl (fun before x => sink p digit x before) [x]).reverse ++
            range[k] :: range.drop (k + 1))[1 + k]? = some range[k] := by
          rw [← hlen, ← List.length_reverse, List.getElem?_append_right le_rfl, Nat.sub_self]
          rfl
        rw [List.range_succ, List.foldl_append, ih (Nat.le_of_succ_le hk), hdrop, htake,
          List.foldl_append, List.foldl_cons, List.foldl_nil, List.foldl_cons, List.foldl_nil, hget]
        dsimp only
        rw [← hlen, shift_one]
    have hwhole := hloop range.length le_rfl
    rw [List.take_length, List.drop_length, List.append_nil] at hwhole
    exact hwhole

/-- `shell_Sort` sorts, by its last pass. -/
theorem shellGaps_sorted {digit gap : ℕ} {range : List α} (hgap : gap ≠ 0)
    (hagree : Agree p digit range) : Sorted p (shellGaps p digit gap range) := by
  induction gap using Nat.strong_induction_on generalizing range with
  | _ gap ih =>
    unfold shellGaps
    rw [if_neg hgap]
    by_cases hone : gap = 1
    · subst hone
      unfold shellGaps
      rw [if_pos (by decide), shellPass_one]
      exact insertion_Sort_sorted hagree
    · have hlt : gap / 2 < gap := Nat.div_lt_self (Nat.pos_of_ne_zero hgap) Nat.one_lt_two
      exact ih _ hlt (by omega) (hagree.perm (shellPass_perm p digit gap range))

section Order

variable {digit : ℕ} {range : List α} (hagree : Agree p digit range) {a b : α} (ha : a ∈ range)
  (hb : b ∈ range)

include ha hb

theorem order_mem : (order p digit a b).1 ∈ range ∧ (order p digit a b).2 ∈ range := by
  unfold order
  split
  · exact ⟨hb, ha⟩
  · exact ⟨ha, hb⟩

include hagree

theorem order_le : p (order p digit a b).1 ≤ p (order p digit a b).2 ∧
    p a ≤ p (order p digit a b).2 ∧ p b ≤ p (order p digit a b).2 := by
  have hcompare : compareGT p a b digit = true ↔ p b < p a := hagree.compareLT_iff hb ha
  unfold order
  split
  · next h =>
    have hlt := hcompare.mp h
    exact ⟨hlt.le, le_rfl, hlt.le⟩
  · next h =>
    have hle : p a ≤ p b := not_lt.mp fun hlt => h (hcompare.mpr hlt)
    exact ⟨hle, hle, le_rfl⟩

end Order

theorem super3_Sort_sorted {digit : ℕ} {a b c : α} (hagree : Agree p digit [a, b, c]) :
    Sorted p (super3_Sort p digit a b c) := by
  have ha : a ∈ [a, b, c] := List.mem_cons_self
  have hb : b ∈ [a, b, c] := List.mem_cons_of_mem a List.mem_cons_self
  have hc : c ∈ [a, b, c] := List.mem_cons_of_mem a (List.mem_cons_of_mem b List.mem_cons_self)
  obtain ⟨hx, hy⟩ := @order_mem _ p digit _ a b ha hb
  obtain ⟨hle1, -, -⟩ := order_le hagree ha hb
  unfold super3_Sort
  generalize order p digit a b = o1 at hx hy hle1 ⊢
  obtain ⟨hy', hz⟩ := @order_mem _ p digit _ o1.2 c hy hc
  obtain ⟨hle2, hyz, -⟩ := order_le hagree hy hc
  dsimp only
  generalize order p digit o1.2 c = o2 at hy' hz hle2 hyz ⊢
  obtain ⟨hle3, -, -⟩ := order_le hagree hx hy'
  have hmem : p (order p digit o1.1 o2.1).1 ≤ p o2.2 ∧ p (order p digit o1.1 o2.1).2 ≤ p o2.2 := by
    unfold order
    split
    · exact ⟨hle2, hle1.trans hyz⟩
    · exact ⟨hle1.trans hyz, hle2⟩
  exact List.pairwise_cons.mpr
    ⟨List.forall_mem_cons.mpr ⟨hle3, List.forall_mem_singleton.mpr hmem.1⟩,
      List.pairwise_pair.mpr hmem.2⟩

/-- The ranges that are not cut are sorted. -/
theorem smallSort_sorted {digit : ℕ} {range : List α} (hagree : Agree p digit range) :
    Sorted p (smallSort p digit range) := by
  unfold smallSort
  split
  · exact List.Pairwise.nil
  · exact List.pairwise_singleton _ _
  · next a b =>
    exact List.pairwise_pair.mpr (order_le hagree List.mem_cons_self
      (List.mem_cons_of_mem a List.mem_cons_self)).1
  · exact super3_Sort_sorted hagree
  · exact insertion_Sort_sorted hagree

/-! ## Where characters are ordered as octets are -/

/-- A key goes on with an octet that is negative as a character. -/
def High (digit : ℕ) (key : Key) : Prop := ∃ b ∈ key[digit]?, 128 ≤ b.val

/-- Of the keys with a prefix that seven of them share, none goes on with such an octet; or they all
do, and those with the same octet are equal. -/
def Plain (keys : List Key) : Prop :=
  ∀ u : Key, 7 ≤ keys.countP (u <+: ·) →
    (∀ s ∈ keys, u <+: s → ¬High u.length s) ∨
      (∀ s ∈ keys, u <+: s → High u.length s) ∧
        ∀ s ∈ keys, ∀ t ∈ keys, u <+: s → u <+: t → s[u.length]? = t[u.length]? → s = t

/-- Keys of octets below 128 are plain. -/
theorem plain_of_low {keys : List Key} (h : ∀ s ∈ keys, ∀ b ∈ s, b.val < 128) : Plain keys :=
  fun _ _ => .inl fun s hs _ ⟨b, hb, hle⟩ =>
    Nat.not_lt.mpr hle (h s hs b (List.mem_of_getElem? hb))

/-- Some of the keys are as plain as all. -/
theorem Plain.subperm {keys keys' : List Key} (h : Plain keys) (hsub : keys'.Subperm keys) :
    Plain keys' := by
  intro u hu
  have hmem := hsub.subset
  rcases h u (hu.trans (hsub.countP_le _)) with hlow | ⟨hhigh, heq⟩
  · exact .inl fun s hs => hlow s (hmem hs)
  · exact .inr ⟨fun s hs => hhigh s (hmem hs), fun s hs t ht => heq s (hmem hs) t (hmem ht)⟩

theorem Plain.map_subperm {range range' : List α} (h : Plain (range.map p))
    (hsub : range'.Subperm range) : Plain (range'.map p) :=
  have ⟨l, hperm, hlist⟩ := hsub
  h.subperm ⟨l.map p, hperm.map p, hlist.map p⟩

/-- What the partition of a range needs: the characters are ordered as the keys, and elements that
are not sorted by the next one are equal. -/
structure Ordered (p : α → Key) (digit : ℕ) (range : List α) : Prop where
  lt : ∀ x ∈ range, ∀ y ∈ range, charAt p digit x < charAt p digit y → p x < p y
  eq : ∀ x ∈ range, ∀ y ∈ range, charAt p digit x = charAt p digit y → charAt p digit x < 0 →
    p x = p y

theorem char_low {b : Byte} (h : b.val < 128) : char b = b.val := if_pos h

theorem char_high {b : Byte} (h : 128 ≤ b.val) : char b = b.val - 256 := if_neg (Nat.not_lt.mpr h)

/-- Keys with the same prefix are in the order of the octets behind it. -/
theorem lt_of_getElem? {u s t : Key} (hs : u <+: s) (ht : u <+: t) {c : Byte}
    (hc : t[u.length]? = some c) (h : ∀ b ∈ s[u.length]?, b < c) : s < t := by
  obtain ⟨xs, rfl⟩ := hs
  obtain ⟨ys, rfl⟩ := ht
  rw [List.getElem?_append_right le_rfl, Nat.sub_self] at hc h
  rw [← lex_eq_lt, lex_append_left, lex_eq_lt]
  cases ys with
  | nil => exact absurd hc.symm (Option.some_ne_none c)
  | cons y ys =>
    obtain rfl : y = c := Option.some.inj hc
    cases xs with
    | nil => exact List.Lex.nil
    | cons x xs => exact List.Lex.rel (h x rfl)

/-- A key that ends with its prefix is the prefix. -/
theorem eq_of_getElem?_none {u s : Key} (hs : u <+: s) (h : s[u.length]? = none) : s = u :=
  (hs.eq_of_length_le (List.getElem?_eq_none_iff.mp h)).symm

/-- Plain keys are partitioned as they are ordered. -/
theorem Ordered.of_plain {digit : ℕ} {range : List α} (hagree : Agree p digit range)
    (hplain : Plain (range.map p)) (hlarge : ¬range.length ≤ 6) : Ordered p digit range := by
  obtain ⟨u, rfl, hpre⟩ := hagree
  have hcount : 7 ≤ (range.map p).countP (u <+: ·) := by
    have hall : (range.map p).countP (u <+: ·) = (range.map p).length :=
      List.countP_eq_length.mpr fun s hs => by
        obtain ⟨x, hx, rfl⟩ := List.mem_map.mp hs
        exact decide_eq_true (hpre x hx)
    rw [hall, List.length_map]
    omega
  have hmem : ∀ x ∈ range, p x ∈ range.map p := fun x hx => List.mem_map_of_mem hx
  rcases hplain u hcount with hlow | ⟨hhigh, heq⟩
  · have hchar : ∀ x ∈ range, ∀ b, (p x)[u.length]? = some b →
        charAt p u.length x = b.val := fun x hx b hb => by
      have hb' : b.val < 128 := Nat.not_le.mp fun h => hlow _ (hmem x hx) (hpre x hx) ⟨b, hb, h⟩
      unfold charAt
      rw [hb]
      exact char_low hb'
    have hend : ∀ x, (p x)[u.length]? = none → charAt p u.length x = -1 := fun x hx => by
      unfold charAt
      rw [hx]
    refine ⟨fun x hx y hy hlt => ?_, fun x hx y hy hsame hneg => ?_⟩
    · cases hc : (p y)[u.length]? with
      | none =>
        cases hb : (p x)[u.length]? with
        | none =>
          rw [hend y hc, hend x hb] at hlt
          exact absurd hlt (lt_irrefl _)
        | some b =>
          rw [hend y hc, hchar x hx b hb] at hlt
          omega
      | some c =>
        refine lt_of_getElem? (hpre x hx) (hpre y hy) hc fun b hb => ?_
        rw [hchar x hx b hb, hchar y hy c hc] at hlt
        exact Fin.lt_def.mpr (Int.ofNat_lt.mp hlt)
    · have hnone : ∀ z ∈ range, charAt p u.length z < 0 → p z = u := fun z hz hneg => by
        refine eq_of_getElem?_none (hpre z hz) ?_
        cases hb : (p z)[u.length]? with
        | none => rfl
        | some b =>
          rw [hchar z hz b hb] at hneg
          omega
      rw [hnone x hx hneg, hnone y hy (hsame ▸ hneg)]
  · have hchar : ∀ x ∈ range, ∃ b, (p x)[u.length]? = some b ∧
        charAt p u.length x = b.val - 256 := fun x hx => by
      obtain ⟨b, hb, hle⟩ := hhigh _ (hmem x hx) (hpre x hx)
      refine ⟨b, hb, ?_⟩
      unfold charAt
      rw [hb]
      exact char_high hle
    refine ⟨fun x hx y hy hlt => ?_, fun x hx y hy hsame hneg => ?_⟩
    · obtain ⟨b, hb, hcb⟩ := hchar x hx
      obtain ⟨c, hc, hcc⟩ := hchar y hy
      refine lt_of_getElem? (hpre x hx) (hpre y hy) hc fun b' hb' => ?_
      obtain rfl : b = b' := Option.some.inj (hb.symm.trans hb')
      rw [hcb, hcc] at hlt
      exact Fin.lt_def.mpr (by omega)
    · obtain ⟨b, hb, hcb⟩ := hchar x hx
      obtain ⟨c, hc, hcc⟩ := hchar y hy
      rw [hcb, hcc] at hsame
      obtain rfl : b = c := Fin.ext (by omega)
      exact heq _ (hmem x hx) _ (hmem y hy) (hpre x hx) (hpre y hy) (hb.trans hc.symm)

/-- Elements with the same character that is not negative agree in one more digit. -/
theorem Agree.succ {digit : ℕ} {range : List α} (hagree : Agree p digit range) {c : ℤ}
    (hc : 0 ≤ c) (h : ∀ x ∈ range, charAt p digit x = c) : Agree p (digit + 1) range := by
  obtain ⟨u, rfl, hpre⟩ := hagree
  cases range with
  | nil => exact ⟨u ++ [0], by simp, fun _ hx => absurd hx List.not_mem_nil⟩
  | cons x range =>
    have hoctet : ∀ y ∈ x :: range, ∃ b, (p y)[u.length]? = some b ∧ char b = c := fun y hy => by
      have hlt := @lt_length_of_charAt _ p u.length y (by rw [h y hy]; omega)
      refine ⟨_, List.getElem?_eq_getElem hlt, ?_⟩
      rw [← charAt_of_lt hlt, h y hy]
    obtain ⟨b, hb, hbc⟩ := hoctet x List.mem_cons_self
    refine ⟨u ++ [b], by simp, fun y hy => ?_⟩
    obtain ⟨b', hb', hbc'⟩ := hoctet y hy
    have hsame : b = b' := by
      have hlow : ∀ a : Byte, char a = c → char a = a.val := fun a ha => by
        unfold char at ha ⊢
        split at ha
        · rw [if_pos ‹_›]
        · have := a.isLt
          omega
      refine Fin.ext (Int.ofNat_inj.mp ?_)
      rw [← hlow b hbc, ← hlow b' hbc', hbc, hbc']
    obtain ⟨ys, hys⟩ := hpre y hy
    rw [← hys, List.getElem?_append_right le_rfl, Nat.sub_self] at hb'
    cases ys with
    | nil => exact absurd hb'.symm (Option.some_ne_none b')
    | cons z ys =>
      obtain rfl : z = b' := Option.some.inj hb'
      exact ⟨ys, by rw [hsame, ← hys, List.append_assoc]; rfl⟩

/-- The parts of a range are in order. -/
theorem Sorted.append {l l' : List α} (h : Sorted p l) (h' : Sorted p l')
    (hle : ∀ x ∈ l, ∀ y ∈ l', p x ≤ p y) : Sorted p (l ++ l') :=
  List.pairwise_append.mpr ⟨h, h', hle⟩

theorem Parts.subperm {parts : Parts α} {range : List α} (h : parts.all.Perm range) :
    parts.less.Subperm range ∧ parts.equal.Subperm range ∧ parts.greater.Subperm range :=
  ⟨(List.sublist_append_left _ _).subperm.trans h.subperm,
    ((List.sublist_append_left _ _).trans (List.sublist_append_right _ _)).subperm.trans h.subperm,
    ((List.sublist_append_right _ _).trans (List.sublist_append_right _ _)).subperm.trans h.subperm⟩

/-- Plain keys are sorted. -/
theorem sort_sorted {digit deep : ℕ} {range : List α} (hagree : Agree p digit range)
    (hplain : Plain (range.map p)) : Sorted p (sort p cutoff digit deep range) := by
  induction hn : size p digit range using Nat.strong_induction_on generalizing digit deep range with
  | _ n ih =>
    unfold sort
    by_cases hsmall : range.length ≤ 6
    · rw [if_pos hsmall]
      exact smallSort_sorted hagree
    · rw [if_neg hsmall]
      split
      · exact shellGaps_sorted (by omega) hagree
      · have hne : range ≠ [] := fun h => hsmall (h ▸ Nat.zero_le 6)
        obtain ⟨hless, hgreater, hequal⟩ := size_split p digit hne
        obtain ⟨hcut, hall, -⟩ := split_spec p digit range
        have hordered := Ordered.of_plain hagree hplain hsmall
        obtain ⟨hsubL, hsubE, hsubG⟩ := Parts.subperm hall
        have hbelow : ∀ x ∈ (split p digit range).2.less,
            ∀ y ∈ (split p digit range).2.equal ++ (split p digit range).2.greater,
              p x ≤ p y := fun x hx y hy => by
          have hlt : charAt p digit x < charAt p digit y := by
            rcases List.mem_append.mp hy with hy | hy
            · exact hcut.equal y hy ▸ hcut.less x hx
            · exact (hcut.less x hx).trans (hcut.greater y hy)
          refine (hordered.lt x (hsubL.subset hx) y ?_ hlt).le
          exact (List.mem_append.mp hy).elim (fun h => hsubE.subset h) fun h => hsubG.subset h
        have habove : ∀ x ∈ (split p digit range).2.equal,
            ∀ y ∈ (split p digit range).2.greater, p x ≤ p y := fun x hx y hy =>
          (hordered.lt x (hsubE.subset hx) y (hsubG.subset hy)
            (hcut.equal x hx ▸ hcut.greater y hy)).le
        refine Sorted.append (ih _ (hn ▸ hless) (hagree.subset hsubL.subset)
          (hplain.map_subperm hsubL) rfl) (Sorted.append ?_ (ih _ (hn ▸ hgreater)
            (hagree.subset hsubG.subset) (hplain.map_subperm hsubG) rfl) ?_) ?_
        · split
          · next hpivot =>
            exact ih _ (hn ▸ hequal hpivot) ((hagree.subset hsubE.subset).succ hpivot hcut.equal)
              (hplain.map_subperm hsubE) rfl
          · next hpivot =>
            refine List.pairwise_of_forall_mem_list fun x hx y hy => le_of_eq ?_
            refine hordered.eq x (hsubE.subset hx) y (hsubE.subset hy) ?_ ?_
            · rw [hcut.equal x hx, hcut.equal y hy]
            · rw [hcut.equal x hx]
              exact not_le.mp hpivot
        · intro x hx y hy
          refine habove x ?_ y ((sort_perm p cutoff ..).mem_iff.mp hy)
          split at hx
          · exact (sort_perm p cutoff ..).mem_iff.mp hx
          · exact hx
        · intro x hx y hy
          refine hbelow x ((sort_perm p cutoff ..).mem_iff.mp hx) y ?_
          rcases List.mem_append.mp hy with hy | hy
          · refine List.mem_append_left _ ?_
            split at hy
            · exact (sort_perm p cutoff ..).mem_iff.mp hy
            · exact hy
          · exact List.mem_append_right _ ((sort_perm p cutoff ..).mem_iff.mp hy)

/-- A key that goes on with an octet that is positive as a character. -/
def Low (digit : ℕ) (key : Key) : Prop := ∃ b ∈ key[digit]?, b.val < 128

theorem charAt_of_high {digit : ℕ} {x : α} (h : High digit (p x)) : charAt p digit x < 0 := by
  obtain ⟨b, hb, hle⟩ := h
  have hlt := b.isLt
  unfold charAt
  rw [Option.mem_def.mp hb]
  dsimp only
  rw [char_high hle]
  omega

theorem charAt_of_low {digit : ℕ} {x : α} (h : Low digit (p x)) : 0 ≤ charAt p digit x := by
  obtain ⟨b, hb, hlt⟩ := h
  unfold charAt
  rw [Option.mem_def.mp hb]
  dsimp only
  rw [char_low hlt]
  exact Int.natCast_nonneg _

theorem high_of_charAt {digit : ℕ} {x : α} (h : charAt p digit x < -1) : High digit (p x) := by
  unfold charAt at h
  split at h
  · next b hb =>
    refine ⟨b, hb, Nat.not_lt.mp fun hlt => ?_⟩
    rw [char_low hlt] at h
    omega
  · exact absurd h (lt_irrefl _)

theorem low_of_charAt {digit : ℕ} {x : α} (h : 0 ≤ charAt p digit x) : Low digit (p x) := by
  unfold charAt at h
  split at h
  · next b hb =>
    refine ⟨b, hb, Nat.not_le.mp fun hle => ?_⟩
    have hlt := b.isLt
    rw [char_high hle] at h
    omega
  · exact absurd h (by decide)

/-- Where keys agree, a low octet comes before a high one. -/
theorem Agree.lt_of_low_high {digit : ℕ} {range : List α} (hagree : Agree p digit range) {x y : α}
    (hx : x ∈ range) (hy : y ∈ range) (hlow : Low digit (p x)) (hhigh : High digit (p y)) :
    p x < p y := by
  obtain ⟨u, rfl, hpre⟩ := hagree
  obtain ⟨b, hb, hlt⟩ := hlow
  obtain ⟨c, hc, hle⟩ := hhigh
  refine lt_of_getElem? (hpre x hx) (hpre y hy) hc fun b' hb' => ?_
  obtain rfl : b = b' := Option.some.inj (hb.symm.trans hb')
  exact Fin.lt_def.mpr (hlt.trans_le hle)

/-- A range that is cut where one key goes on with a low octet and one with a high octet is never
sorted. -/
theorem sort_not_sorted {digit deep : ℕ} {range : List α} (hagree : Agree p digit range)
    (hlarge : 6 < range.length) (hdeep : deep ≤ cutoff) {x y : α} (hx : x ∈ range) (hy : y ∈ range)
    (hlow : Low digit (p x)) (hhigh : High digit (p y)) :
    ¬Sorted p (sort p cutoff digit deep range) := by
  intro hsorted
  have hne : range ≠ [] := fun h => by
    rw [h] at hlarge
    exact Nat.not_lt_zero 6 hlarge
  obtain ⟨hcut, hall, hequal⟩ := split_spec p digit range
  obtain ⟨-, hsubE, -⟩ := Parts.subperm hall
  obtain ⟨l, m, g, heq, hl, hm, hg⟩ := sort_eq_parts p cutoff digit deep (Nat.not_le.mpr hlarge)
    (Nat.not_lt.mpr hdeep)
  rw [heq] at hsorted
  obtain ⟨-, hrest, hbelow⟩ := List.pairwise_append.mp hsorted
  obtain ⟨-, -, habove⟩ := List.pairwise_append.mp hrest
  obtain ⟨e, he⟩ := List.exists_mem_of_ne_nil _ (hequal hne)
  have hplace : ∀ z ∈ range, z ∈ (split p digit range).2.less ∨ z ∈ (split p digit range).2.equal ∨
      z ∈ (split p digit range).2.greater := fun z hz => by
    have hin := hall.mem_iff.mpr hz
    rwa [Parts.all, List.mem_append, List.mem_append] at hin
  have hnot : ∀ a ∈ range, ∀ b ∈ range, Low digit (p a) → High digit (p b) → ¬p b ≤ p a :=
    fun a ha b hb hlow hhigh => not_le.mpr (hagree.lt_of_low_high ha hb hlow hhigh)
  have hyneg := charAt_of_high hhigh
  have hxpos := charAt_of_low hlow
  have hpivot := hcut.equal e he
  by_cases hc : 0 ≤ (split p digit range).1
  · -- the high octet is put before the pivot
    have hyless : y ∈ (split p digit range).2.less := by
      rcases hplace y hy with h | h | h
      · exact h
      · exact absurd (hcut.equal y h) (by omega)
      · exact absurd (hcut.greater y h) (by omega)
    exact hnot e (hsubE.subset he) y hy (low_of_charAt (hpivot ▸ hc)) hhigh
      (hbelow y (hl.mem_iff.mpr hyless) e (List.mem_append_left _ (hm.mem_iff.mpr he)))
  · -- the low octet is put behind the pivot
    have hxgreater : x ∈ (split p digit range).2.greater := by
      rcases hplace x hx with h | h | h
      · exact absurd (hcut.less x h) (by omega)
      · exact absurd (hcut.equal x h) (by omega)
      · exact h
    have hxg := hg.mem_iff.mpr hxgreater
    rcases hplace y hy with h | h | h
    · exact hnot x hx y hy hlow hhigh (hbelow y (hl.mem_iff.mpr h) x (List.mem_append_right _ hxg))
    · exact hnot x hx y hy hlow hhigh (habove y (hm.mem_iff.mpr h) x hxg)
    · have hlt := hcut.greater y h
      exact hnot x hx e (hsubE.subset he) hlow (high_of_charAt (by omega))
        (habove e (hm.mem_iff.mpr he) x hxg)

theorem agree_zero (p : α → Key) (range : List α) : Agree p 0 range :=
  ⟨[], rfl, fun _ _ => List.nil_prefix⟩

theorem threeWayQuickSort_perm (p : α → Key) (range : List α) :
    (threeWayQuickSort p range).Perm range := sort_perm p MIN_CUTOFF_DEEP 0 1 range

theorem threeWayQuickSort_sorted {range : List α} (h : Plain (range.map p)) :
    Sorted p (threeWayQuickSort p range) := sort_sorted MIN_CUTOFF_DEEP (agree_zero p range) h

/-- The sort keeps the elements, and sorts plain keys. It never sorts seven keys of which one starts
with an octet below 128 and one with another. -/
theorem threeWayQuickSort_spec (p : α → Key) (range : List α) :
    (threeWayQuickSort p range).Perm range ∧
      (Plain (range.map p) → Sorted p (threeWayQuickSort p range)) ∧
      (7 ≤ range.length → (∃ x ∈ range, Low 0 (p x)) → (∃ y ∈ range, High 0 (p y)) →
        ¬Sorted p (threeWayQuickSort p range)) :=
  ⟨threeWayQuickSort_perm p range, threeWayQuickSort_sorted,
    fun hlarge ⟨_, hx, hlow⟩ ⟨_, hy, hhigh⟩ =>
      sort_not_sorted MIN_CUTOFF_DEEP (agree_zero p range) hlarge (by decide) hx hy hlow hhigh⟩

/-- Seven keys of letters. -/
theorem threeWayQuickSort_spec_letters :
    Sorted id (threeWayQuickSort id [[103], [97, 98], [97], [98], [99, 97], [101], [99]]) :=
  (threeWayQuickSort_spec id [[103], [97, 98], [97], [98], [99, 97], [101], [99]]).2.1
    (plain_of_low (by decide +kernel))

/-- Seven keys of one octet, the last of which is a letter with an accent. -/
theorem threeWayQuickSort_latin :
    ¬Sorted id (threeWayQuickSort id [[97], [98], [99], [100], [101], [102], [233]]) := by
  unfold Sorted
  decide +kernel

end HM4.ThreeWayQuickSort
