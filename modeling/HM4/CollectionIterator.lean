import HM4.Pairs
import HM4.General.BinaryHeap
import HM4.General.KWayMerge

/-!
# The collection iterator

The iterator keeps one position for every list that has not ended, in a heap by
key and newest first. To go on it pops the top, moves it one pair further and
pushes it back, as long as the new top has the key that was just left.
-/

namespace HM4.CollectionIterator

open Bytes MyString Pairs LexPrefix BinaryHeap KWayMerge

/-- `IteratorPair`: the pairs from the current position to the end. -/
abbrev IteratorPair := List Pair

/-- `compNonEmpty`, with and without the times. -/
def compNonEmpty (a b : Pair) (compareTime : Bool) : Ordering :=
  if compareTime then a.cmpWithTime b false else a.cmp b.key

/-- `comp`: a position that has ended is last. -/
def comp : IteratorPair → IteratorPair → Bool → Ordering
  | [], [], _ => .eq
  | [], _ :: _, _ => .gt
  | _ :: _, [], _ => .lt
  | a :: _, b :: _, compareTime => compNonEmpty a b compareTime

/-- An `IteratorPair` that has not ended. -/
structure Cursor where
  /-- The pair at the current position. -/
  front : Pair
  /-- The pairs after it. -/
  rest : List Pair

namespace Cursor

/-- The position as any other one. -/
def toIteratorPair (c : Cursor) : IteratorPair := c.front :: c.rest

/-- A position, if it has not ended. -/
def ofIteratorPair : IteratorPair → Option Cursor
  | [] => none
  | p :: rest => some ⟨p, rest⟩

/-- The next position, if it has not ended. -/
def next (c : Cursor) : Option Cursor := ofIteratorPair c.rest

end Cursor

/-- `CollectionIterator::heap_comp`: the order is turned round for a heap with the
smallest on top. -/
def heapComp (a b : Cursor) : Bool := comp a.toIteratorPair b.toIteratorPair true == .gt

/-- The pairs that the positions have not passed. -/
def remaining (itp : Array Cursor) : ℕ := (itp.toList.map (fun c => c.rest.length + 1)).sum

/-- Pop the top, move it on, and push it back unless it has ended. -/
def advance (itp : Array Cursor) (h : 0 < itp.size) : Array Cursor :=
  let popped := popHeap heapComp itp
  have hp : 0 < popped.size := by rwa [size_popHeap]
  match (popped.back hp).next with
  | some ip => pushHeap heapComp (popped.set (popped.size - 1) ip)
  | none => popped.pop

/-- The pair that is left by the next step. -/
def top (itp : Array Cursor) (h : 0 < itp.size) : Cursor :=
  (popHeap heapComp itp).back (by rwa [size_popHeap])

/-- The popped heap ends with the top. -/
theorem toList_popHeap (itp : Array Cursor) (h : 0 < itp.size) :
    (popHeap heapComp itp).toList = (popHeap heapComp itp).pop.toList ++ [top itp h] := by
  have hp : 0 < (popHeap heapComp itp).size := by rwa [size_popHeap]
  have hne : (popHeap heapComp itp).toList ≠ [] := List.ne_nil_of_length_pos hp
  have hlast : top itp h = (popHeap heapComp itp).toList.getLast hne := by
    rw [top, Array.back_eq_getElem, List.getLast_eq_getElem]
    rfl
  rw [Array.toList_pop, hlast, List.dropLast_append_getLast hne]

/-- The positions are the top and the others. -/
theorem perm_top_cons (itp : Array Cursor) (h : 0 < itp.size) :
    itp.toList.Perm (top itp h :: (popHeap heapComp itp).pop.toList) := by
  have hperm : (popHeap heapComp itp).toList.Perm itp.toList := popHeap_perm itp
  rw [toList_popHeap itp h] at hperm
  exact hperm.symm.trans (List.perm_append_singleton _ _)

/-- After a step they are the next position of the top, if there is one, and the others. -/
theorem advance_perm (itp : Array Cursor) (h : 0 < itp.size) :
    (advance itp h).toList.Perm ((top itp h).next.toList ++ (popHeap heapComp itp).pop.toList) := by
  unfold advance
  change (match (top itp h).next with
    | some ip => pushHeap heapComp ((popHeap heapComp itp).set _ ip _)
    | none => (popHeap heapComp itp).pop).toList.Perm _
  cases (top itp h).next with
  | none => exact List.Perm.refl _
  | some ip =>
    refine (pushHeap_perm _).trans ?_
    have hlen : (popHeap heapComp itp).size - 1 = (popHeap heapComp itp).pop.toList.length := by
      rw [Array.length_toList, Array.size_pop]
    rw [Array.toList_set, toList_popHeap itp h, hlen, List.set_append_right _ _ le_rfl, Nat.sub_self]
    exact List.perm_append_singleton ip _

theorem remaining_advance (itp : Array Cursor) (h : 0 < itp.size) :
    remaining (advance itp h) + 1 = remaining itp := by
  have hsum := ((perm_top_cons itp h).map (fun c => c.rest.length + 1)).sum_eq
  have hsum' := ((advance_perm itp h).map (fun c => c.rest.length + 1)).sum_eq
  unfold remaining
  rw [hsum, hsum', List.map_append, List.sum_append, List.map_cons, List.sum_cons]
  unfold Cursor.next
  cases (top itp h).rest with
  | nil => simp [Cursor.ofIteratorPair]; omega
  | cons p rest => simp [Cursor.ofIteratorPair]; omega

/-- `CollectionIterator::increment_`. -/
def increment (itp : Array Cursor) : Array Cursor :=
  if h : 0 < itp.size then
    let key := (top itp h).front.key
    let itp' := advance itp h
    if h' : 0 < itp'.size then
      if key ≠ itp'[0].front.key then itp' else increment itp'
    else itp'
  else itp
termination_by remaining itp
decreasing_by
  have := remaining_advance itp h
  omega

theorem remaining_increment_le (itp : Array Cursor) : remaining (increment itp) ≤ remaining itp := by
  fun_induction increment itp with
  | case1 itp h key itp' h' hkey =>
    have hadv : remaining itp' + 1 = remaining itp := remaining_advance itp h
    omega
  | case2 itp h key itp' h' hkey ih =>
    have hadv : remaining itp' + 1 = remaining itp := remaining_advance itp h
    omega
  | case3 itp h itp' h' =>
    have hadv : remaining itp' + 1 = remaining itp := remaining_advance itp h
    omega
  | case4 itp h => exact le_rfl

theorem remaining_increment (itp : Array Cursor) (h : 0 < itp.size) :
    remaining (increment itp) < remaining itp := by
  have hadv := remaining_advance itp h
  have hle := remaining_increment_le (advance itp h)
  rw [increment, dif_pos h]
  dsimp only
  split
  · split
    · omega
    · omega
  · omega

/-- The pairs from the current one to the end, each by `operator*`. -/
def toList (itp : Array Cursor) : List Pair :=
  if h : 0 < itp.size then itp[0].front :: toList (increment itp) else []
termination_by remaining itp
decreasing_by exact remaining_increment itp h

/-- The pairs of all steps, without skipping equal keys. -/
def toListAll (itp : Array Cursor) : List Pair :=
  if h : 0 < itp.size then (top itp h).front :: toListAll (advance itp h) else []
termination_by remaining itp
decreasing_by
  have := remaining_advance itp h
  omega

/-- The order of keys that `Pair::cmp` uses, as a word of signed characters. -/
def keyWord (p : Pair) : List ℤ := signedWord p.key

theorem cmp_eq_lex (p q : Pair) : p.cmp q.key = lex (keyWord p) (keyWord q) := by
  rw [Pair.cmp_key, compare_eq_lex_signedWord]
  rfl

theorem keyWord_inj {p q : Pair} : keyWord p = keyWord q ↔ p.key = q.key :=
  signedWord_injective.eq_iff

/-- `cmpWithTime` with the newest first. -/
theorem cmpWithTime_eq_gt (p q : Pair) :
    p.cmpWithTime q false = .gt ↔ Ahead keyWord Pair.created q p := by
  unfold Pair.cmpWithTime Ahead
  rw [cmp_eq_lex]
  rcases lt_trichotomy (keyWord p) (keyWord q) with h | h | h
  · rw [lex_eq_lt.mpr h]
    simp [h.ne', h.not_gt]
  · rw [lex_eq_eq.mpr h]
    simp [h, Pair.cmpTime_eq_lt]
  · rw [lex_eq_gt.mpr h]
    simp [h]

theorem heapComp_iff {a b : Cursor} :
    heapComp a b = true ↔ Ahead keyWord Pair.created b.front a.front := by
  rw [← cmpWithTime_eq_gt]
  exact beq_iff_eq

theorem heapComp_eq_false {a b : Cursor} :
    heapComp a b = false ↔ ¬ Ahead keyWord Pair.created b.front a.front := by
  rw [← heapComp_iff, Bool.not_eq_true]

/-- The comparator obeys the laws of a heap. -/
theorem strictWeak_heapComp : StrictWeak heapComp where
  asymm h := heapComp_eq_false.mpr (heapComp_iff.mp h).asymm
  trans h h' := heapComp_eq_false.mpr
    (not_ahead_trans (heapComp_eq_false.mp h) (heapComp_eq_false.mp h'))

theorem heapComp_self (a : Cursor) : heapComp a a = false :=
  heapComp_eq_false.mpr fun h => h.asymm h

/-- The top is the front of the heap. -/
theorem top_eq (itp : Array Cursor) (h : 0 < itp.size) : top itp h = itp[0] := by
  have hp : itp.size - 1 < (popHeap heapComp itp).size := by
    rw [size_popHeap]
    omega
  rw [top, Array.back_eq_getElem, ← getElem_popHeap itp h hp]
  simp only [size_popHeap]

/-- No other position is ahead of the top. -/
theorem not_ahead_top {itp : Array Cursor} (hh : IsHeap heapComp itp itp.size) (h : 0 < itp.size)
    {c : Cursor} (hc : c ∈ itp.toList) : ¬ Ahead keyWord Pair.created c.front (top itp h).front := by
  obtain ⟨i, hi, rfl⟩ := List.mem_iff_getElem.mp hc
  rw [← heapComp_eq_false, top_eq]
  exact hh.root strictWeak_heapComp heapComp_self hi hi

/-- A step keeps the heap. -/
theorem isHeap_advance {itp : Array Cursor} (hh : IsHeap heapComp itp itp.size)
    (h : 0 < itp.size) : IsHeap heapComp (advance itp h) (advance itp h).size := by
  have hpop := hh.popHeap strictWeak_heapComp
  have hsize : (popHeap heapComp itp).size = itp.size := size_popHeap itp
  unfold advance
  dsimp only
  split
  · next ip _ =>
    rw [size_pushHeap]
    refine IsHeap.pushHeap strictWeak_heapComp ?_
    intro j hj hpos hlt
    simp only [Array.size_set] at hj hlt
    rw [Array.getElem_set_ne _ _ (by omega), Array.getElem_set_ne _ _ (by omega)]
    exact hpop j hj hpos (by omega)
  · intro j hj hpos hlt
    simp only [Array.size_pop] at hj hlt
    simp only [Array.getElem_pop]
    exact hpop j (by omega) hpos (by omega)

/-- The runs that the positions stand for. -/
def runs (itp : Array Cursor) : List (List Pair) := itp.toList.map Cursor.toIteratorPair

/-- All steps of the iterator merge its runs. -/
theorem merges_toListAll {itp : Array Cursor} (hh : IsHeap heapComp itp itp.size) :
    Merges (Ahead keyWord Pair.created) (runs itp) (toListAll itp) := by
  fun_induction toListAll itp with
  | case1 itp h ih =>
    have hperm := (perm_top_cons itp h).map Cursor.toIteratorPair
    refine .cons hperm (fun q hq y hy => ?_) ?_
    · obtain ⟨c, hc, rfl⟩ := List.mem_map.mp hq
      obtain rfl : c.front = y := by simpa [Cursor.toIteratorPair] using hy
      exact not_ahead_top hh h ((perm_top_cons itp h).symm.subset (List.mem_cons_of_mem _ hc))
    · have hadv := (advance_perm itp h).map Cursor.toIteratorPair
      rw [List.map_append] at hadv
      have hrest := (ih (isHeap_advance hh h)).of_perm hadv
      unfold Cursor.next at hrest
      cases hr : (top itp h).rest with
      | nil =>
        rw [hr] at hrest
        exact hrest.cons_nil
      | cons p rest =>
        rw [hr] at hrest
        exact hrest
  | case2 itp h =>
    have hnil : itp.toList = [] := by
      rw [← List.length_eq_zero_iff, Array.length_toList]
      omega
    refine .nil fun r hr => ?_
    rw [runs, hnil] at hr
    exact absurd hr List.not_mem_nil

/-- A step of the iterator skips the pairs with the key that was left. -/
theorem cons_toList_increment (itp : Array Cursor) (h : 0 < itp.size) :
    (top itp h).front :: toList (increment itp) =
      firstsFrom keyWord (top itp h).front (toListAll (advance itp h)) := by
  induction hk : remaining itp using Nat.strong_induction_on generalizing itp with
  | h k ih =>
    subst hk
    have hrem := remaining_advance itp h
    rw [increment, dif_pos h, toListAll]
    dsimp only
    by_cases hnext : 0 < (advance itp h).size
    · have ih' := ih _ (by omega) (advance itp h) hnext rfl
      rw [dif_pos hnext, dif_pos hnext, ← top_eq _ hnext]
      by_cases hkey : (top itp h).front.key = (top (advance itp h) hnext).front.key
      · have hword := keyWord_inj.mpr hkey
        rw [if_neg (not_not.mpr hkey), firstsFrom_cons_of_eq hword, ← cons_tail_firstsFrom hword,
          ← ih', List.tail_cons]
      · have hword := mt keyWord_inj.mp hkey
        rw [if_pos hkey, firstsFrom_cons_of_ne hword, ← ih', toList, dif_pos hnext,
          ← top_eq _ hnext]
    · rw [dif_neg hnext, dif_neg hnext, toList, dif_neg hnext, firstsFrom_nil]

/-- Iteration gives the first pair of every key in the merge. -/
theorem toList_eq_firsts (itp : Array Cursor) : toList itp = firsts keyWord (toListAll itp) := by
  rw [toList, toListAll]
  by_cases h : 0 < itp.size
  · rw [dif_pos h, dif_pos h, ← top_eq itp h, cons_toList_increment itp h, firsts_cons]
  · rw [dif_neg h, dif_neg h, firsts_nil]

/-- `CollectionIterator`: the positions that have not ended, as a heap. -/
def ofIteratorPairs (its : List IteratorPair) : Array Cursor :=
  makeHeap heapComp (its.filterMap Cursor.ofIteratorPair).toArray

/-- The runs of a new iterator are the positions that have not ended. -/
theorem runs_ofIteratorPairs (its : List IteratorPair) :
    (runs (ofIteratorPairs its)).Perm (its.filter (fun it => !it.isEmpty)) := by
  refine ((makeHeap_perm _).map Cursor.toIteratorPair).trans (List.Perm.of_eq ?_)
  induction its with
  | nil => rfl
  | cons it its ih =>
    cases it with
    | nil => exact ih
    | cons p rest => exact congrArg (List.cons (p :: rest)) ih

/-- A new iterator merges the positions it was given. -/
theorem merges_ofIteratorPairs (its : List IteratorPair) :
    Merges (Ahead keyWord Pair.created) its (toListAll (ofIteratorPairs its)) := by
  have hheap : IsHeap heapComp (ofIteratorPairs its) (ofIteratorPairs its).size := by
    have hmake := isHeap_makeHeap strictWeak_heapComp (its.filterMap Cursor.ofIteratorPair).toArray
    have hsize := @size_makeHeap _ heapComp (its.filterMap Cursor.ofIteratorPair).toArray
    rwa [← hsize] at hmake
  refine .of_filter (fun it => !it.isEmpty) (fun it _ hit => by simpa using hit)
    ((merges_toListAll hheap).of_perm (runs_ofIteratorPairs its))

/-- A list as iterators see it: sorted by `Pair::cmp`, with a `find` that gives the
position of the first pair that is not below the key. -/
structure SortedList where
  /-- The pairs from `begin` to `end`. -/
  pairs : List Pair
  /-- The pairs from the position that `find` gives. -/
  find : Key → List Pair
  sorted : pairs.Pairwise (fun p q => p.cmp q.key = .lt)
  find_eq : ∀ key ≠ [], find key = pairs.dropWhile (fun p => p.cmp key == .lt)

/-- `getIterator`: the empty key stands for the beginning. -/
def getIterator (l : SortedList) (key : Key) : IteratorPair :=
  if key = [] then l.pairs else l.find key

/-- `CollectionList::begin`. -/
def begin_ (ls : List SortedList) : Array Cursor := ofIteratorPairs (ls.map SortedList.pairs)

/-- `CollectionList::find`. -/
def find (ls : List SortedList) (key : Key) : Array Cursor :=
  ofIteratorPairs (ls.map (fun l => getIterator l key))

/-- The pair's key is not below the given key. -/
def notBelow (key : Key) (p : Pair) : Bool := MyString.compare p.key key != .lt

theorem notBelow_iff (key : Key) (p : Pair) : notBelow key p = true ↔ signedWord key ≤ keyWord p := by
  rw [notBelow, compare_eq_lex_signedWord, bne_iff_ne, Ne, lex_eq_lt, not_lt]
  rfl

theorem notBelow_congr (key : Key) (p q : Pair) (h : keyWord p = keyWord q) :
    notBelow key p = notBelow key q := by
  rw [Bool.eq_iff_iff, notBelow_iff, notBelow_iff, h]

namespace SortedList

theorem increasing (l : SortedList) : l.pairs.Pairwise (fun p q => keyWord p < keyWord q) :=
  l.sorted.imp fun h => by rwa [cmp_eq_lex, lex_eq_lt] at h

/-- The pairs from a found position are those that are not below the key. -/
theorem getIterator_eq (l : SortedList) (key : Key) :
    getIterator l key = l.pairs.filter (notBelow key) := by
  unfold getIterator
  split
  · next hkey =>
    have hall : ∀ p ∈ l.pairs, notBelow key p = true := by
      intro p _
      rw [notBelow_iff, hkey, signedWord]
      exact not_lt.mp (List.not_lt_nil (keyWord p))
    exact (List.filter_eq_self.mpr hall).symm
  · next hkey =>
    rw [l.find_eq key hkey]
    refine dropWhile_eq_filter l.increasing (fun p => ?_) (notBelow_iff key)
    rw [Pair.cmp, if_neg hkey, compare_eq_lex_signedWord, beq_iff_eq, lex_eq_lt]
    rfl

end SortedList

/-- Iteration from the beginning visits every key with its newest pair. -/
theorem visits_begin (ls : List SortedList) :
    Visits keyWord Pair.created (ls.map SortedList.pairs) (toList (begin_ ls)) := by
  rw [toList_eq_firsts]
  refine (merges_ofIteratorPairs _).visits fun r hr => ?_
  obtain ⟨l, -, rfl⟩ := List.mem_map.mp hr
  exact l.increasing

/-- Iteration from a found key visits the keys that are not below it. -/
theorem visits_find (ls : List SortedList) (key : Key) :
    Visits keyWord Pair.created ((ls.map SortedList.pairs).map (List.filter (notBelow key)))
      (toList (find ls key)) := by
  have hits : ls.map (fun l => getIterator l key) =
      (ls.map SortedList.pairs).map (List.filter (notBelow key)) := by
    rw [List.map_map]
    exact List.map_congr_left fun l _ => l.getIterator_eq key
  rw [find, hits, toList_eq_firsts]
  refine (merges_ofIteratorPairs _).visits fun r hr => ?_
  obtain ⟨r', hr', rfl⟩ := List.mem_map.mp hr
  obtain ⟨l, -, rfl⟩ := List.mem_map.mp hr'
  exact l.increasing.filter _

end HM4.CollectionIterator
