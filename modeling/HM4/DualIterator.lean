import HM4.CollectionIterator

/-!
# The dual iterator

For two lists there is an iterator without a heap. It compares the two current
pairs and remembers which of the lists it has to move on. Both iterators visit
the same keys, and for every key a newest pair.
-/

namespace HM4.DualIterator

open Bytes MyString Pairs LexPrefix KWayMerge CollectionIterator

/-- `DualIterator`. -/
structure Dual where
  /-- The positions in the two lists. -/
  tt : IteratorPair × IteratorPair
  /-- Which of them the next step moves. -/
  hit : Bool × Bool
  /-- The current pair. -/
  pair : Option Pair

/-- `DualIterator::updateDereference_`. -/
def updateDereference (tt : IteratorPair × IteratorPair) : Dual :=
  match tt with
  | (p :: _, q :: _) =>
    match p.cmp q.key with
    | .lt => ⟨tt, (true, false), some p⟩
    | .gt => ⟨tt, (false, true), some q⟩
    | .eq =>
      if (p.cmpTime q).swap ≠ .gt then ⟨tt, (true, true), some p⟩ else ⟨tt, (true, true), some q⟩
  | (p :: _, []) => ⟨tt, (true, false), some p⟩
  | ([], q :: _) => ⟨tt, (false, true), some q⟩
  | ([], []) => ⟨tt, (false, false), none⟩

/-- The positions that `DualIterator::operator++` moves to. -/
def Dual.moved (d : Dual) : IteratorPair × IteratorPair :=
  (if d.hit.1 then d.tt.1.tail else d.tt.1, if d.hit.2 then d.tt.2.tail else d.tt.2)

/-- The pairs that the positions have not passed. -/
def remaining (tt : IteratorPair × IteratorPair) : ℕ := tt.1.length + tt.2.length

/-- What the dereferenced pair is, and what is moved: the smaller of the two keys, or
both if they are equal. -/
theorem updateDereference_cases (tt : IteratorPair × IteratorPair) :
    (tt = ([], []) ∧ (updateDereference tt).pair = none) ∨
    (∃ p ps, tt.1 = p :: ps ∧ (∀ q ∈ tt.2.head?, keyWord p < keyWord q) ∧
      (updateDereference tt).pair = some p ∧ (updateDereference tt).moved = (ps, tt.2)) ∨
    (∃ q qs, tt.2 = q :: qs ∧ (∀ p ∈ tt.1.head?, keyWord q < keyWord p) ∧
      (updateDereference tt).pair = some q ∧ (updateDereference tt).moved = (tt.1, qs)) ∨
    ∃ p ps q qs, tt = (p :: ps, q :: qs) ∧ p.key = q.key ∧
      (updateDereference tt).pair = some (if p.created < q.created then q else p) ∧
      (updateDereference tt).moved = (ps, qs) := by
  obtain ⟨ps, qs⟩ := tt
  cases ps with
  | nil =>
    cases qs with
    | nil => exact .inl ⟨rfl, rfl⟩
    | cons q qs => exact .inr (.inr (.inl ⟨q, qs, rfl, by simp, rfl, rfl⟩))
  | cons p ps =>
    cases qs with
    | nil => exact .inr (.inl ⟨p, ps, rfl, by simp, rfl, rfl⟩)
    | cons q qs =>
      have hcmp := cmp_eq_lex p q
      unfold updateDereference
      dsimp only
      cases h : p.cmp q.key with
      | lt =>
        rw [h, eq_comm, lex_eq_lt] at hcmp
        exact .inr (.inl ⟨p, ps, rfl, by simpa using hcmp, rfl, rfl⟩)
      | gt =>
        rw [h, eq_comm, lex_eq_gt] at hcmp
        exact .inr (.inr (.inl ⟨q, qs, rfl, by simpa using hcmp, rfl, rfl⟩))
      | eq =>
        rw [h, eq_comm, lex_eq_eq, keyWord_inj] at hcmp
        refine .inr (.inr (.inr ⟨p, ps, q, qs, rfl, hcmp, ?_⟩))
        by_cases ht : p.created < q.created
        · have hswap : ¬ (p.cmpTime q).swap ≠ .gt := by simpa [Pair.cmpTime_eq_lt] using ht
          simp only [if_neg hswap, if_pos ht]
          exact ⟨trivial, rfl⟩
        · have hswap : (p.cmpTime q).swap ≠ .gt := by simpa [Pair.cmpTime_eq_lt] using ht
          simp only [if_pos hswap, if_neg ht]
          exact ⟨trivial, rfl⟩

theorem remaining_moved {tt : IteratorPair × IteratorPair} {p : Pair}
    (h : (updateDereference tt).pair = some p) :
    remaining (updateDereference tt).moved < remaining tt := by
  rcases updateDereference_cases tt with ⟨_, hp⟩ | ⟨p', ps, htt, _, _, hm⟩ |
    ⟨q, qs, htt, _, _, hm⟩ | ⟨p', ps, q, qs, rfl, _, _, hm⟩
  · rw [hp] at h
    exact absurd h (by simp)
  all_goals
    rw [hm]
    simp_all only [remaining, List.length_cons]
    omega

/-- The pairs from the current one to the end. -/
def toList (tt : IteratorPair × IteratorPair) : List Pair :=
  match _h : (updateDereference tt).pair with
  | none => []
  | some p => p :: toList (updateDereference tt).moved
termination_by remaining tt
decreasing_by exact remaining_moved _h

theorem toList_of_none {tt : IteratorPair × IteratorPair} (h : (updateDereference tt).pair = none) :
    toList tt = [] := by
  rw [toList]
  split
  · rfl
  · next heq => exact absurd (h.symm.trans heq) (by simp)

theorem toList_of_some {tt : IteratorPair × IteratorPair} {p : Pair}
    (h : (updateDereference tt).pair = some p) :
    toList tt = p :: toList (updateDereference tt).moved := by
  rw [toList]
  split
  · next heq => exact absurd (heq.symm.trans h) (by simp)
  · next p' heq => rw [Option.some.inj (heq.symm.trans h)]

/-- Two sorted positions. -/
def Sorted (tt : IteratorPair × IteratorPair) : Prop :=
  tt.1.Pairwise (fun p q => keyWord p < keyWord q) ∧ tt.2.Pairwise (fun p q => keyWord p < keyWord q)

/-- The head of a sorted run is below a word if the rest is left and below all others. -/
theorem head_lt_of_lt {x : Pair} {l : List Pair} (hl : l.Pairwise (fun p q => keyWord p < keyWord q))
    (h : ∀ q ∈ l.head?, keyWord x < keyWord q) : ∀ q ∈ l, keyWord x < keyWord q := by
  cases l with
  | nil => simp
  | cons y l =>
    have hxy : keyWord x < keyWord y := h y rfl
    refine List.forall_mem_cons.mpr ⟨hxy, fun q hq => ?_⟩
    exact hxy.trans ((List.pairwise_cons.mp hl).1 q hq)

/-- Dual iteration visits every key of the two lists with its newest pair. -/
theorem visits_toList {tt : IteratorPair × IteratorPair} (hs : Sorted tt) :
    Visits keyWord Pair.created [tt.1, tt.2] (toList tt) := by
  induction hk : remaining tt using Nat.strong_induction_on generalizing tt with
  | h k ih =>
    subst hk
    rcases updateDereference_cases tt with ⟨rfl, hp⟩ | ⟨p, ps, htt, hhead, hp, hm⟩ |
      ⟨q, qs, htt, hhead, hp, hm⟩ | ⟨p, ps, q, qs, rfl, hkey, hp, hm⟩
    · rw [toList_of_none hp]
      exact ⟨.nil, by simp, by simp, by simp⟩
    · -- the pair of the first list has the smaller key
      obtain ⟨l, l'⟩ := tt
      obtain rfl : l = p :: ps := htt
      obtain ⟨hps, hl'⟩ := hs
      obtain ⟨hlt, hps⟩ := List.pairwise_cons.mp hps
      have hrest := ih _ (remaining_moved hp) (by rw [hm]; exact ⟨hps, hl'⟩) rfl
      rw [toList_of_some hp]
      rw [hm] at hrest ⊢
      exact hrest.cons_left hlt (head_lt_of_lt hl' hhead)
    · obtain ⟨l, l'⟩ := tt
      obtain rfl : l' = q :: qs := htt
      obtain ⟨hl, hqs⟩ := hs
      obtain ⟨hlt, hqs⟩ := List.pairwise_cons.mp hqs
      have hrest := ih _ (remaining_moved hp) (by rw [hm]; exact ⟨hl, hqs⟩) rfl
      rw [toList_of_some hp]
      rw [hm] at hrest ⊢
      exact hrest.cons_right (head_lt_of_lt hl hhead) hlt
    · -- equal keys, and both lists are moved
      obtain ⟨hps, hqs⟩ := hs
      obtain ⟨hltp, hps⟩ := List.pairwise_cons.mp hps
      obtain ⟨hltq, hqs⟩ := List.pairwise_cons.mp hqs
      have hrest := ih _ (remaining_moved hp) (by rw [hm]; exact ⟨hps, hqs⟩) rfl
      rw [toList_of_some hp]
      rw [hm] at hrest ⊢
      exact hrest.cons_both (keyWord_inj.mpr hkey) hltp hltq

/-- The keys and times that a sequence shows. -/
def shown (out : List Pair) : List (Key × ℕ) := out.map (fun p => (p.key, p.created))

/-- Pairs of the key that have the same time in some of the lists are the same pair. -/
def TimesDiffer (ls : List SortedList) (key : Key) : Prop :=
  ∀ l ∈ ls, ∀ l' ∈ ls, ∀ p ∈ l.pairs, ∀ q ∈ l'.pairs, p.key = key → q.key = key →
    p.created = q.created → p = q

/-- The same keys and times, and the same pairs for keys whose times differ. -/
def SameVisits (ls : List SortedList) (out out' : List Pair) : Prop :=
  shown out = shown out' ∧
    ∀ p ∈ out, ∀ q ∈ out', p.key = q.key → TimesDiffer ls p.key → p = q

/-- Every key once, in increasing order, with a newest pair of the lists. -/
structure VisitsNewest (ls : List SortedList) (out : List Pair) : Prop where
  increasing : out.Pairwise (fun p q => p.cmp q.key = .lt)
  mem : ∀ p ∈ out, ∃ l ∈ ls, p ∈ l.pairs
  newest : ∀ p ∈ out, ∀ l ∈ ls, ∀ q ∈ l.pairs, q.key = p.key → q.created ≤ p.created
  complete : ∀ l ∈ ls, ∀ q ∈ l.pairs, ∃ p ∈ out, p.key = q.key

/-- Visiting in words of the keys themselves. -/
theorem visitsNewest_of_visits {ls : List SortedList} {out : List Pair}
    (h : Visits keyWord Pair.created (ls.map SortedList.pairs) out) : VisitsNewest ls out where
  increasing := h.increasing.imp fun hlt => by rwa [cmp_eq_lex, lex_eq_lt]
  mem p hp := by
    obtain ⟨r, hr, hpr⟩ := h.mem p hp
    obtain ⟨l, hl, rfl⟩ := List.mem_map.mp hr
    exact ⟨l, hl, hpr⟩
  newest p hp l hl q hq hkey :=
    h.newest p hp _ (List.mem_map_of_mem hl) q hq (keyWord_inj.mpr hkey)
  complete l hl q hq := by
    obtain ⟨p, hp, hkey⟩ := h.complete _ (List.mem_map_of_mem hl) q hq
    exact ⟨p, hp, keyWord_inj.mp hkey⟩

/-- Two visits of the same lists, or of the same part of them, are the same. -/
theorem sameVisits_of_visits {ls : List SortedList} {runs : List (List Pair)} {out out' : List Pair}
    (hruns : ∀ r ∈ runs, ∃ l ∈ ls, r ⊆ l.pairs) (h : Visits keyWord Pair.created runs out)
    (h' : Visits keyWord Pair.created runs out') : SameVisits ls out out' := by
  constructor
  · have hinj : Function.Injective (fun kt : Key × ℕ => (signedWord kt.1, kt.2)) :=
      fun _ _ he => Prod.ext (signedWord_injective (Prod.ext_iff.mp he).1) (Prod.ext_iff.mp he).2
    apply List.map_injective_iff.mpr hinj
    unfold shown
    rw [List.map_map, List.map_map]
    exact h.times_eq h'
  · intro p hp q hq hkey hdiff
    refine h.eq_of_noTie h' hp hq (keyWord_inj.mpr hkey) ?_
    intro r hr r' hr' a ha b hb hka hkb ht
    obtain ⟨l, hl, hsub⟩ := hruns r hr
    obtain ⟨l', hl', hsub'⟩ := hruns r' hr'
    exact hdiff l hl l' hl' a (hsub ha) b (hsub' hb) (keyWord_inj.mp hka) (keyWord_inj.mp hkb) ht

/-- `DualIterator` over two lists from their beginnings. -/
def dual (l l' : SortedList) : IteratorPair × IteratorPair := (l.pairs, l'.pairs)

/-- The collection iterator visits every key once, in increasing order, with a newest
pair; from a found key it visits the part that is not below the key; and the dual
iterator visits the same for two lists. -/
theorem iterators_visit (ls : List SortedList) :
    VisitsNewest ls (CollectionIterator.toList (begin_ ls)) ∧
      (∀ key, SameVisits ls (CollectionIterator.toList (find ls key))
        ((CollectionIterator.toList (begin_ ls)).filter (notBelow key))) ∧
      ∀ l l', ls = [l, l'] →
        SameVisits ls (toList (dual l l')) (CollectionIterator.toList (begin_ ls)) := by
  have hall : ∀ r ∈ ls.map SortedList.pairs, ∃ l ∈ ls, r ⊆ l.pairs := by
    intro r hr
    obtain ⟨l, hl, rfl⟩ := List.mem_map.mp hr
    exact ⟨l, hl, List.Subset.refl _⟩
  refine ⟨visitsNewest_of_visits (visits_begin ls), fun key => ?_, ?_⟩
  · refine sameVisits_of_visits (fun r hr => ?_) (visits_find ls key)
      ((visits_begin ls).filter (notBelow_congr key))
    obtain ⟨r', hr', rfl⟩ := List.mem_map.mp hr
    obtain ⟨l, hl, hsub⟩ := hall r' hr'
    exact ⟨l, hl, List.Subset.trans (List.filter_subset_self r') hsub⟩
  · rintro l l' rfl
    have hsorted : Sorted (dual l l') := ⟨l.increasing, l'.increasing⟩
    exact sameVisits_of_visits hall (visits_toList hsorted) (visits_begin _)

/-- A list of one pair. -/
def singleton (p : Pair) : SortedList where
  pairs := [p]
  find key := [p].dropWhile (fun p => p.cmp key == .lt)
  sorted := List.pairwise_singleton _ _
  find_eq _ _ := rfl

/-- One list with an own key, and two that have a pair of the same key and time. -/
def tiedLists : List SortedList :=
  [singleton (letter 106 1), singleton (letter 107 5),
    singleton { letter 107 5 with val := [1], valValid := by decide }]

/-- With two newest pairs it depends on the layout of the heap which of them is
yielded, and a found iteration may yield the other one. -/
theorem find_not_part : ¬ ∀ (ls : List SortedList) (key : Key),
    CollectionIterator.toList (find ls key) =
      (CollectionIterator.toList (begin_ ls)).filter (notBelow key) := by
  intro h
  exact absurd (h tiedLists [107]) (by decide +kernel)

end HM4.DualIterator
