import HM4.QueueRuns

/-!
# Accumulating results

The commands that read ranges walk over the pairs from an iterator on. They count the pairs they
see and stop behind a budget, at a predicate, or when they have enough; the key where a walk
stops early is its tail.
-/

namespace HM4.AccumulateResults

open LexPrefix Bytes Pairs KeyedList Database
open Queue (ITERATIONS_LOOPS_MAX)

/-- `ITERATIONS_RESULTS_MIN`. -/
def ITERATIONS_RESULTS_MIN : ℕ := 10

/-- `OutputBlob::ContainerSize`. -/
def ContainerSize : ℕ := 0xFFFF

/-- `ITERATIONS_RESULTS_MAX`. -/
def ITERATIONS_RESULTS_MAX : ℕ := (ContainerSize - 1) / 2

/-- `myClamp`. -/
def myClamp (p : Key) (low high : ℕ) : ℕ := min (max (fromString 64 p 0) low) high

/-- `StopPrefixPredicate`. -/
def StopPrefixPredicate (pre key : Key) : Bool := !decide (pre <+: key)

section Walk

variable {σ : Type*} (maxResults : Option ℕ) (stop : Key → Bool) (alive : Pair → Bool)
  (pp : σ → Pair → Bool × σ)

/-- `sharedAccumulatePairs_` from a state of its counters on; it counts the results if there is a
maximum of them. What it returns is the tail and what the pairs were made to. -/
def sharedAccumulatePairs (iterations results : ℕ) : List Pair → σ → Key × σ
  | [], s => ([], s)
  | p :: it, s =>
    if ITERATIONS_LOOPS_MAX < iterations + 1 then (p.key, s)
    else if stop p.key = true then ([], s)
    else if ¬alive p = true then sharedAccumulatePairs (iterations + 1) results it s
    else if maxResults.any (· < results + 1) = true then (p.key, s)
    else
      match pp s p with
      | (true, s') => sharedAccumulatePairs (iterations + 1) (results + 1) it s'
      | (false, s') => (p.key, s')

end Walk

/-- A walk within its maximum and its budget takes all live pairs before the stop. -/
theorem sharedAccumulatePairs_within {σ : Type*} {maxResults : Option ℕ} {stop : Key → Bool}
    {alive : Pair → Bool} {pp : σ → Pair → Bool × σ} {f : σ → Pair → σ}
    (hpp : ∀ s p, pp s p = (true, f s p)) {iterations results : ℕ} (it : List Pair) (s : σ)
    (h : iterations + (it.takeWhile fun p => !stop p.key).length ≤ ITERATIONS_LOOPS_MAX)
    (hmax : ∀ n ∈ maxResults,
      results + ((it.takeWhile fun p => !stop p.key).filter alive).length ≤ n) :
    (sharedAccumulatePairs maxResults stop alive pp iterations results it s).2 =
      ((it.takeWhile fun p => !stop p.key).filter alive).foldl f s := by
  induction it generalizing iterations results s with
  | nil => rfl
  | cons p it ih =>
    by_cases hstop : stop p.key = true
    · have htake : (p :: it).takeWhile (fun p => !stop p.key) = [] := by
        rw [List.takeWhile_cons, hstop, Bool.not_true, if_neg Bool.false_ne_true]
      rw [htake, List.filter_nil, List.foldl_nil, sharedAccumulatePairs, if_pos hstop]
      split <;> rfl
    · have htake : (p :: it).takeWhile (fun p => !stop p.key) =
          p :: it.takeWhile fun p => !stop p.key := by
        rw [List.takeWhile_cons, Bool.eq_false_iff.mpr hstop, Bool.not_false, if_pos rfl]
      rw [htake, List.length_cons] at h
      rw [htake, List.filter_cons] at hmax
      have hroom : ¬ITERATIONS_LOOPS_MAX < iterations + 1 := by omega
      rw [htake, sharedAccumulatePairs, if_neg hroom, if_neg hstop, List.filter_cons]
      by_cases halive : alive p = true
      · rw [if_pos halive] at hmax
        have hany : ¬maxResults.any (· < results + 1) = true := by
          rw [Option.any_eq_true_iff_get]
          rintro ⟨hsome, hlt⟩
          have hle := hmax _ (Option.get_mem hsome)
          have hlt' := of_decide_eq_true hlt
          rw [List.length_cons] at hle
          omega
        rw [if_neg (not_not.mpr halive), if_neg hany, hpp, if_pos halive, List.foldl_cons]
        refine ih (f s p) (by omega) fun n hn => ?_
        have hle := hmax n hn
        rw [List.length_cons] at hle
        omega
      · rw [if_neg halive] at hmax
        rw [if_pos halive, if_neg halive]
        exact ih s (by omega) hmax

/-- A walk without a maximum and within its budget takes all live pairs before the stop. -/
theorem sharedAccumulatePairs_foldl {σ : Type*} {stop : Key → Bool} {alive : Pair → Bool}
    {pp : σ → Pair → Bool × σ} {f : σ → Pair → σ} (hpp : ∀ s p, pp s p = (true, f s p))
    {iterations : ℕ} (results : ℕ) (it : List Pair) (s : σ)
    (h : iterations + (it.takeWhile fun p => !stop p.key).length ≤ ITERATIONS_LOOPS_MAX) :
    (sharedAccumulatePairs none stop alive pp iterations results it s).2 =
      ((it.takeWhile fun p => !stop p.key).filter alive).foldl f s :=
  sharedAccumulatePairs_within hpp it s h fun _ hn => nomatch hn

/-- How a walk ends behind the pairs that it has seen, with its tail. -/
inductive Exit (maxResults : Option ℕ) (stop : Key → Bool) (alive : Pair → Bool)
    (iterations results : ℕ) (seen : List Pair) : List Pair → Key → Prop
  | ended : Exit maxResults stop alive iterations results seen [] []
  | spent {p rest} (h : ITERATIONS_LOOPS_MAX ≤ iterations + seen.length) :
      Exit maxResults stop alive iterations results seen (p :: rest) p.key
  | stopped {p rest} (room : iterations + seen.length < ITERATIONS_LOOPS_MAX)
      (h : stop p.key = true) : Exit maxResults stop alive iterations results seen (p :: rest) []
  | full {p rest} (room : iterations + seen.length < ITERATIONS_LOOPS_MAX)
      (go : stop p.key = false) (live : alive p = true)
      (h : ∃ n ∈ maxResults, n ≤ results + (seen.filter alive).length) :
      Exit maxResults stop alive iterations results seen (p :: rest) p.key

/-- A walk that has seen one more pair before. -/
theorem Exit.cons {maxResults : Option ℕ} {stop : Key → Bool} {alive : Pair → Bool}
    {iterations results results' : ℕ} {p : Pair} {seen rest : List Pair} {tail : Key}
    (h : Exit maxResults stop alive (iterations + 1) results' seen rest tail)
    (hresults : results + ((p :: seen).filter alive).length =
      results' + (seen.filter alive).length) :
    Exit maxResults stop alive iterations results (p :: seen) rest tail := by
  have hsum : iterations + (p :: seen).length = iterations + 1 + seen.length := by
    rw [List.length_cons]
    omega
  cases h with
  | ended => exact .ended
  | spent h => exact .spent (hsum ▸ h)
  | stopped room h => exact .stopped (hsum ▸ room) h
  | full room go live h => exact .full (hsum ▸ room) go live (hresults ▸ h)

/-- A walk sees pairs that do not stop it, as many as its budget and its maximum allow. -/
theorem sharedAccumulatePairs_exit {σ : Type*} {maxResults : Option ℕ} {stop : Key → Bool}
    {alive : Pair → Bool} {pp : σ → Pair → Bool × σ} {f : σ → Pair → σ}
    (hpp : ∀ s p, pp s p = (true, f s p)) {iterations results : ℕ} (it : List Pair) (s : σ)
    (hiterations : iterations ≤ ITERATIONS_LOOPS_MAX) (hresults : ∀ n ∈ maxResults, results ≤ n) :
    ∃ seen rest, it = seen ++ rest ∧ (∀ p ∈ seen, stop p.key = false) ∧
      iterations + seen.length ≤ ITERATIONS_LOOPS_MAX ∧
      (∀ n ∈ maxResults, results + (seen.filter alive).length ≤ n) ∧
      (sharedAccumulatePairs maxResults stop alive pp iterations results it s).2 =
        (seen.filter alive).foldl f s ∧
      Exit maxResults stop alive iterations results seen rest
        (sharedAccumulatePairs maxResults stop alive pp iterations results it s).1 := by
  induction it generalizing iterations results s with
  | nil => exact ⟨[], [], rfl, fun _ h => absurd h List.not_mem_nil, hiterations, hresults, rfl, .ended⟩
  | cons p it ih =>
    have hnone : ∀ q ∈ ([] : List Pair), stop q.key = false := fun _ h => absurd h List.not_mem_nil
    rw [sharedAccumulatePairs]
    by_cases hspent : ITERATIONS_LOOPS_MAX < iterations + 1
    · rw [if_pos hspent]
      exact ⟨[], p :: it, rfl, hnone, hiterations, hresults, rfl, .spent (Nat.le_of_lt_succ hspent)⟩
    have hroom : iterations < ITERATIONS_LOOPS_MAX := by omega
    rw [if_neg hspent]
    by_cases hstop : stop p.key = true
    · rw [if_pos hstop]
      exact ⟨[], p :: it, rfl, hnone, hiterations, hresults, rfl, .stopped hroom hstop⟩
    have hgo := Bool.eq_false_iff.mpr hstop
    rw [if_neg hstop]
    by_cases halive : alive p = true
    · rw [if_neg (not_not.mpr halive)]
      by_cases hany : maxResults.any (· < results + 1) = true
      · rw [if_pos hany]
        rw [Option.any_eq_true_iff_get] at hany
        obtain ⟨hsome, hlt⟩ := hany
        exact ⟨[], p :: it, rfl, hnone, hiterations, hresults, rfl,
          .full hroom hgo halive ⟨_, Option.get_mem hsome, Nat.le_of_lt_succ (of_decide_eq_true hlt)⟩⟩
      · rw [if_neg hany, hpp]
        have hmore : ∀ n ∈ maxResults, results + 1 ≤ n := by
          intro n hn
          by_contra hlt
          refine hany ?_
          rw [Option.mem_def.mp hn]
          exact decide_eq_true (Nat.lt_of_not_le hlt)
        obtain ⟨seen, rest, rfl, hseen, hlen, hcount, hfold, hexit⟩ := ih (f s p) hroom hmore
        have hfilter : (p :: seen).filter alive = p :: seen.filter alive :=
          List.filter_cons_of_pos halive
        have hsum : results + ((p :: seen).filter alive).length =
            results + 1 + (seen.filter alive).length := by
          rw [hfilter, List.length_cons]
          omega
        refine ⟨p :: seen, rest, rfl, List.forall_mem_cons.mpr ⟨hgo, hseen⟩, ?_, fun n hn => ?_, ?_,
          hexit.cons hsum⟩
        · rw [List.length_cons]
          omega
        · rw [hsum]
          exact hcount n hn
        · rw [hfilter, List.foldl_cons]
          exact hfold
    · rw [if_pos halive]
      obtain ⟨seen, rest, rfl, hseen, hlen, hcount, hfold, hexit⟩ := ih s hroom hresults
      have hfilter : (p :: seen).filter alive = seen.filter alive :=
        List.filter_cons_of_neg halive
      refine ⟨p :: seen, rest, rfl, List.forall_mem_cons.mpr ⟨hgo, hseen⟩, ?_, ?_, ?_,
        hexit.cons (by rw [hfilter])⟩
      · rw [List.length_cons]
        omega
      · rw [hfilter]
        exact hcount
      · rw [hfilter]
        exact hfold

/-- Where no entry behind one without a property has it, a walk finds all that have it. -/
theorem takeWhile_eq_filter {α : Type*} {p : α → Bool} {l : List α}
    (h : l.Pairwise fun x y => p y = true → p x = true) : l.takeWhile p = l.filter p := by
  induction l with
  | nil => rfl
  | cons x l ih =>
    obtain ⟨hx, hl⟩ := List.pairwise_cons.mp h
    rw [List.takeWhile_cons, List.filter_cons]
    split
    · rw [ih hl]
    · next hnot => exact (List.filter_eq_nil_iff.mpr fun y hy hpy => hnot (hx y hy hpy)).symm

/-- A walk over the pairs from a prefix on sees the pairs with this prefix. -/
theorem takeWhile_fromKey {db : Db} (hdb : Increasing Pair.key db) (pre : Key) :
    ((fromKey Pair.key pre db).takeWhile fun p => !StopPrefixPredicate pre p.key) =
      db.filter fun p => decide (pre <+: p.key) := by
  obtain ⟨l1, l2, rfl, h1, h2⟩ := hdb.exists_cut pre
  have hbelow : l1.filter (fun p => decide (pre <+: p.key)) = [] :=
    List.filter_eq_nil_iff.mpr fun p hp hpre =>
      absurd (le_of_isPrefix (of_decide_eq_true hpre)) (not_le.mpr (h1 p hp))
  have hgone : l2.Pairwise fun x y =>
      (decide (pre <+: y.key)) = true → (decide (pre <+: x.key)) = true := by
    refine (Increasing.append_iff.mp hdb).2.1.imp_of_mem fun hx _ hlt hy => ?_
    by_contra hnot
    exact Queue.not_isPrefix_of_lt (h2 _ hx) (fun hpre => hnot (decide_eq_true hpre)) hlt.le
      (of_decide_eq_true hy)
  rw [fromKey_append h1 h2, List.filter_append, hbelow, List.nil_append,
    ← takeWhile_eq_filter hgone]
  simp only [StopPrefixPredicate, Bool.not_not]

/-- A walk from a key with the prefix on sees what follows it of the pairs with this prefix. -/
theorem takeWhile_fromKey_of_isPrefix {db : Db} (hdb : Increasing Pair.key db) {pre t : Key}
    (ht : pre <+: t) :
    ((fromKey Pair.key t db).takeWhile fun p => !StopPrefixPredicate pre p.key) =
      fromKey Pair.key t (db.filter fun p => decide (pre <+: p.key)) := by
  obtain ⟨l1, l2, rfl, h1, h2⟩ := hdb.exists_cut t
  have hgone : l2.Pairwise fun x y =>
      (decide (pre <+: y.key)) = true → (decide (pre <+: x.key)) = true := by
    refine (Increasing.append_iff.mp hdb).2.1.imp_of_mem fun hx _ hlt hy => ?_
    by_contra hnot
    exact Queue.not_isPrefix_of_lt ((le_of_isPrefix ht).trans (h2 _ hx))
      (fun hpre => hnot (decide_eq_true hpre)) hlt.le (of_decide_eq_true hy)
  rw [fromKey_append h1 h2, List.filter_append,
    fromKey_append (fun y hy => h1 y (List.mem_of_mem_filter hy))
      fun y hy => h2 y (List.mem_of_mem_filter hy), ← takeWhile_eq_filter hgone]
  simp only [StopPrefixPredicate, Bool.not_not]

end HM4.AccumulateResults
