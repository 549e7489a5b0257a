import HM4.PointSets

/-!
# Pages of points

The commands that look for points answer in pages. A page has two strings for each point, and
behind them the key from which the next page goes on, or an empty one.
-/

namespace HM4.PointPages

open LexPrefix Bytes Pairs KeyedList Database Separated IndexToken AccumulateResults ScanTails
  PointSets
open Queue (ITERATIONS_LOOPS_MAX)

/-! ## One page -/

section Page

variable (stop : Key → Bool) (alive : Pair → Bool)

/-- A page that goes over one more pair before. -/
def ahead (p : Pair) (cut : List Pair × List Pair) : List Pair × List Pair := (p :: cut.1, cut.2)

/-- How a page with room for so many pairs and so many results cuts a list: the pairs that it goes
over, and the pairs in front of which it is cut, if it does not come to an end. -/
def page : ℕ → ℕ → List Pair → List Pair × List Pair
  | _, _, [] => ([], [])
  | 0, _, p :: it => ([], p :: it)
  | budget + 1, 0, p :: it =>
    if stop p.key = true then ([], [])
    else if alive p = true then ([], p :: it)
    else ahead p (page budget 0 it)
  | budget + 1, count + 1, p :: it =>
    if stop p.key = true then ([], [])
    else if alive p = true then ahead p (page budget count it)
    else ahead p (page budget (count + 1) it)

/-- The key of the first pair. -/
def tailOf (l : List Pair) : Key := l.head?.elim [] Pair.key

variable {stop alive}

section Equations

attribute [local simp] page

variable {p : Pair} (budget count : ℕ) (it : List Pair)

theorem page_of_stop (h : stop p.key = true) :
    page stop alive (budget + 1) count (p :: it) = ([], []) := by
  cases count <;> rw [page, if_pos h]

theorem page_of_full (hgo : stop p.key = false) (h : alive p = true) :
    page stop alive (budget + 1) 0 (p :: it) = ([], p :: it) := by
  rw [page, if_neg (Bool.eq_false_iff.mp hgo), if_pos h]

theorem page_of_live (hgo : stop p.key = false) (h : alive p = true) :
    page stop alive (budget + 1) (count + 1) (p :: it) =
      ahead p (page stop alive budget count it) := by
  rw [page, if_neg (Bool.eq_false_iff.mp hgo), if_pos h]

theorem page_of_dead (hgo : stop p.key = false) (h : alive p = false) :
    page stop alive (budget + 1) count (p :: it) = ahead p (page stop alive budget count it) := by
  cases count <;>
    rw [page, if_neg (Bool.eq_false_iff.mp hgo), if_neg (Bool.eq_false_iff.mp h)]

end Equations

/-- A page stops at the end of the list or of its range, or it is cut. -/
theorem page_cases (budget count : ℕ) (it : List Pair) :
    ((page stop alive budget count it).2 = [] ∧
        (page stop alive budget count it).1 = front stop it) ∨
      ∃ p r, (page stop alive budget count it).2 = p :: r ∧
        it = (page stop alive budget count it).1 ++ p :: r ∧
        ∀ q ∈ (page stop alive budget count it).1, stop q.key = false := by
  induction it generalizing budget count with
  | nil =>
    left
    cases budget <;> exact ⟨rfl, rfl⟩
  | cons p it ih =>
    have hcons {budget' count' : ℕ} (hgo : stop p.key = false)
        (heq : page stop alive budget count (p :: it) =
          ahead p (page stop alive budget' count' it)) :
        ((page stop alive budget count (p :: it)).2 = [] ∧
            (page stop alive budget count (p :: it)).1 = front stop (p :: it)) ∨
          ∃ q r, (page stop alive budget count (p :: it)).2 = q :: r ∧
            p :: it = (page stop alive budget count (p :: it)).1 ++ q :: r ∧
            ∀ q ∈ (page stop alive budget count (p :: it)).1, stop q.key = false := by
      rw [heq, front_cons hgo]
      rcases ih budget' count' with ⟨hend, hfront⟩ | ⟨q, r, hcut, hit, hseen⟩
      · exact .inl ⟨hend, congrArg (p :: ·) hfront⟩
      · exact .inr ⟨q, r, hcut, congrArg (p :: ·) hit, List.forall_mem_cons.mpr ⟨hgo, hseen⟩⟩
    have hnone : ∀ q ∈ ([] : List Pair), stop q.key = false := fun _ hq => absurd hq List.not_mem_nil
    cases budget with
    | zero => exact .inr ⟨p, it, rfl, rfl, hnone⟩
    | succ budget =>
      by_cases hstop : stop p.key = true
      · rw [page_of_stop budget count it hstop, front_of_stop hstop]
        exact .inl ⟨rfl, rfl⟩
      have hgo := Bool.eq_false_iff.mpr hstop
      by_cases halive : alive p = true
      · cases count with
        | zero =>
          rw [page_of_full budget it hgo halive]
          exact .inr ⟨p, it, rfl, rfl, hnone⟩
        | succ count => exact hcons hgo (page_of_live budget count it hgo halive)
      · exact hcons hgo (page_of_dead budget count it hgo (Bool.eq_false_iff.mpr halive))

/-- A page that is not cut goes up to the place where it stops. -/
theorem page_fst_of_end {budget count : ℕ} {it : List Pair}
    (h : (page stop alive budget count it).2 = []) :
    (page stop alive budget count it).1 = front stop it := by
  rcases @page_cases stop alive budget count it with ⟨-, hfront⟩ | ⟨p, r, hcut, -⟩
  · exact hfront
  · rw [hcut] at h
    exact nomatch h

/-- A page that is cut goes up to the cut, and nothing stops it there. -/
theorem page_of_cut {budget count : ℕ} {it : List Pair} {p : Pair} {r : List Pair}
    (h : (page stop alive budget count it).2 = p :: r) :
    it = (page stop alive budget count it).1 ++ p :: r ∧
      ∀ q ∈ (page stop alive budget count it).1, stop q.key = false := by
  rcases @page_cases stop alive budget count it with ⟨hend, -⟩ | ⟨q, r', hcut, hsplit⟩
  · rw [hend] at h
    exact nomatch h
  · rw [h] at hcut
    obtain ⟨rfl, rfl⟩ := List.cons.inj hcut
    exact hsplit

/-- A page with room goes over the first pair. -/
theorem page_progress {budget count : ℕ} (hbudget : 0 < budget) (hcount : 0 < count)
    {it : List Pair} {p : Pair} {r : List Pair}
    (hcut : (page stop alive budget count it).2 = p :: r) : r.length + 1 < it.length := by
  have hseen : (page stop alive budget count it).1 ≠ [] := by
    obtain ⟨budget, rfl⟩ := Nat.exists_eq_succ_of_ne_zero hbudget.ne'
    obtain ⟨count, rfl⟩ := Nat.exists_eq_succ_of_ne_zero hcount.ne'
    cases it with
    | nil =>
      rw [page] at hcut
      exact nomatch hcut
    | cons x it =>
      rw [page] at hcut ⊢
      split_ifs at hcut ⊢
      · exact List.cons_ne_nil _ _
      · exact List.cons_ne_nil _ _
  have hlen := congrArg List.length (page_of_cut hcut).1
  have hpos := List.length_pos_of_ne_nil hseen
  rw [List.length_append, List.length_cons] at hlen
  omega

theorem page_congr {alive' : Pair → Bool} {it : List Pair} (h : ∀ p ∈ it, alive p = alive' p)
    (budget count : ℕ) : page stop alive budget count it = page stop alive' budget count it := by
  induction it generalizing budget count with
  | nil => cases budget <;> rfl
  | cons p it ih =>
    obtain ⟨hp, hit⟩ := List.forall_mem_cons.mp h
    cases budget with
    | zero => rfl
    | succ budget =>
      cases count with
      | zero => simp only [page, hp, ih hit]
      | succ count => simp only [page, hp, ih hit]

theorem length_page (budget count : ℕ) (it : List Pair) :
    (page stop alive budget count it).1.length ≤ budget := by
  induction it generalizing budget count with
  | nil => cases budget <;> simp [page]
  | cons p it ih =>
    cases budget with
    | zero => simp [page]
    | succ budget =>
      cases count with
      | zero =>
        rw [page]
        split_ifs
        · simp
        · simp
        · exact Nat.succ_le_succ (ih budget 0)
      | succ count =>
        rw [page]
        split_ifs
        · simp
        · exact Nat.succ_le_succ (ih budget count)
        · exact Nat.succ_le_succ (ih budget (count + 1))

/-- A page takes the first live pairs of those that it has room to go over. -/
theorem page_filter (budget count : ℕ) (it : List Pair) :
    (page stop alive budget count it).1.filter alive =
      (((front stop it).take budget).filter alive).take count := by
  induction it generalizing budget count with
  | nil => cases budget <;> simp [page, front]
  | cons p it ih =>
    cases budget with
    | zero => simp [page]
    | succ budget =>
      by_cases hstop : stop p.key = true
      · simp [page_of_stop budget count it hstop, front, hstop]
      · have hgo := Bool.eq_false_iff.mpr hstop
        have hfront : front stop (p :: it) = p :: front stop it := by simp [front, hgo]
        rw [hfront, List.take_succ_cons]
        by_cases halive : alive p = true
        · rw [List.filter_cons_of_pos halive]
          cases count with
          | zero => simp [page_of_full budget it hgo halive]
          | succ count =>
            rw [page_of_live budget count it hgo halive, ahead, List.filter_cons_of_pos halive, ih,
              List.take_succ_cons]
        · have hdead := Bool.eq_false_iff.mpr halive
          rw [page_of_dead budget count it hgo hdead, ahead, List.filter_cons_of_neg halive, ih,
            List.filter_cons_of_neg halive]

/-- A walk takes the live pairs of its page, and its tail is the first key behind the cut. -/
theorem sharedAccumulatePairs_page {maxResults iterations results : ℕ}
    (hiterations : iterations ≤ ITERATIONS_LOOPS_MAX) (hresults : results ≤ maxResults)
    (it taken : List Pair) :
    sharedAccumulatePairs (some maxResults) stop alive (fun taken p => (true, taken ++ [p]))
        iterations results it taken =
      (tailOf (page stop alive (ITERATIONS_LOOPS_MAX - iterations) (maxResults - results) it).2,
        taken ++ (page stop alive (ITERATIONS_LOOPS_MAX - iterations)
          (maxResults - results) it).1.filter alive) := by
  induction it generalizing iterations results taken with
  | nil =>
    rw [sharedAccumulatePairs, page, List.filter_nil, List.append_nil]
    rfl
  | cons p it ih =>
    rw [sharedAccumulatePairs]
    by_cases hspent : ITERATIONS_LOOPS_MAX < iterations + 1
    · have hzero : ITERATIONS_LOOPS_MAX - iterations = 0 := by omega
      rw [if_pos hspent, hzero, page, List.filter_nil, List.append_nil]
      rfl
    have hsucc : ITERATIONS_LOOPS_MAX - iterations = ITERATIONS_LOOPS_MAX - (iterations + 1) + 1 := by
      omega
    rw [if_neg hspent, hsucc]
    by_cases hstop : stop p.key = true
    · rw [if_pos hstop, page_of_stop _ _ it hstop, List.filter_nil, List.append_nil]
      rfl
    have hgo := Bool.eq_false_iff.mpr hstop
    rw [if_neg hstop]
    by_cases halive : alive p = true
    · rw [if_neg (not_not.mpr halive)]
      by_cases hfull : maxResults < results + 1
      · have hzero : maxResults - results = 0 := by omega
        have hany : (some maxResults).any (· < results + 1) = true := decide_eq_true hfull
        rw [if_pos hany, hzero, page_of_full _ it hgo halive, List.filter_nil, List.append_nil]
        rfl
      · have hmore : maxResults - results = maxResults - (results + 1) + 1 := by omega
        have hany : ¬(some maxResults).any (· < results + 1) = true := fun h =>
          hfull (of_decide_eq_true h)
        rw [if_neg hany, hmore, page_of_live _ _ it hgo halive]
        dsimp only [ahead]
        rw [ih (by omega) (by omega), List.filter_cons_of_pos halive, List.append_assoc,
          List.singleton_append]
    · have hdead := Bool.eq_false_iff.mpr halive
      rw [if_pos halive, ih (by omega) hresults, page_of_dead _ _ it hgo hdead]
      dsimp only [ahead]
      rw [List.filter_cons_of_neg halive]

theorem walk_page (count : ℕ) (it : List Pair) :
    walk stop alive count 0 it = (tailOf (page stop alive ITERATIONS_LOOPS_MAX count it).2,
      (page stop alive ITERATIONS_LOOPS_MAX count it).1.filter alive) :=
  sharedAccumulatePairs_page (Nat.zero_le _) (Nat.zero_le _) it []

end Page

/-! ## All pages -/

section Lines

variable {α : Type*} (line : α → ℕ → Key)

/-- The strings of some entries whose lines are numbered from a number on. -/
def render : ℕ → List (α × Key) → List Key
  | _, [] => []
  | id, (a, val) :: entries => line a id :: val :: render (id + 1) entries

/-- What the point commands answer: for each pair that the walk takes a line and its value, and
the tail behind them. -/
def answer (entry : Pair → α) (count : ℕ) (stop : Key → Bool) (now : UInt64) (it : List Pair) :
    Reply :=
  let found := sharedAccumulatePairs (some count) stop (isOK now)
    (fun s p => (true, (s.1 ++ [line (entry p) s.2, p.val], s.2 + 1))) 0 0 it (([] : List Key), 0)
  .container (found.2.1 ++ [found.1])

/-- The pages of a query, which is asked again with each tail until it is empty. -/
inductive Pages (query : UInt64 → Key → Reply) : Key → List (List (α × Key)) → Prop
  | last {now start entries}
      (h : query now start = .container (render line 0 entries ++ [[]])) :
      Pages query start [entries]
  | next {now start entries tail pages}
      (h : query now start = .container (render line 0 entries ++ [tail])) (hne : tail ≠ [])
      (hrest : Pages query tail pages) : Pages query start (entries :: pages)

variable {line}

theorem foldl_render (entry : Pair → α) (taken : List Pair) (container : List Key) (id : ℕ) :
    taken.foldl (fun s p => (s.1 ++ [line (entry p) s.2, p.val], s.2 + 1)) (container, id) =
      (container ++ render line id (taken.map fun p => (entry p, p.val)), id + taken.length) := by
  induction taken generalizing container id with
  | nil => rw [List.foldl_nil, List.map_nil, render, List.append_nil, List.length_nil, Nat.add_zero]
  | cons p taken ih =>
    rw [List.foldl_cons, ih, List.map_cons, render, List.length_cons, List.append_assoc]
    congr 1
    omega

/-- An answer shows the live pairs of its page. -/
theorem answer_eq (entry : Pair → α) (count : ℕ) (stop : Key → Bool) (now : UInt64)
    (it : List Pair) :
    answer line entry count stop now it = .container
      (render line 0 (((page stop (isOK now) ITERATIONS_LOOPS_MAX count it).1.filter
          (isOK now)).map fun p => (entry p, p.val)) ++
        [tailOf (page stop (isOK now) ITERATIONS_LOOPS_MAX count it).2]) := by
  have htaken := @sharedAccumulatePairs_taken stop (isOK now) _ (some count)
    (fun (s : List Key × ℕ) p => (true, (s.1 ++ [line (entry p) s.2, p.val], s.2 + 1))) _
    (fun _ _ => rfl) 0 0 it [] ([], 0)
  have hwalk := @walk_page stop (isOK now) count it
  rw [walk] at hwalk
  rw [List.foldl_nil, hwalk] at htaken
  rw [answer, htaken]
  dsimp only [Prod.map_apply, id]
  rw [foldl_render, List.nil_append]

variable (hline : ∀ id, Function.Injective fun a => line a id)

include hline

theorem render_injective (id : ℕ) : Function.Injective (render line id) := by
  intro entries entries' heq
  induction entries generalizing id entries' with
  | nil =>
    cases entries' with
    | nil => rfl
    | cons y entries' => exact nomatch heq
  | cons x entries ih =>
    cases entries' with
    | nil => exact nomatch heq
    | cons y entries' =>
      rw [render, render] at heq
      obtain ⟨hfirst, hrest⟩ := List.cons.inj heq
      obtain ⟨hval, hrest⟩ := List.cons.inj hrest
      rw [Prod.ext (hline id hfirst) hval, ih _ hrest]

/-- The pages do not depend on the times of the queries if the answers do not. -/
theorem Pages.unique {query : UInt64 → Key → Reply}
    (hquery : ∀ now now' start, query now start = query now' start) {start : Key}
    {pages pages' : List (List (α × Key))} (h : Pages line query start pages)
    (h' : Pages line query start pages') : pages = pages' := by
  have hsame {now now' : UInt64} {start tail tail' : Key} {entries entries' : List (α × Key)}
      (hq : query now start = .container (render line 0 entries ++ [tail]))
      (hq' : query now' start = .container (render line 0 entries' ++ [tail'])) :
      entries = entries' ∧ tail = tail' := by
    rw [hquery now now', hq'] at hq
    obtain ⟨hrender, htail⟩ := List.append_inj' (Reply.container.inj hq) rfl
    exact ⟨(render_injective hline 0 hrender).symm, (List.singleton_inj.mp htail).symm⟩
  induction h generalizing pages' with
  | last hq =>
    cases h' with
    | last hq' => rw [(hsame hq hq').1]
    | next hq' hne' hrest' => exact absurd (hsame hq hq').2.symm hne'
  | next hq hne hrest ih =>
    cases h' with
    | last hq' => exact absurd (hsame hq hq').2 hne
    | next hq' hne' hrest' =>
      obtain ⟨rfl, rfl⟩ := hsame hq hq'
      rw [ih hrest']

/-- What holds of all pages together is told by any pages of the query. -/
theorem Pages.exists_iff {query : UInt64 → Key → Reply}
    (hquery : ∀ now now' start, query now start = query now' start) {start : Key}
    {pages : List (List (α × Key))} (h : Pages line query start pages)
    (wanted : List (α × Key) → Prop) :
    (∃ pages, Pages line query start pages ∧ wanted pages.flatten) ↔ wanted pages.flatten := by
  constructor
  · intro hall
    obtain ⟨pages', hpages', hwanted⟩ := hall
    rwa [hpages'.unique hline hquery h] at hwanted
  · intro hwanted
    exact ⟨pages, h, hwanted⟩

end Lines

/-- The answers do not depend on the times if what is alive does not. -/
theorem answer_congr {α : Type*} {line : α → ℕ → Key} {entry : Pair → α} {now now' : UInt64}
    {it : List Pair} (h : ∀ p ∈ it, isOK now p = isOK now' p) (count : ℕ) (stop : Key → Bool) :
    answer line entry count stop now it = answer line entry count stop now' it := by
  have hseen : ∀ p ∈ (page stop (isOK now') ITERATIONS_LOOPS_MAX count it).1, p ∈ it := by
    intro p hp
    rcases @page_cases stop (isOK now') ITERATIONS_LOOPS_MAX count it with
      ⟨-, hfront⟩ | ⟨q, r, -, hit, -⟩
    · rw [hfront] at hp
      exact (List.takeWhile_prefix _).subset hp
    · rw [hit]
      exact List.mem_append_left _ hp
  rw [answer_eq, answer_eq, page_congr h,
    List.filter_congr fun p hp => h p (hseen p hp)]

/-- The times of queries of stored points do not matter. -/
theorem query_congr {m : Key × Key → Option (BitVec 64 × Key)} {db : Db} (h : Holds m db)
    {α : Type*} {line : α → ℕ → Key} {entry : Pair → α} {count : ℕ} {stop : Key → Key → Bool}
    {first : Key → Key} {query : UInt64 → Key → Reply}
    (hquery : ∀ now start, query now start =
      answer line entry count (stop start) now (fromKey Pair.key (first start) db))
    (now now' : UInt64) (start : Key) : query now start = query now' start := by
  rw [hquery, hquery]
  refine answer_congr (fun p hp => ?_) count (stop start)
  exact isOK_eq h (h.increasing.mem_fromKey.mp hp).1 now now'

section Shows

variable (stop : Key → Key → Bool) (alive : Pair → Bool) (count : ℕ)

/-- The pairs that all pages from a key on show, where the key of a page tells where it stops. -/
inductive Shows : Key → List Pair → List Pair → Prop
  | last {start l} (h : (page (stop start) alive ITERATIONS_LOOPS_MAX count l).2 = []) :
      Shows start l ((page (stop start) alive ITERATIONS_LOOPS_MAX count l).1.filter alive)
  | next {start l p r shown}
      (h : (page (stop start) alive ITERATIONS_LOOPS_MAX count l).2 = p :: r)
      (hrest : Shows p.key (p :: r) shown) :
      Shows start l
        ((page (stop start) alive ITERATIONS_LOOPS_MAX count l).1.filter alive ++ shown)

variable {stop alive count}

/-- The pages come to an end. -/
theorem exists_shows (hcount : 0 < count) (start : Key) (l : List Pair) :
    ∃ shown, Shows stop alive count start l shown := by
  induction hn : l.length using Nat.strong_induction_on generalizing start l with
  | _ n ih =>
    subst hn
    cases hcut : (page (stop start) alive ITERATIONS_LOOPS_MAX count l).2 with
    | nil => exact ⟨_, .last hcut⟩
    | cons p r =>
      have hlt := page_progress (by decide) hcount hcut
      obtain ⟨shown, hshown⟩ := ih (p :: r).length hlt p.key (p :: r) rfl
      exact ⟨_, .next hcut hshown⟩

/-- What pages show is what is alive up to some place. -/
theorem Shows.eq_take {start : Key} {l shown : List Pair} (h : Shows stop alive count start l shown) :
    ∃ n, shown = (l.take n).filter alive := by
  induction h with
  | @last start l h =>
    have hlead : front (stop start) l <+: l := List.takeWhile_prefix _
    refine ⟨(front (stop start) l).length, ?_⟩
    rw [page_fst_of_end h, ← List.prefix_iff_eq_take.mp hlead]
  | @next start l p r shown h hrest ih =>
    have hl := (page_of_cut h).1
    obtain ⟨n, rfl⟩ := ih
    generalize (page (stop start) alive ITERATIONS_LOOPS_MAX count l).1 = seen at hl ⊢
    subst hl
    refine ⟨seen.length + n, ?_⟩
    rw [List.take_length_add_append, List.filter_append]

/-- Pages that all stop at the same place show what is alive in front of it. -/
theorem Shows.eq_front {stop : Key → Bool} {start : Key} {l shown : List Pair}
    (h : Shows (fun _ => stop) alive count start l shown) : shown = (front stop l).filter alive := by
  induction h with
  | last h => rw [page_fst_of_end h]
  | @next start l p r shown h hrest ih =>
    obtain ⟨hl, hseen⟩ := page_of_cut h
    rw [ih]
    generalize (page stop alive ITERATIONS_LOOPS_MAX count l).1 = seen at hl hseen ⊢
    subst hl
    rw [front_append hseen, List.filter_append]

end Shows

/-- Queries that go on from their tails show what their pages show. -/
theorem exists_pages {α : Type*} {line : α → ℕ → Key} {entry : Pair → α} {count : ℕ}
    {stop : Key → Key → Bool} {db : Db} (hdb : Increasing Pair.key db) {now : UInt64}
    {query : UInt64 → Key → Reply} {first : Key}
    (hquery : ∀ start, query now start = answer line entry count
      (stop (if start = [] then first else start)) now
      (fromKey Pair.key (if start = [] then first else start) db))
    {start : Key} {l shown : List Pair} (h : Shows stop (isOK now) count start l shown)
    {asked : Key} (hasked : (if asked = [] then first else asked) = start)
    (hl : l = fromKey Pair.key start db) :
    ∃ pages, Pages line query asked pages ∧
      pages.flatten = shown.map fun p => (entry p, p.val) := by
  induction h generalizing asked with
  | @last start l h =>
    have hq := hquery asked
    rw [hasked, ← hl, answer_eq, h] at hq
    exact ⟨_, .last hq, List.flatten_singleton⟩
  | @next start l p r shown h hrest ih =>
    have hq := hquery asked
    rw [hasked, ← hl, answer_eq, h] at hq
    have hrestKey : p :: r = fromKey Pair.key p.key db :=
      (fromKey_of_append hdb (hl.symm.trans (page_of_cut h).1)).1.symm
    obtain ⟨pages, hpages, hflatten⟩ := ih (if_neg (key_ne_nil p)) hrestKey
    refine ⟨_, .next hq (key_ne_nil p) hpages, ?_⟩
    rw [List.flatten_cons, hflatten, List.map_append]

/-! ## Live pairs of a set -/

/-- `after_prefix`. -/
def afterPrefix (prefixSize : ℕ) (s : Key) : Key :=
  if prefixSize ≤ s.length then s.drop prefixSize else s

/-- The code in a key, from `decodeIndex`. -/
def codeOf (keyN key : Key) : BitVec 64 :=
  HexConvert.fromHex 64
    ((ZSet.permutation1NoIndex.decodeIndex (afterPrefix (1 * 1 + keyN.length) key)).getD 0 [])

theorem codeOf_dataKey {i : Key × Key} (hi : Used i) (z : BitVec 64) :
    codeOf i.1 (dataKey i z) = z := by
  have hdrop : afterPrefix (1 * 1 + i.1.length) (dataKey i z) = score z ++ separator :: i.2 := by
    have hsplit : dataKey i z = (i.1 ++ [separator]) ++ (score z ++ separator :: i.2) := by
      rw [dataKey_eq hi, List.append_assoc, List.singleton_append]
    have hlen : (i.1 ++ [separator]).length = 1 * 1 + i.1.length := by
      rw [List.length_append, List.length_singleton]
      omega
    have hle : (i.1 ++ [separator]).length ≤ (dataKey i z).length :=
      hsplit ▸ (List.prefix_append (i.1 ++ [separator]) _).length_le
    rw [afterPrefix, ← hlen, if_pos hle, hsplit, List.drop_left]
  have hpieces := pieces_append (separator_notMem_score z) i.2
  rw [codeOf, hdrop, ZSet.Kind.decodeIndex, readTokens, hpieces]
  exact fromHex_score z

section Between

variable {m : Key × Key → Option (BitVec 64 × Key)} {db : Db} (h : Holds m db) {keyN : Key}
  (hN : valid keyN) (hsep : separator ∉ keyN)

/-- A pair that shows a point of a set. -/
def IsPoint (m : Key × Key → Option (BitVec 64 × Key)) (keyN : Key) (p : Pair) (keySub : Key)
    (x : BitVec 64 × Key) : Prop :=
  m (keyN, keySub) = some x ∧ p.key = dataKey (keyN, keySub) x.1 ∧ p.val = x.2 ∧ x.2 ≠ []

include h hN hsep

/-- Between the keys of two codes only points are alive. -/
theorem live_between {p : Pair} (hp : p ∈ db) {now : UInt64} (hok : isOK now p = true)
    {lo hi : BitVec 64} (hlo : headKey keyN lo ≤ p.key)
    (hhi : p.key ≤ headKey keyN hi ∨ headKey keyN hi <+: p.key) :
    ∃ s x, IsPoint m keyN p s x := by
  -- the key has the name of the set in front
  have hname (z : BitVec 64) : keyN ++ [separator] <+: headKey keyN z := by
    refine ⟨score z ++ [separator], ?_⟩
    rw [headKey_eq hN, List.append_assoc, List.singleton_append]
  have hfront : keyN ++ [separator] <+: p.key := by
    rcases hhi with hle | hlead
    · have hsame : (headKey keyN lo).take (keyN ++ [separator]).length =
          (headKey keyN hi).take (keyN ++ [separator]).length := by
        rw [← List.prefix_iff_eq_take.mp (hname lo), ← List.prefix_iff_eq_take.mp (hname hi)]
      refine List.prefix_iff_eq_take.mpr ?_
      rw [take_eq_of_between hlo hle hsame]
      exact List.prefix_iff_eq_take.mp (hname lo)
    · exact (hname hi).trans hlead
  obtain ⟨w, hw⟩ := hfront
  rw [List.append_assoc, List.singleton_append] at hw
  rcases live_cases h hp hok with ⟨i, x, hx, hkey, hval, hne⟩ | ⟨i, hi', hkey⟩
  · have hused := used_of_point h hx
    rw [hkey, dataKey_eq hused] at hw
    obtain rfl := (cut_unique hsep hused.2.2 hw).1
    exact ⟨i.2, x, hx, hkey, hval, hne⟩
  · -- a control key comes behind all codes
    exfalso
    have hctrl := isCtrlKey hi'
    rw [CtrlKey, ← hkey] at hctrl
    rw [hctrl] at hw
    obtain ⟨hsame, -⟩ := cut_unique hsep hi'.2.2 hw
    obtain ⟨c, cs, hscore⟩ := List.exists_cons_of_ne_nil (valid_score hi).1
    have hc : c < separator := lt_separator_of_mem_score c (hscore ▸ List.mem_cons_self)
    have hhead : headKey keyN hi = keyN ++ separator :: c :: (cs ++ [separator]) := by
      rw [headKey_eq hN, hscore, List.cons_append]
    rcases hhi with hle | hlead
    · refine absurd hle (not_le.mpr ?_)
      rw [hhead, hctrl, ← hsame]
      refine Queue.append_lt_append keyN ?_
      exact List.Lex.cons (List.Lex.rel hc)
    · rw [hhead, hctrl, ← hsame, List.prefix_append_right_inj, List.cons_prefix_cons,
        List.cons_prefix_cons] at hlead
      exact absurd hlead.2.1 hc.ne

/-- Behind the key of a code only the points with this code are alive. -/
theorem live_prefix {p : Pair} (hp : p ∈ db) {now : UInt64} (hok : isOK now p = true)
    {z : BitVec 64} (hlead : headKey keyN z <+: p.key) :
    ∃ s x, IsPoint m keyN p s x ∧ x.1 = z := by
  obtain ⟨s, x, hx, hkey, hval, hne⟩ :=
    live_between h hN hsep hp hok (le_of_isPrefix hlead) (.inr hlead)
  have hown := headKey_isPrefix hN (used_of_point h hx) x.1
  have hlen : (headKey keyN x.1).length = (headKey keyN z).length := by
    rw [length_headKey hN, length_headKey hN]
  rw [hkey] at hlead
  have heq := List.IsPrefix.eq_of_length
    (List.prefix_of_prefix_length_le hown hlead hlen.le) hlen
  have hle := (headKey_le_iff hN).mp heq.le
  have hge := (headKey_le_iff hN).mp heq.ge
  exact ⟨s, x, ⟨hx, hkey, hval, hne⟩, BitVec.le_antisymm hle hge⟩

end Between

/-! ## What should be shown -/

/-- Each point with a code of some kind is shown once, with its code and its value, in the order of
the codes. -/
def Lists (f : Key → Option (BitVec 64 × Key)) (wanted : BitVec 64 → Prop)
    (out : List (BitVec 64 × Key)) : Prop :=
  ∃ ids : List Key, ids.Nodup ∧ (∀ s, s ∈ ids ↔ ∃ x, f s = some x ∧ wanted x.1) ∧
    out.Perm (ids.filterMap f) ∧ out.Pairwise fun x y => x.1 ≤ y.1

/-- The points that have a value. -/
def visible (f : Key → Option (BitVec 64 × Key)) (s : Key) : Option (BitVec 64 × Key) :=
  (f s).filter fun x => decide (x.2 ≠ [])

section Lists

variable {f : Key → Option (BitVec 64 × Key)} {wanted wanted' : BitVec 64 → Prop}
  {out out' : List (BitVec 64 × Key)}

theorem visible_eq_some {s : Key} {x : BitVec 64 × Key} :
    visible f s = some x ↔ f s = some x ∧ x.2 ≠ [] := by
  rw [visible, Option.filter_eq_some_iff, decide_eq_true_iff]

theorem Lists.mem_iff (h : Lists f wanted out) {x : BitVec 64 × Key} :
    x ∈ out ↔ ∃ s, f s = some x ∧ wanted x.1 := by
  obtain ⟨ids, -, hids, hperm, -⟩ := h
  rw [hperm.mem_iff, List.mem_filterMap]
  constructor
  · rintro ⟨s, hs, hx⟩
    obtain ⟨y, hy, hw⟩ := (hids s).mp hs
    obtain rfl := Option.some.inj (hx.symm.trans hy)
    exact ⟨s, hx, hw⟩
  · rintro ⟨s, hx, hw⟩
    exact ⟨s, (hids s).mpr ⟨x, hx, hw⟩, hx⟩

theorem Lists.perm (h : Lists f wanted out) (h' : Lists f wanted out') : out.Perm out' := by
  obtain ⟨ids, hnodup, hids, hperm, -⟩ := h
  obtain ⟨ids', hnodup', hids', hperm', -⟩ := h'
  have hsame : ids.Perm ids' := (List.perm_ext_iff_of_nodup hnodup hnodup').mpr fun s => by
    rw [hids, hids']
  exact hperm.trans ((hsame.filterMap f).trans hperm'.symm)

theorem Lists.of_perm (h : Lists f wanted out) (hperm : out'.Perm out)
    (hsorted : out'.Pairwise fun x y => x.1 ≤ y.1) : Lists f wanted out' := by
  obtain ⟨ids, hnodup, hids, hperm', -⟩ := h
  exact ⟨ids, hnodup, hids, hperm.trans hperm', hsorted⟩

/-- An answer that shows the points with a value of one kind shows those of another if they are
the same. -/
theorem Lists.visible_iff (h : Lists (visible f) wanted' out) :
    Lists f wanted out ↔
      ∀ s x, f s = some x → (wanted x.1 ↔ wanted' x.1 ∧ x.2 ≠ []) := by
  constructor
  · intro hf s x hx
    constructor
    · intro hw
      obtain ⟨s', hx', hw'⟩ := h.mem_iff.mp (hf.mem_iff.mpr ⟨s, hx, hw⟩)
      exact ⟨hw', (visible_eq_some.mp hx').2⟩
    · rintro ⟨hw', hne⟩
      obtain ⟨s', hx', hw⟩ := hf.mem_iff.mp (h.mem_iff.mpr ⟨s, visible_eq_some.mpr ⟨hx, hne⟩, hw'⟩)
      exact hw
  · intro hsame
    obtain ⟨ids, hnodup, hids, hperm, hsorted⟩ := h
    have hfound : ∀ s ∈ ids, visible f s = f s := by
      intro s hs
      obtain ⟨x, hx, -⟩ := (hids s).mp hs
      rw [hx, (visible_eq_some.mp hx).1]
    refine ⟨ids, hnodup, fun s => ?_, List.filterMap_congr hfound ▸ hperm, hsorted⟩
    rw [hids]
    constructor
    · rintro ⟨x, hx, hw'⟩
      obtain ⟨hfx, hne⟩ := visible_eq_some.mp hx
      exact ⟨x, hfx, (hsame s x hfx).mpr ⟨hw', hne⟩⟩
    · rintro ⟨x, hx, hw⟩
      obtain ⟨hw', hne⟩ := (hsame s x hx).mp hw
      exact ⟨x, visible_eq_some.mpr ⟨hx, hne⟩, hw'⟩

end Lists

/-- Live pairs that show the points of a kind are such an answer. -/
theorem lists_visible {m : Key × Key → Option (BitVec 64 × Key)} {db : Db} (h : Holds m db)
    {keyN : Key} (hN : valid keyN) {shown : List Pair} (hshown : Increasing Pair.key shown)
    {wanted : BitVec 64 → Prop}
    (hsound : ∀ p ∈ shown, ∃ s x, IsPoint m keyN p s x ∧ wanted x.1)
    (hcomplete : ∀ s x, m (keyN, s) = some x → x.2 ≠ [] → wanted x.1 →
      ∃ p ∈ shown, p.key = dataKey (keyN, s) x.1) :
    Lists (visible fun s => m (keyN, s)) wanted
      (shown.map fun p => (codeOf keyN p.key, p.val)) := by
  let subOf (p : Pair) : Key := p.key.drop (keyN.length + 18)
  have hsub {s : Key} (hused : Used (keyN, s)) (z : BitVec 64) :
      (dataKey (keyN, s) z).drop (keyN.length + 18) = s := by
    rw [dataKey_eq_append hN hused, ← length_headKey hN z, List.drop_left]
  have hread : ∀ p ∈ shown, visible (fun s => m (keyN, s)) (subOf p) =
      some (codeOf keyN p.key, p.val) := by
    intro p hp
    obtain ⟨s, x, ⟨hx, hkey, hval, hne⟩, -⟩ := hsound p hp
    have hused := used_of_point h hx
    have hs : subOf p = s := by
      dsimp only [subOf]
      rw [hkey, hsub hused]
    have hcode : codeOf keyN p.key = x.1 := by
      rw [hkey]
      exact codeOf_dataKey hused x.1
    rw [hs, hcode, hval]
    exact visible_eq_some.mpr ⟨hx, hne⟩
  refine ⟨shown.map subOf, ?_, fun s => ?_, ?_, ?_⟩
  · rw [List.nodup_iff_pairwise_ne, List.pairwise_map]
    refine hshown.imp_of_mem fun {p q} hp hq hlt heq => ?_
    obtain ⟨s, x, ⟨hx, hkey, -⟩, -⟩ := hsound p hp
    obtain ⟨s', x', ⟨hx', hkey', -⟩, -⟩ := hsound q hq
    dsimp only [subOf] at heq
    rw [hkey, hkey', hsub (used_of_point h hx), hsub (used_of_point h hx')] at heq
    subst heq
    obtain rfl := Option.some.inj (hx.symm.trans hx')
    rw [hkey, hkey'] at hlt
    exact lt_irrefl _ hlt
  · rw [List.mem_map]
    constructor
    · rintro ⟨p, hp, rfl⟩
      obtain ⟨s, x, hpoint, hw⟩ := hsound p hp
      have hcode : codeOf keyN p.key = x.1 := by
        rw [hpoint.2.1]
        exact codeOf_dataKey (used_of_point h hpoint.1) x.1
      exact ⟨_, hread p hp, hcode ▸ hw⟩
    · rintro ⟨x, hx, hw⟩
      obtain ⟨hx, hne⟩ := visible_eq_some.mp hx
      obtain ⟨p, hp, hkey⟩ := hcomplete s x hx hne hw
      refine ⟨p, hp, ?_⟩
      dsimp only [subOf]
      rw [hkey, hsub (used_of_point h hx)]
  · rw [List.filterMap_map]
    have hmap : shown.filterMap (fun p => some (codeOf keyN p.key, p.val)) =
        shown.map fun p => (codeOf keyN p.key, p.val) :=
      congrFun (List.filterMap_eq_map (f := fun p : Pair => (codeOf keyN p.key, p.val))) shown
    rw [← hmap]
    exact List.Perm.of_eq (List.filterMap_congr hread).symm
  · rw [List.pairwise_map]
    refine hshown.imp_of_mem fun {p q} hp hq hlt => ?_
    obtain ⟨s, x, ⟨hx, hkey, -⟩, -⟩ := hsound p hp
    obtain ⟨s', x', ⟨hx', hkey', -⟩, -⟩ := hsound q hq
    have hused := used_of_point h hx
    have hused' := used_of_point h hx'
    have hcode : codeOf keyN p.key = x.1 := hkey ▸ codeOf_dataKey hused x.1
    have hcode' : codeOf keyN q.key = x'.1 := hkey' ▸ codeOf_dataKey hused' x'.1
    dsimp only
    rw [hcode, hcode', ← headKey_le_iff hN]
    have htake := take_le_take hlt.le (keyN.length + 18)
    rw [hkey, hkey', dataKey_eq_append hN hused, dataKey_eq_append hN hused',
      ← length_headKey hN x.1, List.take_left, length_headKey hN x.1, ← length_headKey hN x'.1,
      List.take_left] at htake
    exact htake

/-! ## Numbers in lines -/

/-- A text with zeros in front, as for `{:0>width}`. -/
def fill (width : ℕ) (s : Key) : Key := List.replicate (width - s.length) 48 ++ s

/-- A number of a line, as for `{:08x}`. -/
def hex08 (id : ℕ) : Key := MortonKeys.toHex (BitVec.ofNat 32 id) (List.replicate 8 0)

theorem numberOf_fill (width : ℕ) (s : Key) :
    RedisProtocol.numberOf (fill width s) = RedisProtocol.numberOf s := by
  have hzeros (k : ℕ) : Decimal.valueFrom 0 (List.replicate k 0) = 0 := by
    induction k with
    | zero => rfl
    | succ k ih => exact ih
  have hmap (k : ℕ) : (List.replicate k (48 : Byte)).map (fun c => c.val - 48) =
      List.replicate k 0 := List.map_replicate
  rw [RedisProtocol.numberOf, fill, List.map_append, hmap, Decimal.value, Decimal.valueFrom_append,
    hzeros]
  rfl

theorem fill_numeral_injective (width : ℕ) :
    Function.Injective fun n => fill width (RedisProtocol.numeral n) := by
  intro n n' heq
  have hnumber := congrArg RedisProtocol.numberOf heq
  dsimp only at hnumber
  rwa [numberOf_fill, numberOf_fill, RedisProtocol.numberOf_numeral,
    RedisProtocol.numberOf_numeral] at hnumber

theorem length_fill {width : ℕ} {s : Key} (h : s.length ≤ width) : (fill width s).length = width := by
  rw [fill, List.length_append, List.length_replicate]
  omega

end HM4.PointPages
