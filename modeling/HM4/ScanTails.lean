import HM4.MIndex2Exact
import HM4.HexConvert

/-!
# The tails of scans

A scan that stops early gives a tail to go on from. The scans over one range of keys give one when
their budget is spent; the scan for several tokens does not.
-/

namespace HM4.ScanTails

open LexPrefix Bytes Pairs KeyedList Database AccumulateResults
open Queue (ITERATIONS_LOOPS_MAX)

/-! ## The scans over one range -/

/-- `AccumulateOutput`. -/
inductive AccumulateOutput
  | KEYS
  | KEYS_WITH_TAIL
  | VALS
  | BOTH
  | BOTH_WITH_TAIL

/-- `pPair`, what a pair adds to the container. -/
def AccumulateOutput.pPair (out : AccumulateOutput) (projKey : Key → Key) (p : Pair) : List Key :=
  match out with
  | .KEYS => [projKey p.key]
  | .KEYS_WITH_TAIL => [projKey p.key, [49]]
  | .VALS => [p.val]
  | .BOTH => [projKey p.key, p.val]
  | .BOTH_WITH_TAIL => [projKey p.key, p.val]

/-- `pTail`, what a tail adds to the container. -/
def AccumulateOutput.pTail (out : AccumulateOutput) (projKeyTail : Key → Key) (key : Key) :
    List Key :=
  match out with
  | .KEYS_WITH_TAIL => [projKeyTail key]
  | .BOTH_WITH_TAIL => [projKeyTail key]
  | .KEYS | .VALS | .BOTH => []

section Scans

variable (stop : Key → Bool) (alive : Pair → Bool)

/-- `sharedAccumulateResults`. -/
def sharedAccumulateResults (out : AccumulateOutput) (maxResults : ℕ)
    (projKey projKeyTail : Key → Key) (it : List Pair) (container : List Key) : List Key :=
  let found := sharedAccumulatePairs (some maxResults) stop alive
    (fun container p => (true, container ++ out.pPair projKey p)) 0 0 it container
  found.2 ++ out.pTail projKeyTail found.1

/-- `sharedAccumulateResultsNext` from a state of its counter on. -/
def sharedAccumulateResultsNext (firstKey : Key) (iterations : ℕ) : List Pair → Key × Key
  | [] => ([], [])
  | p :: it =>
    if ITERATIONS_RESULTS_MAX < iterations + 1 then ([], p.key)
    else if stop p.key = true then ([], [])
    else if ¬alive p = true then sharedAccumulateResultsNext firstKey (iterations + 1) it
    else if p.key = firstKey then sharedAccumulateResultsNext firstKey (iterations + 1) it
    else (p.key, p.val)

/-- The walk of `sharedAccumulateResults` from a state of its counter on, with the pairs that it
takes. -/
def walk (maxResults iterations : ℕ) (it : List Pair) : Key × List Pair :=
  sharedAccumulatePairs (some maxResults) stop alive (fun taken p => (true, taken ++ [p]))
    iterations 0 it []

/-- The entries that a scan is for. -/
def wanted (l : List Pair) : List Pair := l.filter fun p => !stop p.key && alive p

/-- What is in front of the first pair that stops a scan. -/
def front (l : List Pair) : List Pair := l.takeWhile fun p => !stop p.key

/-- What follows from the first pair on that stops a scan. -/
def rest (l : List Pair) : List Pair := l.dropWhile fun p => !stop p.key

/-- A walk takes all entries in front of its tail, which is behind the start if the budget is
spent. -/
structure WalkKeeps (iterations : ℕ) (start : Key) (db : Db) (walk : Key × List Pair) : Prop where
  ended : walk.1 = [] → walk.2 = wanted stop alive (fromKey Pair.key start db)
  going : walk.1 ≠ [] → walk.2 ++ wanted stop alive (fromKey Pair.key walk.1 db) =
    wanted stop alive (fromKey Pair.key start db)
  spent : ∀ p, (fromKey Pair.key start db)[ITERATIONS_LOOPS_MAX - iterations]? = some p →
    walk.1 = p.key → start < walk.1

/-- A scan for the next pair finds it, or there is none in front of its tail. -/
structure NextKeeps (start : Key) (db : Db) (answer : Key × Key) : Prop where
  found : answer.1 ≠ [] → ∃ p, (wanted stop alive (fromKey Pair.key start db)).head? = some p ∧
    answer = (p.key, p.val)
  ended : answer.1 = [] → answer.2 = [] → wanted stop alive (fromKey Pair.key start db) = []
  going : answer.1 = [] → answer.2 ≠ [] → start < answer.2 ∧
    wanted stop alive (fromKey Pair.key answer.2 db) =
      wanted stop alive (fromKey Pair.key start db)

end Scans

variable {stop : Key → Bool} {alive : Pair → Bool} {start : Key} {db : Db}

theorem sharedAccumulatePairs_taken {σ : Type*} {maxResults : Option ℕ} {pp : σ → Pair → Bool × σ}
    {f : σ → Pair → σ} (hpp : ∀ s p, pp s p = (true, f s p)) (iterations results : ℕ)
    (it taken : List Pair) (s : σ) :
    sharedAccumulatePairs maxResults stop alive pp iterations results it (taken.foldl f s) =
      Prod.map id (List.foldl f s) (sharedAccumulatePairs maxResults stop alive
        (fun taken p => (true, taken ++ [p])) iterations results it taken) := by
  induction it generalizing iterations results taken with
  | nil => rfl
  | cons p it ih =>
    rw [sharedAccumulatePairs, sharedAccumulatePairs]
    split
    · rfl
    split
    · rfl
    split
    · exact ih _ _ taken
    split
    · rfl
    rw [hpp]
    have hnext := ih (iterations + 1) (results + 1) (taken ++ [p])
    rw [List.foldl_append] at hnext
    exact hnext

/-- What is answered are the pairs that the walk takes, and its tail. -/
theorem sharedAccumulateResults_eq (out : AccumulateOutput) (maxResults : ℕ)
    (projKey projKeyTail : Key → Key) (it : List Pair) (container : List Key) :
    sharedAccumulateResults stop alive out maxResults projKey projKeyTail it container =
      container ++ (walk stop alive maxResults 0 it).2.flatMap (out.pPair projKey) ++
        out.pTail projKeyTail (walk stop alive maxResults 0 it).1 := by
  have htaken := @sharedAccumulatePairs_taken stop alive _ (some maxResults)
    (fun container p => (true, container ++ out.pPair projKey p)) _ (fun _ _ => rfl) 0 0 it []
    container
  rw [List.foldl_nil] at htaken
  rw [sharedAccumulateResults, htaken, Prod.map_fst, Prod.map_snd,
    List.foldl_append_eq_append, ← List.flatMap_def, walk]
  rfl

/-- The pairs from one of them on. -/
theorem fromKey_of_append (hdb : Increasing Pair.key db) {seen later : List Pair} {p : Pair}
    (hit : fromKey Pair.key start db = seen ++ p :: later) :
    fromKey Pair.key p.key db = p :: later ∧ (seen ≠ [] → start < p.key) := by
  obtain ⟨l1, l2, rfl, h1, h2⟩ := hdb.exists_cut start
  rw [fromKey_append h1 h2] at hit
  subst hit
  rw [← List.append_assoc] at hdb ⊢
  obtain ⟨-, hback, hbelow⟩ := Increasing.append_iff.mp hdb
  obtain ⟨hp, -⟩ := Increasing.cons_iff.mp hback
  constructor
  · refine fromKey_append (fun y hy => hbelow y hy p List.mem_cons_self) fun y hy => ?_
    rcases List.mem_cons.mp hy with rfl | hy
    · exact le_rfl
    · exact (hp y hy).le
  · intro hne
    obtain ⟨q, hq⟩ := List.exists_mem_of_ne_nil seen hne
    exact (h2 q (List.mem_append_left _ hq)).trans_lt
      (hbelow q (List.mem_append_right _ hq) p List.mem_cons_self)

/-- What is behind the first pair is behind the start. -/
theorem lt_of_getElem? (hdb : Increasing Pair.key db) {k : ℕ} (hk : 0 < k) {p : Pair}
    (h : (fromKey Pair.key start db)[k]? = some p) : start < p.key := by
  obtain ⟨hlt, rfl⟩ := List.getElem?_eq_some_iff.mp h
  have hsplit : fromKey Pair.key start db = (fromKey Pair.key start db).take k ++
      (fromKey Pair.key start db)[k] :: (fromKey Pair.key start db).drop (k + 1) := by
    rw [← List.drop_eq_getElem_cons hlt, List.take_append_drop]
  refine (fromKey_of_append hdb hsplit).2 ?_
  rw [← List.length_pos_iff, List.length_take]
  omega

theorem key_ne_nil (p : Pair) : p.key ≠ [] := List.length_pos_iff.mp p.keyValid.1

theorem wanted_append (l l' : List Pair) :
    wanted stop alive (l ++ l') = wanted stop alive l ++ wanted stop alive l' :=
  List.filter_append l l'

theorem wanted_of_forall {l : List Pair} (h : ∀ p ∈ l, stop p.key = false) :
    wanted stop alive l = l.filter alive := by
  refine List.filter_congr fun p hp => ?_
  rw [h p hp, Bool.not_false, Bool.true_and]

theorem front_append {l l' : List Pair} (h : ∀ p ∈ l, stop p.key = false) :
    front stop (l ++ l') = l ++ front stop l' :=
  List.takeWhile_append_of_pos fun p hp => by rw [h p hp, Bool.not_false]

theorem rest_append {l l' : List Pair} (h : ∀ p ∈ l, stop p.key = false) :
    rest stop (l ++ l') = rest stop l' :=
  List.dropWhile_append_of_pos fun p hp => by rw [h p hp, Bool.not_false]

theorem front_of_stop {p : Pair} {l : List Pair} (h : stop p.key = true) :
    front stop (p :: l) = [] := by
  rw [front, List.takeWhile_cons, h, Bool.not_true, if_neg Bool.false_ne_true]

theorem rest_of_stop {p : Pair} {l : List Pair} (h : stop p.key = true) :
    rest stop (p :: l) = p :: l := by
  rw [rest, List.dropWhile_cons, h, Bool.not_true, if_neg Bool.false_ne_true]

theorem front_cons {p : Pair} {l : List Pair} (h : stop p.key = false) :
    front stop (p :: l) = p :: front stop l := by
  rw [front, List.takeWhile_cons, h, Bool.not_false, if_pos rfl, front]

/-- A walk keeps all entries unless it comes to a stop with some of them behind it. -/
theorem walkKeeps_iff (hdb : Increasing Pair.key db) {maxResults iterations : ℕ}
    (hroom : iterations < ITERATIONS_LOOPS_MAX) :
    WalkKeeps stop alive iterations start db
        (walk stop alive maxResults iterations (fromKey Pair.key start db)) ↔
      wanted stop alive (rest stop (fromKey Pair.key start db)) = [] ∨
      ITERATIONS_LOOPS_MAX ≤ iterations + (front stop (fromKey Pair.key start db)).length ∨
      maxResults < ((front stop (fromKey Pair.key start db)).filter alive).length := by
  obtain ⟨seen, later, hit, hseen, hlen, hcount, hfold, hexit⟩ :=
    @sharedAccumulatePairs_exit _ (some maxResults) stop alive
      (fun taken p => (true, taken ++ [p])) _ (fun _ _ => rfl) iterations 0
      (fromKey Pair.key start db) [] hroom.le fun _ _ => Nat.zero_le _
  have htaken : (walk stop alive maxResults iterations (fromKey Pair.key start db)).2 =
      wanted stop alive seen := by
    rw [walk, hfold, List.foldl_append_eq_append, List.nil_append, ← List.flatMap_def,
      List.flatMap_singleton',
      wanted_of_forall hseen]
  change Exit _ stop alive iterations 0 seen later
    (walk stop alive maxResults iterations (fromKey Pair.key start db)).1 at hexit
  generalize walk stop alive maxResults iterations (fromKey Pair.key start db) = w at htaken hexit
  obtain ⟨tail, taken⟩ := w
  obtain rfl : taken = wanted stop alive seen := htaken
  dsimp only at hexit
  have hbehind : ∀ p, (fromKey Pair.key start db)[ITERATIONS_LOOPS_MAX - iterations]? = some p →
      tail = p.key → start < tail := fun p hp heq =>
    heq ▸ lt_of_getElem? hdb (Nat.sub_pos_of_lt hroom) hp
  have hkeeps {p : Pair} {later : List Pair} (hit : fromKey Pair.key start db = seen ++ p :: later)
      (htail : tail = p.key) :
      WalkKeeps stop alive iterations start db (tail, wanted stop alive seen) :=
    ⟨fun hnil => absurd (htail ▸ hnil) (key_ne_nil p), fun _ => by
      rw [htail, (fromKey_of_append hdb hit).1, hit, wanted_append], hbehind⟩
  have hmax := hcount maxResults rfl
  rw [Nat.zero_add] at hmax
  have hfront : front stop (fromKey Pair.key start db) = seen ++ front stop later := by
    rw [hit, front_append hseen]
  have hrest : rest stop (fromKey Pair.key start db) = rest stop later := by
    rw [hit, rest_append hseen]
  rw [hfront, hrest]
  cases hexit with
  | ended =>
    rw [List.append_nil] at hit
    refine iff_of_true ⟨fun _ => congrArg _ hit.symm, fun hne => absurd rfl hne, hbehind⟩ (.inl rfl)
  | spent hspent =>
    refine iff_of_true (hkeeps hit rfl) (.inr (.inl ?_))
    rw [List.length_append]
    omega
  | @stopped p later room hstop =>
    rw [front_of_stop hstop, rest_of_stop hstop, List.append_nil]
    constructor
    · intro h
      have hended := h.ended rfl
      rw [hit, wanted_append] at hended
      exact .inl (List.self_eq_append_right.mp hended)
    · rintro (hnil | hlt | hlt)
      · refine ⟨fun _ => ?_, fun hne => absurd rfl hne, hbehind⟩
        rw [hit, wanted_append, hnil, List.append_nil]
      · omega
      · omega
  | @full p later room go live hfull =>
    refine iff_of_true (hkeeps hit rfl) (.inr (.inr ?_))
    obtain ⟨n, hn, hle⟩ := hfull
    obtain rfl := Option.mem_some.mp hn
    rw [front_cons go, List.filter_append, List.filter_cons_of_pos live, List.length_append,
      List.length_cons]
    omega

/-! ## The scan for the next pair -/

section Next

variable {firstKey : Key}

/-- What a scan for the next pair is for. -/
def isNext (alive : Pair → Bool) (firstKey : Key) (p : Pair) : Bool :=
  alive p && decide (p.key ≠ firstKey)

/-- How a scan for the next pair ends behind the pairs that it has passed. -/
inductive NextExit (stop : Key → Bool) (alive : Pair → Bool) (firstKey : Key) (iterations : ℕ)
    (seen : List Pair) : List Pair → Key × Key → Prop
  | ended : NextExit stop alive firstKey iterations seen [] ([], [])
  | spent {p later} (h : ITERATIONS_RESULTS_MAX ≤ iterations + seen.length) :
      NextExit stop alive firstKey iterations seen (p :: later) ([], p.key)
  | stopped {p later} (room : iterations + seen.length < ITERATIONS_RESULTS_MAX)
      (h : stop p.key = true) : NextExit stop alive firstKey iterations seen (p :: later) ([], [])
  | found {p later} (go : stop p.key = false) (h : isNext alive firstKey p = true) :
      NextExit stop alive firstKey iterations seen (p :: later) (p.key, p.val)

theorem NextExit.cons {iterations : ℕ} {p : Pair} {seen later : List Pair} {answer : Key × Key}
    (h : NextExit stop alive firstKey (iterations + 1) seen later answer) :
    NextExit stop alive firstKey iterations (p :: seen) later answer := by
  have hsum : iterations + (p :: seen).length = iterations + 1 + seen.length := by
    rw [List.length_cons]
    omega
  cases h with
  | ended => exact .ended
  | spent h => exact .spent (hsum ▸ h)
  | stopped room h => exact .stopped (hsum ▸ room) h
  | found go h => exact .found go h

theorem sharedAccumulateResultsNext_cons (iterations : ℕ) (p : Pair) (it : List Pair) :
    sharedAccumulateResultsNext stop alive firstKey iterations (p :: it) =
      if ITERATIONS_RESULTS_MAX < iterations + 1 then ([], p.key)
      else if stop p.key = true then ([], [])
      else if isNext alive firstKey p = true then (p.key, p.val)
      else sharedAccumulateResultsNext stop alive firstKey (iterations + 1) it := by
  rw [sharedAccumulateResultsNext, isNext]
  cases alive p with
  | false => rw [if_pos Bool.false_ne_true, Bool.false_and, if_neg Bool.false_ne_true]
  | true =>
    rw [if_neg (not_not.mpr rfl), Bool.true_and]
    by_cases hkey : p.key = firstKey
    · rw [if_pos hkey, if_neg fun h => absurd hkey (of_decide_eq_true h)]
    · rw [if_neg hkey, if_pos (decide_eq_true hkey)]

theorem sharedAccumulateResultsNext_exit (iterations : ℕ) (it : List Pair) :
    ∃ seen later, it = seen ++ later ∧ (∀ p ∈ seen, stop p.key = false) ∧
      wanted stop (isNext alive firstKey) seen = [] ∧
      NextExit stop alive firstKey iterations seen later
        (sharedAccumulateResultsNext stop alive firstKey iterations it) := by
  have hnone : ∀ q ∈ ([] : List Pair), stop q.key = false := fun _ h => absurd h List.not_mem_nil
  induction it generalizing iterations with
  | nil => exact ⟨[], [], rfl, hnone, rfl, .ended⟩
  | cons p it ih =>
    rw [sharedAccumulateResultsNext_cons]
    by_cases hspent : ITERATIONS_RESULTS_MAX < iterations + 1
    · rw [if_pos hspent]
      exact ⟨[], p :: it, rfl, hnone, rfl, .spent (Nat.le_of_lt_succ hspent)⟩
    rw [if_neg hspent]
    by_cases hstop : stop p.key = true
    · rw [if_pos hstop]
      exact ⟨[], p :: it, rfl, hnone, rfl, .stopped (Nat.le_of_not_lt hspent) hstop⟩
    have hgo := Bool.eq_false_iff.mpr hstop
    rw [if_neg hstop]
    by_cases hnext : isNext alive firstKey p = true
    · rw [if_pos hnext]
      exact ⟨[], p :: it, rfl, hnone, rfl, .found hgo hnext⟩
    · rw [if_neg hnext]
      obtain ⟨seen, later, rfl, hseen, hwanted, hexit⟩ := ih (iterations + 1)
      refine ⟨p :: seen, later, rfl, List.forall_mem_cons.mpr ⟨hgo, hseen⟩, ?_, hexit.cons⟩
      rw [wanted, List.filter_cons_of_neg, ← wanted, hwanted]
      rw [Bool.eq_false_iff.mpr hnext, Bool.and_false]
      exact Bool.false_ne_true

/-- A scan for the next pair keeps all entries unless it comes to a stop with some of them behind
it. -/
theorem nextKeeps_iff (hdb : Increasing Pair.key db) {iterations : ℕ}
    (hroom : iterations < ITERATIONS_RESULTS_MAX) :
    NextKeeps stop (isNext alive firstKey) start db
        (sharedAccumulateResultsNext stop alive firstKey iterations
          (fromKey Pair.key start db)) ↔
      wanted stop (isNext alive firstKey) (rest stop (fromKey Pair.key start db)) = [] ∨
      ITERATIONS_RESULTS_MAX ≤ iterations + (front stop (fromKey Pair.key start db)).length ∨
      wanted stop (isNext alive firstKey) (front stop (fromKey Pair.key start db)) ≠ [] := by
  obtain ⟨seen, later, hit, hseen, hwanted, hexit⟩ :=
    @sharedAccumulateResultsNext_exit stop alive firstKey iterations (fromKey Pair.key start db)
  have hfront : front stop (fromKey Pair.key start db) = seen ++ front stop later := by
    rw [hit, front_append hseen]
  have hrest : rest stop (fromKey Pair.key start db) = rest stop later := by
    rw [hit, rest_append hseen]
  have hall : wanted stop (isNext alive firstKey) (fromKey Pair.key start db) =
      wanted stop (isNext alive firstKey) later := by
    rw [hit, wanted_append, hwanted, List.nil_append]
  rw [hfront, hrest]
  generalize sharedAccumulateResultsNext stop alive firstKey iterations
    (fromKey Pair.key start db) = answer at hexit
  cases hexit with
  | ended =>
    exact iff_of_true ⟨fun hne => absurd rfl hne, fun _ _ => hall, fun _ hne => absurd rfl hne⟩
      (.inl rfl)
  | @spent p later hspent =>
    refine iff_of_true ⟨fun hne => absurd rfl hne, fun _ hnil => absurd hnil (key_ne_nil p),
      fun _ _ => ?_⟩ (.inr (.inl ?_))
    · obtain ⟨hfrom, hlt⟩ := fromKey_of_append hdb hit
      refine ⟨hlt fun hnil => ?_, ?_⟩
      · rw [hnil, List.length_nil] at hspent
        omega
      · rw [hfrom, hall]
    · rw [List.length_append]
      omega
  | @stopped p later room hstop =>
    rw [front_of_stop hstop, rest_of_stop hstop, List.append_nil, hwanted]
    constructor
    · intro h
      exact .inl (hall.symm.trans (h.ended rfl rfl))
    · rintro (hnil | hlt | hne)
      · exact ⟨fun hne => absurd rfl hne, fun _ _ => hall.trans hnil, fun _ hne => absurd rfl hne⟩
      · omega
      · exact absurd rfl hne
  | @found p later go hnext =>
    have hp : wanted stop (isNext alive firstKey) [p] = [p] := by
      rw [wanted, List.filter_cons_of_pos, List.filter_nil]
      rw [go, hnext]
      rfl
    refine iff_of_true ⟨fun _ => ⟨p, ?_, rfl⟩, fun hnil => absurd hnil (key_ne_nil p),
      fun hnil => absurd hnil (key_ne_nil p)⟩ (.inr (.inr ?_))
    · rw [hall, ← List.singleton_append, wanted_append, hp]
      rfl
    · rw [front_cons go, ← List.singleton_append, wanted_append, wanted_append, hp]
      exact List.append_ne_nil_of_right_ne_nil _ (List.cons_ne_nil _ _)

end Next

/-! ## The scan for several tokens -/

section Search

open MIndex2 IndexToken Lanes
open Autocomplete (extractNth)

variable (check : Key → UInt64) (keyN : Key) (tokens : List Key) (keyStart : Key) (db : Db)

/-- A name that is live under each token from the start on. -/
def Matching (r : Key) : Prop :=
  ∀ index ∈ tokens, ∃ p ∈ db, makeKeyDataSearch keyN index <+: p.key ∧
    startOf keyN index keyStart ≤ p.key ∧ extractNth (3 - 1) separator p.key = r ∧
    isOK (check p.key) p = true

/-- All names that are live under each token from the start on, in their order. -/
structure Matches (common : List Key) : Prop where
  sorted : common.Pairwise (· < ·)
  mem : ∀ r, r ∈ common ↔ Matching check keyN tokens keyStart db r

/-- An answer shows the first of some names, and its tail is the name behind them if there is
one. -/
def SearchKeeps (common : List Key) (answer : Reply) : Prop :=
  ∃ n tail, answer = .container ((common.take n).flatMap shown ++ [tail]) ∧
    (tail = [] → common.length ≤ n) ∧ (tail ≠ [] → (common.drop n).head? = some tail)

variable {check keyN tokens keyStart db} {common : List Key}

theorem live_startLane_iff (hdb : Increasing Pair.key db) {index : Key}
    (hfits : (word keyN index keyStart).length ≤ bufferKeySize) {r : Key} :
    Live (startLane check keyN keyStart db index) r ↔
      ∃ p ∈ db, makeKeyDataSearch keyN index <+: p.key ∧ startOf keyN index keyStart ≤ p.key ∧
        extractNth (3 - 1) separator p.key = r ∧ isOK (check p.key) p = true := by
  have hinc : Increasing Pair.key (db.filter fun p =>
      decide (keyN ++ separator :: (index ++ [separator]) <+: p.key)) :=
    hdb.sublist List.filter_sublist
  rw [startLane_eq hdb hfits, Live, List.mem_map, makeKeyDataSearch_fits hfits, startOf_eq hfits]
  constructor
  · rintro ⟨p, hp, heq⟩
    obtain ⟨hmem, hle⟩ := hinc.mem_fromKey.mp hp
    obtain ⟨hin, hpre⟩ := List.mem_filter.mp hmem
    obtain ⟨hname, hok⟩ := Prod.mk.inj heq
    exact ⟨p, hin, of_decide_eq_true hpre, hle, hname, hok⟩
  · rintro ⟨p, hin, hpre, hle, hname, hok⟩
    exact ⟨p, hinc.mem_fromKey.mpr ⟨List.mem_filter.mpr ⟨hin, decide_eq_true hpre⟩, hle⟩,
      Prod.ext hname hok⟩

theorem length_shown (common : List Key) (n : ℕ) (tail : Key) :
    ((common.take n).flatMap shown ++ [tail]).length = 2 * min n common.length + 1 := by
  rw [List.length_append, List.length_flatMap, List.length_singleton, ← List.length_take]
  congr 1
  induction common.take n with
  | nil => rfl
  | cons r rest ih =>
    rw [List.map_cons, List.sum_cons, ih, List.length_cons, shown, List.length_cons,
      List.length_singleton]
    omega

/-- An answer without a tail keeps all names only if it shows them all. -/
theorem not_searchKeeps {n : ℕ} (hn : n < common.length) :
    ¬SearchKeeps common (.container ((common.take n).flatMap shown ++ [[]])) := by
  rintro ⟨n', tail, heq, hended, -⟩
  have hlists := Reply.container.inj heq
  have hlengths := congrArg List.length hlists
  rw [length_shown, length_shown] at hlengths
  obtain ⟨-, htail⟩ := List.append_inj' hlists rfl
  have hle := hended (List.cons.inj htail).1.symm
  omega

/-- A search for several tokens keeps all names if none of them is empty and those of its page
and the one behind them can be afforded. -/
theorem searchKeeps_iff (hdb : Increasing Pair.key db) (hmany : 1 < tokens.length)
    (hfits : ∀ index ∈ tokens, (word keyN index keyStart).length ≤ bufferKeySize)
    (maxIterations count : ℕ) (hcommon : Matches check keyN tokens keyStart db common) :
    SearchKeeps common (rangeM check maxIterations keyN tokens count keyStart db) ↔
      [] ∉ common ∧ AllAffordable maxIterations
        (tokens.map (startLane check keyN keyStart db)) 0 none (common.take (count + 1)) := by
  have hlanes : ∀ index ∈ tokens, Sorted (startLane check keyN keyStart db index) :=
    fun index hindex => sorted_startLane hdb (hfits index hindex)
  have htokens : tokens ≠ [] := List.ne_nil_of_length_pos (by omega)
  have hmem : ∀ r, r ∈ common ↔ Common (tokens.map (startLane check keyN keyStart db)) r := by
    intro r
    rw [hcommon.mem, Matching, Common, List.forall_mem_map]
    exact forall₂_congr fun index hindex => (live_startLane_iff hdb (hfits index hindex)).symm
  by_cases hnil : [] ∈ common
  · rw [rangeM_of_nil_mem hlanes htokens hmany.ne' maxIterations count hcommon.sorted hmem hnil]
    refine iff_of_false ?_ fun h => h.1 hnil
    exact not_searchKeeps (n := 0) (List.length_pos_of_mem hnil)
  · obtain ⟨answer, hanswer, hpage⟩ :=
      rangeM_page hlanes htokens hmany.ne' maxIterations count hcommon.sorted hmem hnil
    rw [hanswer, and_iff_right hnil]
    by_cases hall : AllAffordable maxIterations (tokens.map (startLane check keyN keyStart db)) 0
        none (common.take (count + 1))
    · refine iff_of_true ⟨count, _, congrArg _ (hpage.eq_of_affordable hall), fun hend => ?_,
        fun hne => ?_⟩ hall
      · cases hdrop : common.drop count with
        | nil => exact List.drop_eq_nil_iff.mp hdrop
        | cons r later =>
          rw [hdrop, List.headD_cons] at hend
          subst hend
          exact absurd (List.mem_of_mem_drop (hdrop ▸ List.mem_cons_self)) hnil
      · cases hdrop : common.drop count with
        | nil =>
          rw [hdrop] at hne
          exact absurd rfl hne
        | cons r later => rfl
    · obtain ⟨n, hn, heq⟩ := hpage.eq_of_not_affordable hall
      rw [heq]
      exact iff_of_false (not_searchKeeps hn) hall

end Search

/-! ## A name behind many tombstones -/

section Buried

open MIndex2 IndexToken Lanes

/-- A name that comes before the name of one byte. -/
def deadName (i : ℕ) : Key :=
  0 :: HexConvert.toHex ⟨false, false⟩ (BitVec.ofNat 64 i) (List.replicate 16 0)

/-- The keys of the names that are not alive. -/
def deadKeys (n : ℕ) : List Key := (List.range n).map fun i => word [107] [97] (deadName i)

/-- A name under the tokens "a" and "b" of the set "k", behind so many tombstones under "a". -/
def buried (n : ℕ) : Db :=
  (deadKeys n).filterMap (lasting []) ++
    [word [107] [97] [1], word [107] [98] [1]].filterMap (lasting [49])

theorem lasting_of_valid {val key : Key} (hkey : 0 < key.length ∧ key.length ≤ maxKeySize)
    (hval : val.length ≤ maxValSize) : ∃ p, lasting val key = some p ∧ p.key = key ∧ p.val = val :=
  ⟨_, dif_pos ⟨hkey, hval⟩, rfl, rfl⟩

theorem map_key_lasting {val : Key} (hval : val.length ≤ maxValSize) {keys : List Key}
    (hkeys : ∀ key ∈ keys, 0 < key.length ∧ key.length ≤ maxKeySize) :
    (keys.filterMap (lasting val)).map Pair.key = keys := by
  induction keys with
  | nil => rfl
  | cons key keys ih =>
    obtain ⟨hfirst, hothers⟩ := List.forall_mem_cons.mp hkeys
    obtain ⟨p, hp, hkey, -⟩ := lasting_of_valid hfirst hval
    rw [List.filterMap_cons_some hp, List.map_cons, ih hothers, hkey]

theorem length_deadName (i : ℕ) : (deadName i).length = 17 := by
  rw [deadName, List.length_cons, HexConvert.length_toHex _ (by decide) _ (by decide)]
  rfl

theorem deadName_lt {i j : ℕ} (hij : i < j) (hj : j < 2 ^ 64) : deadName i < deadName j := by
  rw [deadName, deadName, List.cons_lt_cons_self,
    HexConvert.toHex_lt_iff _ (by decide) _ _ (by decide) (by decide), BitVec.lt_def,
    BitVec.toNat_ofNat, BitVec.toNat_ofNat, Nat.mod_eq_of_lt (hij.trans hj), Nat.mod_eq_of_lt hj]
  exact hij

variable {n : ℕ} (hn : n < 2 ^ 64)

theorem valid_deadKeys : ∀ key ∈ deadKeys n, 0 < key.length ∧ key.length ≤ maxKeySize := by
  intro key hkey
  obtain ⟨i, -, rfl⟩ := List.mem_map.mp hkey
  have hlen : (word [107] [97] (deadName i)).length = 21 := by
    rw [word_eq_append, List.length_append, length_deadName]
    rfl
  rw [hlen]
  decide

theorem map_key_buried : (buried n).map Pair.key =
    deadKeys n ++ [word [107] [97] [1], word [107] [98] [1]] := by
  rw [buried, List.map_append, map_key_lasting (Nat.zero_le _) valid_deadKeys,
    map_key_lasting (by decide) (by decide)]

include hn in
theorem increasing_buried : Increasing Pair.key (buried n) := by
  have hkeys : ((buried n).map Pair.key).Pairwise (· < ·) := by
    rw [map_key_buried, List.pairwise_append]
    refine ⟨?_, by decide, fun key hkey key' hkey' => ?_⟩
    · rw [deadKeys, List.pairwise_map]
      refine List.pairwise_lt_range.imp_of_mem fun _ hj hij => ?_
      exact word_lt_word.mpr (deadName_lt hij ((List.mem_range.mp hj).trans hn))
    · obtain ⟨i, -, rfl⟩ := List.mem_map.mp hkey
      rcases List.mem_pair.mp hkey' with rfl | rfl
      · exact word_lt_word.mpr (List.Lex.rel (by decide))
      · exact List.Lex.cons (List.Lex.cons (List.Lex.rel (by decide)))
  exact List.pairwise_map.mp hkeys

theorem matches_buried : Matches (fun _ => 0) [107] [[97], [98]] [] (buried n) [[1]] where
  sorted := List.pairwise_singleton _ _
  mem r := by
    constructor
    · intro hr
      obtain rfl := List.mem_singleton.mp hr
      have hshort : Matching (fun _ => 0) [107] [[97], [98]] []
          ([word [107] [97] [1], word [107] [98] [1]].filterMap (lasting [49])) [1] := by
        unfold Matching
        decide +kernel
      intro index hindex
      obtain ⟨p, hp, hrest⟩ := hshort index hindex
      exact ⟨p, List.mem_append_right _ hp, hrest⟩
    · intro hall
      obtain ⟨p, hp, hpre, -, hname, -⟩ := hall [98] (List.mem_cons_of_mem _ List.mem_cons_self)
      have hmem := List.mem_map_of_mem (f := Pair.key) hp
      rw [map_key_buried] at hmem
      have hother (s : Key) : ¬makeKeyDataSearch [107] [98] <+: word [107] [97] s := by
        rintro ⟨t, ht⟩
        exact absurd (List.cons.inj (List.cons.inj (List.cons.inj ht).2).2).1 (by decide)
      rcases List.mem_append.mp hmem with hdead | hlast
      · obtain ⟨i, -, hkey⟩ := List.mem_map.mp hdead
        rw [← hkey] at hpre
        exact absurd hpre (hother _)
      · rcases List.mem_pair.mp hlast with hkey | hkey
        · rw [hkey] at hpre
          exact absurd hpre (hother _)
        · rw [hkey] at hname
          exact List.mem_singleton.mpr hname.symm

theorem fits_buried : ∀ index ∈ ([[97], [98]] : List Key),
    (word [107] index []).length ≤ bufferKeySize := by decide

include hn in
/-- All tombstones are in front of the name. -/
theorem le_upTo_buried :
    n ≤ upTo (startLane (fun _ => 0) [107] [] (buried n) [97]) [1] := by
  have hdb := increasing_buried hn
  have hfits := fits_buried [97] List.mem_cons_self
  have hnodup : ((List.range n).map deadName).Nodup := by
    rw [List.nodup_iff_pairwise_ne, List.pairwise_map]
    exact List.pairwise_lt_range.imp_of_mem fun _ hj hij =>
      (deadName_lt hij ((List.mem_range.mp hj).trans hn)).ne
  have hsub : (List.range n).map deadName ⊆
      ((startLane (fun _ => 0) [107] [] (buried n) [97]).filter fun e =>
        decide (e.1 ≤ [1])).map Prod.fst := by
    intro name hname
    obtain ⟨i, hi, rfl⟩ := List.mem_map.mp hname
    have hmem : word [107] [97] (deadName i) ∈ (buried n).map Pair.key := by
      rw [map_key_buried]
      exact List.mem_append_left _ (List.mem_map_of_mem hi)
    obtain ⟨p, hp, hkey⟩ := List.mem_map.mp hmem
    have hunder : p ∈ under [107] [97] [] (buried n) := by
      have hinc : Increasing Pair.key ((buried n).filter fun p =>
          decide ([107] ++ separator :: ([97] ++ [separator]) <+: p.key)) :=
        hdb.sublist List.filter_sublist
      refine hinc.mem_fromKey.mpr ⟨List.mem_filter.mpr ⟨hp, decide_eq_true ?_⟩, ?_⟩
      · rw [hkey, word_eq_append]
        exact List.prefix_append _ _
      · rw [hkey, word_le_word]
        exact not_lt.mp (List.not_lt_nil _)
    refine List.mem_map.mpr ⟨(deadName i, isOK 0 p), List.mem_filter.mpr ⟨?_, ?_⟩, rfl⟩
    · rw [startLane_eq hdb hfits]
      refine List.mem_map.mpr ⟨p, hunder, Prod.ext ?_ rfl⟩
      rw [hkey]
      exact extractNth_two (by decide) (by decide) _
    · have hlt : deadName i < [1] := List.Lex.rel (by decide)
      exact decide_eq_true hlt.le
  have hlen := (hnodup.subperm hsub).length_le
  rw [List.length_map, List.length_range, List.length_map] at hlen
  rw [upTo, List.countP_eq_length_filter]
  exact hlen

include hn in
/-- A name behind as many tombstones as the budget allows is not found. -/
theorem not_searchKeeps_buried : ¬SearchKeeps [[1]]
    (rangeM (fun _ => 0) n [107] [[97], [98]] 10 [] (buried n)) := by
  rw [searchKeeps_iff (increasing_buried hn) (by decide) fits_buried n 10 matches_buried]
  rintro ⟨-, hafford, -⟩
  have hle := le_upTo_buried hn
  have htotal : upTo (startLane (fun _ => 0) [107] [] (buried n) [97]) [1] ≤
      total ([[97], [98]].map (startLane (fun _ => 0) [107] [] (buried n))) [1] := by
    rw [List.map_cons, total_cons]
    exact Nat.le_add_right _ _
  rcases hafford with ⟨-, hlt⟩ | hlt <;> omega

end Buried

/-! ## All scans -/

section All

open MIndex2 IndexToken Lanes

/-- When the scans lose nothing: those over one range unless they come to a stop with entries
behind it, and the one for several tokens as long as it can afford the names of its page and the
one behind them. -/
theorem scans_keep_iff (hdb : Increasing Pair.key db) :
    (∀ (stop : Key → Bool) (alive : Pair → Bool) (start : Key) (maxResults : ℕ),
      (∀ (out : AccumulateOutput) (projKey projKeyTail : Key → Key) (container : List Key),
        sharedAccumulateResults stop alive out maxResults projKey projKeyTail
            (fromKey Pair.key start db) container =
          container ++ (walk stop alive maxResults 0 (fromKey Pair.key start db)).2.flatMap
              (out.pPair projKey) ++
            out.pTail projKeyTail (walk stop alive maxResults 0 (fromKey Pair.key start db)).1) ∧
      ∀ iterations < ITERATIONS_LOOPS_MAX,
        WalkKeeps stop alive iterations start db
            (walk stop alive maxResults iterations (fromKey Pair.key start db)) ↔
          wanted stop alive (rest stop (fromKey Pair.key start db)) = [] ∨
          ITERATIONS_LOOPS_MAX ≤ iterations + (front stop (fromKey Pair.key start db)).length ∨
          maxResults < ((front stop (fromKey Pair.key start db)).filter alive).length) ∧
    (∀ (stop : Key → Bool) (alive : Pair → Bool) (firstKey start : Key),
      ∀ iterations < ITERATIONS_RESULTS_MAX,
        NextKeeps stop (isNext alive firstKey) start db
            (sharedAccumulateResultsNext stop alive firstKey iterations
              (fromKey Pair.key start db)) ↔
          wanted stop (isNext alive firstKey) (rest stop (fromKey Pair.key start db)) = [] ∨
          ITERATIONS_RESULTS_MAX ≤ iterations + (front stop (fromKey Pair.key start db)).length ∨
          wanted stop (isNext alive firstKey) (front stop (fromKey Pair.key start db)) ≠ []) ∧
    ∀ (check : Key → UInt64) (keyN : Key) (tokens : List Key) (keyStart : Key) (common : List Key)
      (maxIterations count : ℕ), 1 < tokens.length →
      (∀ index ∈ tokens, (word keyN index keyStart).length ≤ bufferKeySize) →
      Matches check keyN tokens keyStart db common →
      (SearchKeeps common (rangeM check maxIterations keyN tokens count keyStart db) ↔
        [] ∉ common ∧ AllAffordable maxIterations
          (tokens.map (startLane check keyN keyStart db)) 0 none (common.take (count + 1))) :=
  ⟨fun _ _ _ _ => ⟨fun _ _ _ _ => sharedAccumulateResults_eq _ _ _ _ _ _,
      fun _ hroom => walkKeeps_iff hdb hroom⟩,
    fun _ _ _ _ _ hroom => nextKeeps_iff hdb hroom,
    fun _ _ _ _ _ _ _ hmany hfits hcommon => searchKeeps_iff hdb hmany hfits _ _ hcommon⟩

/-- Scans of a list without tombstones. -/
theorem scans_keep_two :
    WalkKeeps (StopPrefixPredicate [107]) (isOK 0) 0 [107] (buried 0)
        (walk (StopPrefixPredicate [107]) (isOK 0) 10 0 (fromKey Pair.key [107] (buried 0))) ∧
      NextKeeps (StopPrefixPredicate [107]) (isNext (isOK 0) [107]) [107] (buried 0)
        (sharedAccumulateResultsNext (StopPrefixPredicate [107]) (isOK 0) [107] 0
          (fromKey Pair.key [107] (buried 0))) ∧
      SearchKeeps [[1]] (rangeM (fun _ => 0) 100000 [107] [[97], [98]] 10 [] (buried 0)) := by
  obtain ⟨hwalk, hnext, hsearch⟩ := scans_keep_iff (increasing_buried (n := 0) (by decide))
  exact ⟨((hwalk _ _ _ _).2 0 (by decide)).mpr (.inl (by decide +kernel)),
    (hnext _ _ _ _ 0 (by decide)).mpr (.inl (by decide +kernel)),
    (hsearch _ _ _ _ _ _ _ (by decide) fits_buried matches_buried).mpr
      ⟨by decide, .inr (by decide +kernel), trivial⟩⟩

end All

/-- A live name under both tokens of a list is not found, and there is no tail: one hundred
thousand tombstones are in front of it. -/
theorem buried_name_lost :
    Increasing Pair.key (buried ITERATIONS_LOOPS_MAX) ∧
      Matches (fun _ => 0) [107] [[97], [98]] [] (buried ITERATIONS_LOOPS_MAX) [[1]] ∧
      ¬SearchKeeps [[1]] (MIndex2.rangeM (fun _ => 0) ITERATIONS_LOOPS_MAX [107] [[97], [98]] 10 []
        (buried ITERATIONS_LOOPS_MAX)) :=
  ⟨increasing_buried (by decide), matches_buried, not_searchKeeps_buried (by decide)⟩

end HM4.ScanTails
