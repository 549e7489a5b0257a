import HM4.PointPages

/-!
# The length of a hash and its listings

The commands that list a hash walk over as many pairs as the loops allow and take as many results as
a container has room for. The command that counts the sub keys walks over no more pairs than that
many results.
-/

namespace HM4.HashListing

open LexPrefix Bytes Pairs KeyedList Database IndexToken AccumulateResults ScanTails PointPages
open Queue (ITERATIONS_LOOPS_MAX)

/-- The keys of a hash begin with it. -/
def hashPrefix (keyN : Key) : Key := concatenateBuffer bufferKeySize [keyN, [separator]]

theorem hashPrefix_eq {keyN : Key} (h : isKeyValid keyN) :
    hashPrefix keyN = keyN ++ [separator] := by
  have hle := h.2
  have hsum : (([keyN, [separator]] : List Key).map List.length).sum ≤ bufferKeySize := by
    unfold bufferKeySize
    simp only [List.map_cons, List.map_nil, List.sum_cons, List.sum_nil, List.length_singleton]
    omega
  unfold hashPrefix
  rw [concatenateBuffer_eq hsum]
  rfl

/-- `countResultsH` from a state of its counters on. -/
def countResultsH (stop : Key → Bool) (alive : Pair → Bool) : (iterations results : ℕ) →
    List Pair → ℕ
  | _, results, [] => results
  | iterations, results, p :: it =>
    if ITERATIONS_RESULTS_MAX < iterations + 1 then results
    else if stop p.key = true then results
    else if ¬alive p = true then countResultsH stop alive (iterations + 1) results it
    else countResultsH stop alive (iterations + 1) (results + 1) it

/-- `accumulateResultsH`. -/
def accumulateResultsH (out : AccumulateOutput) (maxResults : ℕ) (now : UInt64) (pre : Key)
    (it : List Pair) : List Key :=
  sharedAccumulateResults (StopPrefixPredicate pre) (isOK now) out maxResults
    (afterPrefix pre.length) id it []

/-- `HGETALL`, `HGETKEYS` and `HGETVALS`, by what they put out. -/
def listing (out : AccumulateOutput) (now : UInt64) (p : List Key) (db : Db) : Reply :=
  if p.length ≠ 2 then .error .NEED_EXACT_PARAMS_1
  else if p.getD 1 [] = [] then .error .EMPTY_KEY
  else if ¬isKeyValid (p.getD 1 []) then .error .INVALID_KEY_SIZE
  else
    let key := hashPrefix (p.getD 1 [])
    .container (accumulateResultsH out ITERATIONS_RESULTS_MAX now key (fromKey Pair.key key db))

/-- `HGETALL`. -/
def HGETALL : UInt64 → List Key → Db → Reply := listing .BOTH

/-- `HGETKEYS`. -/
def HGETKEYS : UInt64 → List Key → Db → Reply := listing .KEYS

/-- `HGETVALS`. -/
def HGETVALS : UInt64 → List Key → Db → Reply := listing .VALS

/-- `HLEN`. -/
def HLEN (now : UInt64) (p : List Key) (db : Db) : Reply :=
  if p.length ≠ 2 then .error .NEED_EXACT_PARAMS_1
  else if ¬isKeyValid (p.getD 1 []) then .error .INVALID_KEY_SIZE
  else
    let key := hashPrefix (p.getD 1 [])
    .number (countResultsH (StopPrefixPredicate key) (isOK now) 0 0 (fromKey Pair.key key db))

/-! ## What is counted, and what is listed -/

/-- How many of the first pairs are alive. -/
def liveIn (alive : Pair → Bool) (n : ℕ) (l : List Pair) : ℕ := ((l.take n).filter alive).length

section Count

variable {stop : Key → Bool} {alive : Pair → Bool}

theorem countResultsH_eq (iterations results : ℕ) (it : List Pair) :
    countResultsH stop alive iterations results it =
      results + liveIn alive (ITERATIONS_RESULTS_MAX - iterations) (front stop it) := by
  induction it generalizing iterations results with
  | nil => simp [countResultsH, liveIn, front]
  | cons p it ih =>
    unfold countResultsH
    by_cases hspent : ITERATIONS_RESULTS_MAX < iterations + 1
    · have hzero : ITERATIONS_RESULTS_MAX - iterations = 0 := by omega
      rw [if_pos hspent, hzero]
      simp [liveIn]
    · rw [if_neg hspent]
      by_cases hstop : stop p.key = true
      · rw [if_pos hstop]
        simp [liveIn, front, hstop]
      · have hsucc : ITERATIONS_RESULTS_MAX - iterations =
            ITERATIONS_RESULTS_MAX - (iterations + 1) + 1 := by omega
        have hfront : front stop (p :: it) = p :: front stop it := by
          simp [front, Bool.eq_false_iff.mpr hstop]
        rw [if_neg hstop, hsucc, hfront]
        by_cases halive : alive p = true
        · rw [if_neg (not_not.mpr halive), ih]
          simp only [liveIn, List.take_succ_cons, List.filter_cons_of_pos halive, List.length_cons]
          omega
        · rw [if_pos halive, ih]
          simp only [liveIn, List.take_succ_cons, List.filter_cons_of_neg halive]

end Count

/-- The pairs of a hash, alive or not. -/
def hashPairs (keyN : Key) (db : Db) : List Pair :=
  db.filter fun p => decide (keyN ++ [separator] <+: p.key)

/-- Both count alike: of the pairs that only the listings go over none is alive, or all are that
both go over. -/
theorem liveIn_eq_min_iff (alive : Pair → Bool) {m n : ℕ} (hmn : m ≤ n) (l : List Pair) :
    liveIn alive m l = min m (liveIn alive n l) ↔
      (∀ q ∈ (l.drop m).take (n - m), alive q = false) ∨ ∀ q ∈ l.take m, alive q = true := by
  have hsplit : liveIn alive n l = liveIn alive m l + liveIn alive (n - m) (l.drop m) := by
    have htake : l.take n = l.take m ++ (l.drop m).take (n - m) := by
      have hsum : m + (n - m) = n := by omega
      rw [← hsum, List.take_add, hsum]
    unfold liveIn
    rw [htake, List.filter_append, List.length_append]
  have hnone : liveIn alive (n - m) (l.drop m) = 0 ↔
      ∀ q ∈ (l.drop m).take (n - m), alive q = false := by
    unfold liveIn
    rw [List.length_eq_zero_iff, List.filter_eq_nil_iff]
    simp only [Bool.not_eq_true]
  have hall : liveIn alive m l = (l.take m).length ↔ ∀ q ∈ l.take m, alive q = true :=
    List.length_filter_eq_length_iff
  have hle : liveIn alive m l ≤ (l.take m).length := List.length_filter_le _ _
  have hlen : (l.take m).length = min m l.length := List.length_take
  have hshort : l.length ≤ m → liveIn alive (n - m) (l.drop m) = 0 := by
    intro h
    rw [liveIn, List.drop_eq_nil_of_le h, List.take_nil, List.filter_nil, List.length_nil]
  rw [← hnone, ← hall, hsplit]
  omega

section Commands

variable {now : UInt64} {p : List Key} {db : Db} (hlength : p.length = 2)
  (hkey : isKeyValid (p.getD 1 [])) (hdb : Increasing Pair.key db)
include hlength hkey hdb

omit hlength in
theorem front_fromKey : front (StopPrefixPredicate (hashPrefix (p.getD 1 [])))
    (fromKey Pair.key (hashPrefix (p.getD 1 [])) db) = hashPairs (p.getD 1 []) db := by
  rw [hashPrefix_eq hkey]
  exact takeWhile_fromKey hdb _

theorem HLEN_eq : HLEN now p db =
    .number (liveIn (isOK now) ITERATIONS_RESULTS_MAX (hashPairs (p.getD 1 []) db)) := by
  unfold HLEN
  rw [if_neg (not_not.mpr hlength), if_neg (not_not.mpr hkey)]
  dsimp only
  rw [countResultsH_eq, front_fromKey hkey hdb, Nat.zero_add, Nat.sub_zero]

/-- A listing shows the first live pairs. -/
theorem listing_eq {out : AccumulateOutput} (htail : ∀ key, out.pTail id key = []) :
    listing out now p db = .container
      (((((hashPairs (p.getD 1 []) db).take ITERATIONS_LOOPS_MAX).filter (isOK now)).take
        ITERATIONS_RESULTS_MAX).flatMap
          (out.pPair (afterPrefix (hashPrefix (p.getD 1 [])).length))) := by
  have hne : p.getD 1 [] ≠ [] := List.ne_nil_of_length_pos hkey.1
  unfold listing
  rw [if_neg (not_not.mpr hlength), if_neg hne, if_neg (not_not.mpr hkey)]
  dsimp only
  rw [accumulateResultsH, sharedAccumulateResults_eq, htail, List.append_nil, List.nil_append,
    walk_page, page_filter, front_fromKey hkey hdb]

/-- How long a listing is, if each pair adds so many strings. -/
theorem listing_length {out : AccumulateOutput} (htail : ∀ key, out.pTail id key = []) {k : ℕ}
    (hpair : ∀ proj q, (out.pPair proj q).length = k) :
    ∃ list, listing out now p db = .container list ∧ list.length =
      k * min ITERATIONS_RESULTS_MAX
        (liveIn (isOK now) ITERATIONS_LOOPS_MAX (hashPairs (p.getD 1 []) db)) := by
  refine ⟨_, listing_eq hlength hkey hdb htail, ?_⟩
  rw [List.length_flatMap]
  simp only [hpair, List.map_const', List.sum_replicate_nat, List.length_take, liveIn]
  rw [Nat.mul_comm]

end Commands

/-- The number that `HLEN` answers is that of the entries of the listings. -/
def Agrees (now : UInt64) (p : List Key) (db : Db) : Prop :=
  ∃ n keys vals both, HLEN now p db = .number n ∧
    HGETKEYS now p db = .container keys ∧ keys.length = n ∧
    HGETVALS now p db = .container vals ∧ vals.length = n ∧
    HGETALL now p db = .container both ∧ both.length = 2 * n

/-- The pairs between the two limits are dead, or those up to the first are alive. -/
def Even (now : UInt64) (keyN : Key) (db : Db) : Prop :=
  (∀ q ∈ ((hashPairs keyN db).drop ITERATIONS_RESULTS_MAX).take
      (ITERATIONS_LOOPS_MAX - ITERATIONS_RESULTS_MAX), isOK now q = false) ∨
    ∀ q ∈ (hashPairs keyN db).take ITERATIONS_RESULTS_MAX, isOK now q = true

/-- The number is that of the entries just for the hashes that are even in this way. -/
theorem agrees_iff_even {now : UInt64} {p : List Key} {db : Db} (hlength : p.length = 2)
    (hkey : isKeyValid (p.getD 1 [])) (hdb : Increasing Pair.key db) :
    Agrees now p db ↔ Even now (p.getD 1 []) db := by
  have hlen := @HLEN_eq now p db hlength hkey hdb
  obtain ⟨keys, hkeys, hlkeys⟩ := @listing_length now p db hlength hkey hdb .KEYS (fun _ => rfl) 1
    fun _ _ => rfl
  obtain ⟨vals, hvals, hlvals⟩ := @listing_length now p db hlength hkey hdb .VALS (fun _ => rfl) 1
    fun _ _ => rfl
  obtain ⟨both, hboth, hlboth⟩ := @listing_length now p db hlength hkey hdb .BOTH (fun _ => rfl) 2
    fun _ _ => rfl
  unfold Even
  rw [← liveIn_eq_min_iff _ (show ITERATIONS_RESULTS_MAX ≤ ITERATIONS_LOOPS_MAX by decide)]
  constructor
  · rintro ⟨n, keys', vals', both', hn, hkeys', hnkeys, -⟩
    have hnum := Reply.number.inj (hlen.symm.trans hn)
    have hcont := Reply.container.inj (hkeys.symm.trans hkeys')
    rw [hnum, ← hnkeys, ← hcont, hlkeys, Nat.one_mul]
  · intro heq
    exact ⟨_, keys, vals, both, hlen, hkeys, by omega, hvals, by omega, hboth, by omega⟩

/-- A hash of no sub keys. -/
theorem agrees_iff_even_empty : Agrees 0 [[], [107]] [] :=
  (@agrees_iff_even 0 [[], [107]] [] rfl ⟨by decide, by decide⟩ List.Pairwise.nil).mpr
    (.inl fun _ hq => absurd hq (by simp [hashPairs]))

/-! ## Large hashes -/

section Crowd

/-- A sub key of the hash "k". -/
def subKey (i : ℕ) : Key := [107] ++ separator :: deadName i

/-- So many pairs of the hash "k", all with one value. -/
def crowd (val : Key) (n : ℕ) : Db := ((List.range n).map subKey).filterMap (MIndex2.lasting val)

theorem length_subKey (i : ℕ) : (subKey i).length = 19 := by
  simp [subKey, length_deadName]

theorem subKey_lt {i j : ℕ} (hij : i < j) (hj : j < 2 ^ 64) : subKey i < subKey j :=
  List.Lex.cons (List.Lex.cons (deadName_lt hij hj))

theorem isPrefix_subKey (i : ℕ) : [107] ++ [separator] <+: subKey i := ⟨deadName i, rfl⟩

theorem valid_subKeys (is : List ℕ) :
    ∀ key ∈ is.map subKey, 0 < key.length ∧ key.length ≤ maxKeySize := by
  intro key hkey
  obtain ⟨i, -, rfl⟩ := List.mem_map.mp hkey
  rw [length_subKey]
  decide

variable {val : Key} (hval : val.length ≤ maxValSize)
include hval

theorem map_key_crowd (n : ℕ) : (crowd val n).map Pair.key = (List.range n).map subKey :=
  map_key_lasting hval (valid_subKeys _)

theorem length_crowd (n : ℕ) : (crowd val n).length = n := by
  have hlen := congrArg List.length (map_key_crowd hval n)
  rwa [List.length_map, List.length_map, List.length_range] at hlen

theorem increasing_crowd {n : ℕ} (hn : n < 2 ^ 64) : Increasing Pair.key (crowd val n) := by
  have hkeys : ((crowd val n).map Pair.key).Pairwise (· < ·) := by
    rw [map_key_crowd hval, List.pairwise_map]
    exact List.pairwise_lt_range.imp_of_mem fun _ hj hij =>
      subKey_lt hij ((List.mem_range.mp hj).trans hn)
  exact List.pairwise_map.mp hkeys

omit hval in
theorem mem_crowd {n : ℕ} {p : Pair} (hp : p ∈ crowd val n) :
    p.val = val ∧ p.expires = 0 ∧ p.created = 0 ∧ ∃ i < n, p.key = subKey i := by
  obtain ⟨key, hkey, hlast⟩ := List.mem_filterMap.mp hp
  obtain ⟨i, hi, rfl⟩ := List.mem_map.mp hkey
  unfold MIndex2.lasting at hlast
  split at hlast
  · obtain rfl := Option.some.inj hlast
    exact ⟨rfl, rfl, rfl, i, List.mem_range.mp hi, rfl⟩
  · exact absurd hlast.symm (Option.some_ne_none p)

omit hval in
/-- All of these are alive, or none if they have no value. -/
theorem isOK_crowd {n : ℕ} {p : Pair} (hp : p ∈ crowd val n) (now : UInt64) :
    isOK now p = decide (val ≠ []) := by
  obtain ⟨hpval, hexp, -⟩ := mem_crowd hp
  by_cases hnil : val = []
  · have htomb := (isTombstone_iff p).mpr (.inr (hpval.trans hnil))
    rw [isOK_of_isTombstone htomb, hnil]
    rfl
  · rw [isOK_of_forever (hpval.symm ▸ hnil) hexp, decide_eq_true hnil]

omit hval in
theorem hashPairs_crowd (n : ℕ) : hashPairs [107] (crowd val n) = crowd val n := by
  refine List.filter_eq_self.mpr fun p hp => decide_eq_true ?_
  obtain ⟨-, -, -, i, -, hkey⟩ := mem_crowd hp
  rw [hkey]
  exact isPrefix_subKey i

end Crowd

section MostlyDead

/-- One live sub key behind so many tombstones. -/
def mostlyDead (n : ℕ) : Db := crowd [] n ++ (MIndex2.lasting [49] (subKey n)).toList

theorem mostlyDead_eq (n : ℕ) :
    ∃ q : Pair, mostlyDead n = crowd [] n ++ [q] ∧ q.key = subKey n ∧ isOK 0 q = true := by
  obtain ⟨q, hq, hqkey, hqval⟩ := @lasting_of_valid [49] (subKey n)
    (valid_subKeys [n] _ List.mem_cons_self) (by decide)
  refine ⟨q, by rw [mostlyDead, hq, Option.toList_some], hqkey, ?_⟩
  unfold MIndex2.lasting at hq
  split at hq
  · obtain rfl := Option.some.inj hq
    exact isOK_of_forever (by simp) rfl 0
  · exact absurd hq.symm (Option.some_ne_none q)

theorem not_isOK_crowd {n : ℕ} : ∀ p ∈ crowd [] n, ¬isOK 0 p = true := fun p hp => by
  rw [isOK_crowd hp]
  simp

theorem increasing_mostlyDead {n : ℕ} (hn : n < 2 ^ 64) : Increasing Pair.key (mostlyDead n) := by
  obtain ⟨q, heq, hkey, -⟩ := mostlyDead_eq n
  rw [heq, Increasing.append_iff]
  refine ⟨increasing_crowd (Nat.zero_le _) hn, List.pairwise_singleton _ _, fun p hp x hx => ?_⟩
  obtain ⟨-, -, -, i, hi, hpkey⟩ := mem_crowd hp
  rw [List.mem_singleton.mp hx, hpkey, hkey]
  exact subKey_lt hi hn

theorem hashPairs_mostlyDead (n : ℕ) : hashPairs [107] (mostlyDead n) = mostlyDead n := by
  obtain ⟨q, heq, hkey, -⟩ := mostlyDead_eq n
  refine List.filter_eq_self.mpr fun p hp => decide_eq_true ?_
  rw [heq] at hp
  rcases List.mem_append.mp hp with hp | hp
  · obtain ⟨-, -, -, i, -, hpkey⟩ := mem_crowd hp
    rw [hpkey]
    exact isPrefix_subKey i
  · rw [List.mem_singleton.mp hp, hkey]
    exact isPrefix_subKey n

theorem liveIn_mostlyDead (n m : ℕ) :
    liveIn (isOK 0) m (mostlyDead n) = if n < m then 1 else 0 := by
  obtain ⟨q, heq, -, hok⟩ := mostlyDead_eq n
  have hlen : (crowd [] n).length = n := length_crowd (Nat.zero_le _) n
  have htake : ((crowd [] n).take m).filter (isOK 0) = [] :=
    List.filter_eq_nil_iff.mpr fun p hp => not_isOK_crowd p (List.mem_of_mem_take hp)
  rw [heq, liveIn, List.take_append, List.filter_append, htake, hlen, List.nil_append]
  by_cases h : n < m
  · obtain ⟨k, hk⟩ := Nat.exists_eq_add_of_lt h
    have hsub : m - n = k + 1 := by omega
    rw [if_pos h, hsub, List.take_succ_cons, List.take_nil, List.filter_singleton, hok]
    rfl
  · have hsub : m - n = 0 := by omega
    rw [if_neg h, hsub, List.take_zero, List.filter_nil, List.length_nil]

end MostlyDead

/-- `HLEN` counts no sub key, and `HGETKEYS` shows one. -/
theorem not_agrees : ¬Agrees 0 [[], [107]] (mostlyDead ITERATIONS_RESULTS_MAX) := by
  have hdb := increasing_mostlyDead (n := ITERATIONS_RESULTS_MAX) (by decide)
  have hkey : isKeyValid (([[], [107]] : List Key).getD 1 []) := ⟨by decide, by decide⟩
  have hlen := @HLEN_eq 0 [[], [107]] _ rfl hkey hdb
  obtain ⟨keys, hkeys, hlkeys⟩ := @listing_length 0 [[], [107]] _ rfl hkey hdb .KEYS
    (fun _ => rfl) 1 fun _ _ => rfl
  have hget : ([[], [107]] : List Key).getD 1 [] = [107] := rfl
  rw [hget, hashPairs_mostlyDead, liveIn_mostlyDead, if_neg (lt_irrefl _)] at hlen
  rw [hget, hashPairs_mostlyDead, liveIn_mostlyDead, if_pos (by decide)] at hlkeys
  rintro ⟨n, keys', -, -, hn, hkeys', hnkeys, -⟩
  have hnum := Reply.number.inj (hlen.symm.trans hn)
  have hcont := Reply.container.inj (hkeys.symm.trans hkeys')
  rw [hcont, hnkeys, ← hnum] at hlkeys
  exact absurd hlkeys (by decide)

end HM4.HashListing
