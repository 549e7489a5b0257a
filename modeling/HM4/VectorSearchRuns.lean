import HM4.AutocompleteRuns
import HM4.VectorSearch
import Mathlib.Tactic.IntervalCases

/-!
# The search is exact

The texts of two bands agree up to where one of them is cut exactly if the hashes agree in the bits
that are left. With an index that is right, the keys under such texts are those of the vectors to
be found, and the heaps keep the nearest of these.
-/

namespace HM4.VectorSearch

open LexPrefix Bytes Pairs MemList KeyedList Database IndexToken AccumulateResults VectorsStorage
open Vectors2 VectorIndex Separated
open Autocomplete (extractNth extractLoop)
open RSet (makeKeyCtrl sortUnique hexDigit toHex)
open TopHeap (offer sortHeap lessThan Smallest)

/-! ## Texts of bands -/

/-- The top bits of a hash of 16 bits. -/
def topBits (bits hash : ℕ) : ℕ := hash % 2 ^ 16 / 2 ^ (MAX_BITS - bits)

theorem hexDigit_inj : ∀ a < 16, ∀ b < 16, hexDigit a = hexDigit b → a = b := by decide

theorem hexDigit_mod {a b : ℕ} : hexDigit (a % 16) = hexDigit (b % 16) ↔ a % 16 = b % 16 :=
  ⟨hexDigit_inj _ (Nat.mod_lt _ (by decide)) _ (Nat.mod_lt _ (by decide)), congrArg hexDigit⟩

theorem binDigit_eq_iff {a b i : ℕ} :
    binDigit a i = binDigit b i ↔ a / 2 ^ i % 2 = b / 2 ^ i % 2 := by
  rw [binDigit, binDigit, Nat.testBit_eq_decide_div_mod_eq, Nat.testBit_eq_decide_div_mod_eq]
  rcases Nat.mod_two_eq_zero_or_one (a / 2 ^ i) with ha | ha <;>
    rcases Nat.mod_two_eq_zero_or_one (b / 2 ^ i) with hb | hb <;> simp [ha, hb]

theorem toHex_two (id : ℕ) : toHex 2 id = [hexDigit (id / 16 % 16), hexDigit (id % 16)] := by
  simp [toHex, List.range_succ]

/-- The top bits that are three digits. -/
theorem topBits_min {a b : ℕ} : topBits MIN_BITS a = topBits MIN_BITS b ↔
    a / 16 ^ 3 % 16 = b / 16 ^ 3 % 16 ∧ a / 16 ^ 2 % 16 = b / 16 ^ 2 % 16 ∧
      a / 16 % 16 = b / 16 % 16 := by
  rw [topBits, topBits, MIN_BITS, MAX_BITS]
  omega

/-- One more of the top bits. -/
theorem topBits_succ {bits : ℕ} (hhigh : bits < MAX_BITS) {a b : ℕ} :
    topBits (bits + 1) a = topBits (bits + 1) b ↔ topBits bits a = topBits bits b ∧
      a / 2 ^ (MAX_BITS - (bits + 1)) % 2 = b / 2 ^ (MAX_BITS - (bits + 1)) % 2 := by
  have hsplit : 2 ^ (MAX_BITS - bits) = 2 ^ (MAX_BITS - (bits + 1)) * 2 := by
    rw [← Nat.pow_succ]
    congr 1
    omega
  have hbit (x : ℕ) : x % 2 ^ 16 / 2 ^ (MAX_BITS - (bits + 1)) % 2 =
      x / 2 ^ (MAX_BITS - (bits + 1)) % 2 := by
    have hpow : 2 ^ 16 = 2 ^ (MAX_BITS - (bits + 1)) * (2 * 2 ^ bits) := by
      rw [← Nat.pow_succ', ← Nat.pow_add]
      unfold MAX_BITS at hhigh ⊢
      congr 1
      omega
    rw [hpow, Nat.mod_mul_right_div_self, Nat.mod_mul_right_mod]
  rw [topBits, topBits, topBits, topBits, hsplit, ← Nat.div_div_eq_div_mul,
    ← Nat.div_div_eq_div_mul, ← hbit a, ← hbit b]
  omega

theorem id_eq_iff {id id' : ℕ} (hid : id < MAX_BANDS) (hid' : id' < MAX_BANDS) :
    id = id' ↔ id / 16 % 16 = id' / 16 % 16 ∧ id % 16 = id' % 16 := by
  unfold MAX_BANDS at hid hid'
  omega

/-- A text that is cut is the front of another one exactly if the bands are the same and their
hashes agree in the bits that are left. -/
theorem bandText_isPrefix {bits id id' hash hash' : ℕ} (hlow : MIN_BITS ≤ bits)
    (hhigh : bits ≤ MAX_BITS) (hid : id < MAX_BANDS) (hid' : id' < MAX_BANDS) :
    bandText bits id hash <+: bandText MAX_BITS id' hash' ↔
      id = id' ∧ topBits bits hash = topBits bits hash' := by
  have h12 := @topBits_min hash hash'
  have h13 := @topBits_succ 12 (by decide) hash hash'
  have h14 := @topBits_succ 13 (by decide) hash hash'
  have h15 := @topBits_succ 14 (by decide) hash hash'
  have h16 := @topBits_succ 15 (by decide) hash hash'
  unfold MIN_BITS at hlow h12
  unfold MAX_BITS at hhigh h13 h14 h15 h16
  rw [id_eq_iff hid hid', bandText, bandText, MAX_BITS, toHex_two, toHex_two, hashEncode,
    hashEncode]
  interval_cases bits
  all_goals
    simp only [List.cons_append, List.nil_append, List.take_succ_cons, List.take_zero,
      Nat.reduceAdd, Nat.reduceSub, List.cons_prefix_cons, hexDigit_mod, binDigit_eq_iff,
      List.nil_prefix, and_true, true_and]
  · rw [h12, and_assoc]
  · simp only [h13, h12, and_assoc]
  · simp only [h14, h13, h12, and_assoc]
  · simp only [h15, h14, h13, h12, and_assoc]
  · simp only [h16, h15, h14, h13, h12, and_assoc]

/-! ## What is stored -/

/-- The pairs that are alive are what the list holds. -/
theorem holds_iff {check : Key → UInt64} {db : Db} (hdb : Increasing Pair.key db) {k v : Key} :
    holds (check k) db k = some v ↔
      ∃ p ∈ db, p.key = k ∧ p.val = v ∧ isOK (check p.key) p = true := by
  constructor
  · intro h
    obtain ⟨p, hp, hval⟩ := Option.map_eq_some_iff.mp h
    have hkey := getPairPtr_key hp
    exact ⟨p, mem_of_lookup (Option.eq_some_of_filter_eq_some hp), hkey, hval,
      hkey.symm ▸ (Option.filter_eq_some_iff.mp hp).2⟩
  · rintro ⟨p, hp, rfl, rfl, hok⟩
    have hget : get p.key db = some p := hdb.lookup_of_mem hp
    rw [holds, getPairPtr, hget, Option.filter_some, if_pos hok, Option.map_some]

section Live

variable {simhash : Element → Key → ℕ → ℕ} {murmur_hash64a : Key → UInt64} {sets : Key → Prop}
  {db0 db : Db} {m : Key × Key → Option Version} {keyN : Key}
  (hstored : Stored simhash murmur_hash64a sets db0 m db)

include hstored

theorem named_of_some {i : Key × Key} {x : Version} (h : m i = some x) : Named sets i := by
  refine (hstored.consistent 0).good (i := i) (x := (x, i.2)) ?_
  rw [shown, h, Option.map_some]

variable (hset : sets keyN ∧ separator ∉ keyN) (hN : valid keyN)
  (hclear : ∀ now key, keyN ++ [separator] <+: key → holds now db0 key = none)

include hset hclear

include hN in
/-- The keys behind the search key of `VSIMFLAT` hold the vectors of the set. -/
theorem holds_flat (now : UInt64) (text : Key) :
    holds now db (keyN ++ separator :: separator :: text) = (m (keyN, text)).map Version.blob := by
  by_cases htext : valid text
  · rw [← hstored.ctrl_eq ⟨hset, hN, htext⟩ now]
    exact congrArg _ (ZSet.makeKeyCtrl_eq hN htext).1.symm
  · have hnone : m (keyN, text) = none := by
      by_contra hsome
      obtain ⟨x, hx⟩ := Option.ne_none_iff_exists'.mp hsome
      exact htext (named_of_some hstored hx).2.2
    have hctrl : CtrlKey keyN text (keyN ++ separator :: separator :: text) := rfl
    have hframe := (hstored.consistent now).frame (k := keyN ++ separator :: separator :: text)
      (fun j hj heq => ?_) fun j r hj hmem => ?_
    · rw [hframe, hnone, Option.map_none]
      exact hclear now _ ⟨separator :: text, by rw [List.append_assoc, List.singleton_append]⟩
    · obtain ⟨-, rfl⟩ := recordKey_unique (L := 1) hset.2 hj.1.2 (.inl hctrl)
        (.inl (heq.trans (ZSet.makeKeyCtrl_eq hj.2.1 hj.2.2).1))
      exact htext hj.2.2
    · obtain ⟨-, rfl⟩ := recordKey_unique hset.2 hj.1.2 (.inl hctrl)
        (.inr (dataKey_of_mem hj hmem).1)
      exact htext hj.2.2

/-- The other keys of the set are those of the texts of its vectors. -/
theorem holds_text {now : UInt64} {key v : Key} (hkey : keyN ++ [separator] <+: key)
    (hctrl : ∀ text, key ≠ keyN ++ separator :: separator :: text) :
    holds now db key = some v ↔ ∃ x text, m (keyN, v) = some x ∧
      text ∈ texts simhash x.T x.blob ∧ key = textKey murmur_hash64a (keyN, v) text := by
  constructor
  · intro h
    by_cases hdata : ∃ j r, Named sets j ∧ key ∈ (scheme simhash murmur_hash64a).keys j r
    · obtain ⟨⟨name, keySub⟩, r, hj, hmem⟩ := hdata
      have hname : keyN = name := by
        obtain ⟨rest, hrest⟩ := hkey
        obtain ⟨t, ts, heq, -⟩ := (dataKey_of_mem hj hmem).1
        rw [List.append_assoc, List.singleton_append, heq] at hrest
        exact (cut_unique hset.2 hj.1.2 hrest).1
      subst hname
      rw [(hstored.consistent now).data hj key hmem, shown, Option.bind_map] at h
      obtain ⟨x, hx, hif⟩ := Option.bind_eq_some_iff.mp h
      dsimp only [Function.comp_apply] at hif
      split_ifs at hif with hin
      obtain rfl := Option.some.inj hif
      obtain ⟨text, htext, heq⟩ := List.mem_map.mp hin
      exact ⟨x, text, hx, htext, heq.symm⟩
    · have hframe := (hstored.consistent now).frame (k := key)
        (fun j hj heq => ?_) fun j r hj hmem => hdata ⟨j, r, hj, hmem⟩
      · rw [hframe, hclear now key hkey] at h
        exact absurd h.symm (Option.some_ne_none v)
      · have heq' : key = j.1 ++ separator :: separator :: j.2 :=
          heq.trans (ZSet.makeKeyCtrl_eq hj.2.1 hj.2.2).1
        obtain ⟨rest, hrest⟩ := hkey
        rw [List.append_assoc, List.singleton_append, heq'] at hrest
        have hname := (cut_unique hset.2 hj.1.2 hrest).1
        exact hctrl j.2 (hname ▸ heq')
  · rintro ⟨x, text, hx, htext, rfl⟩
    have hi := named_of_some hstored hx
    have hmem : textKey murmur_hash64a (keyN, v) text ∈
        (scheme simhash murmur_hash64a).keys (keyN, v) x := List.mem_map_of_mem htext
    rw [(hstored.consistent now).data hi _ hmem, shown, hx, Option.map_some, Option.bind_some,
      if_pos hmem]

end Live

/-! ## A scan of all vectors -/

section Scan

variable {D : Type*} [LinearOrder D] (check : Key → UInt64) (T : Element) (dim_ix : ℕ)
  (keySub : Key) (dist : Key → D)

/-- What a pair adds to the heap of `VSIMFLAT`. -/
def candidate (p : Pair) : Option (VSIMHeapNode D) :=
  if isOK (check p.key) p = true then
    (toStoredVector T p.val dim_ix).bind fun vectorB =>
      if extractNth 2 separator p.key = keySub then none
      else some (toLex (dist vectorB, extractNth 2 separator p.key))
  else none

theorem processRange_cons (predicate : Key → Bool) (i : ℕ) (p : Pair) (it : List Pair)
    (heap : Array (VSIMHeapNode D)) (hgo : predicate p.key = false)
    (hroom : i < ITERATIONS_LOOPS_VSIM) :
    processRange check T dim_ix keySub dist predicate i (p :: it) heap =
      processRange check T dim_ix keySub dist predicate (i + 1) it
        ((candidate check T dim_ix keySub dist p).elim heap (offer lessThan results heap)) := by
  rw [processRange, hgo, if_neg Bool.false_ne_true, if_neg (by omega), candidate]
  by_cases hok : isOK (check p.key) p = true
  · rw [if_neg (not_not.mpr hok), if_pos hok]
    cases toStoredVector T p.val dim_ix with
    | none => rfl
    | some vectorB =>
      dsimp only
      rw [Option.bind_some]
      split_ifs <;> rfl
  · rw [if_pos hok, if_neg hok, Option.elim_none]

/-- A scan takes what its budget allows, and its tail is the key of what follows. -/
theorem processRange_eq (predicate : Key → Bool) {i : ℕ} (hi : i ≤ ITERATIONS_LOOPS_VSIM)
    (it : List Pair) (heap : Array (VSIMHeapNode D)) :
    processRange check T dim_ix keySub dist predicate i it heap =
      (((((it.takeWhile fun p => !predicate p.key).drop (ITERATIONS_LOOPS_VSIM - i)).head?).map
          Pair.key).getD [],
        (((it.takeWhile fun p => !predicate p.key).take (ITERATIONS_LOOPS_VSIM - i)).filterMap
          (candidate check T dim_ix keySub dist)).foldl (offer lessThan results) heap) := by
  induction it generalizing i heap with
  | nil => simp [processRange]
  | cons p it ih =>
    cases hstop : predicate p.key with
    | true =>
      rw [processRange, if_pos hstop, List.takeWhile_cons, hstop]
      simp
    | false =>
      rw [List.takeWhile_cons, hstop, Bool.not_false, if_pos rfl]
      rcases Nat.lt_or_ge i ITERATIONS_LOOPS_VSIM with hroom | hfull
      · rw [processRange_cons check T dim_ix keySub dist predicate i p it heap hstop hroom,
          ih (Nat.succ_le_of_lt hroom)]
        obtain ⟨n, hn⟩ : ∃ n, ITERATIONS_LOOPS_VSIM - i = n + 1 :=
          ⟨ITERATIONS_LOOPS_VSIM - i - 1, by omega⟩
        have hn' : ITERATIONS_LOOPS_VSIM - (i + 1) = n := by omega
        rw [hn, hn', List.drop_succ_cons, List.take_succ_cons, List.filterMap_cons]
        cases candidate check T dim_ix keySub dist p <;> rfl
      · have hzero : ITERATIONS_LOOPS_VSIM - i = 0 := by omega
        rw [processRange, hstop, if_neg Bool.false_ne_true, if_pos (by omega), hzero]
        rfl

end Scan

/-- The other vectors of a set that have a property, each once, with their distances. -/
structure Others {D : Type*} (m : Key × Key → Option Version) (keyN keySub : Key)
    (P : Version → Prop) (dist : Key → D) (nodes : List (VSIMHeapNode D)) : Prop where
  nodup : (nodes.map fun node => (ofLex node).2).Nodup
  mem : ∀ node, node ∈ nodes ↔
    ∃ s y, s ≠ keySub ∧ m (keyN, s) = some y ∧ P y ∧ node = toLex (dist y.blob, s)

/-- The pages from a start key on, up to one without a tail. -/
inductive Pages {α : Type*} (page : Key → Key × List α) : Key → List (List α) → Prop
  | last {start : Key} {shown : List α} (h : page start = ([], shown)) : Pages page start [shown]
  | more {start tail : Key} {shown : List α} {pages : List (List α)}
      (h : page start = (tail, shown)) (hne : tail ≠ []) (rest : Pages page tail pages) :
      Pages page start (shown :: pages)

/-- A walk from the key of an entry on sees the entry and those behind it. -/
theorem fromKey_key {l1 l2 : List Pair} {p : Pair} (h : Increasing Pair.key (l1 ++ p :: l2)) :
    fromKey Pair.key p.key (l1 ++ p :: l2) = p :: l2 := by
  obtain ⟨-, h2, h12⟩ := Increasing.append_iff.mp h
  refine fromKey_append (fun y hy => h12 y hy p List.mem_cons_self) fun y hy => ?_
  rcases List.mem_cons.mp hy with rfl | hy
  · exact le_rfl
  · exact ((Increasing.cons_iff.mp h2).1 y hy).le

/-- The pairs behind the search key of `VSIMFLAT`. -/
def seen (keyN : Key) (db : Db) : List Pair :=
  db.filter fun p => decide (keyN ++ [separator, separator] <+: p.key)

theorem makeKeyDataSearchFlat_eq {keyN : Key} (hN : valid keyN) :
    makeKeyDataSearchFlat keyN = keyN ++ [separator, separator] := by
  have hlen := hN.2
  refine (concatenateBuffer_key ?_).trans ?_
  · simp only [List.map_cons, List.map_nil, List.sum_cons, List.sum_nil, List.length_singleton]
    unfold INDEX_TOKEN_SIZE at hlen
    unfold maxKeySize
    omega
  · simp only [List.flatten_cons, List.flatten_nil, List.append_nil, List.singleton_append]

theorem extractNth_flat {keyN : Key} (hclear : separator ∉ keyN) (text : Key) :
    extractNth 2 separator (keyN ++ separator :: separator :: text) = text := by
  rw [extractNth, Autocomplete.extractLoop_append hclear, if_neg (by decide), extractLoop,
    if_pos rfl, if_pos rfl]

section Flat

variable {simhash : Element → Key → ℕ → ℕ} {murmur_hash64a : Key → UInt64} {sets : Key → Prop}
  {db0 db : Db} {m : Key × Key → Option Version} {keyN : Key}
  (hstored : Stored simhash murmur_hash64a sets db0 m db) (hdb : Increasing Pair.key db)
  (hset : sets keyN ∧ separator ∉ keyN) (hN : valid keyN)
  (hclear : ∀ now key, keyN ++ [separator] <+: key → holds now db0 key = none)
  {T : Element} {dim_ix : ℕ}
  (hread : ∀ s y, m (keyN, s) = some y → toStoredVector T y.blob dim_ix = some y.blob)
  {D : Type*} [LinearOrder D] (check : Key → UInt64) (keySub : Key) (dist : Key → D)

/-- The key of a pair that is seen. -/
theorem key_of_seen {p : Pair} (hp : p ∈ seen keyN db) :
    ∃ text, p.key = keyN ++ separator :: separator :: text := by
  obtain ⟨text, htext⟩ := of_decide_eq_true (List.mem_filter.mp hp).2
  exact ⟨text, by rw [← htext, List.append_assoc]; rfl⟩

include hstored hdb hset hN hclear hread

omit [LinearOrder D] in
/-- What is made of a pair that is seen. -/
theorem candidate_eq_some {p : Pair} (hp : p ∈ seen keyN db) {node : VSIMHeapNode D} :
    candidate check T dim_ix keySub dist p = some node ↔
      ∃ s y, p.key = keyN ++ separator :: separator :: s ∧ isOK (check p.key) p = true ∧
        s ≠ keySub ∧ m (keyN, s) = some y ∧ node = toLex (dist y.blob, s) := by
  obtain ⟨text, hkey⟩ := key_of_seen hp
  have hmem := (List.mem_filter.mp hp).1
  have htext : extractNth 2 separator p.key = text := by
    rw [hkey, extractNth_flat hset.2]
  rw [candidate, htext]
  constructor
  · intro h
    have hok : isOK (check p.key) p = true := by
      by_contra hdead
      rw [if_neg hdead] at h
      exact nomatch h
    rw [if_pos hok] at h
    obtain ⟨vectorB, hvector, hif⟩ := Option.bind_eq_some_iff.mp h
    have hsame : text ≠ keySub := fun heq => by
      rw [if_pos heq] at hif
      exact nomatch hif
    rw [if_neg hsame] at hif
    have hholds : holds (check p.key) db p.key = some p.val :=
      (holds_iff hdb).mpr ⟨p, hmem, rfl, rfl, hok⟩
    rw [hkey, holds_flat hstored hset hN hclear] at hholds
    obtain ⟨y, hy, hblob⟩ := Option.map_eq_some_iff.mp hholds
    rw [← hblob, hread text y hy] at hvector
    obtain rfl := Option.some.inj hvector
    exact ⟨text, y, hkey, hok, hsame, hy, (Option.some.inj hif).symm⟩
  · rintro ⟨s, y, hkey', hok, hsame, hy, rfl⟩
    obtain rfl : text = s := by
      have heq := List.append_cancel_left (hkey.symm.trans hkey')
      exact (List.cons.inj (List.cons.inj heq).2).2
    have hholds : holds (check p.key) db p.key = some p.val :=
      (holds_iff hdb).mpr ⟨p, hmem, rfl, rfl, hok⟩
    rw [hkey, holds_flat hstored hset hN hclear, hy, Option.map_some] at hholds
    rw [if_pos hok, ← Option.some.inj hholds, hread text y hy, Option.bind_some, if_neg hsame]

omit [LinearOrder D] in
/-- A scan of all pairs makes the other vectors. -/
theorem others_seen : Others m keyN keySub (fun _ => True) dist
    ((seen keyN db).filterMap (candidate check T dim_ix keySub dist)) where
  nodup := by
    rw [List.map_filterMap]
    refine List.pairwise_filterMap.mpr ?_
    have hinc : Increasing Pair.key (seen keyN db) := hdb.sublist List.filter_sublist
    refine hinc.imp_of_mem fun {p q} hp hq hlt s hs s' hs' heq => ?_
    obtain ⟨node, hnode, rfl⟩ := Option.map_eq_some_iff.mp hs
    obtain ⟨node', hnode', rfl⟩ := Option.map_eq_some_iff.mp hs'
    obtain ⟨t, y, hkey, -, -, -, rfl⟩ :=
      (candidate_eq_some hstored hdb hset hN hclear hread check keySub dist hp).mp hnode
    obtain ⟨t', y', hkey', -, -, -, rfl⟩ :=
      (candidate_eq_some hstored hdb hset hN hclear hread check keySub dist hq).mp hnode'
    obtain rfl : t = t' := heq
    exact hlt.ne (hkey.trans hkey'.symm)
  mem node := by
    rw [List.mem_filterMap]
    constructor
    · rintro ⟨p, hp, hnode⟩
      obtain ⟨s, y, -, -, hne, hy, rfl⟩ :=
        (candidate_eq_some hstored hdb hset hN hclear hread check keySub dist hp).mp hnode
      exact ⟨s, y, hne, hy, trivial, rfl⟩
    · rintro ⟨s, y, hne, hy, -, rfl⟩
      have hholds := holds_flat hstored hset hN hclear
        (check (keyN ++ separator :: separator :: s)) s
      rw [hy, Option.map_some] at hholds
      obtain ⟨p, hmem, hkey, -, hok⟩ := (holds_iff hdb).mp hholds
      have hp : p ∈ seen keyN db := List.mem_filter.mpr ⟨hmem, decide_eq_true ⟨s, by
        rw [hkey, List.append_assoc]
        rfl⟩⟩
      exact ⟨p, hp, (candidate_eq_some hstored hdb hset hN hclear hread check keySub dist hp).mpr
        ⟨s, y, hkey, hok, hne, hy, rfl⟩⟩

end Flat

/-! ## Pages -/

section View

variable {D : Type*} [LinearOrder D] (M : Metric D) (check : Key → UInt64) {a : SimArgs}
  (hN : valid a.keyN) (vectorA : Key) {db : Db} (hdb : Increasing Pair.key db)

/-- What a pair adds to the heap of a search. -/
abbrev found (a : SimArgs) (vectorA : Key) (p : Pair) : Option (VSIMHeapNode D) :=
  candidate check a.T a.dim_ix a.keySub (M.prepared a.dtype a.T vectorA) p

/-- The pairs that are seen from a start key on. -/
def view (keyN start : Key) (db : Db) : List Pair :=
  if start = [] then seen keyN db else fromKey Pair.key start (seen keyN db)

include hN hdb

/-- A page has what its budget allows, and its tail is the key of the pair that follows. -/
theorem flat_eq {start : Key} (hstart : start = [] ∨ makeKeyDataSearchFlat a.keyN <+: start) :
    flat M check a vectorA start db =
      ((((view a.keyN start db).drop ITERATIONS_LOOPS_VSIM).head?.map Pair.key).getD [],
        sortHeap lessThan ((((view a.keyN start db).take ITERATIONS_LOOPS_VSIM).filterMap
          (found M check a vectorA)).foldl (offer lessThan results) #[])) := by
  have hview : ((fromKey Pair.key
      (if start = [] then makeKeyDataSearchFlat a.keyN else start) db).takeWhile
        fun p => !StopPrefixPredicate (makeKeyDataSearchFlat a.keyN) p.key) =
          view a.keyN start db := by
    rw [view, seen, ← makeKeyDataSearchFlat_eq hN]
    by_cases hnil : start = []
    · rw [if_pos hnil, if_pos hnil, takeWhile_fromKey hdb]
    · rw [if_neg hnil, if_neg hnil,
        takeWhile_fromKey_of_isPrefix hdb (hstart.resolve_left hnil)]
  unfold flat
  dsimp only
  rw [processRange_eq check a.T a.dim_ix a.keySub _ _ (Nat.zero_le _), hview, Nat.sub_zero]

omit [LinearOrder D] hN in
/-- The page behind a tail starts with the pair of the tail. -/
theorem view_tail {done rest : List Pair} {p : Pair}
    (hsplit : seen a.keyN db = done ++ p :: rest) :
    p.key ≠ [] ∧ a.keyN ++ [separator, separator] <+: p.key ∧
      view a.keyN p.key db = p :: rest := by
  have hp : p ∈ seen a.keyN db := hsplit ▸ List.mem_append_right done List.mem_cons_self
  have hpre := of_decide_eq_true (List.mem_filter.mp hp).2
  have hne : p.key ≠ [] := by
    intro hnil
    rw [hnil, List.prefix_nil] at hpre
    exact List.append_ne_nil_of_right_ne_nil _ (List.cons_ne_nil _ _) hpre
  have hinc : Increasing Pair.key (done ++ p :: rest) := hsplit ▸ hdb.sublist List.filter_sublist
  exact ⟨hne, hpre, by rw [view, if_neg hne, hsplit, fromKey_key hinc]⟩

/-- A page is the last one, or there is a pair for the next one to start with. -/
theorem page_cases {done rest : List Pair} {start : Key}
    (hsplit : seen a.keyN db = done ++ rest) (hview : view a.keyN start db = rest)
    (hstart : start = [] ∨ makeKeyDataSearchFlat a.keyN <+: start) :
    ∃ shown, Smallest results
        ((rest.take ITERATIONS_LOOPS_VSIM).filterMap (found M check a vectorA)) shown ∧
      ((rest.length ≤ ITERATIONS_LOOPS_VSIM ∧ flat M check a vectorA start db = ([], shown)) ∨
        ∃ p next, rest = rest.take ITERATIONS_LOOPS_VSIM ++ p :: next ∧
          flat M check a vectorA start db = (p.key, shown) ∧ p.key ≠ [] ∧
            view a.keyN p.key db = p :: next ∧ makeKeyDataSearchFlat a.keyN <+: p.key ∧
              seen a.keyN db = (done ++ rest.take ITERATIONS_LOOPS_VSIM) ++ p :: next) := by
  have hflat := flat_eq M check hN vectorA hdb hstart
  rw [hview] at hflat
  refine ⟨_, TopHeap.smallest_sortHeap (by decide) _, ?_⟩
  cases hrest : rest.drop ITERATIONS_LOOPS_VSIM with
  | nil =>
    rw [hrest] at hflat
    exact .inl ⟨List.drop_eq_nil_iff.mp hrest, hflat⟩
  | cons p next =>
    rw [hrest] at hflat
    have happ : rest = rest.take ITERATIONS_LOOPS_VSIM ++ p :: next := by
      rw [← hrest, List.take_append_drop]
    have hsplit' : seen a.keyN db = (done ++ rest.take ITERATIONS_LOOPS_VSIM) ++ p :: next := by
      rw [hsplit, List.append_assoc, ← happ]
    obtain ⟨hne, hpre, hnext⟩ := view_tail hdb hsplit'
    exact .inr ⟨p, next, happ, hflat, hne, hnext, (makeKeyDataSearchFlat_eq hN).symm ▸ hpre,
      hsplit'⟩

/-- The pages of a scan are answers for the parts of the list. -/
theorem parts_of_pages {start : Key} {pages : List (List (VSIMHeapNode D))}
    (h : Pages (fun start => flat M check a vectorA start db) start pages)
    {done rest : List Pair} (hsplit : seen a.keyN db = done ++ rest)
    (hview : view a.keyN start db = rest)
    (hstart : start = [] ∨ makeKeyDataSearchFlat a.keyN <+: start) :
    ∃ parts : List (List (VSIMHeapNode D) × List (VSIMHeapNode D)), parts.map Prod.snd = pages ∧
      parts.flatMap Prod.fst = rest.filterMap (found M check a vectorA) ∧
        ∀ part ∈ parts, Smallest results part.1 part.2 := by
  induction h generalizing done rest with
  | last hpage =>
    obtain ⟨shown, hsmall, ⟨hlen, hflat⟩ | ⟨p, next, -, hflat, hne, -⟩⟩ :=
      page_cases M check hN vectorA hdb hsplit hview hstart
    · obtain ⟨-, rfl⟩ := Prod.mk.inj (hpage.symm.trans hflat)
      rw [List.take_of_length_le hlen] at hsmall
      exact ⟨[(_, _)], rfl, List.append_nil _, fun part hpart =>
        List.mem_singleton.mp hpart ▸ hsmall⟩
    · exact absurd (Prod.mk.inj (hpage.symm.trans hflat)).1.symm hne
  | more hpage hne _ ih =>
    obtain ⟨shown, hsmall, ⟨-, hflat⟩ | ⟨p, next, happ, hflat, -, hnext, hpre, hsplit'⟩⟩ :=
      page_cases M check hN vectorA hdb hsplit hview hstart
    · exact absurd (Prod.mk.inj (hpage.symm.trans hflat)).1 hne
    · obtain ⟨rfl, rfl⟩ := Prod.mk.inj (hpage.symm.trans hflat)
      obtain ⟨parts, hparts, hall, hsmallest⟩ := ih hsplit' hnext (.inr hpre)
      refine ⟨((rest.take ITERATIONS_LOOPS_VSIM).filterMap (found M check a vectorA), _) :: parts,
        by rw [List.map_cons, hparts], ?_, ?_⟩
      · rw [List.flatMap_cons, hall, ← List.filterMap_append, ← happ]
      · rintro part hpart
        rcases List.mem_cons.mp hpart with rfl | hpart
        · exact hsmall
        · exact hsmallest part hpart

/-- The pages come to an end. -/
theorem exists_pages {start : Key} {done rest : List Pair}
    (hsplit : seen a.keyN db = done ++ rest) (hview : view a.keyN start db = rest)
    (hstart : start = [] ∨ makeKeyDataSearchFlat a.keyN <+: start) :
    ∃ pages, Pages (fun start => flat M check a vectorA start db) start pages := by
  induction hn : rest.length using Nat.strong_induction_on generalizing done rest start with
  | h n ih =>
    subst hn
    obtain ⟨shown, -, ⟨-, hflat⟩ | ⟨p, next, happ, hflat, hne, hnext, hpre, hsplit'⟩⟩ :=
      page_cases M check hN vectorA hdb hsplit hview hstart
    · exact ⟨_, .last hflat⟩
    · have hfull : 0 < (rest.take ITERATIONS_LOOPS_VSIM).length := by
        rw [List.length_take]
        have hlen : 0 < rest.length := by
          rw [happ, List.length_append, List.length_cons]
          omega
        exact lt_min (by decide) hlen
      have hless : (p :: next).length < rest.length := by
        have hlen := congrArg List.length happ
        rw [List.length_append] at hlen
        omega
      obtain ⟨pages, hpages⟩ := ih _ hless hsplit' hnext (.inr hpre) rfl
      exact ⟨_, .more hflat hne hpages⟩

end View

end HM4.VectorSearch
