import HM4.VectorSearchRuns

/-!
# The search over the bands

The names under the texts of the bands of a vector are those of the vectors whose hashes agree with
its hashes in the bits that are left, in one of the bands at least.
-/

namespace HM4.VectorSearch

open LexPrefix Bytes Pairs MemList KeyedList Database IndexToken AccumulateResults VectorsStorage
open Vectors2 VectorIndex Separated
open Autocomplete (extractNth extractLoop)
open RSet (makeKeyCtrl sortUnique)
open TopHeap (offer sortHeap lessThan Smallest)

/-! ## One band -/

/-- The pairs under a text. -/
def under (keyN index : Key) (db : Db) : List Pair :=
  db.filter fun p => decide (keyN ++ separator :: index <+: p.key)

/-- The names of the live pairs under a text. -/
def names (check : Key → UInt64) (keyN index : Key) (db : Db) : List Key :=
  ((under keyN index db).filter fun p => isOK (check p.key) p).map fun p =>
    extractNth 3 separator p.key

/-- A scan of the pairs under a text ends within its budget and with all its results. -/
structure WithinLimits (check : Key → UInt64) (keyN index : Key) (db : Db) : Prop where
  iterations : (under keyN index db).length ≤ Queue.ITERATIONS_LOOPS_MAX
  results : (names check keyN index db).length ≤ count

theorem makeKeyDataSearchNS_eq {keyN text : Key} (hN : valid keyN) (htext : valid text) :
    makeKeyDataSearchNS keyN text = keyN ++ separator :: text := by
  have hlen := hN.2
  have hlen' := htext.2
  refine (concatenateBuffer_key ?_).trans ?_
  · simp only [List.map_cons, List.map_nil, List.sum_cons, List.sum_nil, List.length_singleton]
    unfold INDEX_TOKEN_SIZE at hlen hlen'
    unfold maxKeySize
    omega
  · simp only [List.flatten_cons, List.flatten_nil, List.append_nil, List.singleton_append]

/-- A scan within its limits finds the names under its text. -/
theorem scanIndex_eq {check : Key → UInt64} {keyN index : Key} {db : Db}
    (hdb : Increasing Pair.key db) (h : WithinLimits check keyN index db) (container : List Key) :
    scanIndex check db (keyN ++ separator :: index) container =
      container ++ names check keyN index db := by
  have htake := takeWhile_fromKey hdb (keyN ++ separator :: index)
  have hlen := h.results
  rw [names, List.length_map] at hlen
  refine (sharedAccumulatePairs_within (f := fun container p =>
    container ++ [extractNth 3 separator p.key]) (fun _ _ => rfl) _ _ ?_ ?_).trans ?_
  · rw [htake, Nat.zero_add]
    exact h.iterations
  · rintro n hn
    obtain rfl := Option.some.inj hn
    rw [htake, Nat.zero_add]
    exact hlen
  · rw [htake, names, List.map_eq_flatMap, List.flatMap_def]
    exact List.foldl_append_eq_append

/-- The scans of all texts, one after another. -/
theorem foldl_scanIndex {check : Key → UInt64} {keyN : Key} {db : Db}
    (hdb : Increasing Pair.key db) (hN : valid keyN) {indexes : List Key}
    (hvalid : ∀ index ∈ indexes, valid index)
    (h : ∀ index ∈ indexes, WithinLimits check keyN index db) (container : List Key) :
    indexes.foldl (fun container index =>
        scanIndex check db (makeKeyDataSearchNS keyN index) container) container =
      container ++ indexes.flatMap fun index => names check keyN index db := by
  induction indexes generalizing container with
  | nil => exact (List.append_nil container).symm
  | cons index indexes ih =>
    rw [List.foldl_cons, makeKeyDataSearchNS_eq hN (hvalid index List.mem_cons_self),
      scanIndex_eq hdb (h index List.mem_cons_self),
      ih (fun i hi => hvalid i (List.mem_cons_of_mem index hi))
        fun i hi => h i (List.mem_cons_of_mem index hi),
      List.flatMap_cons, List.append_assoc]

section Names

variable {simhash : Element → Key → ℕ → ℕ} {murmur_hash64a : Key → UInt64} {sets : Key → Prop}
  {db0 db : Db} {m : Key × Key → Option Version} {keyN : Key}
  (hstored : Stored simhash murmur_hash64a sets db0 m db) (hdb : Increasing Pair.key db)
  (hset : sets keyN ∧ separator ∉ keyN)
  (hclear : ∀ now key, keyN ++ [separator] <+: key → holds now db0 key = none)
  (check : Key → UInt64)

include hset in
/-- The key of a text of a stored vector. -/
theorem textKey_parts {v text : Key} (hv : valid v) (hN : valid keyN) (htext : valid text)
    (hsep : separator ∉ text) :
    keyN ++ [separator] <+: textKey murmur_hash64a (keyN, v) text ∧
      (∀ t, textKey murmur_hash64a (keyN, v) text ≠ keyN ++ separator :: separator :: t) ∧
      extractNth 3 separator (textKey murmur_hash64a (keyN, v) text) = v ∧
      ∀ index, separator ∉ index →
        (keyN ++ separator :: index <+: textKey murmur_hash64a (keyN, v) text ↔
          index <+: text) := by
  have hi : Named sets (keyN, v) := ⟨hset, hN, hv⟩
  have hsort := valid_keySort murmur_hash64a v
  have hkey := (@textKey_eq murmur_hash64a sets _ hi text htext).1
  rw [terminated_cons_append, terminated_cons_append] at hkey
  dsimp only at hkey
  rw [hkey]
  refine ⟨⟨_, by rw [List.append_assoc, List.singleton_append]⟩, fun t heq => ?_, ?_,
    fun index hindex => ?_⟩
  · have htail := (List.cons.inj (List.append_cancel_left heq)).2
    cases text with
    | nil => exact htext.1 rfl
    | cons c text => exact hsep ((List.cons.inj htail).1 ▸ List.mem_cons_self)
  · rw [extractNth, Autocomplete.extractLoop_append hset.2, if_neg (by decide),
      Autocomplete.extractLoop_append hsep, if_neg (by decide),
      Autocomplete.extractLoop_append hsort.2, if_pos rfl]
    rfl
  · rw [List.prefix_append_right_inj, List.prefix_cons_inj, isPrefix_append_iff hindex]

include hstored hdb hset hclear

/-- The names under a text are those of the vectors with a text that starts with it. -/
theorem mem_names {index v : Key} (hindex : valid index) (hsep : separator ∉ index) :
    v ∈ names check keyN index db ↔ ∃ y text, m (keyN, v) = some y ∧
      text ∈ texts simhash y.T y.blob ∧ index <+: text := by
  constructor
  · intro hv
    obtain ⟨p, hp, rfl⟩ := List.mem_map.mp hv
    obtain ⟨hunder, hok⟩ := List.mem_filter.mp hp
    obtain ⟨hmem, hpre⟩ := List.mem_filter.mp hunder
    have hpre := of_decide_eq_true hpre
    have hfront : keyN ++ [separator] <+: p.key := by
      refine List.IsPrefix.trans ⟨index, ?_⟩ hpre
      rw [List.append_assoc, List.singleton_append]
    have hctrl : ∀ text, p.key ≠ keyN ++ separator :: separator :: text := by
      intro text heq
      rw [heq, List.prefix_append_right_inj, List.prefix_cons_inj] at hpre
      cases index with
      | nil => exact hindex.1 rfl
      | cons c index =>
        exact hsep ((List.cons_prefix_cons.mp hpre).1 ▸ List.mem_cons_self)
    have hholds : holds (check p.key) db p.key = some p.val :=
      (holds_iff hdb).mpr ⟨p, hmem, rfl, rfl, hok⟩
    obtain ⟨y, text, hy, htext, hkey⟩ := (holds_text hstored hset hclear hfront hctrl).mp hholds
    have hnamed := named_of_some hstored hy
    obtain ⟨htextValid, htextSep⟩ := texts_valid htext
    obtain ⟨-, -, hlast, hiff⟩ := @textKey_parts murmur_hash64a sets keyN hset _ text hnamed.2.2
      hnamed.2.1 htextValid htextSep
    rw [hkey] at hpre
    rw [hkey, hlast]
    exact ⟨y, text, hy, htext, (hiff index hsep).mp hpre⟩
  · rintro ⟨y, text, hy, htext, hpre⟩
    have hnamed := named_of_some hstored hy
    obtain ⟨htextValid, htextSep⟩ := texts_valid htext
    obtain ⟨hfront, hctrl, hlast, hiff⟩ := @textKey_parts murmur_hash64a sets keyN hset _ text
      hnamed.2.2 hnamed.2.1 htextValid htextSep
    have hholds : holds (check (textKey murmur_hash64a (keyN, v) text)) db
        (textKey murmur_hash64a (keyN, v) text) = some v :=
      (holds_text hstored hset hclear hfront hctrl).mpr ⟨y, text, hy, htext, rfl⟩
    obtain ⟨p, hmem, hkey, -, hok⟩ := (holds_iff hdb).mp hholds
    refine List.mem_map.mpr ⟨p, List.mem_filter.mpr ⟨List.mem_filter.mpr ⟨hmem, ?_⟩, hok⟩, ?_⟩
    · rw [hkey]
      exact decide_eq_true ((hiff index hsep).mpr hpre)
    · rw [hkey, hlast]

end Names

/-! ## All bands -/

/-- Two vectors agree in the bits that are left of the hash of a band. -/
def Agree (simhash : Element → Key → ℕ → ℕ) (bands bits : ℕ) (T : Element) (vectorA vectorB : Key) :
    Prop :=
  ∃ id < bands, topBits bits (simhash T vectorA id) = topBits bits (simhash T vectorB id)

/-- The texts of the bands of a query. -/
def indexesOf (simhash : Element → Key → ℕ → ℕ) (bands bits : ℕ) (T : Element) (vectorA : Key) :
    List Key :=
  (List.range bands).map fun id => bandText bits id (simhash T vectorA id)

/-- A text of a band starts with the text of one of the bands that are asked for exactly if the
vectors agree there. -/
theorem exists_isPrefix_iff {simhash : Element → Key → ℕ → ℕ} {bands bits : ℕ} {T : Element}
    {vectorA vectorB : Key} (hbands : bands ≤ MAX_BANDS) (hlow : MIN_BITS ≤ bits)
    (hhigh : bits ≤ MAX_BITS) :
    (∃ index ∈ indexesOf simhash bands bits T vectorA, ∃ text ∈ texts simhash T vectorB,
      index <+: text) ↔ Agree simhash bands bits T vectorA vectorB := by
  constructor
  · rintro ⟨index, hindex, text, htext, hpre⟩
    obtain ⟨id, hid, rfl⟩ := List.mem_map.mp hindex
    obtain ⟨id', hid', rfl⟩ := List.mem_map.mp htext
    obtain ⟨rfl, htop⟩ := (bandText_isPrefix hlow hhigh
      ((List.mem_range.mp hid).trans_le hbands) (List.mem_range.mp hid')).mp hpre
    exact ⟨id, List.mem_range.mp hid, htop⟩
  · rintro ⟨id, hid, htop⟩
    have hid' := hid.trans_le hbands
    exact ⟨_, List.mem_map_of_mem (List.mem_range.mpr hid), _,
      List.mem_map_of_mem (List.mem_range.mpr hid'),
      (bandText_isPrefix hlow hhigh hid' hid').mpr ⟨rfl, htop⟩⟩

section Similar

variable {D : Type*} [LinearOrder D] (check : Key → UInt64) (T : Element) (dim_ix : ℕ)
  (keySub : Key) (dist : Key → D) (keyN : Key) (db : Db)

/-- What a name adds to the heap of `VSIM`. -/
def candidateText (text : Key) : Option (VSIMHeapNode D) :=
  if text = keySub then none
  else (toStoredVector T (getData check keyN text db) dim_ix).map fun vectorB =>
    toLex (dist vectorB, text)

theorem processTexts_eq (list : List Key) (heap : Array (VSIMHeapNode D)) :
    processTexts check T dim_ix keySub dist keyN db list heap =
      (list.filterMap (candidateText check T dim_ix keySub dist keyN db)).foldl
        (offer lessThan results) heap := by
  induction list generalizing heap with
  | nil => rfl
  | cons text list ih =>
    rw [processTexts, List.filterMap_cons, candidateText]
    by_cases hsame : text = keySub
    · rw [if_pos hsame, if_pos hsame]
      exact ih heap
    · rw [if_neg hsame, if_neg hsame]
      cases toStoredVector T (getData check keyN text db) dim_ix with
      | none => exact ih heap
      | some vectorB => exact ih _

end Similar

section Found

variable {simhash : Element → Key → ℕ → ℕ} {murmur_hash64a : Key → UInt64} {sets : Key → Prop}
  {db0 db : Db} {m : Key × Key → Option Version}
  (hstored : Stored simhash murmur_hash64a sets db0 m db) (hdb : Increasing Pair.key db)
  {D : Type*} [LinearOrder D] (M : Metric D) (check : Key → UInt64) {a : SimArgs}
  (hset : sets a.keyN ∧ separator ∉ a.keyN) (hN : valid a.keyN)
  (hclear : ∀ now key, a.keyN ++ [separator] <+: key → holds now db0 key = none)
  (hread : ∀ s y, m (a.keyN, s) = some y →
    y.T = a.T ∧ toStoredVector a.T y.blob a.dim_ix = some y.blob)

include hstored hread

omit [LinearOrder D] in
/-- What is made of the name of a stored vector. -/
theorem candidateText_eq {s : Key} {y : Version} (hy : m (a.keyN, s) = some y) (keySub : Key)
    (dist : Key → D) :
    candidateText check a.T a.dim_ix keySub dist a.keyN db s =
      if s = keySub then none else some (toLex (dist y.blob, s)) := by
  have hctrl := hstored.ctrl_eq (named_of_some hstored hy) (check (makeKeyCtrl a.keyN s))
  rw [hy, Option.map_some] at hctrl
  have hdata : getData check a.keyN s db = y.blob := congrArg (Option.getD · []) hctrl
  rw [candidateText, hdata, (hread s y hy).2, Option.map_some]

include hdb hset hclear

omit [LinearOrder D] in
/-- The names that `VSIM` finds make the other vectors that agree with the query. -/
theorem others_names (vectorA : Key) {bands bits : ℕ} (hbands : bands ≤ MAX_BANDS)
    (hlow : MIN_BITS ≤ bits) (hhigh : bits ≤ MAX_BITS) (dist : Key → D) :
    Others m a.keyN a.keySub (fun y => Agree simhash bands bits a.T vectorA y.blob) dist
      ((sortUnique ((indexesOf simhash bands bits a.T vectorA).flatMap fun index =>
        names check a.keyN index db)).filterMap
          (candidateText check a.T a.dim_ix a.keySub dist a.keyN db)) := by
  have hvalid : ∀ index ∈ indexesOf simhash bands bits a.T vectorA,
      valid index ∧ separator ∉ index := by
    intro index hindex
    obtain ⟨id, -, rfl⟩ := List.mem_map.mp hindex
    exact bandText_valid bits id _ hlow
  have hmem : ∀ s, s ∈ sortUnique ((indexesOf simhash bands bits a.T vectorA).flatMap
      fun index => names check a.keyN index db) ↔
        ∃ y, m (a.keyN, s) = some y ∧ Agree simhash bands bits a.T vectorA y.blob := by
    intro s
    rw [RSet.mem_sortUnique, List.mem_flatMap]
    constructor
    · rintro ⟨index, hindex, hs⟩
      obtain ⟨y, text, hy, htext, hpre⟩ := (mem_names hstored hdb hset hclear check
        (hvalid index hindex).1 (hvalid index hindex).2).mp hs
      rw [(hread s y hy).1] at htext
      exact ⟨y, hy, (exists_isPrefix_iff hbands hlow hhigh).mp ⟨index, hindex, text, htext, hpre⟩⟩
    · rintro ⟨y, hy, hagree⟩
      obtain ⟨index, hindex, text, htext, hpre⟩ :=
        (exists_isPrefix_iff hbands hlow hhigh).mpr hagree
      rw [← (hread s y hy).1] at htext
      exact ⟨index, hindex, (mem_names hstored hdb hset hclear check (hvalid index hindex).1
        (hvalid index hindex).2).mpr ⟨y, text, hy, htext, hpre⟩⟩
  constructor
  · rw [List.map_filterMap]
    refine List.pairwise_filterMap.mpr ?_
    refine (RSet.sortUnique_pairwise _).imp_of_mem fun {s s'} hs hs' hlt t ht t' ht' heq => ?_
    obtain ⟨y, hy, -⟩ := (hmem s).mp hs
    obtain ⟨y', hy', -⟩ := (hmem s').mp hs'
    rw [candidateText_eq hstored check hread hy] at ht
    rw [candidateText_eq hstored check hread hy'] at ht'
    have hown {s : Key} {d : D} {t : Key} (h : Option.map (fun node => (ofLex node).2)
        (if s = a.keySub then none else some (toLex (d, s))) = some t) : s = t := by
      split_ifs at h
      · exact nomatch h
      · exact Option.some.inj h
    exact hlt.ne ((hown ht).trans (heq.trans (hown ht').symm))
  · intro node
    rw [List.mem_filterMap]
    constructor
    · rintro ⟨s, hs, hnode⟩
      obtain ⟨y, hy, hagree⟩ := (hmem s).mp hs
      rw [candidateText_eq hstored check hread hy] at hnode
      by_cases hsame : s = a.keySub
      · rw [if_pos hsame] at hnode
        exact nomatch hnode
      · rw [if_neg hsame] at hnode
        exact ⟨s, y, hsame, hy, hagree, (Option.some.inj hnode).symm⟩
    · rintro ⟨s, y, hsame, hy, hagree, rfl⟩
      exact ⟨s, (hmem s).mpr ⟨y, hy, hagree⟩, by
        rw [candidateText_eq hstored check hread hy, if_neg hsame]⟩

end Found

/-- What `VSIM` finds within its limits. -/
theorem similar_eq {D : Type*} [LinearOrder D] (M : Metric D) {simhash : Element → Key → ℕ → ℕ}
    {check : Key → UInt64} {a : SimArgs} (hN : valid a.keyN) {db : Db}
    (hdb : Increasing Pair.key db) (vectorA : Key) {bands bits : ℕ} (hlow : MIN_BITS ≤ bits)
    (h : ∀ index ∈ indexesOf simhash bands bits a.T vectorA,
      WithinLimits check a.keyN index db) :
    similar M check a vectorA (indexesOf simhash bands bits a.T vectorA) db =
      sortHeap lessThan (((sortUnique ((indexesOf simhash bands bits a.T vectorA).flatMap
        fun index => names check a.keyN index db)).filterMap
          (candidateText check a.T a.dim_ix a.keySub (M.prepared a.dtype a.T vectorA) a.keyN
            db)).foldl (offer lessThan results) #[]) := by
  have hvalid : ∀ index ∈ indexesOf simhash bands bits a.T vectorA, valid index := by
    intro index hindex
    obtain ⟨id, -, rfl⟩ := List.mem_map.mp hindex
    exact (bandText_valid bits id _ hlow).1
  unfold similar
  dsimp only
  rw [foldl_scanIndex hdb hN hvalid h, List.nil_append, processTexts_eq]

end HM4.VectorSearch
