import HM4.ListSteps

/-!
# Vectors of pairs inside nodes

The unrolled lists keep up to a fixed number of pairs in a node, with the numbers of
their keys before them. A full vector is split in the middle; the part behind goes to
another vector.
-/

namespace HM4.PairVector

open LexPrefix Bytes Pairs PairFactory MemList KeyedList BoundedSearch HPair HPairRank ListSteps

/-- `PairVectorConfig::Data`. -/
structure Data where
  /-- The number of the key. -/
  hkey : ℕ
  /-- The pair. -/
  pair : PairPtr

/-- `Data::cmp`. -/
def Data.cmp (d : Data) (hkey : ℕ) (key : Key) : Ordering :=
  hpairCmp d.hkey d.pair.data.key hkey key

/-- The constructor that takes a pair. -/
def Data.ofPair (pair : PairPtr) : Data := ⟨create pair.data.key, pair⟩

section Code

variable {σ : Type} (allocator : Allocator σ) (capacity : ℕ)

/-- `destruct`: the allocator is reset as a whole, or the pairs are given back. -/
def destruct (data : List Data) (s : σ) : σ :=
  match allocator.reset s with
  | (true, s) => s
  | (false, s) => data.foldl (fun s d => allocator.xdeallocate d.pair.block.addr s) s

/-- `locateC_` and `locateM_`. -/
def locate (data : List Data) (hkey : ℕ) (key : Key) : Option SearchResult :=
  binarySearch (comparator (fun d => d.cmp hkey key) data) 0 () 0 data.length

/-- `insertF`, which throws if there is no room. -/
def insertF (hkey : ℕ) (factory : Factory) (h : factory.valid = true) (now : UInt64)
    (data : List Data) (lc : ListCounter) (s : σ) :
    Option (InsertResult × List Data × ListCounter × σ) :=
  match locate data hkey factory.getKey with
  | none => none
  | some ⟨true, it⟩ => do
    let d ← data[it]?
    let (r, change, lc, s) := updatePair allocator s factory h now lc d.pair
    return (r, data.set it { d with pair := change.ptr d.pair }, lc, s)
  | some ⟨false, it⟩ =>
    if data.length = capacity then none
    else
      match createPair allocator s factory h now with
      | (none, s) => some (⟨.ERROR_NO_MEMORY, none⟩, data, lc, s)
      | (some newdata, s) => some (⟨.INSERTED, some newdata.data⟩,
          data.insertIdx it (Data.ofPair newdata), lc.inc newdata.data.bytes, s)

/-- `erase___`: whether the key was there. -/
def erase (hkey : ℕ) (key : Key) (data : List Data) (lc : ListCounter) (s : σ) :
    Option (Bool × List Data × ListCounter × σ) :=
  match locate data hkey key with
  | none => none
  | some ⟨true, it⟩ => do
    let d ← data[it]?
    return (true, data.eraseIdx it, lc.dec d.pair.data.bytes,
      allocator.xdeallocate d.pair.block.addr s)
  | some ⟨false, _⟩ => some (false, data, lc, s)

/-- `assign_`, which puts pairs behind those that are there and throws if there is no room. -/
def assign (data src : List Data) : Option (List Data) :=
  if data.length + src.length > capacity then none else some (data ++ src)

/-- `split` into a vector that has to be empty. -/
def split (data other : List Data) : Option (List Data × List Data) :=
  if other ≠ [] then none
  else do
    let len := data.length / 2
    let other ← assign capacity other (data.drop len)
    return (data.take (data.length - other.length), other)

/-- `merge`: the other vector is empty afterwards. -/
def merge (data other : List Data) : Option (List Data × List Data) := do
  let data ← assign capacity data other
  return (data, [])

end Code

/-! ## Order -/

/-- The rank of an entry. -/
def Data.rank (d : Data) : List ℤ := HPairRank.rank d.hkey d.pair.data.key

/-- The pair of an entry. -/
def Data.data (d : Data) : Pair := d.pair.data

/-- The ranks increase, and the numbers fit. -/
structure Ordered (data : List Data) : Prop where
  increasing : Increasing Data.rank data
  fits : ∀ d ∈ data, HkeyFits d.hkey d.pair.data.key

theorem Ordered.nil : Ordered [] := ⟨List.Pairwise.nil, fun _ hd => absurd hd List.not_mem_nil⟩

/-- A part of entries in order is in order. -/
theorem Ordered.sublist {l l' : List Data} (h : Ordered l) (hs : l'.Sublist l) : Ordered l' :=
  ⟨List.Pairwise.sublist hs h.increasing, fun d hd => h.fits d (hs.subset hd)⟩

/-- Every operation keeps the order. -/
theorem Ordered.stepped {owns : Bool → Prop} {fails : Status → Prop} {op : Op} {lc lc' : ListCounter}
    {m m' : List Data} {r : Option InsertResult} (hm : Ordered m)
    (h : Stepped Data.rank Data.data rankOf owns fails op lc m r lc' m') : Ordered m' :=
  ⟨h.increasing hm.increasing, h.fits hm.fits⟩

/-- An erase keeps the order. -/
theorem Ordered.erased {k : List ℤ} {lc lc' : ListCounter} {m m' : List Data} {r : InsertResult}
    (hm : Ordered m) (h : Erased Data.rank Data.data k lc m r lc' m') : Ordered m' :=
  ⟨h.increasing hm.increasing, fun d hd => hm.fits d (h.subset hd)⟩

theorem cmp_eq (d : Data) (key : Key) :
    d.cmp (create key) key = lex d.rank (rankOf key) := hpairCmp_eq_lex _ _ _ _

/-- The search cuts the vector. -/
theorem locate_spec {data : List Data} (h : Increasing Data.rank data) (key : Key) :
    ∃ l1 l2 found, locate data (create key) key = some ⟨found, l1.length⟩ ∧
      Cut Data.rank (rankOf key) data l1 l2 found :=
  search_spec h (fun d => by rw [cmp_eq, lex_eq_lt]) (fun d => by rw [cmp_eq, lex_eq_eq]) 0

/-! ## Operations -/

section Steps

variable {σ : Type} (allocator : Allocator σ) {capacity : ℕ}

/-- An entry that gets a pair of the key keeps its number and its rank. -/
theorem rank_change {factory : Factory} {d : Data} (h : factory.valid = true)
    (hfits : HkeyFits d.hkey d.pair.data.key) (ho : d.rank = rankOf factory.getKey) (now : UInt64)
    (ptr : PairPtr) (hd : ptr.data = factory.createHint h now d.pair.data ∨
      ptr.data = factory.create h now) :
    Data.rank { d with pair := ptr } = rankOf factory.getKey := by
  unfold Data.rank
  dsimp only
  rcases hd with hd | hd
  · rw [hd]
    exact (rank_createHint h hfits ho).1
  · rw [hd]
    exact rank_create h ho

/-- An insert into a vector that has the key, or that is not full. -/
theorem insertF_spec {data : List Data} (hl : Ordered data) {factory : Factory}
    (h : factory.valid = true) (now : UInt64) (lc : ListCounter) (s : σ)
    (hroom : data.length = capacity → ∃ d ∈ data, d.rank = rankOf factory.getKey) :
    ∃ r data' lc' s', insertF allocator capacity (create factory.getKey) factory h now data lc s =
        some (r, data', lc', s') ∧
      Inserted Data.rank Data.data factory now (Owns allocator s)
        (NoMemory (Refuses allocator [factory.bytes] s)) (rankOf factory.getKey) lc data r lc'
        data' := by
  unfold insertF
  obtain ⟨l1, l2, found, e, hcut⟩ := locate_spec hl.increasing factory.getKey
  have heq := hcut.eq
  have h1 := hcut.below
  rw [e]
  cases found with
  | true =>
    obtain ⟨old, l3, rfl, ho, h2⟩ := hcut.here rfl
    have hget : data[l1.length]? = some old := by
      rw [heq, List.getElem?_append_right le_rfl, Nat.sub_self]
      rfl
    have hfits := hl.fits old (heq ▸ List.mem_append_right l1 List.mem_cons_self)
    obtain ⟨r, c, lc', s', hupd, hins⟩ := updatePair_spec Data.rank Data.data allocator s h now lc
      old.pair (NoMemory (Refuses allocator [factory.bytes] s))
      (fun c => { old with pair := c.ptr old.pair }) h1 h2 ho rfl rfl
      (fun ptr hd => ⟨rank_change h hfits ho now ptr (.inl hd), rfl⟩)
      (fun ptr hd => ⟨rank_change h hfits ho now ptr (.inr hd), rfl⟩)
      fun hx => ⟨rfl, .inl hx⟩
    refine ⟨r, data.set l1.length { old with pair := c.ptr old.pair }, lc', s', ?_, ?_⟩
    · simp only [hget, hupd, Option.bind_eq_bind, Option.bind_some, Option.pure_def]
    · rw [heq, List.set_append_right _ _ le_rfl, Nat.sub_self, List.set_cons_zero]
      exact hins
  | false =>
    have h2 := hcut.above rfl
    have hnot : ¬data.length = capacity := fun hc => by
      obtain ⟨d, hd, hr⟩ := hroom hc
      exact hcut.absent d hd hr
    dsimp only
    rw [if_neg hnot]
    unfold createPair
    cases hx : allocator.xallocate factory.bytes s with
    | mk a s1 =>
      cases a with
      | none => exact ⟨_, _, _, _, rfl, .failed _ h ⟨rfl, .inl (congrArg Prod.fst hx)⟩⟩
      | some addr =>
        obtain ⟨d, hd⟩ : ∃ d : Data,
          d = Data.ofPair ⟨factory.create h now, ⟨addr, factory.bytes⟩⟩ := ⟨_, rfl⟩
        have hdata : d.data = factory.create h now := by
          rw [hd]
          rfl
        have hrank : d.rank = rankOf factory.getKey := by
          rw [hd, Data.rank, Data.ofPair]
          dsimp only
          rw [factory.create_key]
          rfl
        refine ⟨_, _, _, _, rfl, ?_⟩
        dsimp only
        rw [← hd, ← hdata, heq, insertIdx_append_length]
        exact .new l1 l2 d h h1 h2 hrank hdata

/-- An insert into the vector of one node is one into all entries. -/
theorem insertF_within {a data b : List Data} (hl : Ordered (a ++ (data ++ b)))
    {factory : Factory} (h : factory.valid = true) (now : UInt64) (lc : ListCounter) (s : σ)
    (ha : ∀ x ∈ a, x.rank < rankOf factory.getKey) (hb : ∀ x ∈ b, rankOf factory.getKey < x.rank)
    (hlen : data.length ≤ capacity)
    (hroom : data.length = capacity → ∃ d ∈ data, d.rank = rankOf factory.getKey) :
    ∃ r data' lc' s', insertF allocator capacity (create factory.getKey) factory h now data lc s =
        some (r, data', lc', s') ∧
      Inserted Data.rank Data.data factory now (Owns allocator s)
        (NoMemory (Refuses allocator [factory.bytes] s)) (rankOf factory.getKey) lc
        (a ++ (data ++ b)) r lc' (a ++ (data' ++ b)) ∧
      data'.length ≤ capacity ∧ (data ≠ [] → data' ≠ []) := by
  have hmid : Ordered data := hl.sublist
    ((List.sublist_append_left data b).trans (List.sublist_append_right a _))
  obtain ⟨r, data', lc', s', e, hins⟩ := insertF_spec allocator hmid h now lc s hroom
  refine ⟨r, data', lc', s', e, hins.context ha hb, ?_, fun hne => ?_⟩
  · rcases hins.length with hsame | ⟨hmore, habs⟩
    · rw [hsame]
      exact hlen
    · rw [hmore]
      refine lt_of_le_of_ne hlen fun hfull => ?_
      obtain ⟨d, hd, hr⟩ := hroom hfull
      exact habs d hd hr
  · have hpos := List.length_pos_iff.mpr hne
    refine List.ne_nil_of_length_pos ?_
    rcases hins.length with hsame | ⟨hmore, _⟩ <;> omega

/-- An erase takes the entry of the key out. -/
theorem erase_spec {data : List Data} (hl : Ordered data) (key : Key) (lc : ListCounter) (s : σ) :
    ∃ found data' lc' s', erase allocator (create key) key data lc s = some (found, data', lc', s') ∧
      Erased Data.rank Data.data (rankOf key) lc data
        ⟨if found = true then .DELETED else .SKIP_DELETED, none⟩ lc' data' := by
  unfold erase
  obtain ⟨l1, l2, found, e, hcut⟩ := locate_spec hl.increasing key
  have heq := hcut.eq
  rw [e]
  cases found with
  | true =>
    obtain ⟨old, l3, rfl, ho, h2⟩ := hcut.here rfl
    have hget : data[l1.length]? = some old := by
      rw [heq, List.getElem?_append_right le_rfl, Nat.sub_self]
      rfl
    refine ⟨true, data.eraseIdx l1.length, lc.dec old.pair.data.bytes,
      allocator.xdeallocate old.pair.block.addr s, ?_, ?_⟩
    · simp only [hget, Option.bind_eq_bind, Option.bind_some, Option.pure_def]
    · rw [heq, List.eraseIdx_append_of_length_le le_rfl, Nat.sub_self, List.eraseIdx_cons_zero]
      exact .found l1 l3 old hcut.below h2 ho
  | false => exact ⟨false, data, lc, s, rfl, .absent hcut.absent⟩

/-- An erase in the vector of one node is one in all entries. -/
theorem erase_within {a data b : List Data} (hl : Ordered (a ++ (data ++ b))) (key : Key)
    (lc : ListCounter) (s : σ) (ha : ∀ x ∈ a, x.rank < rankOf key)
    (hb : ∀ x ∈ b, rankOf key < x.rank) :
    ∃ found data' lc' s', erase allocator (create key) key data lc s = some (found, data', lc', s') ∧
      Erased Data.rank Data.data (rankOf key) lc (a ++ (data ++ b))
        ⟨if found = true then .DELETED else .SKIP_DELETED, none⟩ lc' (a ++ (data' ++ b)) ∧
      data'.length ≤ data.length ∧ (found = false → data' = data ∧ lc' = lc) := by
  have hmid : Ordered data := hl.sublist
    ((List.sublist_append_left data b).trans (List.sublist_append_right a _))
  obtain ⟨found, data', lc', s', e, hera⟩ := erase_spec allocator hmid key lc s
  refine ⟨found, data', lc', s', e, hera.context ha hb, hera.length_le, fun hf => ?_⟩
  subst hf
  exact hera.of_skip rfl

end Steps

section Split

variable {capacity : ℕ}

/-- A full vector is cut into two parts that are not empty and not full. -/
theorem split_spec {data : List Data} (hfull : data.length = capacity) (hcap : 2 ≤ capacity) :
    ∃ l1 l2, split capacity data [] = some (l1, l2) ∧ data = l1 ++ l2 ∧ l1 ≠ [] ∧ l2 ≠ [] ∧
      l1.length < capacity ∧ l2.length < capacity := by
  have hd : (data.drop (data.length / 2)).length = data.length - data.length / 2 := List.length_drop
  have ht : (data.take (data.length / 2)).length = data.length / 2 := by
    rw [List.length_take]
    omega
  have hback : data.length - (data.length - data.length / 2) = data.length / 2 := by omega
  refine ⟨data.take (data.length / 2), data.drop (data.length / 2), ?_,
    (List.take_append_drop _ _).symm, List.ne_nil_of_length_pos (by omega),
    List.ne_nil_of_length_pos (by omega), by omega, by omega⟩
  unfold split assign
  rw [if_neg fun hc => hc rfl]
  dsimp only
  rw [List.length_nil, if_neg (by omega), List.nil_append]
  simp only [Option.bind_eq_bind, Option.bind_some, Option.pure_def, hd, hback]

end Split

end HM4.PairVector
