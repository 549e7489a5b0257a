import HM4.DiskTable
import HM4.General.OpenAddressing

/-!
# The hash index

Each key has a window of sixteen cells that starts at its hash. Both builders
put every record into the first free cell of its window and drop it when the
window is full; the multi-pass builder collects records and puts them in the
order of their cells. A cell counts as free while its hash is zero, so a record
whose own hash is zero leaves its cell free.
-/

namespace HM4.HashIndex

open Bytes Pairs BoundedSearch DiskTable OpenAddressing

/-- A node of the index, and the `NodeHelper` of the builders. The file holds
both numbers big-endian, which changes neither zero nor equality. -/
structure HashNode where
  /-- The hash of the key, zero for a free cell. -/
  hash : ℕ
  /-- The position of the pair. -/
  pos : ℕ
  deriving DecidableEq, Repr

/-- `HASHTABLE_OPEN_ADDRESSES`. -/
abbrev openAddresses : ℕ := 16

/-- A 64-bit hash function, such as `murmur_hash64a`. -/
abbrev HashFunction := Key → Fin (2 ^ 64)

/-- `node.hash` is not zero. -/
def taken (node : HashNode) : Bool := node.hash != 0

/-- The cells `(hc + i) % nodesCount`, added in 64 bits. -/
def windowCells (nodesCount hc : ℕ) : List ℕ :=
  (List.range openAddresses).map (fun i => (hc + i) % 2 ^ 64 % nodesCount)

/-- The cells of a record. -/
def recordCells (nodesCount : ℕ) (node : HashNode) : List ℕ := windowCells nodesCount node.hash

/-- The records of a table, with a position counter of `w` bits. -/
def records (hash : HashFunction) (w : ℕ) (t : Table) : List HashNode :=
  t.pairs.mapIdx (fun i p => ⟨(hash p.key).val, i % 2 ^ w⟩)

/-- The zeroed cells that a builder starts from. -/
def emptyNodes (nodesCount : ℕ) : List HashNode := List.replicate nodesCount ⟨0, 0⟩

/-- `insert__` for one record after the other. -/
def insertAll (nodesCount : ℕ) (data nodes : List HashNode) : List HashNode :=
  putAll taken (recordCells nodesCount) data nodes

/-- `HashIndexStandardBuilder`: every record as it comes. -/
def standardBuild (hash : HashFunction) (w nodesCount : ℕ) (t : Table) : List HashNode :=
  insertAll nodesCount (records hash w t) (emptyNodes nodesCount)

/-- `std::sort` by cell, which leaves the order of equal cells open. -/
structure CellSort where
  /-- The sorted records. -/
  sort : ℕ → List HashNode → List HashNode
  perm : ∀ nodesCount l, (sort nodesCount l).Perm l
  sorted : ∀ nodesCount l, (sort nodesCount l).Pairwise
    (fun a b => a.hash % nodesCount ≤ b.hash % nodesCount)

/-- `flush`: the collected records in the order of their cells. -/
def flush (order : CellSort) (nodesCount : ℕ) (vector nodes : List HashNode) : List HashNode :=
  insertAll nodesCount (order.sort nodesCount vector) nodes

/-- `HashIndexMultiPassBuilder`: collect, flush a full buffer, and flush the rest
at the end. -/
def multiPassFeed (order : CellSort) (capacity nodesCount : ℕ) :
    List HashNode → List HashNode → List HashNode → List HashNode
  | vector, nodes, [] => if vector = [] then nodes else flush order nodesCount vector nodes
  | vector, nodes, data :: rest =>
    let vector' := vector ++ [data]
    if vector'.length = capacity then
      multiPassFeed order capacity nodesCount [] (flush order nodesCount vector' nodes) rest
    else
      multiPassFeed order capacity nodesCount vector' nodes rest

/-- The two builders. -/
inductive Builder
  /-- One pass over an index that fits into memory. -/
  | standard
  /-- Passes over a mapped file with a buffer of some records. -/
  | multiPass (capacity : ℕ) (order : CellSort)

/-- The index that a builder leaves in the file. -/
def Builder.build (hash : HashFunction) (w nodesCount : ℕ) (t : Table) : Builder → List HashNode
  | .standard => standardBuild hash w nodesCount t
  | .multiPass capacity order =>
    multiPassFeed order capacity nodesCount [] (emptyNodes nodesCount) (records hash w t)

/-- A node answers for the key: its hash is the one searched, and its position
is outside the table or holds the key. -/
def answers (t : Table) (key : Key) (hc : ℕ) (node : HashNode) : Bool :=
  node.hash == hc &&
    match t.pairs[node.pos]? with
    | none => true
    | some pair => pair.cmp key == .eq

/-- `searchHashIndex`, with the result that its fallback gives. -/
def searchHashIndex (hash : HashFunction) (key : Key) (t : Table) (nodes : List HashNode)
    (fallback : Option SearchResult) : Option SearchResult :=
  match probe taken (answers t key (hash key).val) nodes
      (windowCells nodes.length (hash key).val) with
  | .free => some ⟨false, t.size⟩
  | .full => fallback
  | .hit node => if t.size ≤ node.pos then fallback else some ⟨true, node.pos⟩

/-! ## What the builders leave -/

theorem windowCells_lt {nodesCount : ℕ} (hn : 0 < nodesCount) (hc : ℕ) :
    ∀ c ∈ windowCells nodesCount hc, c < nodesCount := by
  intro c hmem
  obtain ⟨i, _, rfl⟩ := List.mem_map.mp hmem
  exact Nat.mod_lt _ hn

/-- The multi-pass builder puts the same records, in some order. -/
theorem multiPassFeed_perm (order : CellSort) (capacity nodesCount : ℕ)
    (vector nodes data : List HashNode) :
    ∃ vs : List HashNode, vs.Perm (vector ++ data) ∧
      multiPassFeed order capacity nodesCount vector nodes data = insertAll nodesCount vs nodes := by
  induction data generalizing vector nodes with
  | nil =>
    rw [multiPassFeed, List.append_nil]
    split
    · next h => exact ⟨[], by rw [h], rfl⟩
    · exact ⟨_, order.perm nodesCount vector, rfl⟩
  | cons data rest ih =>
    have happ : vector ++ data :: rest = (vector ++ [data]) ++ rest := by
      rw [List.append_assoc, List.singleton_append]
    rw [multiPassFeed, happ]
    split
    · obtain ⟨vs, hperm, hvs⟩ := ih [] (flush order nodesCount (vector ++ [data]) nodes)
      refine ⟨order.sort nodesCount (vector ++ [data]) ++ vs, ?_, ?_⟩
      · exact (order.perm nodesCount _).append hperm
      · rw [hvs, insertAll, insertAll, flush, insertAll, putAll_append]
    · exact ih (vector ++ [data]) nodes

/-- Every builder puts the records of the table, in some order. -/
theorem build_perm (hash : HashFunction) (w nodesCount : ℕ) (t : Table) (b : Builder) :
    ∃ vs : List HashNode, vs.Perm (records hash w t) ∧
      b.build hash w nodesCount t = insertAll nodesCount vs (emptyNodes nodesCount) := by
  cases b with
  | standard => exact ⟨_, List.Perm.refl _, rfl⟩
  | multiPass capacity order => exact multiPassFeed_perm order capacity nodesCount [] _ _

/-- The records of a table that the position counter can number. -/
theorem mem_records {hash : HashFunction} {w : ℕ} {t : Table} (hw : t.size ≤ 2 ^ w)
    {node : HashNode} : node ∈ records hash w t ↔
      ∃ i < t.size, node = ⟨(hash (t.keyAt i)).val, i⟩ := by
  rw [records, List.mem_mapIdx]
  constructor
  · rintro ⟨i, hi, rfl⟩
    refine ⟨i, hi, ?_⟩
    rw [Table.keyAt_of_getElem? (List.getElem?_eq_getElem hi),
      Nat.mod_eq_of_lt (hi.trans_le hw)]
  · rintro ⟨i, hi, rfl⟩
    refine ⟨i, hi, ?_⟩
    rw [Table.keyAt_of_getElem? (List.getElem?_eq_getElem hi),
      Nat.mod_eq_of_lt (hi.trans_le hw)]

/-- What a built index says: its taken cells are records of the table, and the
record of every key with a hash other than zero is stored or its window is full. -/
structure IndexHolds (hash : HashFunction) (t : Table) (nodes : List HashNode) : Prop where
  records : ∀ node ∈ nodes, taken node = true →
    ∃ i < t.size, node = ⟨(hash (t.keyAt i)).val, i⟩
  stored : ∀ i < t.size, (hash (t.keyAt i)).val ≠ 0 →
    Stored taken ⟨(hash (t.keyAt i)).val, i⟩
      (windowCells nodes.length (hash (t.keyAt i)).val) nodes

/-- Every builder leaves an index that holds the table. -/
theorem build_holds (hash : HashFunction) {w nodesCount : ℕ} (hn : 0 < nodesCount) {t : Table}
    (hw : t.size ≤ 2 ^ w) (b : Builder) :
    (b.build hash w nodesCount t).length = nodesCount ∧
      IndexHolds hash t (b.build hash w nodesCount t) := by
  obtain ⟨vs, hperm, hvs⟩ := build_perm hash w nodesCount t b
  have hlen : (b.build hash w nodesCount t).length = nodesCount := by
    rw [hvs, insertAll, (putAll_keeps vs (emptyNodes nodesCount)).1, emptyNodes,
      List.length_replicate]
  have hmem : ∀ node, node ∈ vs ↔ ∃ i < t.size, node = ⟨(hash (t.keyAt i)).val, i⟩ :=
    fun node => hperm.mem_iff.trans (mem_records hw)
  refine ⟨hlen, ?_, ?_⟩
  · intro node hnode ht
    rw [hvs] at hnode
    rcases mem_putAll hnode with h | h
    · exact (hmem node).mp h
    · rw [List.eq_of_mem_replicate h] at ht
      exact absurd ht (by decide)
  · intro i hi h0
    have ht : taken ⟨(hash (t.keyAt i)).val, i⟩ = true := bne_iff_ne.mpr h0
    have hcells : ∀ v ∈ vs, ∀ c ∈ recordCells nodesCount v, c < (emptyNodes nodesCount).length := by
      intro v _ c hc
      rw [emptyNodes, List.length_replicate]
      exact windowCells_lt hn v.hash c hc
    rw [hlen, hvs]
    exact putAll_stored hcells ((hmem _).mpr ⟨i, hi, rfl⟩) ht

/-! ## The lookup -/

/-- A node answers for the key exactly if it is the record of its position. -/
theorem answers_record {t : Table} {key : Key} (hk : key ≠ []) {i hc : ℕ} (hi : i < t.size)
    (node : HashNode) (hpos : node.pos = i) :
    answers t key hc node = true ↔ node.hash = hc ∧ t.keyAt i = key := by
  obtain ⟨p, hget, hkey⟩ := Table.exists_pair hi
  rw [answers, hpos, hget, Bool.and_eq_true, beq_iff_eq, beq_iff_eq, Pair.cmp, if_neg hk,
    MyString.compare_eq_eq, hkey]

/-- The window of the key holds its record. -/
def InWindow (hash : HashFunction) (t : Table) (nodes : List HashNode) (key : Key) : Prop :=
  ∃ c ∈ windowCells nodes.length (hash key).val, ∃ node, nodes[c]? = some node ∧
    taken node = true ∧ answers t key (hash key).val node = true

/-- All cells of the window of the key are taken. -/
def WindowFull (hash : HashFunction) (nodes : List HashNode) (key : Key) : Prop :=
  ∀ c ∈ windowCells nodes.length (hash key).val, TakenAt taken nodes c

/-- The key is stored in the table. -/
def IsStored (t : Table) (key : Key) : Prop := ∃ i < t.size, t.keyAt i = key

/-- The lookup over a built index: the position of the key if its record lies in
the window, the fallback if the window is full of others, and absence otherwise. -/
theorem searchHashIndex_cases {hash : HashFunction} {t : Table} {nodes : List HashNode}
    (h : IndexHolds hash t nodes) {key : Key} (hk : key ≠ []) (fallback : Option SearchResult) :
    (InWindow hash t nodes key → ∃ i < t.size, t.keyAt i = key ∧
        searchHashIndex hash key t nodes fallback = some ⟨true, i⟩) ∧
      (¬ InWindow hash t nodes key → WindowFull hash nodes key →
        searchHashIndex hash key t nodes fallback = fallback) ∧
      (¬ InWindow hash t nodes key → ¬ WindowFull hash nodes key →
        searchHashIndex hash key t nodes fallback = some ⟨false, t.size⟩) := by
  have hanswer : ∀ node ∈ nodes, taken node = true → answers t key (hash key).val node = true →
      ∃ i < t.size, t.keyAt i = key ∧ node = ⟨(hash key).val, i⟩ := by
    intro node hnode ht ha
    obtain ⟨i, hi, rfl⟩ := h.records node hnode ht
    obtain ⟨_, hkey⟩ := (answers_record hk hi _ rfl).mp ha
    exact ⟨i, hi, hkey, by rw [hkey]⟩
  unfold searchHashIndex
  refine ⟨?_, ?_, ?_⟩
  · rintro ⟨c, hc, node, hget, ht, ha⟩
    obtain ⟨i, hi, hkey, rfl⟩ := hanswer node (List.mem_of_getElem? hget) ht ha
    have hstored := h.stored i hi (by rw [hkey]; exact bne_iff_ne.mp ht)
    rw [hkey] at hstored
    cases hp : probe taken (answers t key (hash key).val) nodes
        (windowCells nodes.length (hash key).val) with
    | free => exact absurd hp (probe_ne_free ht ha hstored)
    | full =>
      obtain ⟨x, hx, _, hna⟩ := probe_full_iff.mp hp c hc
      rw [hget] at hx
      obtain rfl := Option.some.inj hx
      rw [ha] at hna
      exact Bool.noConfusion hna
    | hit x =>
      obtain ⟨d, _, hx, htx, hax⟩ := probe_hit hp
      obtain ⟨j, hj, hkeyj, rfl⟩ := hanswer x (List.mem_of_getElem? hx) htx hax
      exact ⟨j, hj, hkeyj, by dsimp only; rw [if_neg (not_le.mpr hj)]⟩
  · intro hno hfull
    have hp : probe taken (answers t key (hash key).val) nodes
        (windowCells nodes.length (hash key).val) = .full := by
      refine probe_full_iff.mpr (fun c hc => ?_)
      obtain ⟨x, hx, htx⟩ := hfull c hc
      refine ⟨x, hx, htx, ?_⟩
      by_contra ha
      exact hno ⟨c, hc, x, hx, htx, Bool.not_eq_false _ ▸ ha⟩
    rw [hp]
  · intro hno hfull
    cases hp : probe taken (answers t key (hash key).val) nodes
        (windowCells nodes.length (hash key).val) with
    | free => rfl
    | full =>
      refine absurd (fun c hc => ?_) hfull
      obtain ⟨x, hx, htx, _⟩ := probe_full_iff.mp hp c hc
      exact ⟨x, hx, htx⟩
    | hit x =>
      obtain ⟨d, hd, hx, htx, hax⟩ := probe_hit hp
      exact absurd ⟨d, hd, x, hx, htx, hax⟩ hno

/-- A stored key with a hash other than zero is in its window, or its window is
full and the builder dropped it. -/
theorem inWindow_or_full {hash : HashFunction} {t : Table} {nodes : List HashNode}
    (h : IndexHolds hash t nodes) {key : Key} (hk : key ≠ []) (hs : IsStored t key)
    (h0 : (hash key).val ≠ 0) : InWindow hash t nodes key ∨ WindowFull hash nodes key := by
  obtain ⟨i, hi, rfl⟩ := hs
  rcases h.stored i hi h0 with ⟨pre, c, post, hcells, hc, _⟩ | hfull
  · refine .inl ⟨c, ?_, _, hc, bne_iff_ne.mpr h0, (answers_record hk hi _ rfl).mpr ⟨rfl, rfl⟩⟩
    rw [hcells]
    exact List.mem_append_right pre List.mem_cons_self
  · exact .inr hfull

/-- When the lookup is right: unless the record lies in the window, a full
window needs a right fallback, and a window with a free cell needs that the key
is not stored with hash zero. -/
def LookupRight (hash : HashFunction) (t : Table) (nodes : List HashNode) (key : Key)
    (fallbackRight : Prop) : Prop :=
  InWindow hash t nodes key ∨
    (WindowFull hash nodes key ∧ fallbackRight) ∨
    (¬ WindowFull hash nodes key ∧ ((hash key).val = 0 → ¬ IsStored t key))

/-- The lookup over a built index is exact precisely then. -/
theorem searchHashIndex_findsExact_iff {hash : HashFunction} {t : Table} {nodes : List HashNode}
    (h : IndexHolds hash t nodes) {key : Key} (hk : key ≠ []) (fallback : Option SearchResult) :
    (∃ r, searchHashIndex hash key t nodes fallback = some r ∧ t.FindsExact key r) ↔
      LookupRight hash t nodes key (∃ r, fallback = some r ∧ t.FindsExact key r) := by
  obtain ⟨hin, hfull, hfree⟩ := searchHashIndex_cases h hk fallback
  unfold LookupRight
  by_cases hw : InWindow hash t nodes key
  · obtain ⟨i, hi, hkey, hres⟩ := hin hw
    refine iff_of_true ⟨_, hres, ?_⟩ (.inl hw)
    exact ⟨fun _ => ⟨hi, hkey⟩, fun hf => Bool.noConfusion hf⟩
  by_cases hwf : WindowFull hash nodes key
  · rw [hfull hw hwf]
    simp only [hw, hwf, true_and, not_true_eq_false, false_and, or_false, false_or]
  · rw [hfree hw hwf]
    simp only [hw, hwf, false_and, not_false_eq_true, true_and, false_or, Option.some.injEq,
      exists_eq_left']
    constructor
    · intro hf _ hs
      obtain ⟨i, hi, hkey⟩ := hs
      exact hf.absent rfl i hi hkey
    · intro h0
      refine ⟨fun hf => Bool.noConfusion hf, fun _ i hi hkey => ?_⟩
      have hs : IsStored t key := ⟨i, hi, hkey⟩
      by_cases hz : (hash key).val = 0
      · exact h0 hz hs
      · exact (inWindow_or_full h hk hs hz).elim hw hwf

end HM4.HashIndex
