import HM4.DiskTable

/-!
# The hot line

The line file of a table has one entry for each run of keys that share their
filled eight-octet prefix. The search finds the entry, answers directly for
keys of up to eight octets and searches inside the run for longer ones. Keys
that differ only in zeros behind a short key, and keys that are themselves a
prefix, share an entry with keys they are not equal to.
-/

namespace HM4.HotLine

open LexPrefix Bytes HPair CmpLCP Pairs BoundedSearch DiskTable

/-- An entry of the line file: the prefix octets as they are stored, and the
position of the first pair that has them. -/
structure HotLineNode where
  /-- The eight octets as a host word. -/
  key : ℕ
  /-- The position in the table. -/
  pos : ℕ
  deriving DecidableEq, Repr

/-- `StringHash::create<BigEndian>`: the union as it lies in memory. -/
def createBigEndian (s : Key) : ℕ := leValue (prefixBytes s)

/-- `FileLineBuilder::operator()`, once for each pair: an entry is written when
the prefix changes from the stored one. -/
def fileLineBuilder : ℕ → ℕ → List Pair → List HotLineNode
  | _, _, [] => []
  | pos, hkey_, pair :: rest =>
    let hkey := createBigEndian pair.key
    if hkey_ ≠ hkey then ⟨hkey, pos⟩ :: fileLineBuilder (pos + 1) hkey rest
    else fileLineBuilder (pos + 1) hkey_ rest

/-- The line file of a table. The builder starts from position and prefix zero. -/
def lineFile (t : Table) : List HotLineNode := fileLineBuilder 0 0 t.pairs

/-- The comparator of entries with the prefix of the searched key. -/
def compareNode (nodes : List HotLineNode) (hkey : ℕ) (i : ℕ) : Ordering :=
  match nodes[i]? with
  | some node => (hashCompare (betoh N node.key) hkey).2
  | none => .gt

/-- `searchHotLine`: an empty file was closed on opening and falls back to
plain search. -/
def searchHotLine (key : Key) (t : Table) (nodes : List HotLineNode) : Option SearchResult :=
  if nodes = [] then searchBinary t key
  else
    match binarySearch (pureComparator (compareNode nodes (create key))) minimumDistance ()
        0 nodes.length with
    | none => none
    | some ⟨found, it⟩ =>
      match nodes[it]? with
      | none => some ⟨false, t.size⟩
      | some node =>
        match t.pairs[node.pos]? with
        | none => searchBinary t key
        | some pair =>
          if found = false then some ⟨false, node.pos⟩
          else if key.length < N then some ⟨true, node.pos⟩
          else if key.length = N then some ⟨pair.equalsX N key, node.pos⟩
          else
            let listPosLast := match nodes[it + 1]? with
              | some next => next.pos
              | none => t.size
            searchBinaryIn N t key node.pos listPosLast

/-! ## What the builder writes -/

/-- Stored octets are told apart as prefixes are. -/
theorem createBigEndian_eq_iff (a b : Key) :
    createBigEndian a = createBigEndian b ↔ create a = create b := by
  rw [create_eq_iff]
  constructor
  · exact leValue_injective ((prefixBytes_length a).trans (prefixBytes_length b).symm)
  · intro h
    rw [createBigEndian, createBigEndian, h]

/-- Reading a stored prefix gives the number of the key. -/
theorem betoh_createBigEndian (s : Key) : betoh N (createBigEndian s) = create s := rfl

theorem createBigEndian_nil : createBigEndian [] = 0 := by decide

theorem create_nil : create [] = 0 := by decide

/-- What the entries for a part of a table say: each names the first pair of
its prefix, each prefix above the starting one has an entry, and they increase. -/
structure LineHolds (pos prev : ℕ) (ps : List Pair) (nodes : List HotLineNode) : Prop where
  names : ∀ n ∈ nodes, prev < betoh N n.key ∧ ∃ i, ∃ hi : i < ps.length, n.pos = pos + i ∧
    create ps[i].key = betoh N n.key ∧
    ∀ j (hj : j < ps.length), j < i → create ps[j].key < betoh N n.key
  covers : ∀ p ∈ ps, prev < create p.key → ∃ n ∈ nodes, betoh N n.key = create p.key
  increasing : nodes.Pairwise (fun n m => betoh N n.key < betoh N m.key)

/-- The numbers of sorted pairs do not decrease. -/
theorem pairwise_create_le {ps : List Pair} (h : ps.Pairwise (fun p q => p.key < q.key)) :
    ps.Pairwise (fun p q => create p.key ≤ create q.key) :=
  h.imp (fun hlt => create_le_create hlt.le)

/-- The builder keeps its promise from any starting prefix that is not above
the keys to come. -/
theorem fileLineBuilder_holds (pos : ℕ) (prevKey : Key) (ps : List Pair)
    (hs : ps.Pairwise (fun p q => create p.key ≤ create q.key))
    (hprev : ∀ p ∈ ps, create prevKey ≤ create p.key) :
    LineHolds pos (create prevKey) ps (fileLineBuilder pos (createBigEndian prevKey) ps) := by
  induction ps generalizing pos prevKey with
  | nil => exact ⟨fun _ h => absurd h List.not_mem_nil, fun _ h => absurd h List.not_mem_nil,
      List.Pairwise.nil⟩
  | cons p ps ih =>
    obtain ⟨hp, hps⟩ := List.pairwise_cons.mp hs
    have hle : create prevKey ≤ create p.key := hprev p List.mem_cons_self
    rw [fileLineBuilder]
    by_cases he : create prevKey = create p.key
    · have heq : createBigEndian prevKey = createBigEndian p.key :=
        (createBigEndian_eq_iff prevKey p.key).mpr he
      rw [if_neg (not_not.mpr heq)]
      have hrest := ih (pos + 1) prevKey hps (fun q hq => he.trans_le (hp q hq))
      refine ⟨?_, ?_, hrest.increasing⟩
      · intro n hn
        obtain ⟨hlt, i, hi, hpos, hkey, hbelow⟩ := hrest.names n hn
        refine ⟨hlt, i + 1, Nat.succ_lt_succ hi, by omega, hkey, ?_⟩
        intro j hj hji
        cases j with
        | zero => exact he.symm.trans_lt hlt
        | succ j => exact hbelow j (Nat.lt_of_succ_lt_succ hj) (Nat.lt_of_succ_lt_succ hji)
      · intro q hq hqlt
        rcases List.mem_cons.mp hq with rfl | hq'
        · exact absurd he hqlt.ne
        · exact hrest.covers q hq' hqlt
    · have hlt : create prevKey < create p.key := lt_of_le_of_ne hle he
      have hne : createBigEndian prevKey ≠ createBigEndian p.key :=
        fun h => he ((createBigEndian_eq_iff prevKey p.key).mp h)
      rw [if_pos hne]
      have hrest := ih (pos + 1) p.key hps hp
      refine ⟨?_, ?_, ?_⟩
      · intro n hn
        rcases List.mem_cons.mp hn with rfl | hn'
        · refine ⟨by rw [betoh_createBigEndian]; exact hlt, 0, Nat.succ_pos _, rfl, rfl, ?_⟩
          intro j _ hj0
          exact absurd hj0 (Nat.not_lt_zero j)
        · obtain ⟨hplt, i, hi, hpos, hkey, hbelow⟩ := hrest.names n hn'
          refine ⟨hlt.trans hplt, i + 1, Nat.succ_lt_succ hi, by omega, hkey, ?_⟩
          intro j hj hji
          cases j with
          | zero => exact hplt
          | succ j => exact hbelow j (Nat.lt_of_succ_lt_succ hj) (Nat.lt_of_succ_lt_succ hji)
      · intro q hq hqlt
        rcases List.mem_cons.mp hq with rfl | hq'
        · exact ⟨_, List.mem_cons_self, betoh_createBigEndian q.key⟩
        · rcases Nat.eq_or_lt_of_le (hp q hq') with hpq | hpq
          · exact ⟨_, List.mem_cons_self, (betoh_createBigEndian p.key).trans hpq⟩
          · obtain ⟨n, hn, hnk⟩ := hrest.covers q hq' hpq
            exact ⟨n, List.mem_cons_of_mem _ hn, hnk⟩
      · refine List.pairwise_cons.mpr ⟨?_, hrest.increasing⟩
        intro n hn
        rw [betoh_createBigEndian]
        exact (hrest.names n hn).1

/-- The line file of a table keeps the promise over the whole table. -/
theorem lineFile_holds (t : Table) : LineHolds 0 0 t.pairs (lineFile t) := by
  have h := fileLineBuilder_holds 0 [] t.pairs (pairwise_create_le t.sorted)
    (fun p _ => by rw [create_nil]; exact Nat.zero_le _)
  rwa [createBigEndian_nil, create_nil] at h

/-! ## Runs of one prefix -/

/-- The number of keys with a smaller prefix. -/
def runStart (t : Table) (h : ℕ) : ℕ := t.pairs.countP (fun p => decide (create p.key < h))

/-- The number of keys whose prefix is not greater. -/
def runStop (t : Table) (h : ℕ) : ℕ := runStart t (h + 1)

/-- Exactly the positions before the run have a smaller prefix. -/
theorem lt_runStart_iff (t : Table) (h : ℕ) {i : ℕ} (hi : i < t.size) :
    create (t.keyAt i) < h ↔ i < runStart t h := by
  have hmono : t.pairs.Pairwise (fun p q =>
      decide (create q.key < h) = true → decide (create p.key < h) = true) := by
    refine (pairwise_create_le t.sorted).imp ?_
    intro p q hle hq
    exact decide_eq_true (hle.trans_lt (of_decide_eq_true hq))
  rw [Table.keyAt_of_getElem? (List.getElem?_eq_getElem hi)]
  exact decide_eq_true_iff.symm.trans (getElem_iff_lt_countP hmono hi)

/-- Exactly the positions before the end of the run have no greater prefix. -/
theorem lt_runStop_iff (t : Table) (h : ℕ) {i : ℕ} (hi : i < t.size) :
    create (t.keyAt i) ≤ h ↔ i < runStop t h :=
  Nat.lt_succ_iff.symm.trans (lt_runStart_iff t (h + 1) hi)

theorem runStart_le_size (t : Table) (h : ℕ) : runStart t h ≤ t.size := List.countP_le_length

theorem runStop_le_size (t : Table) (h : ℕ) : runStop t h ≤ t.size :=
  runStart_le_size t (h + 1)

/-- A cut of the table between smaller prefixes and others is the start of the run. -/
theorem eq_runStart {t : Table} {h n : ℕ} (hn : n ≤ t.size)
    (hbelow : ∀ i < n, create (t.keyAt i) < h)
    (habove : ∀ i, n ≤ i → i < t.size → h ≤ create (t.keyAt i)) : n = runStart t h := by
  rcases lt_trichotomy n (runStart t h) with hlt | he | hgt
  · have hi := hlt.trans_le (runStart_le_size t h)
    exact absurd ((lt_runStart_iff t h hi).mpr hlt) (not_lt.mpr (habove n le_rfl hi))
  · exact he
  · exact absurd ((lt_runStart_iff t h (hgt.trans_le hn)).mp (hbelow _ hgt)) (lt_irrefl _)

/-- A cut of the table between prefixes that are not greater and others is the
end of the run. -/
theorem eq_runStop {t : Table} {h n : ℕ} (hn : n ≤ t.size)
    (hbelow : ∀ i < n, create (t.keyAt i) ≤ h)
    (habove : ∀ i, n ≤ i → i < t.size → h < create (t.keyAt i)) : n = runStop t h :=
  eq_runStart hn (fun i hi => Nat.lt_succ_of_le (hbelow i hi)) habove

theorem runStart_le_runStop (t : Table) (h : ℕ) : runStart t h ≤ runStop t h := by
  by_contra hc
  have hi := (not_le.mp hc).trans_le (runStart_le_size t h)
  have hlt := (lt_runStart_iff t h hi).mpr (not_le.mp hc)
  exact absurd ((lt_runStop_iff t h hi).mp hlt.le) (lt_irrefl _)

/-- Every key of the run has its prefix. -/
theorem create_of_run {t : Table} {h i : ℕ} (h1 : runStart t h ≤ i) (h2 : i < runStop t h) :
    create (t.keyAt i) = h := by
  have hi := h2.trans_le (runStop_le_size t h)
  apply le_antisymm ((lt_runStop_iff t h hi).mpr h2)
  by_contra hc
  exact absurd ((lt_runStart_iff t h hi).mp (not_le.mp hc)) (not_lt.mpr h1)

/-! ## The answer of the search -/

/-- What the search of the line answers, in terms of the runs of the table. -/
def hotLineAnswer (t : Table) (key : Key) : Option SearchResult :=
  if ∀ p ∈ t.pairs, create p.key = 0 then searchBinary t key
  else if create key = 0 ∨ runStart t (create key) = runStop t (create key) then
    some ⟨false, runStop t (create key)⟩
  else if key.length < N then some ⟨true, runStart t (create key)⟩
  else if key.length = N then
    some ⟨decide ((t.keyAt (runStart t (create key))).length = N), runStart t (create key)⟩
  else searchBinaryIn N t key (runStart t (create key)) (runStop t (create key))

/-- The prefix of an entry. -/
def nodeKey (nodes : List HotLineNode) (i : ℕ) : ℕ :=
  match nodes[i]? with
  | some node => betoh N node.key
  | none => 0

theorem compareNode_eq {nodes : List HotLineNode} {hkey i : ℕ} (hi : i < nodes.length) :
    compareNode nodes hkey i = cmp (nodeKey nodes i) hkey := by
  rw [compareNode, nodeKey, List.getElem?_eq_getElem hi]
  dsimp only
  by_cases h : betoh N nodes[i].key = hkey
  · rw [h, hashCompare_self, cmp_self_eq_eq]
  · rw [hashCompare_of_ne h]

/-- What an entry of the line file of a table says. -/
theorem node_spec {t : Table} {i : ℕ} (hi : i < (lineFile t).length) :
    ∃ node, (lineFile t)[i]? = some node ∧ node.pos < t.size ∧
      0 < nodeKey (lineFile t) i ∧ create (t.keyAt node.pos) = nodeKey (lineFile t) i ∧
      ∀ j < node.pos, create (t.keyAt j) < nodeKey (lineFile t) i := by
  have hget := List.getElem?_eq_getElem hi
  obtain ⟨hpos, k, hk, hnk, hkey, hbelow⟩ :=
    (lineFile_holds t).names _ (List.getElem_mem hi)
  have hnode : nodeKey (lineFile t) i = betoh N (lineFile t)[i].key := by
    rw [nodeKey, hget]
  have hat : ∀ j (hj : j < t.size), t.keyAt j = t.pairs[j].key :=
    fun j hj => Table.keyAt_of_getElem? (List.getElem?_eq_getElem hj)
  have hnp : (lineFile t)[i].pos = k := by omega
  refine ⟨_, hget, hnp ▸ hk, hnode ▸ hpos, ?_, ?_⟩
  · rw [hnp, hat k hk, hkey, hnode]
  · intro j hj
    rw [hnp] at hj
    rw [hat j (hj.trans hk), hnode]
    exact hbelow j _ hj

/-- Every prefix other than zero has its entry. -/
theorem exists_node {t : Table} {j : ℕ} (hj : j < t.size) (h0 : create (t.keyAt j) ≠ 0) :
    ∃ i < (lineFile t).length, nodeKey (lineFile t) i = create (t.keyAt j) := by
  obtain ⟨p, hget, hkey⟩ := Table.exists_pair hj
  rw [hkey] at h0 ⊢
  obtain ⟨n, hn, hnk⟩ := (lineFile_holds t).covers p (List.mem_of_getElem? hget)
    (Nat.pos_of_ne_zero h0)
  obtain ⟨i, hi, rfl⟩ := List.mem_iff_getElem.mp hn
  exact ⟨i, hi, by rw [nodeKey, List.getElem?_eq_getElem hi]; exact hnk⟩

/-- Entries increase with their positions. -/
theorem nodeKey_lt {t : Table} {i j : ℕ} (hij : i < j) (hj : j < (lineFile t).length) :
    nodeKey (lineFile t) i < nodeKey (lineFile t) j := by
  have h := List.pairwise_iff_getElem.mp (lineFile_holds t).increasing i j (hij.trans hj) hj hij
  rwa [nodeKey, nodeKey, List.getElem?_eq_getElem (hij.trans hj), List.getElem?_eq_getElem hj]

/-- The order of entries relative to a prefix is strict. -/
theorem strictOrder_compareNode (t : Table) (hkey : ℕ) :
    StrictOrder (compareNode (lineFile t) hkey) 0 (lineFile t).length := by
  intro i j _ hij hj hne
  have hi := hij.trans hj
  rw [compareNode_eq hi, Ne, cmp_eq_lt_iff, not_lt] at hne
  rw [compareNode_eq hj, cmp_eq_gt_iff]
  exact hne.trans_lt (nodeKey_lt hij hj)

/-- Where the entries of a table are exhausted or skip a prefix, the next entry
starts behind the run of that prefix. -/
theorem runStop_of_next {t : Table} {h i pos : ℕ}
    (hbelow : ∀ j < i, nodeKey (lineFile t) j ≤ h)
    (hnext : (i < (lineFile t).length ∧ h < nodeKey (lineFile t) i ∧
        ∃ node, (lineFile t)[i]? = some node ∧ node.pos = pos) ∨
      (i = (lineFile t).length ∧ pos = t.size)) : pos = runStop t h := by
  -- a key before the next entry has prefix zero or that of an entry before it
  have hprefix : ∀ k < t.size, (∀ hi : i < (lineFile t).length,
      create (t.keyAt k) < nodeKey (lineFile t) i) → create (t.keyAt k) ≤ h := by
    intro k hk hlt
    by_cases h0 : create (t.keyAt k) = 0
    · rw [h0]
      exact Nat.zero_le h
    · obtain ⟨j, hj, hjk⟩ := exists_node hk h0
      rw [← hjk] at hlt ⊢
      by_cases hji : j < i
      · exact hbelow j hji
      · exfalso
        rcases Nat.eq_or_lt_of_le (not_lt.mp hji) with he | hl
        · subst he
          exact absurd (hlt hj) (lt_irrefl _)
        · exact absurd (hlt (hl.trans hj)) (not_lt.mpr (nodeKey_lt hl hj).le)
  rcases hnext with ⟨hi, hgt, node, hget, rfl⟩ | ⟨rfl, rfl⟩
  · obtain ⟨node', hget', hsize, _, hat, hlow⟩ := node_spec hi
    rw [hget] at hget'
    obtain rfl := Option.some.inj hget'
    refine eq_runStop hsize.le (fun k hk => hprefix k (hk.trans hsize) (fun _ => hlow k hk)) ?_
    intro k hk1 hk2
    have hmono := create_le_create (Table.keyAt_le hk1 hk2)
    rw [hat] at hmono
    exact hgt.trans_le hmono
  · exact eq_runStop le_rfl (fun k hk => hprefix k hk (fun hi => absurd hi (lt_irrefl _)))
      (fun k hk1 hk2 => absurd hk1 (not_le.mpr hk2))

/-- A prefix without an entry has no run. -/
theorem run_empty {t : Table} {h : ℕ} (h0 : h ≠ 0)
    (hnone : ∀ i < (lineFile t).length, nodeKey (lineFile t) i ≠ h) :
    runStart t h = runStop t h := by
  apply le_antisymm (runStart_le_runStop t h)
  by_contra hc
  have hrun := create_of_run le_rfl (not_le.mp hc)
  have hsize := (not_le.mp hc).trans_le (runStop_le_size t h)
  obtain ⟨i, hi, hik⟩ := exists_node hsize (by rw [hrun]; exact h0)
  exact hnone i hi (hik.trans hrun)

/-- The entry of a prefix points to the start of its run, which is not empty. -/
theorem runStart_of_node {t : Table} {i : ℕ} {node : HotLineNode}
    (hget : (lineFile t)[i]? = some node) :
    node.pos = runStart t (nodeKey (lineFile t) i) ∧
      node.pos < runStop t (nodeKey (lineFile t) i) ∧ node.pos < t.size := by
  have hi : i < (lineFile t).length := (List.getElem?_eq_some_iff.mp hget).1
  obtain ⟨node', hget', hsize, _, hat, hlow⟩ := node_spec hi
  rw [hget] at hget'
  obtain rfl := Option.some.inj hget'
  refine ⟨eq_runStart hsize.le hlow ?_, (lt_runStop_iff t _ hsize).mp hat.le, hsize⟩
  intro k hk1 hk2
  rw [← hat]
  exact create_le_create (Table.keyAt_le hk1 hk2)

/-- A table without entries has only zero prefixes. -/
theorem lineFile_eq_nil_iff (t : Table) :
    lineFile t = [] ↔ ∀ p ∈ t.pairs, create p.key = 0 := by
  constructor
  · intro h p hp
    by_contra hc
    obtain ⟨n, hn, _⟩ := (lineFile_holds t).covers p hp (Nat.pos_of_ne_zero hc)
    rw [h] at hn
    exact absurd hn List.not_mem_nil
  · intro h
    rw [List.eq_nil_iff_forall_not_mem]
    intro n hn
    obtain ⟨hpos, i, hi, _, hkey, _⟩ := (lineFile_holds t).names n hn
    rw [← hkey, h _ (List.getElem_mem hi)] at hpos
    exact absurd hpos (lt_irrefl 0)

/-- A pair of eight octets and more matches an eight-octet key behind the prefix
exactly if it has no tail. -/
theorem equalsX_eight {p : Pair} {key : Key} (hk : key.length = N) :
    p.equalsX N key = decide (p.key.length = N) := by
  have hlen : p.key.length ≤ 1023 := p.keyValid.2
  have hmem : MyString.memcmp (p.key.drop N) (key.drop N) (key.length - N) = .eq := by
    rw [hk, Nat.sub_self]
    cases p.key.drop N <;> cases key.drop N <;> rfl
  rw [Pair.equalsX, hmem, hk]
  by_cases h : p.key.length = N
  · rw [h]
    rfl
  · have hne : (p.key.length + 2 ^ 64 - N) % 2 ^ 64 ≠ (N + 2 ^ 64 - N) % 2 ^ 64 := by
      simp only [N] at h ⊢
      omega
    rw [beq_eq_false_iff_ne.mpr hne, decide_eq_false h]
    rfl

/-- The search of the line gives its answer. -/
theorem searchHotLine_eq (t : Table) (key : Key) :
    searchHotLine key t (lineFile t) = hotLineAnswer t key := by
  unfold searchHotLine hotLineAnswer
  by_cases hnil : lineFile t = []
  · rw [if_pos hnil, if_pos ((lineFile_eq_nil_iff t).mp hnil)]
  rw [if_neg hnil, if_neg (fun h => hnil ((lineFile_eq_nil_iff t).mpr h))]
  obtain ⟨r, hr, hloc⟩ := binarySearch_locates
    (tells_pureComparator (compareNode (lineFile t) (create key))) minimumDistance
    (Nat.zero_le _) (strictOrder_compareNode t (create key)) trivial
  have hbelow : ∀ j < r.pos, nodeKey (lineFile t) j < create key := by
    intro j hj
    have h := hloc.below j (Nat.zero_le j) hj
    rwa [compareNode_eq (hj.trans_le hloc.le_hi), cmp_eq_lt_iff] at h
  rw [hr]
  obtain ⟨found, it⟩ := r
  dsimp only at hbelow ⊢
  by_cases hend : it < (lineFile t).length
  · obtain ⟨node, hget, hsize, hpos, hat, hlow⟩ := node_spec hend
    obtain ⟨pair, hpair, hkey⟩ := Table.exists_pair hsize
    obtain ⟨hstart, hstop, _⟩ := runStart_of_node hget
    have hge : create key ≤ nodeKey (lineFile t) it := by
      have h := hloc.above it le_rfl hend
      rwa [compareNode_eq hend, Ne, cmp_eq_lt_iff, not_lt] at h
    rw [hget]
    dsimp only
    rw [hpair]
    dsimp only
    by_cases he : nodeKey (lineFile t) it = create key
    · -- the prefix has an entry, so its run is not empty
      have hfound : found = true := by
        refine hloc.found_iff.mpr ⟨hend, ?_⟩
        rw [compareNode_eq hend, he, cmp_self_eq_eq]
      rw [he] at hstart hstop hpos
      have hrun : ¬ (create key = 0 ∨ runStart t (create key) = runStop t (create key)) := by
        rintro (h | h) <;> omega
      rw [hfound, if_neg Bool.noConfusion, if_neg hrun, hstart]
      have hlen : pair.key.length = (t.keyAt (runStart t (create key))).length := by
        rw [← hstart, hkey]
      by_cases hk8 : key.length < N
      · rw [if_pos hk8, if_pos hk8]
      · rw [if_neg hk8, if_neg hk8]
        by_cases hk : key.length = N
        · rw [if_pos hk, if_pos hk, equalsX_eight hk, hlen]
        · rw [if_neg hk, if_neg hk]
          congr 1
          apply runStop_of_next (i := it + 1)
          · intro j hj
            rcases Nat.eq_or_lt_of_le (Nat.le_of_lt_succ hj) with hj' | hj'
            · rw [hj', he]
            · exact (hbelow j hj').le
          · by_cases hnext : it + 1 < (lineFile t).length
            · obtain ⟨next, hget', _⟩ := node_spec hnext
              rw [hget']
              exact .inl ⟨hnext, he ▸ nodeKey_lt (Nat.lt_succ_self it) hnext, next, rfl, rfl⟩
            · rw [List.getElem?_eq_none (not_lt.mp hnext)]
              exact .inr ⟨by omega, rfl⟩
    · -- the next entry has a greater prefix
      have hgt : create key < nodeKey (lineFile t) it := lt_of_le_of_ne hge (Ne.symm he)
      have hfound : found = false := by
        rw [← Bool.not_eq_true]
        intro hf
        have h := (hloc.found_iff.mp hf).2
        rw [compareNode_eq hend, cmp_eq_eq_iff] at h
        exact he h
      have hpos' : node.pos = runStop t (create key) :=
        runStop_of_next (fun j hj => (hbelow j hj).le) (.inl ⟨hend, hgt, node, hget, rfl⟩)
      have hrun : create key = 0 ∨ runStart t (create key) = runStop t (create key) := by
        by_cases h0 : create key = 0
        · exact .inl h0
        · refine .inr (run_empty h0 (fun i hi hik => ?_))
          rcases lt_trichotomy i it with hlt | heq | hlt
          · exact absurd hik (hbelow i hlt).ne
          · exact he (heq ▸ hik)
          · exact absurd hik (hgt.trans (nodeKey_lt hlt hi)).ne'
      rw [hfound, if_pos rfl, if_pos hrun, hpos']
  · -- every entry has a smaller prefix
    have hit : it = (lineFile t).length := le_antisymm hloc.le_hi (not_lt.mp hend)
    subst hit
    have h0 : create key ≠ 0 := by
      have hpos := hbelow 0 (List.length_pos_of_ne_nil hnil)
      omega
    have hrun := run_empty h0 (fun i hi => (hbelow i hi).ne)
    rw [List.getElem?_eq_none le_rfl, if_pos (Or.inr hrun)]
    have hstop : t.size = runStop t (create key) :=
      runStop_of_next (fun j hj => (hbelow j hj).le) (.inr ⟨rfl, rfl⟩)
    rw [← hstop]

end HM4.HotLine
