import HM4.FileMeta
import HM4.HotLineSearch
import HM4.HashIndex
import HM4.BTreeSearch

/-!
# Disk lists

A disk list is a table together with the index files that were opened for it.
The files decide which search is used for exact lookups and which one for
positions and for the fallback of the hash index.
-/

namespace HM4.DiskSearch

open Bytes Pairs BoundedSearch DiskTable FileMeta HotLine HotLineSearch HashIndex BTreeSearch
  BTreeIndexBuilder LevelOrder

/-- `SearchMode`. -/
inductive SearchMode
  | binary
  | hotLine
  | hashIndex
  | bTree
  deriving DecidableEq

/-- `calcSearchMode_`: the modes for exact lookups and for everything else, by
the files that are open. -/
def calcSearchMode (mLine mHash mTree : Bool) : SearchMode × SearchMode :=
  match mTree, mHash, mLine with
  | false, false, false => (.binary, .binary)
  | false, false, true => (.hotLine, .hotLine)
  | false, true, false => (.hashIndex, .binary)
  | false, true, true => (.hashIndex, .hotLine)
  | true, false, _ => (.bTree, .bTree)
  | true, true, _ => (.hashIndex, .bTree)

/-- A table and its open index files; a file that is not open is empty. -/
structure DiskList where
  /-- The pairs. -/
  table : Table
  /-- The entries of the line file. -/
  line : List HotLineNode
  /-- The nodes of the hash index. -/
  hashNodes : List HashNode
  /-- The nodes of the B-tree. -/
  indx : List (List ℕ)
  /-- The key file of the B-tree. -/
  data : Key

/-- `openNormal_`: a hash index of less than 64 nodes is closed again. -/
def openNormal (table : Table) (line : List HotLineNode) (hashNodes : List HashNode)
    (indx : List (List ℕ)) (data : Key) : DiskList where
  table := table
  line := line
  hashNodes := if hashNodes.length < 64 then [] else hashNodes
  indx := indx
  data := data

namespace DiskList

/-- The metadata that was written with the pairs. -/
def metadata (d : DiskList) : FileMetaBlob := fileMeta d.table.pairs

/-- The modes of the open files. -/
def searchModes (d : DiskList) : SearchMode × SearchMode :=
  calcSearchMode (d.line ≠ []) (d.hashNodes ≠ []) (d.indx ≠ [])

/-- `ra_find_<HASH_FALLBACK>`, and `ra_find_<PREFIX>` alike. -/
def raFindFallback (d : DiskList) (key : Key) : Option SearchResult :=
  match d.searchModes.2 with
  | .hotLine => searchHotLine key d.table d.line
  | .bTree => searchBTree d.table key d.indx d.data
  | _ => searchBinary d.table key

/-- `ra_find_<EXACT>`. -/
def raFindExact (hash : HashFunction) (d : DiskList) (key : Key) : Option SearchResult :=
  match d.searchModes.1 with
  | .hotLine => searchHotLine key d.table d.line
  | .hashIndex => searchHashIndex hash key d.table d.hashNodes (d.raFindFallback key)
  | .bTree => searchBTree d.table key d.indx d.data
  | .binary => searchBinary d.table key

/-- `getPair___(key)`; no result at all where the search does not return. -/
def getPair (hash : HashFunction) (d : DiskList) (key : Key) : Option (Option Pair) :=
  match d.raFindExact hash key with
  | none => none
  | some r => some (if r.found then d.table.pairs[r.pos]? else none)

/-- `getPair___(key, best)`: a table is skipped when the best pair is newer than
its `createdMax()`. -/
def getPairBest (hash : HashFunction) (d : DiskList) (key : Key) (best : Option Pair) :
    Option (Option Pair) :=
  match best with
  | none => d.getPair hash key
  | some b =>
    if createdMax d.metadata < b.created then some (some b)
    else (d.getPair hash key).map (fun p => getNewestPair p (some b))

end DiskList

/-- The line and tree files are closed, or they are what the builders wrote. -/
structure Indexed (d : DiskList) : Prop where
  size_lt : d.table.size < 2 ^ 64
  line : d.line = [] ∨ d.line = lineFile d.table
  tree : d.indx = [] ∨ ∃ aligned st, build d.table aligned = .ok st ∧ d.indx = st.indx ∧
    d.data = st.data

/-- When the search without the hash index is exact: always with a B-tree or
without a line, otherwise where the line is. -/
def FallbackExact (d : DiskList) (key : Key) : Prop :=
  d.indx ≠ [] ∨ d.line = [] ∨ HotLineExact d.table key

/-- The search without the hash index is exact precisely then. -/
theorem raFindFallback_findsExact_iff {d : DiskList} (h : Indexed d) {key : Key} (hk : key ≠ []) :
    (∃ r, d.raFindFallback key = some r ∧ d.table.FindsExact key r) ↔ FallbackExact d key := by
  unfold FallbackExact
  by_cases ht : d.indx = []
  · by_cases hl : d.line = []
    · have hmode : d.searchModes.2 = .binary := by
        unfold DiskList.searchModes calcSearchMode
        cases hh : decide (d.hashNodes ≠ []) <;> simp [ht, hl]
      obtain ⟨r, hr, hf⟩ := searchBinary_finds d.table hk
      refine iff_of_true ⟨r, ?_, hf.exact⟩ (.inr (.inl hl))
      rw [DiskList.raFindFallback, hmode, hr]
    · have hmode : d.searchModes.2 = .hotLine := by
        unfold DiskList.searchModes calcSearchMode
        cases hh : decide (d.hashNodes ≠ []) <;> simp [ht, hl]
      have hline := h.line.resolve_left hl
      simp only [ht, hl, ne_eq, not_true_eq_false, false_or]
      rw [DiskList.raFindFallback, hmode, ← hotLineAnswer_findsExact_iff d.table hk]
      dsimp only
      rw [hline, searchHotLine_eq]
  · have hmode : d.searchModes.2 = .bTree := by
      unfold DiskList.searchModes calcSearchMode
      cases hh : decide (d.hashNodes ≠ []) <;> cases hl : decide (d.line ≠ []) <;> simp [ht]
    obtain ⟨aligned, st, hst, hindx, hdata⟩ := h.tree.resolve_left ht
    obtain ⟨st', hst', hw⟩ := build_written d.table aligned h.size_lt
    rw [hst] at hst'
    obtain rfl := Except.ok.inj hst'
    obtain ⟨r, hr, hf⟩ := searchBTree_finds hk h.size_lt hw
    refine iff_of_true ⟨r, ?_, hf.exact⟩ (.inl ht)
    rw [DiskList.raFindFallback, hmode, hindx, hdata]
    exact hr

/-- A hash index of at least 64 nodes is used for exact lookups. -/
theorem raFindExact_of_hash (hash : HashFunction) {table : Table} {line : List HotLineNode}
    {hashNodes : List HashNode} {indx : List (List ℕ)} {data : Key}
    (hn : 64 ≤ hashNodes.length) (key : Key) :
    (openNormal table line hashNodes indx data).raFindExact hash key =
      searchHashIndex hash key table hashNodes
        ((openNormal table line hashNodes indx data).raFindFallback key) := by
  have hopen : (openNormal table line hashNodes indx data).hashNodes = hashNodes :=
    if_neg (not_lt.mpr hn)
  have hne : hashNodes ≠ [] := List.ne_nil_of_length_pos (by omega)
  have hmode : (openNormal table line hashNodes indx data).searchModes.1 = .hashIndex := by
    unfold DiskList.searchModes calcSearchMode
    rw [hopen, decide_eq_true hne]
    cases decide ((openNormal table line hashNodes indx data).indx ≠ []) <;>
      cases decide ((openNormal table line hashNodes indx data).line ≠ []) <;> rfl
  rw [DiskList.raFindExact, hmode]
  dsimp only
  rw [hopen]
  rfl

/-- The lookup over the index of either builder finds a key exactly if it is
stored, and then at its own position, under the condition and only then. -/
theorem raFindExact_findsExact_iff (hash : HashFunction) (b : Builder) (w nodesCount : ℕ)
    (table : Table) (line : List HotLineNode) (indx : List (List ℕ)) (data : Key) (key : Key)
    (hn : 64 ≤ nodesCount) (hw : table.size ≤ 2 ^ w) (hk : key ≠ [])
    (hi : Indexed (openNormal table line (b.build hash w nodesCount table) indx data)) :
    (∃ r, (openNormal table line (b.build hash w nodesCount table) indx data).raFindExact hash key =
        some r ∧ table.FindsExact key r) ↔
      LookupRight hash table (b.build hash w nodesCount table) key
        (FallbackExact (openNormal table line (b.build hash w nodesCount table) indx data) key) := by
  have hpos : 0 < nodesCount := by omega
  obtain ⟨hlen, hholds⟩ := build_holds hash hpos hw b
  rw [raFindExact_of_hash hash (hlen.symm ▸ hn), searchHashIndex_findsExact_iff hholds hk]
  have hfallback := raFindFallback_findsExact_iff hi hk
  unfold LookupRight
  rw [← hfallback]
  rfl

/-- Where the search is exact the lookup gives the stored pair of the key. -/
theorem getPair_of_exact {hash : HashFunction} {d : DiskList} {key : Key}
    (h : ∃ r, d.raFindExact hash key = some r ∧ d.table.FindsExact key r) :
    d.getPair hash key = some (d.table.lookup key) := by
  obtain ⟨r, hr, hf⟩ := h
  rw [DiskList.getPair, hr, hf.lookup_eq]

/-- Without a hash index exact lookups are those of the fallback. -/
theorem raFindExact_of_closed (hash : HashFunction) {d : DiskList} (h : d.hashNodes = [])
    (key : Key) : d.raFindExact hash key = d.raFindFallback key := by
  unfold DiskList.raFindExact DiskList.raFindFallback DiskList.searchModes calcSearchMode
  rw [h]
  cases decide (d.indx ≠ []) <;> cases decide (d.line ≠ []) <;> rfl

/-- Without index files the lookup gives the stored pair of the key. -/
theorem getPair_plain (hash : HashFunction) (t : Table) {key : Key} (hk : key ≠ []) :
    (DiskList.mk t [] [] [] []).getPair hash key = some (t.lookup key) := by
  obtain ⟨r, hr, hf⟩ := searchBinary_finds t hk
  refine getPair_of_exact ⟨r, ?_, hf.exact⟩
  rw [raFindExact_of_closed hash rfl]
  exact hr

/-- The table of one pair that the examples look up. -/
def letterTable : Table := Table.single (letter 97 1)

/-- A hash function that is nowhere zero, over the table of one pair. -/
theorem raFindExact_findsExact_letter :
    (∃ r, (openNormal letterTable [] (Builder.standard.build (fun _ => 5) 32 64 letterTable)
        [] []).raFindExact (fun _ => 5) [97] = some r ∧ letterTable.FindsExact [97] r) ↔
      LookupRight (fun _ => 5) letterTable (Builder.standard.build (fun _ => 5) 32 64 letterTable)
        [97] (FallbackExact (openNormal letterTable []
          (Builder.standard.build (fun _ => 5) 32 64 letterTable) [] []) [97]) :=
  raFindExact_findsExact_iff (fun _ => 5) .standard 32 64 letterTable [] [] [] [97] (by decide)
    (by decide) (by decide) ⟨by decide, .inl rfl, .inl rfl⟩

/-- With a hash function that gives zero the stored key is not found. -/
theorem raFindExact_misses : ¬ ∀ (hash : HashFunction) (b : Builder) (w nodesCount : ℕ)
    (table : Table) (key : Key), 64 ≤ nodesCount → table.size ≤ 2 ^ w → isKeyValid key →
    ∃ r, (openNormal table [] (b.build hash w nodesCount table) [] []).raFindExact hash key =
      some r ∧ table.FindsExact key r := by
  intro h
  obtain ⟨r, hr, hf⟩ := h (fun _ => 0) .standard 32 64 letterTable [97] (by decide) (by decide)
    (by decide)
  have hmiss : (openNormal letterTable [] (Builder.standard.build (fun _ => 0) 32 64 letterTable)
      [] []).raFindExact (fun _ => 0) [97] = some ⟨false, 1⟩ := by rfl
  rw [hmiss] at hr
  obtain rfl := Option.some.inj hr
  exact hf.absent rfl 0 (by decide) (by decide)

end HM4.DiskSearch
