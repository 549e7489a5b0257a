import HM4.DiskTable
import HM4.General.LevelOrder

/-!
# Building the B-tree index

The index of a table is a complete tree of 128 branches. Each level is written
by a walk of its own from the root that splits ranges of positions evenly, and
each node holds 127 positions of its range in the breadth-first order of a
binary search tree. The keys lie in a second file; a node refers to them by
offset.
-/

namespace HM4.BTreeIndexBuilder

open Bytes DiskTable LevelOrder

/-! ## The order of values inside a node -/

/-- `NODE_LEVELS`. -/
abbrev nodeLevels : ℕ := 7

/-- `VALUES`, the keys of a node. -/
abbrev values : ℕ := 127

/-- `BFSLookupFactory::reorder_`: the middles of one level, left to right. -/
def bfsReorder : ℕ → ℕ → ℕ → List ℕ
  | 0, first, last => if last ≤ first then [] else [first + (last - first) / 2]
  | n + 1, first, last =>
    if last ≤ first then []
    else
      let mid := first + (last - first) / 2
      bfsReorder n first mid ++ bfsReorder n (mid + 1) last

/-- `BFSLookupFactory::build`. -/
def bfsLookup (levels : ℕ) : List ℕ :=
  (List.range levels).flatMap (fun level => bfsReorder level 0 (2 ^ levels - 1))

/-- `LL`: which value of the range stands at each place of a node. -/
def ll : List ℕ := bfsLookup nodeLevels

theorem ll_length : ll.length = values := by decide +kernel

/-! ## The files -/

/-- The half-full node on which `reorder_` throws. -/
inductive LogicError
  /-- A node would have less than the full number of values. -/
  | halfFull

/-- The writer: the next key offset, the nodes and the key file. -/
structure BuildState where
  /-- `current_`. -/
  current : ℕ
  /-- The nodes written so far, each with the key offsets of its values. -/
  indx : List (List ℕ)
  /-- The key file written so far. -/
  data : Key

/-- `my_align::calc`. -/
def alignCalc (n align : ℕ) : ℕ := (n + align - 1) / align * align

/-- `sizeof(NodeData)`. -/
def sizeofNodeData : ℕ := 10

/-- A `NodeData` followed by its key. -/
def recordBytes (t : Table) (index : ℕ) : Key :=
  storeBE 8 index ++ storeBE 2 (t.keyAt index).length ++ t.keyAt index

/-- `push_back_key`: record, terminator and gap. -/
def pushBackKey (t : Table) (aligned : Bool) (index : ℕ) (st : BuildState) : BuildState :=
  let dataSize := sizeofNodeData + (t.keyAt index).length + 1
  let gap := if aligned then alignCalc dataSize 8 - dataSize else 0
  { st with
    current := st.current + dataSize + gap
    data := st.data ++ recordBytes t index ++ (0 :: List.replicate gap 0) }

/-- The position that stands at place `i` of a range. -/
def valueIndex (r : ℕ × ℕ) (i : ℕ) : ℕ := r.1 + (r.2 - r.1) / (values + 1) * (i + 1)

/-- One value of a node: its offset is noted before its key is pushed. -/
def pushValue (t : Table) (aligned : Bool) (r : ℕ × ℕ) (node : List ℕ × BuildState) (i : ℕ) :
    List ℕ × BuildState :=
  (node.1 ++ [node.2.current], pushBackKey t aligned (valueIndex r i) node.2)

/-- The node branch of `reorder_`. -/
def writeNode (t : Table) (aligned : Bool) (r : ℕ × ℕ) (st : BuildState) : BuildState :=
  let node := ll.foldl (pushValue t aligned r) ([], st)
  { node.2 with indx := node.2.indx ++ [node.1] }

/-- The loop of `reorder_` over the children from number `i`, and the last right
child after it. -/
def reorderChildren (visit : ℕ → ℕ → BuildState → Except LogicError BuildState)
    (first distance last : ℕ) : ℕ → ℕ → ℕ → BuildState → Except LogicError BuildState
  | 0, _, b, st => visit b last st
  | n + 1, i, b, st => do
    let e := first + distance * (i + 1)
    let st ← visit b e st
    reorderChildren visit first distance last n (i + 1) (e + 1) st

/-- `reorder_`, with the number of levels down to the target. -/
def reorder (t : Table) (aligned : Bool) :
    ℕ → ℕ → ℕ → BuildState → Except LogicError BuildState
  | 0, first, last, st =>
    if last ≤ first then .ok st
    else if last - first ≤ values then .error .halfFull
    else .ok (writeNode t aligned (first, last) st)
  | n + 1, first, last, st =>
    if last ≤ first then .ok st
    else reorderChildren (reorder t aligned n) first ((last - first) / (values + 1)) last
      values 0 first st

/-- `calcDepth__`. -/
def calcDepth (count : ℕ) : ℕ :=
  if 0 < count then
    if values < count then calcDepth ((count - values) / (values + 1)) + 1
    else 1
  else 0
termination_by count
decreasing_by unfold values; omega

/-- `level_type(calcDepth__(size) - 1)`: an eight-bit number. -/
def totalLevels (size : ℕ) : ℕ := (calcDepth size + 255) % 256

/-- `build`: one walk for each level. -/
def build (t : Table) (aligned : Bool) : Except LogicError BuildState :=
  (List.range (totalLevels t.size)).foldlM
    (fun st level => reorder t aligned level 0 t.size st) ⟨0, [], []⟩

/-! ## The tree of ranges -/

/-- The range of a child; it starts behind the value on its left. -/
def child (r : ℕ × ℕ) (c : ℕ) : ℕ × ℕ :=
  (if c = 0 then r.1 else valueIndex r (c - 1) + 1, if c = values then r.2 else valueIndex r c)

@[simp] theorem child_zero_fst (r : ℕ × ℕ) : (child r 0).1 = r.1 := rfl

/-- A child starts behind the value that ends the child before it. -/
theorem child_succ_fst (r : ℕ × ℕ) (c : ℕ) : (child r (c + 1)).1 = valueIndex r c + 1 := by
  rw [child, if_neg (Nat.succ_ne_zero c), Nat.add_sub_cancel]

@[simp] theorem child_last_snd (r : ℕ × ℕ) : (child r values).2 = r.2 := rfl

/-- A child that is not the last ends before the value of its number. -/
theorem child_snd {r : ℕ × ℕ} {c : ℕ} (hc : c < values) : (child r c).2 = valueIndex r c := by
  rw [child, if_neg hc.ne]

/-- The ranges of all children, from left to right. -/
def children (r : ℕ × ℕ) : List (ℕ × ℕ) := (List.range (values + 1)).map (child r)

theorem children_length (r : ℕ × ℕ) : (children r).length = values + 1 := by
  rw [children, List.length_map, List.length_range]

/-- The count that `calcDepth__` works with after some levels. -/
def countAt : ℕ → ℕ → ℕ
  | 0, count => count
  | n + 1, count => countAt n ((count - values) / (values + 1))

theorem countAt_le (n count : ℕ) : countAt n count ≤ count := by
  induction n generalizing count with
  | zero => exact le_rfl
  | succ n ih =>
    have hd : (count - values) / (values + 1) ≤ count - values := Nat.div_le_self _ _
    exact (ih _).trans (hd.trans (Nat.sub_le _ _))

/-- On every level above the depth the count is at least two nodes' worth. -/
theorem countAt_of_lt_calcDepth {n count : ℕ} (h : n + 1 < calcDepth count) :
    255 ≤ countAt n count := by
  induction n generalizing count with
  | zero =>
    rw [calcDepth] at h
    split at h
    · split at h
      · next hbig =>
        rw [calcDepth] at h
        split at h
        · next hpos =>
          rw [countAt]
          unfold values at hpos
          omega
        · omega
      · omega
    · omega
  | succ n ih =>
    rw [calcDepth] at h
    split at h
    · split at h
      · rw [countAt]
        exact ih (by omega)
      · omega
    · omega

/-- The depth of a table is small. -/
theorem calcDepth_le {n count : ℕ} (h : count < 2 ^ n) : calcDepth count ≤ n := by
  induction n generalizing count with
  | zero =>
    rw [calcDepth, if_neg (by omega)]
  | succ n ih =>
    rw [calcDepth]
    split
    · split
      · have hd : (count - values) / (values + 1) < 2 ^ n := by
          unfold values
          rw [pow_succ] at h
          omega
        exact Nat.succ_le_succ (ih hd)
      · omega
    · omega

/-- A range wide enough for the levels below it: it loses at most one position
against the count of the depth formula. -/
def Wide (n : ℕ) (r : ℕ × ℕ) : Prop := ∃ count, count ≤ r.2 - r.1 + 1 ∧ 255 ≤ countAt n count

/-- A wide range fills a node twice. -/
theorem Wide.size {n : ℕ} {r : ℕ × ℕ} (h : Wide n r) : r.1 + 254 ≤ r.2 := by
  obtain ⟨count, hc, hn⟩ := h
  have hle := countAt_le n count
  omega

/-- The bounds of a child. -/
theorem child_bounds {r : ℕ × ℕ} (hr : r.1 + 254 ≤ r.2) {c : ℕ} (hc : c < values + 1) :
    r.1 ≤ (child r c).1 ∧ (child r c).2 ≤ r.2 ∧
      (child r c).1 + (r.2 - r.1) / (values + 1) ≤ (child r c).2 + 1 := by
  have hmul := Nat.div_mul_le_self (r.2 - r.1) (values + 1)
  unfold child valueIndex
  unfold values at hc hmul ⊢
  generalize (r.2 - r.1) / (127 + 1) = d at hmul ⊢
  have hle : d * c ≤ d * 127 := Nat.mul_le_mul_left d (by omega)
  have hsucc : d * (c + 1) = d * c + d := Nat.mul_succ d c
  split
  · next h0 =>
    subst h0
    rw [if_neg (by decide)]
    simp only [Nat.mul_zero, Nat.zero_add, Nat.mul_one] at hle hsucc ⊢
    omega
  · next h0 =>
    have hpred : c - 1 + 1 = c := by omega
    dsimp only
    rw [hpred]
    split
    · next hv =>
      subst hv
      omega
    · next hv =>
      have hlt : d * (c + 1) ≤ d * 127 := Nat.mul_le_mul_left d (by omega)
      omega

/-- The children of a wide range are wide for one level less. -/
theorem Wide.child {n : ℕ} {r : ℕ × ℕ} (h : Wide (n + 1) r) {c : ℕ} (hc : c < values + 1) :
    Wide n (child r c) := by
  have hb := child_bounds h.size hc
  obtain ⟨count, hle, hn⟩ := h
  refine ⟨(count - values) / (values + 1), ?_, hn⟩
  have hmono : (count - values) / (values + 1) ≤ (r.2 - r.1) / (values + 1) :=
    Nat.div_le_div_right (by unfold values; omega)
  omega

/-! ## What the builder writes -/

/-- A record stands in the key file at an offset. -/
def RecordAt (t : Table) (data : Key) (offset index : ℕ) : Prop :=
  ∃ pre post : Key, data = pre ++ recordBytes t index ++ post ∧ pre.length = offset

/-- Records stay where they are when the file grows. -/
theorem RecordAt.append {t : Table} {data : Key} {offset index : ℕ}
    (h : RecordAt t data offset index) (more : Key) : RecordAt t (data ++ more) offset index := by
  obtain ⟨pre, post, hd, hl⟩ := h
  exact ⟨pre, post ++ more, by rw [hd, List.append_assoc _ post more], hl⟩

/-- The builder has written the nodes of these ranges, in this order. -/
structure Written (t : Table) (ranges : List (ℕ × ℕ)) (st : BuildState) : Prop where
  current_eq : st.current = st.data.length
  length_eq : st.indx.length = ranges.length
  node : ∀ (m : ℕ) (r : ℕ × ℕ), ranges[m]? = some r → ∃ node : List ℕ, st.indx[m]? = some node ∧
    ∀ j < values, ∃ offset : ℕ, node[j]? = some offset ∧
      RecordAt t st.data offset (valueIndex r (ll.getD j 0))

/-- Pushing a key keeps the offset at the end of the file and adds a record there. -/
theorem pushBackKey_data (t : Table) (aligned : Bool) (index : ℕ) (st : BuildState)
    (h : st.current = st.data.length) :
    (pushBackKey t aligned index st).current = (pushBackKey t aligned index st).data.length ∧
      (∃ more : Key, (pushBackKey t aligned index st).data = st.data ++ more) ∧
      RecordAt t (pushBackKey t aligned index st).data st.current index := by
  unfold pushBackKey
  dsimp only
  refine ⟨?_, ⟨_, List.append_assoc _ _ _⟩, st.data, _, rfl, h.symm⟩
  simp only [recordBytes, List.length_append, storeBE_length, List.length_cons,
    List.length_replicate, h, sizeofNodeData]
  omega

/-- Pushing the values of a node notes their offsets in order. -/
theorem foldl_pushValue (t : Table) (aligned : Bool) (r : ℕ × ℕ) (is : List ℕ) (node : List ℕ)
    (st : BuildState) (h : st.current = st.data.length) :
    ∃ (offsets : List ℕ) (more : Key) (st' : BuildState), is.foldl (pushValue t aligned r) (node, st) = (node ++ offsets, st') ∧
      st'.current = st'.data.length ∧ st'.indx = st.indx ∧ st'.data = st.data ++ more ∧
      ∀ (j i : ℕ), is[j]? = some i → ∃ offset : ℕ, offsets[j]? = some offset ∧
        RecordAt t st'.data offset (valueIndex r i) := by
  induction is generalizing node st with
  | nil =>
    exact ⟨[], [], st, by rw [List.append_nil]; rfl, h, rfl, (List.append_nil _).symm,
      fun j i hj => absurd hj (by simp)⟩
  | cons i is ih =>
    obtain ⟨hcur, ⟨more, hmore⟩, hrec⟩ := pushBackKey_data t aligned (valueIndex r i) st h
    obtain ⟨offsets, more', st', hfold, hcur', hindx, hdata, hat⟩ :=
      ih (node ++ [st.current]) (pushBackKey t aligned (valueIndex r i) st) hcur
    refine ⟨st.current :: offsets, more ++ more', st', ?_, hcur', hindx, ?_, ?_⟩
    · rw [List.foldl_cons, pushValue, hfold, List.append_assoc, List.singleton_append]
    · rw [hdata, hmore, List.append_assoc]
    · intro j k hj
      cases j with
      | zero =>
        have hk : i = k := by simpa using hj
        refine ⟨st.current, rfl, ?_⟩
        rw [← hk, hdata]
        exact hrec.append more'
      | succ j => exact hat j k (by simpa using hj)

/-- Writing a node adds its range. -/
theorem writeNode_written {t : Table} {ranges : List (ℕ × ℕ)} {st : BuildState} (aligned : Bool)
    (r : ℕ × ℕ) (h : Written t ranges st) :
    Written t (ranges ++ [r]) (writeNode t aligned r st) := by
  obtain ⟨offsets, more, st', hfold, hcur, hindx, hdata, hat⟩ :=
    foldl_pushValue t aligned r ll [] st h.current_eq
  have hw : writeNode t aligned r st = { st' with indx := st.indx ++ [offsets] } := by
    rw [writeNode, hfold, List.nil_append, ← hindx]
  rw [hw]
  refine ⟨hcur, ?_, ?_⟩
  · simp only [List.length_append, h.length_eq, List.length_singleton]
  · intro m r' hm
    dsimp only
    rcases lt_or_ge m ranges.length with hlt | hge
    · rw [List.getElem?_append_left hlt] at hm
      obtain ⟨node, hnode, hvals⟩ := h.node m r' hm
      refine ⟨node, ?_, fun j hj => ?_⟩
      · rw [List.getElem?_append_left (by rw [h.length_eq]; exact hlt), hnode]
      · obtain ⟨offset, ho, hrec⟩ := hvals j hj
        exact ⟨offset, ho, hdata ▸ hrec.append more⟩
    · have hlen : m < (ranges ++ [r]).length := (List.getElem?_eq_some_iff.mp hm).1
      have hmeq : m = ranges.length := by
        rw [List.length_append, List.length_singleton] at hlen
        omega
      subst hmeq
      have hr : r = r' := by simpa using hm
      refine ⟨offsets, ?_, fun j hj => ?_⟩
      · rw [← h.length_eq, List.getElem?_append_right le_rfl, Nat.sub_self]
        rfl
      · have hj' : j < ll.length := by rw [ll_length]; exact hj
        obtain ⟨offset, ho, hrec⟩ := hat j ll[j] (List.getElem?_eq_getElem hj')
        refine ⟨offset, ho, ?_⟩
        rwa [List.getD_eq_getElem?_getD, List.getElem?_eq_getElem hj', Option.getD_some, ← hr]

/-- The loop over the children visits them from number `i` on. -/
theorem reorderChildren_written {t : Table} (r : ℕ × ℕ) (below : ℕ × ℕ → List (ℕ × ℕ))
    (visit : ℕ → ℕ → BuildState → Except LogicError BuildState)
    (hvisit : ∀ c < values + 1, ∀ ranges st, Written t ranges st →
      ∃ st', visit (child r c).1 (child r c).2 st = .ok st' ∧
        Written t (ranges ++ below (child r c)) st')
    {n i : ℕ} (hn : n + i = values) {ranges : List (ℕ × ℕ)} {st : BuildState}
    (h : Written t ranges st) :
    ∃ st', reorderChildren visit r.1 ((r.2 - r.1) / (values + 1)) r.2 n i (child r i).1 st =
        .ok st' ∧
      Written t (ranges ++ ((List.range' i (n + 1)).map (child r)).flatMap below) st' := by
  induction n generalizing i ranges st with
  | zero =>
    obtain rfl : i = values := by omega
    obtain ⟨st', hv, hw⟩ := hvisit values (Nat.lt_succ_self _) ranges st h
    refine ⟨st', ?_, ?_⟩
    · rw [reorderChildren, ← child_last_snd r, hv]
    · simpa [List.range'] using hw
  | succ n ih =>
    obtain ⟨st', hv, hw⟩ := hvisit i (by omega) ranges st h
    have hi : i < values := by omega
    rw [child_snd hi] at hv
    obtain ⟨st'', hv', hw'⟩ := ih (i := i + 1) (by omega) hw
    refine ⟨st'', ?_, ?_⟩
    · rw [child_succ_fst] at hv'
      rw [reorderChildren]
      change (visit (child r i).1 (valueIndex r i) st).bind _ = _
      rw [hv]
      exact hv'
    · rw [List.range'_succ, List.map_cons, List.flatMap_cons, ← List.append_assoc]
      exact hw'

/-- A walk over a wide range writes the nodes of one level and never meets a
half-full one. -/
theorem reorder_written {t : Table} (aligned : Bool) {n : ℕ} {r : ℕ × ℕ} (hr : Wide n r)
    {ranges : List (ℕ × ℕ)} {st : BuildState} (h : Written t ranges st) :
    ∃ st', reorder t aligned n r.1 r.2 st = .ok st' ∧
      Written t (ranges ++ level children n r) st' := by
  induction n generalizing r ranges st with
  | zero =>
    have hsize := hr.size
    refine ⟨writeNode t aligned r st, ?_, writeNode_written aligned r h⟩
    rw [reorder, if_neg (by omega), if_neg (by unfold values; omega)]
  | succ n ih =>
    have hsize := hr.size
    obtain ⟨st', hv, hw⟩ := reorderChildren_written r (level children n) (reorder t aligned n)
      (fun c hc ranges st hw => ih (hr.child hc) hw) (n := values) (i := 0) rfl h
    refine ⟨st', ?_, ?_⟩
    · rw [reorder, if_neg (by omega)]
      exact hv
    · rw [← List.range_eq_range'] at hw
      exact hw

/-- The levels of the tree that is written. -/
def treeLevels (t : Table) : ℕ := calcDepth t.size - 1

/-- For tables of 64-bit size the eight-bit level count does not wrap, except
that an empty table has 255 levels of nothing. -/
theorem totalLevels_eq {t : Table} (hs : t.size < 2 ^ 64) (h0 : t.size ≠ 0) :
    totalLevels t.size = treeLevels t := by
  have hle := calcDepth_le hs
  have hpos : 0 < calcDepth t.size := by
    rw [calcDepth, if_pos (Nat.pos_of_ne_zero h0)]
    split <;> omega
  rw [totalLevels, treeLevels]
  omega

/-- The levels that are written are wide enough. -/
theorem wide_root {t : Table} {n : ℕ} (h : n < treeLevels t) : Wide n (0, t.size) :=
  ⟨t.size, Nat.le_succ _, countAt_of_lt_calcDepth (by rw [treeLevels] at h; omega)⟩

/-- Every range on a level below a wide one fills a node twice. -/
theorem wide_level {n : ℕ} {r : ℕ × ℕ} (h : Wide n r) :
    ∀ a ∈ level children n r, a.1 + 254 ≤ a.2 := by
  induction n generalizing r with
  | zero =>
    intro a ha
    rw [List.mem_singleton.mp ha]
    exact h.size
  | succ n ih =>
    intro a ha
    obtain ⟨b, hb, ha'⟩ := List.mem_flatMap.mp ha
    obtain ⟨c, hc, rfl⟩ := List.mem_map.mp hb
    exact ih (h.child (List.mem_range.mp hc)) a ha'

/-- A walk over nothing changes nothing. -/
theorem reorder_empty (t : Table) (aligned : Bool) (n : ℕ) (st : BuildState) :
    reorder t aligned n 0 0 st = .ok st := by
  cases n <;> rw [reorder, if_pos le_rfl]

/-- One more walk comes after the walks before it. -/
theorem foldlM_range_succ {β ε : Type} (f : β → ℕ → Except ε β) (b s : β) (n : ℕ)
    (h : (List.range n).foldlM f b = .ok s) : (List.range (n + 1)).foldlM f b = f s n := by
  rw [List.range_succ, List.foldlM_append, h]
  change (f s n).bind Except.ok = f s n
  cases f s n <;> rfl

/-- The walks of the first levels write the first levels. -/
theorem foldlM_written {t : Table} (aligned : Bool) {n : ℕ} (hn : n ≤ treeLevels t) :
    ∃ st, (List.range n).foldlM (fun st level => reorder t aligned level 0 t.size st)
        (⟨0, [], []⟩ : BuildState) = Except.ok st ∧
      Written t (levelOrder children (0, t.size) n) st := by
  induction n with
  | zero => exact ⟨⟨0, [], []⟩, rfl, rfl, rfl, fun m r hm => absurd hm (by simp [levelOrder])⟩
  | succ n ih =>
    obtain ⟨st, hst, hw⟩ := ih (by omega)
    obtain ⟨st', hst', hw'⟩ := reorder_written aligned (wide_root hn) hw
    refine ⟨st', ?_, ?_⟩
    · rw [foldlM_range_succ _ _ _ _ hst]
      exact hst'
    · rw [levelOrder_succ]
      exact hw'

/-- The builder writes the complete tree and never meets a half-full node. -/
theorem build_written (t : Table) (aligned : Bool) (hs : t.size < 2 ^ 64) :
    ∃ st, build t aligned = .ok st ∧
      Written t (levelOrder children (0, t.size) (treeLevels t)) st := by
  by_cases h0 : t.size = 0
  · refine ⟨⟨0, [], []⟩, ?_, ?_⟩
    · rw [build, h0]
      generalize totalLevels 0 = n
      induction n with
      | zero => rfl
      | succ n ih =>
        rw [foldlM_range_succ _ _ _ _ ih]
        exact reorder_empty t aligned n _
    · have hz : treeLevels t = 0 := by rw [treeLevels, h0, calcDepth, if_neg (lt_irrefl 0)]
      rw [hz]
      exact ⟨rfl, rfl, fun m r hm => absurd hm (by simp [levelOrder])⟩
  · rw [build, totalLevels_eq hs h0]
    exact foldlM_written aligned le_rfl

end HM4.BTreeIndexBuilder
