import HM4.BTreeIndexBuilder

/-!
# Searching the B-tree index

The search descends from the root. Inside a node it walks the breadth-first
order of the values; every comparison narrows the range of positions by one
side, and where the walk leaves the node the range is that of the child to go
to. Behind the last level plain search works on the range that is left. Any
access outside the files sends the search back to the whole table.
-/

namespace HM4.BTreeSearch

open LexPrefix Bytes BoundedSearch DiskTable LevelOrder BTreeIndexBuilder

/-- `BTreeAccessError`. -/
inductive BTreeAccessError
  /-- An offset points outside the files. -/
  | mk

/-- `accessNodeValue_`: the key and its position, if the file holds them. -/
def accessNodeValue (data : Key) (offset : ℕ) : Except BTreeAccessError (Key × ℕ) :=
  if data.length = 0 ∨ data.length < offset + sizeofNodeData then .error .mk
  else
    let dataid := loadBE 8 ((data.drop offset).take 8)
    let keysize := loadBE 2 ((data.drop (offset + 8)).take 2)
    if keysize = 0 ∨ data.length < offset + sizeofNodeData + keysize then .error .mk
    else .ok ((data.drop (offset + sizeofNodeData)).take keysize, dataid)

/-- `NodeResult`, with the range that the walk leaves behind. -/
inductive NodeResult
  /-- The key was met at a position. -/
  | result (index : ℕ)
  /-- The branch to follow and the range of positions that is left. -/
  | branch (nodeIndex start stop : ℕ)

/-- `levelOrderBinarySearch_` from a place of the node. -/
def levelOrderBinarySearch (data : Key) (key : Key) (node : List ℕ) (nodePos start stop : ℕ) :
    Except BTreeAccessError NodeResult :=
  match accessNodeValue data (node.getD nodePos 0) with
  | .error e => .error e
  | .ok (x, dataid) =>
    match lex x key with
    | .lt =>
      if 2 * nodePos + 1 + 1 < values then
        levelOrderBinarySearch data key node (2 * nodePos + 1 + 1) (dataid + 1) stop
      else .ok (.branch (ll.getD nodePos 0 + 1) (dataid + 1) stop)
    | .gt =>
      if 2 * nodePos + 1 < values then
        levelOrderBinarySearch data key node (2 * nodePos + 1) start dataid
      else .ok (.branch (ll.getD nodePos 0) start dataid)
    | .eq => .ok (.result dataid)
termination_by values - nodePos

/-- The loop of `btreeSearch_` from a node position with the range left so far.
Going right from the last value and going left are one formula. -/
def btreeDescend (t : Table) (key : Key) (indx : List (List ℕ)) (data : Key)
    (pos start stop : ℕ) : Except BTreeAccessError (Option SearchResult) :=
  match _h : indx[pos]? with
  | none => .ok (searchBinaryIn 0 t key start stop)
  | some node =>
    match levelOrderBinarySearch data key node 0 start stop with
    | .error e => .error e
    | .ok (.result index) => .ok (some ⟨true, index⟩)
    | .ok (.branch nodeIndex start' stop') =>
      if nodeIndex = values then
        btreeDescend t key indx data (pos * (values + 1) + (values + 1)) start' stop'
      else
        btreeDescend t key indx data (pos * (values + 1) + nodeIndex + 1) start' stop'
termination_by indx.length - pos
decreasing_by
  all_goals
    have hpos : pos < indx.length := (List.getElem?_eq_some_iff.mp _h).1
    unfold values
    omega

/-- `btreeSearch_`: without nodes there is nothing to search. -/
def btreeSearch (t : Table) (key : Key) (indx : List (List ℕ)) (data : Key) :
    Except BTreeAccessError (Option SearchResult) :=
  if indx = [] then .error .mk
  else btreeDescend t key indx data 0 0 t.size

/-- `searchBTree`: the fallback on any access error is plain search. -/
def searchBTree (t : Table) (key : Key) (indx : List (List ℕ)) (data : Key) :
    Option SearchResult :=
  match btreeSearch t key indx data with
  | .ok r => r
  | .error _ => searchBinary t key

/-! ## Reading what was written -/

/-- A written record is read back. -/
theorem accessNodeValue_eq {t : Table} {data : Key} {offset index : ℕ}
    (h : RecordAt t data offset index) (hi : index < t.size) (hs : t.size < 2 ^ 64) :
    accessNodeValue data offset = .ok (t.keyAt index, index) := by
  obtain ⟨pre, post, rfl, rfl⟩ := h
  obtain ⟨p, _, hkey⟩ := Table.exists_pair hi
  have hvalid : 0 < p.key.length ∧ p.key.length ≤ 1023 := p.keyValid
  rw [← hkey] at hvalid
  have hrec : (pre ++ recordBytes t index ++ post).drop pre.length =
      storeBE 8 index ++ (storeBE 2 (t.keyAt index).length ++ (t.keyAt index ++ post)) := by
    rw [List.append_assoc, List.drop_left, recordBytes]
    simp only [List.append_assoc]
  have hd8 : (pre ++ recordBytes t index ++ post).drop (pre.length + 8) =
      storeBE 2 (t.keyAt index).length ++ (t.keyAt index ++ post) := by
    rw [← List.drop_drop, hrec]
    exact List.drop_left' (storeBE_length 8 index)
  have hd10 : (pre ++ recordBytes t index ++ post).drop (pre.length + sizeofNodeData) =
      t.keyAt index ++ post := by
    change (pre ++ recordBytes t index ++ post).drop (pre.length + 8 + 2) = _
    rw [← List.drop_drop, hd8]
    exact List.drop_left' (storeBE_length 2 _)
  have hlen : (pre ++ recordBytes t index ++ post).length =
      pre.length + sizeofNodeData + (t.keyAt index).length + post.length := by
    simp only [recordBytes, List.length_append, storeBE_length, sizeofNodeData]
    omega
  have hid : loadBE 8 (storeBE 8 index) = index := loadBE_storeBE (hi.trans hs)
  have hsize : loadBE 2 (storeBE 2 (t.keyAt index).length) = (t.keyAt index).length :=
    loadBE_storeBE (by omega)
  unfold accessNodeValue
  rw [hlen, if_neg (by unfold sizeofNodeData; omega)]
  dsimp only
  rw [hd8, hrec, hd10, List.take_left' (storeBE_length 2 _), List.take_left' (storeBE_length 8 _),
    hsize, hid, if_neg (by omega), List.take_left]

/-! ## The walk inside a node -/

/-- The gaps between values that a place of a node can still lead to: the first
and the last of them. -/
def gaps (nodePos : ℕ) : ℕ × ℕ :=
  let level := Nat.log2 (nodePos + 1)
  let offset := nodePos + 1 - 2 ^ level
  (offset * 2 ^ (nodeLevels - level), (offset + 1) * 2 ^ (nodeLevels - level) - 1)

/-- The breadth-first order is that of a binary search tree: the value at a
place splits its gaps between the two places below it. -/
theorem gaps_split : ∀ p < values,
    (gaps p).1 ≤ ll.getD p 0 ∧ ll.getD p 0 < (gaps p).2 ∧ (gaps p).2 ≤ values ∧
      (if 2 * p + 1 < values then gaps (2 * p + 1) = ((gaps p).1, ll.getD p 0)
        else (gaps p).1 = ll.getD p 0) ∧
      (if 2 * p + 1 + 1 < values then gaps (2 * p + 1 + 1) = (ll.getD p 0 + 1, (gaps p).2)
        else (gaps p).2 = ll.getD p 0 + 1) := by
  decide +kernel

theorem gaps_zero : gaps 0 = (0, values) := by decide +kernel

/-- The key is not before `start` and not at `stop` or behind it. -/
structure Between (t : Table) (key : Key) (start stop : ℕ) : Prop where
  stop_le : stop ≤ t.size
  below : ∀ i < start, t.order key i = .lt
  above : ∀ i, stop ≤ i → i < t.size → t.order key i = .gt

/-- A lower key moves the start behind its position. -/
theorem Between.right {t : Table} {key : Key} {start stop v : ℕ} (h : Between t key start stop)
    (hv : v < t.size) (ho : t.order key v = .lt) : Between t key (v + 1) stop where
  stop_le := h.stop_le
  below _ hi := by
    have hle := Table.keyAt_le (Nat.le_of_lt_succ hi) hv
    exact lex_eq_lt.mpr (hle.trans_lt (lex_eq_lt.mp ho))
  above := h.above

/-- A higher key moves the stop to its position. -/
theorem Between.left {t : Table} {key : Key} {start stop v : ℕ} (h : Between t key start stop)
    (hv : v < t.size) (ho : t.order key v = .gt) : Between t key start v where
  stop_le := hv.le
  below := h.below
  above _ hi hsize := lex_eq_gt.mpr ((lex_eq_gt.mp ho).trans_le (Table.keyAt_le hi hsize))

/-- A result between the bounds is a result for the table. -/
theorem Between.finds {t : Table} {key : Key} {start stop : ℕ} {r : SearchResult}
    (h : Between t key start stop) (hr : Locates (t.order key) start stop r) :
    t.Finds key r :=
  (hr.extend_right h.stop_le h.above).extend_left (Nat.zero_le _) (fun _ _ hi => h.below _ hi)

/-- The values of a wide range lie in it. -/
theorem valueIndex_lt {r : ℕ × ℕ} (hr : r.1 + 254 ≤ r.2) {i : ℕ} (hi : i < values) :
    valueIndex r i < r.2 := by
  have hb := child_bounds hr (Nat.lt_succ_self values)
  have hsucc := child_succ_fst r 126
  have hmono : (r.2 - r.1) / (values + 1) * (i + 1) ≤ (r.2 - r.1) / (values + 1) * (126 + 1) :=
    Nat.mul_le_mul_left _ (by unfold values at hi; omega)
  rw [child_last_snd, hsucc] at hb
  have hdiv : 1 ≤ (r.2 - r.1) / (values + 1) := by
    unfold values
    omega
  unfold valueIndex at hb ⊢
  omega

/-- The node holds the values of a range. -/
def NodeHolds (t : Table) (data : Key) (r : ℕ × ℕ) (node : List ℕ) : Prop :=
  ∀ j < values, ∃ offset : ℕ, node[j]? = some offset ∧
    RecordAt t data offset (valueIndex r (ll.getD j 0))

/-- What the walk may answer for a node: a position of the key, or the number of
a child together with its range, in which the key belongs. -/
def AnswerRight (t : Table) (key : Key) (r : ℕ × ℕ) : NodeResult → Prop
  | .result index => index < t.size ∧ t.order key index = .eq
  | .branch c start stop => c < values + 1 ∧ (start, stop) = child r c ∧ Between t key start stop

/-- The walk from any place of the node answers right. -/
theorem levelOrderBinarySearch_right {t : Table} {data : Key} {r : ℕ × ℕ} {node : List ℕ}
    (key : Key) (hs : t.size < 2 ^ 64) (hr : r.1 + 254 ≤ r.2) (hsize : r.2 ≤ t.size)
    (hnode : NodeHolds t data r node) {nodePos : ℕ} (hp : nodePos < values)
    (hb : Between t key (child r (gaps nodePos).1).1 (child r (gaps nodePos).2).2) :
    ∃ res, levelOrderBinarySearch data key node nodePos (child r (gaps nodePos).1).1
        (child r (gaps nodePos).2).2 = .ok res ∧ AnswerRight t key r res := by
  induction hd : values - nodePos using Nat.strong_induction_on generalizing nodePos with
  | _ d ih =>
    obtain ⟨hlo, hhi, hmax, hleft, hright⟩ := gaps_split nodePos hp
    obtain ⟨offset, hoff, hrec⟩ := hnode nodePos hp
    have hlt : ll.getD nodePos 0 < values := hhi.trans_le hmax
    have hv : valueIndex r (ll.getD nodePos 0) < t.size := (valueIndex_lt hr hlt).trans_le hsize
    have hget : node.getD nodePos 0 = offset := by
      rw [List.getD_eq_getElem?_getD, hoff, Option.getD_some]
    rw [levelOrderBinarySearch, hget, accessNodeValue_eq hrec hv hs]
    dsimp only
    change ∃ res, (match t.order key (valueIndex r (ll.getD nodePos 0)) with
      | .lt => _ | .gt => _ | .eq => _) = Except.ok res ∧ AnswerRight t key r res
    generalize hi : ll.getD nodePos 0 = i at hlo hhi hleft hright hlt hv ⊢
    cases ho : t.order key (valueIndex r i) with
    | eq => exact ⟨_, rfl, hv, ho⟩
    | lt =>
      have hnext := hb.right hv ho
      rw [← child_succ_fst r i] at hnext ⊢
      dsimp only
      by_cases hin : 2 * nodePos + 1 + 1 < values
      · rw [if_pos hin] at hright ⊢
        have hrest := ih (values - (2 * nodePos + 1 + 1)) (by omega) hin
        rw [hright] at hrest
        exact hrest hnext rfl
      · rw [if_neg hin] at hright ⊢
        rw [hright] at hnext ⊢
        exact ⟨_, rfl, Nat.succ_lt_succ hlt, rfl, hnext⟩
    | gt =>
      have hnext := hb.left hv ho
      rw [← child_snd hlt] at hnext ⊢
      dsimp only
      by_cases hin : 2 * nodePos + 1 < values
      · rw [if_pos hin] at hleft ⊢
        have hrest := ih (values - (2 * nodePos + 1)) (by omega) hin
        rw [hleft] at hrest
        exact hrest hnext rfl
      · rw [if_neg hin] at hleft ⊢
        rw [hleft] at hnext ⊢
        exact ⟨_, rfl, hlt.trans (Nat.lt_succ_self _), rfl, hnext⟩

/-! ## The descent -/

/-- The files hold the complete tree of the table. -/
structure TreeHolds (t : Table) (levels : ℕ) (indx : List (List ℕ)) (data : Key) : Prop where
  size_lt : t.size < 2 ^ 64
  length_eq : indx.length = (levelOrder children (0, t.size) levels).length
  node : ∀ (m : ℕ) (r : ℕ × ℕ), (levelOrder children (0, t.size) levels)[m]? = some r →
    ∃ node, indx[m]? = some node ∧ NodeHolds t data r node
  wide : ∀ (m : ℕ) (r : ℕ × ℕ), (levelOrder children (0, t.size) levels)[m]? = some r →
    r.1 + 254 ≤ r.2

/-- From a node whose range the key belongs to, the descent finds the key and
never reads outside the files. -/
theorem btreeDescend_finds {t : Table} {key : Key} (hk : key ≠ []) {levels : ℕ}
    {indx : List (List ℕ)} {data : Key} (h : TreeHolds t levels indx data) {pos : ℕ} {r : ℕ × ℕ}
    (hpos : ∀ a, (levelOrder children (0, t.size) levels)[pos]? = some a → a = r)
    (hle : r.1 ≤ r.2) (hb : Between t key r.1 r.2) :
    ∃ res, btreeDescend t key indx data pos r.1 r.2 = .ok (some res) ∧ t.Finds key res := by
  induction hd : indx.length - pos using Nat.strong_induction_on generalizing pos r with
  | _ d ih =>
    rw [btreeDescend]
    by_cases hlt : pos < indx.length
    · have hpos' : (levelOrder children (0, t.size) levels)[pos]? = some r := by
        have hin := List.getElem?_eq_getElem (h.length_eq ▸ hlt)
        rw [hin, hpos _ hin]
      obtain ⟨node, hget, hnode⟩ := h.node pos r hpos'
      have hwide := h.wide pos r hpos'
      have hwalk := levelOrderBinarySearch_right key h.size_lt hwide hb.stop_le hnode
        (show 0 < values by decide)
      rw [gaps_zero] at hwalk
      obtain ⟨ans, hans, hright⟩ := hwalk hb
      rw [child_zero_fst, child_last_snd] at hans
      rw [hget]
      dsimp only
      rw [hans]
      cases ans with
      | result index =>
        exact ⟨_, rfl, (t.strictOrder key le_rfl).locates_eq (Nat.zero_le _) hright.1 hright.2⟩
      | branch c start stop =>
        obtain ⟨hc, hchild, hbetween⟩ := hright
        obtain rfl : start = (child r c).1 := congrArg Prod.fst hchild
        obtain rfl : stop = (child r c).2 := congrArg Prod.snd hchild
        have hbounds := child_bounds hwide hc
        have hone : 1 ≤ (r.2 - r.1) / (values + 1) := by
          unfold values
          omega
        have hnext : ∀ a, (levelOrder children (0, t.size) levels)[pos * (values + 1) + c + 1]? =
            some a → a = child r c := by
          intro a ha
          have hin := (List.getElem?_eq_some_iff.mp ha).1
          rw [Nat.mul_comm] at hin ha
          rw [getElem?_child children_length (0, t.size) levels hpos' hc hin, children,
            List.getElem?_map, List.getElem?_range hc] at ha
          exact (Option.some.inj ha).symm
        have hrest := ih (indx.length - (pos * (values + 1) + c + 1))
          (by unfold values; omega) hnext (by omega) hbetween rfl
        dsimp only
        split
        · next hv =>
          subst hv
          exact hrest
        · exact hrest
    · rw [List.getElem?_eq_none (not_lt.mp hlt)]
      obtain ⟨res, hres, hloc⟩ := searchBinaryIn_locates hk hle hb.stop_le
      exact ⟨res, by rw [hres], hb.finds hloc⟩

/-- The files that the builder writes hold the tree. -/
theorem treeHolds_of_written {t : Table} (hs : t.size < 2 ^ 64) {st : BuildState}
    (hw : Written t (levelOrder children (0, t.size) (treeLevels t)) st) :
    TreeHolds t (treeLevels t) st.indx st.data where
  size_lt := hs
  length_eq := hw.length_eq
  node m r hm := hw.node m r hm
  wide m r hm := by
    have hlevel : ∀ n ≤ treeLevels t, ∀ a ∈ levelOrder children (0, t.size) n,
        a.1 + 254 ≤ a.2 := by
      intro n hn
      induction n with
      | zero => exact fun a ha => absurd ha List.not_mem_nil
      | succ n ih =>
        intro a ha
        rw [levelOrder_succ, List.mem_append] at ha
        rcases ha with ha | ha
        · exact ih (by omega) a ha
        · exact wide_level (wide_root hn) a ha
    exact hlevel _ le_rfl r (List.mem_of_getElem? hm)

/-- The search over the files of the builder is plain search. -/
theorem btreeSearch_finds {t : Table} {key : Key} (hk : key ≠ []) (hs : t.size < 2 ^ 64)
    {st : BuildState} (hw : Written t (levelOrder children (0, t.size) (treeLevels t)) st)
    (hne : st.indx ≠ []) :
    ∃ r, btreeSearch t key st.indx st.data = .ok (some r) ∧ t.Finds key r := by
  rw [btreeSearch, if_neg hne]
  have hroot : ∀ a, (levelOrder children (0, t.size) (treeLevels t))[0]? = some a →
      a = (0, t.size) := by
    intro a ha
    cases hn : treeLevels t with
    | zero => rw [hn] at ha; exact absurd ha (by simp [levelOrder])
    | succ n => rw [hn] at ha; exact (Option.some.inj ha).symm
  exact btreeDescend_finds hk (treeHolds_of_written hs hw) (r := (0, t.size)) hroot
    (Nat.zero_le _) ⟨le_rfl, fun i hi => absurd hi (Nat.not_lt_zero i),
      fun i h1 h2 => absurd h1 (not_le.mpr h2)⟩

/-- With the fallback the search over the files of the builder finds the key. -/
theorem searchBTree_finds {t : Table} {key : Key} (hk : key ≠ []) (hs : t.size < 2 ^ 64)
    {st : BuildState} (hw : Written t (levelOrder children (0, t.size) (treeLevels t)) st) :
    ∃ r, searchBTree t key st.indx st.data = some r ∧ t.Finds key r := by
  by_cases hne : st.indx = []
  · rw [searchBTree, btreeSearch, if_pos hne]
    exact searchBinary_finds t hk
  · obtain ⟨r, hr, hf⟩ := btreeSearch_finds hk hs hw hne
    exact ⟨r, by rw [searchBTree, hr], hf⟩

end HM4.BTreeSearch
