import HM4.SkipListLanes

/-!
# What the skip list holds

An insert changes the pair of a node or connects a new one on as many lanes as its height
tells; an erase unlinks the node from every lane it is on, though nothing tells how many
these are.
-/

namespace HM4.SkipListContents

open LexPrefix Bytes Pairs PairFactory MemList KeyedList HPair ListSteps SkipLanes
  TowerMemory SkipList SkipListLanes
open HPairRank hiding rank

section Steps

variable {σ : Type} (allocator : Allocator σ) {list : State σ} {l l1 l2 : List (Entry Node)}

/-- `locate_` cuts the list at the key. -/
theorem locate_spec (hv : Valid list l) (shortcut : Bool) {key : Key} (hk : key ≠ []) :
    ∃ l1 l2 prev, locate list shortcut key = some ⟨prev, here key l2⟩ ∧ l = l1 ++ l2 ∧
      (∀ e ∈ l1, rank e < rankOf key) ∧ (∀ e ∈ l2, rankOf key ≤ rank e) ∧
      (shortcut = false ∨ here key l2 = none → prev = places (towers l1) 0 MAX_HEIGHT) := by
  obtain ⟨l1, l2, rfl, h1, h2⟩ := hv.increasing.exists_cut (rankOf key)
  have hfirst : ∀ g, MAX_HEIGHT = g + 1 → ∃ a b, l1 = a ++ b ∧ none = last g (towers a) :=
    fun g _ => ⟨[], l1, rfl, rfl⟩
  obtain ⟨prev, e, hprev⟩ := locateLanes_spec hv h1 h2 shortcut le_rfl hfirst ⟨[], none⟩
    (.inl rfl) (fun hc => absurd hc (by decide))
  refine ⟨l1, l2, prev, ?_, rfl, h1, h2, fun hc => ?_⟩
  · rw [locate, if_neg hk, e]
  · rw [hprev hc, List.append_nil]

/-- Entries that are not below a key, none of which is at its node, are above it. -/
theorem above_of_here {key : Key} {l : List (Entry Node)} (h : ∀ e ∈ l, rankOf key ≤ rank e)
    (hinc : Increasing rank l) (hnone : here key l = none) :
    ∀ e ∈ l, rankOf key < rank e := fun e he => by
  refine lt_of_le_of_ne (h e he) fun hr => ?_
  obtain ⟨rest, rfl⟩ := head_of_rank h hinc he hr.symm
  rw [here, if_pos hr.symm] at hnone
  exact Option.some_ne_none _ hnone

/-! ## Insert -/

variable {factory : Factory} (h : factory.valid = true) (now : UInt64)

/-- The allocations of an insert, one of which is refused. -/
def refuses (clz : ℕ) (alloc : σ) : Op → Prop
  | .insert factory _ =>
    Refuses allocator [factory.bytes, calcSize (getRandomHeight clz)] alloc
  | _ => False

/-- What an operation has to give. -/
def Steps (clz : ℕ) (list : State σ) (l : List (Entry Node)) (op : Op)
    (res : Option (Option InsertResult × State σ)) : Prop :=
  ∃ r list' l', res = some (r, list') ∧
    Stepped rank pair rankOf (Owns allocator list.alloc)
      (NoMemory (refuses allocator clz list.alloc op)) op list.lc l r list'.lc l' ∧
    Valid list' l'

/-- A node that gets a pair of the key keeps its number. -/
theorem rank_change {node : Node} (hfits : HkeyFits node.hkey node.data.data.key)
    (ho : HPairRank.rank node.hkey node.data.data.key = rankOf factory.getKey) (ptr : PairPtr) :
    (ptr.data = factory.createHint h now node.data.data →
      HPairRank.rank (node.change factory.getKey (.inPlace ptr)).hkey ptr.data.key =
        rankOf factory.getKey) ∧
    (ptr.data = factory.create h now →
      HPairRank.rank (node.change factory.getKey (.replaced ptr)).hkey ptr.data.key =
        rankOf factory.getKey) := by
  refine ⟨fun hd => ?_, fun hd => ?_⟩
  · rw [hd]
    exact (rank_createHint h hfits ho).1
  · rw [hd, factory.create_key]
    rfl

/-- An insert at the node of the key. -/
theorem insertHere_spec (clz : ℕ) {e : Entry Node} (hv : Valid list (l1 ++ e :: l2))
    (h1 : ∀ x ∈ l1, rank x < rankOf factory.getKey) (h2 : ∀ x ∈ l2, rankOf factory.getKey < rank x)
    (ho : rank e = rankOf factory.getKey) :
    ∃ r list' l', insertHere allocator list factory h now e.tower.id = some (r, list') ∧
      Inserted rank pair factory now (Owns allocator list.alloc)
        (NoMemory (refuses allocator clz list.alloc (.insert factory now)))
        (rankOf factory.getKey) list.lc (l1 ++ e :: l2) r list'.lc l' ∧ Valid list' l' := by
  have hmem := mem_mid l1 e l2
  have hchange := rank_change h now (hv.fits e hmem) ho
  obtain ⟨r, c, lc, alloc, hupd, hins⟩ := updatePair_spec rank pair allocator list.alloc h now list.lc
    e.node.data (NoMemory (refuses allocator clz list.alloc (.insert factory now)))
    (fun c => { e with node := e.node.change factory.getKey c }) h1 h2 ho rfl rfl
    (fun ptr hd => ⟨(hchange ptr).1 hd, rfl⟩) (fun ptr hd => ⟨(hchange ptr).2 hd, rfl⟩)
    fun hx => ⟨rfl, .inl hx⟩
  refine ⟨r, ⟨list.mem.set e.tower.id (e.node.change factory.getKey c), lc, alloc⟩, _, ?_, hins,
    hv.placed.set _, hins.increasing hv.increasing, hins.fits hv.fits⟩
  simp only [insertHere, hv.placed.holds e hmem, hupd, Option.bind_eq_bind, Option.bind_some,
    Option.pure_def]

theorem getRandomHeight_pos (clz : ℕ) : 0 < getRandomHeight clz :=
  lt_min (lt_max_of_lt_right Nat.one_pos) (by decide)

theorem getRandomHeight_le (clz : ℕ) : getRandomHeight clz ≤ MAX_HEIGHT := min_le_right _ _

/-- An insert of a new node. -/
theorem insertNew_spec (clz : ℕ) (hv : Valid list (l1 ++ l2))
    (h1 : ∀ x ∈ l1, rank x < rankOf factory.getKey)
    (h2 : ∀ x ∈ l2, rankOf factory.getKey < rank x) :
    ∃ r list' l', insertNew allocator list clz factory h now
        ⟨places (towers l1) 0 MAX_HEIGHT, none⟩ = some (r, list') ∧
      Inserted rank pair factory now (Owns allocator list.alloc)
        (NoMemory (refuses allocator clz list.alloc (.insert factory now)))
        (rankOf factory.getKey) list.lc (l1 ++ l2) r list'.lc l' ∧ Valid list' l' := by
  unfold insertNew createPair
  have hsame : ∀ alloc : σ, Valid ⟨list.mem, list.lc, alloc⟩ (l1 ++ l2) :=
    fun _ => ⟨hv.placed, hv.increasing, hv.fits⟩
  cases hx : allocator.xallocate factory.bytes list.alloc with
  | mk a s1 =>
    cases a with
    | none => exact ⟨_, _, _, rfl, .failed _ h ⟨rfl, .inl (congrArg Prod.fst hx)⟩, hsame _⟩
    | some addr =>
      dsimp only
      cases hy : allocator.xallocate (calcSize (getRandomHeight clz)) s1 with
      | mk b s2 =>
        cases b with
        | none =>
          have hrefuse : (allocator.xallocate (calcSize (getRandomHeight clz))
              (allocator.xallocate factory.bytes list.alloc).2).1 = none := by
            rw [hx]
            exact congrArg Prod.fst hy
          exact ⟨_, _, _, rfl, .failed _ h ⟨rfl, .inr (.inl hrefuse)⟩, hsame _⟩
        | some addr2 =>
          obtain ⟨e, he⟩ : ∃ e : Entry Node, e = ⟨⟨list.mem.count, getRandomHeight clz⟩,
            ⟨create factory.getKey, ⟨factory.create h now, ⟨addr, factory.bytes⟩⟩,
              ⟨addr2, calcSize (getRandomHeight clz)⟩⟩⟩ := ⟨_, rfl⟩
          obtain ⟨mem, hmem, hplaced⟩ := hv.placed.insert_new (getRandomHeight_pos clz)
            (getRandomHeight_le clz) e.node
          have hentry : (⟨⟨list.mem.count, getRandomHeight clz⟩, e.node⟩ : Entry Node) = e := by
            rw [he]
          rw [hentry] at hplaced
          have hdata : pair e = factory.create h now := by
            rw [he]
            rfl
          have hrank : rank e = rankOf factory.getKey := by
            rw [he, rank]
            dsimp only
            rw [factory.create_key]
            rfl
          have hins : Inserted rank pair factory now (Owns allocator list.alloc)
              (NoMemory (refuses allocator clz list.alloc (.insert factory now)))
              (rankOf factory.getKey) list.lc (l1 ++ l2) ⟨.INSERTED, some (pair e)⟩
              (list.lc.inc (pair e).bytes) (l1 ++ e :: l2) := .new l1 l2 e h h1 h2 hrank hdata
          refine ⟨⟨.INSERTED, some (pair e)⟩, ⟨mem, list.lc.inc (pair e).bytes, s2⟩,
            l1 ++ e :: l2, ?_, hins, hplaced, hins.increasing hv.increasing, hins.fits hv.fits⟩
          rw [he] at hmem
          simp only [hmem, Option.bind_eq_bind, Option.bind_some, Option.pure_def, he]
          rfl

/-- An insert changes the node of the key only. -/
theorem insertF_spec (clz : ℕ) (hv : Valid list l) (factory : Factory) (now : UInt64) :
    ∃ r list' l', insertF allocator list clz factory now = some (r, list') ∧
      Inserted rank pair factory now (Owns allocator list.alloc)
        (NoMemory (refuses allocator clz list.alloc (.insert factory now)))
        (rankOf factory.getKey) list.lc l r list'.lc l' ∧ Valid list' l' := by
  unfold insertF
  by_cases h : factory.valid = true
  · have hk : factory.getKey ≠ [] := List.ne_nil_of_length_pos (factory.valid_key h).1
    rw [dif_pos h]
    obtain ⟨l1, l2, prev, e, rfl, h1, h2, hprev⟩ := locate_spec hv true hk
    have hinc2 := (Increasing.append_iff.mp hv.increasing).2.1
    simp only [e, Option.bind_eq_bind, Option.bind_some]
    cases hhere : here factory.getKey l2 with
    | some id =>
      obtain ⟨x, rest, rfl, rfl, hr⟩ := here_eq_some.mp hhere
      exact insertHere_spec allocator h now clz hv h1
        (fun y hy => hr ▸ (Increasing.cons_iff.mp hinc2).1 y hy) hr
    | none =>
      obtain rfl := hprev (.inr hhere)
      exact insertNew_spec allocator h now clz hv h1 (above_of_here h2 hinc2 hhere)
  · rw [dif_neg h]
    exact ⟨_, _, l, rfl, .invalid h, hv⟩

/-! ## Erase -/

/-- An erase takes the node of the key out. -/
theorem erase_spec (hv : Valid list l) {key : Key} (hk : key ≠ []) :
    ∃ r list' l', erase allocator list key = some (r, list') ∧
      Erased rank pair (rankOf key) list.lc l r list'.lc l' ∧ Valid list' l' := by
  unfold erase
  obtain ⟨l1, l2, prev, e, rfl, h1, h2, hprev⟩ := locate_spec hv false hk
  obtain rfl := hprev (.inl rfl)
  have hinc2 := (Increasing.append_iff.mp hv.increasing).2.1
  simp only [e, Option.bind_eq_bind, Option.bind_some, Option.pure_def]
  cases hhere : here key l2 with
  | none =>
    have habove := above_of_here h2 hinc2 hhere
    refine ⟨_, _, l1 ++ l2, rfl, .absent fun x hx => ?_, hv⟩
    exact (List.mem_append.mp hx).elim (fun hx => (h1 x hx).ne) fun hx => (habove x hx).ne'
  | some id =>
    obtain ⟨x, rest, rfl, rfl, hr⟩ := here_eq_some.mp hhere
    have hera : Erased rank pair (rankOf key) list.lc (l1 ++ x :: rest)
        ⟨.DELETED, none⟩ (list.lc.dec (pair x).bytes) (l1 ++ rest) :=
      .found l1 rest x h1 (fun y hy => hr ▸ (Increasing.cons_iff.mp hinc2).1 y hy) hr
    obtain ⟨mem, hmem, hnodes, hplaced⟩ := hv.placed.remove
    have hnode : mem.nodes x.tower.id = some x.node := by
      rw [hnodes]
      exact hv.placed.holds x (mem_mid l1 x rest)
    refine ⟨⟨.DELETED, none⟩, ⟨mem.drop x.tower.id, list.lc.dec (pair x).bytes,
      allocator.xdeallocate x.node.block.addr
        (allocator.xdeallocate x.node.data.block.addr list.alloc)⟩, l1 ++ rest, ?_, hera, hplaced,
      hera.increasing hv.increasing, fun y hy => hv.fits y (mem_of_others hy)⟩
    simp only [hmem, hnode, deallocate, Option.bind_some, Option.bind_eq_bind, Option.pure_def]
    rfl

/-! ## Clear -/

variable (list) in
/-- The loop of `clear` gives every node back. -/
theorem deallocateNodes_spec (hc : Chain list.mem l) (hnd : (l.map fun e => e.tower.id).Nodup)
    (hpos : ∀ e ∈ l, 0 < e.tower.height) {k : ℕ} (hk : l.length < k) :
    ∃ list', deallocateNodes allocator k list (first 0 (towers l)) = some list' ∧
      list'.lc = list.lc := by
  induction l generalizing list k with
  | nil =>
    obtain ⟨k, rfl⟩ := Nat.exists_eq_add_one_of_ne_zero (Nat.ne_zero_of_lt hk)
    exact ⟨list, rfl, rfl⟩
  | cons e l ih =>
    obtain ⟨k, rfl⟩ := Nat.exists_eq_add_one_of_ne_zero (Nat.ne_zero_of_lt hk)
    obtain ⟨hn, hl, hrest⟩ := hc
    obtain ⟨hid, hnd'⟩ := List.nodup_cons.mp hnd
    have hother : ∀ x ∈ l, x.tower.id ≠ e.tower.id := fun x hx heq =>
      hid (List.mem_map.mpr ⟨x, hx, heq⟩)
    obtain ⟨list', e', hlc⟩ := ih ⟨list.mem.drop e.tower.id, list.lc,
      allocator.xdeallocate e.node.block.addr
        (allocator.xdeallocate e.node.data.block.addr list.alloc)⟩
      (hrest.drop hother) hnd' (fun x hx => hpos x (List.mem_cons_of_mem e hx))
      (Nat.lt_of_succ_lt_succ hk)
    refine ⟨list', ?_, hlc⟩
    rw [towers_cons, first_cons_of_lt (hpos e List.mem_cons_self)]
    simp only [deallocateNodes, hl, deallocate, hn, Option.bind_eq_bind, Option.bind_some,
      Option.pure_def]
    exact e'

/-- A clear empties the list. -/
theorem clear_spec (hv : Valid list l) :
    ∃ list', clear allocator list = some list' ∧ list'.lc = list.lc.clr ∧ Valid list' [] := by
  have hzero : ∀ list' : State σ, Valid (zeroing list') [] := fun list' =>
    ⟨placed_clearHeads MAX_HEIGHT list'.mem, List.Pairwise.nil,
      fun _ he => absurd he List.not_mem_nil⟩
  unfold clear
  cases allocator.reset list.alloc with
  | mk done alloc =>
    cases done with
    | true => exact ⟨_, rfl, rfl, hzero _⟩
    | false =>
      have hfirst : list.mem.next none 0 = some (first 0 (towers l)) :=
        hv.placed.stands.links [] (towers l) rfl 0 (by decide)
      have hplaced : Placed MAX_HEIGHT list.mem ([] ++ l) := hv.placed
      have hnd : (l.map fun e => e.tower.id).Nodup := by
        have hnd := hv.placed.stands.nodup
        rw [towers, List.map_map] at hnd
        exact hnd
      obtain ⟨list', e, hlc⟩ := deallocateNodes_spec allocator ⟨list.mem, list.lc, alloc⟩
        (hplaced.chain (by decide)) hnd (fun x hx => hv.placed.pos hx)
        (k := list.mem.fuel) (Nat.lt_succ_of_le hv.placed.length_le)
      refine ⟨zeroing list', ?_, congrArg ListCounter.clr hlc, hzero list'⟩
      simp only [hfirst, e, Option.bind_eq_bind, Option.bind_some, Option.pure_def]

/-- Every operation changes the nodes as one on a map does. -/
theorem step_spec (clz : ℕ) (hv : Valid list l) {op : Op} (hop : Keyed op) :
    Steps allocator clz list l op (step allocator list clz op) := by
  cases op with
  | insert factory now =>
    obtain ⟨r, list', l', e, hins, hv'⟩ := insertF_spec allocator clz hv factory now
    refine ⟨some r, list', l', ?_, .insert hins, hv'⟩
    simp only [step, e, Option.bind_eq_bind, Option.bind_some, Option.pure_def]
  | erase key =>
    obtain ⟨r, list', l', e, hera, hv'⟩ := erase_spec allocator hv hop
    refine ⟨some r, list', l', ?_, .erase hop hera, hv'⟩
    simp only [step, e, Option.bind_eq_bind, Option.bind_some, Option.pure_def]
  | clear =>
    obtain ⟨list', e, hlc, hv'⟩ := clear_spec allocator hv
    refine ⟨none, list', [], ?_, ?_, hv'⟩
    · simp only [step, e, Option.bind_eq_bind, Option.bind_some, Option.pure_def]
    · rw [hlc]
      exact .clear

end Steps

/-! ## Search and iteration -/

section Search

variable {σ : Type} {list : State σ} {l l1 l2 : List (Entry Node)}

/-- The loop of `find_` stops at the node of the key, or at the first one that is not below
it. -/
theorem findLanes_spec (hv : Valid list (l1 ++ l2)) {key : Key}
    (h1 : ∀ e ∈ l1, rank e < rankOf key) (h2 : ∀ e ∈ l2, rankOf key ≤ rank e) {h : ℕ}
    (hh : h ≤ MAX_HEIGHT) {loc node : Option ℕ}
    (hloc : ∀ g, h = g + 1 → ∃ a b, l1 = a ++ b ∧ loc = last g (towers a))
    (hdone : h = 0 → here key l2 = none ∧ node = first 0 (towers l2)) :
    findLanes list (create key) key h loc node =
      some (decide (here key l2 ≠ none), first 0 (towers l2)) := by
  have hhere : ∀ id, here key l2 = some id → first 0 (towers l2) = some id := fun id hid => by
    obtain ⟨e, rest, rfl, rfl, _⟩ := here_eq_some.mp hid
    exact first_zero_cons hv.placed
  induction h generalizing loc node with
  | zero =>
    obtain ⟨hnone, rfl⟩ := hdone rfl
    rw [findLanes, hnone]
    rfl
  | succ h ih =>
    obtain ⟨a, b, hab, rfl⟩ := hloc h rfl
    simp only [findLanes, walk_lane hv h1 h2 hab hh, isAt_first hv h2 h, Option.bind_eq_bind,
      Option.bind_some, Option.pure_def]
    by_cases hat : first h (towers l2) ≠ none ∧ first h (towers l2) = here key l2
    · have hne : here key l2 ≠ none := hat.2 ▸ hat.1
      obtain ⟨id, hid⟩ := Option.ne_none_iff_exists'.mp hne
      rw [if_pos (decide_eq_true hat), hat.2, decide_eq_true hne, hid, hhere id hid]
    · rw [if_neg fun hc => hat (of_decide_eq_true hc)]
      refine ih (Nat.le_of_succ_le hh) (fun g hg => hg ▸ exists_last_towers g l1)
        fun hz => ⟨?_, by rw [hz]⟩
      subst hz
      by_contra hc
      obtain ⟨id, hid⟩ := Option.ne_none_iff_exists'.mp hc
      have hfirst := hhere id hid
      exact hat ⟨hfirst ▸ Option.some_ne_none _, hfirst.trans hid.symm⟩

/-- The pairs of entries. -/
theorem pairsOf_spec (hv : ∀ e ∈ l, list.mem.nodes e.tower.id = some e.node) :
    pairsOf list ((towers l).map Tower.id) = some (l.map pair) := by
  induction l with
  | nil => rfl
  | cons e l ih =>
    have hrest := ih fun x hx => hv x (List.mem_cons_of_mem e hx)
    rw [pairsOf] at hrest ⊢
    rw [towers_cons, List.map_cons, List.mapM_cons, hv e List.mem_cons_self, hrest]
    rfl

/-- Iteration shows every pair once. -/
theorem pairs_valid (hv : Valid list l) : pairs list = some (l.map pair) := by
  have hplaced : Placed MAX_HEIGHT list.mem ([] ++ l) := hv.placed
  have hlane : follow list.mem.next 0 list.mem.fuel none = some ((towers l).map Tower.id) :=
    hplaced.follow_zero (by decide)
  simp only [pairs, hlane, Option.bind_eq_bind, Option.bind_some]
  exact pairsOf_spec hv.placed.holds

/-- Where the search stops. -/
theorem findNode_spec (hv : Valid list (l1 ++ l2)) {key : Key} (hk : key ≠ [])
    (h1 : ∀ e ∈ l1, rank e < rankOf key) (h2 : ∀ e ∈ l2, rankOf key ≤ rank e) (exactMatch : Bool) :
    findNode list exactMatch key =
      some (if exactMatch ∧ here key l2 = none then none else first 0 (towers l2)) := by
  have hfind : findLanes list (create key) key MAX_HEIGHT none none =
      some (decide (here key l2 ≠ none), first 0 (towers l2)) :=
    findLanes_spec hv h1 h2 le_rfl (fun g _ => ⟨[], l1, rfl, rfl⟩)
      (fun hc => absurd hc (by decide))
  rw [findNode, if_neg hk]
  simp only [hfind, Option.bind_eq_bind, Option.bind_some, Option.pure_def, decide_eq_true_eq,
    not_not]

/-- `find` shows the pairs from the first one that is not below the key. -/
theorem find_valid (hv : Valid list (l1 ++ l2)) {key : Key} (hk : key ≠ [])
    (h1 : ∀ e ∈ l1, rank e < rankOf key) (h2 : ∀ e ∈ l2, rankOf key ≤ rank e) :
    find list key = some (l2.map pair) := by
  have hnode := findNode_spec hv hk h1 h2 false
  rw [if_neg fun hc => Bool.false_ne_true hc.1] at hnode
  cases l2 with
  | nil =>
    rw [find, hnode]
    rfl
  | cons e l2 =>
    have hplaced : Placed MAX_HEIGHT list.mem ((l1 ++ [e]) ++ l2) :=
      List.append_cons l1 e l2 ▸ hv.placed
    have hlane := hplaced.follow_zero (by decide)
    have hlast : last 0 (towers (l1 ++ [e])) = some e.tower.id := by
      rw [towers_append]
      exact last_concat_of_lt (hv.placed.pos (mem_mid l1 e l2)) _
    rw [hlast] at hlane
    rw [first_zero_cons hv.placed] at hnode
    simp only [find, hnode, hlane, Option.bind_eq_bind, Option.bind_some]
    exact pairsOf_spec (l := e :: l2) fun x hx =>
      hv.placed.holds x (List.mem_append_right l1 hx)

/-- `getPair___` shows the pair of a node that has the rank of the key. -/
theorem getPair_here {e : Entry Node} (hv : Valid list (l1 ++ e :: l2)) {key : Key} (hk : key ≠ [])
    (h1 : ∀ e ∈ l1, rank e < rankOf key) (h2 : ∀ x ∈ e :: l2, rankOf key ≤ rank x)
    (he : rank e = rankOf key) : getPair list key = some (some (pair e)) := by
  have hnode := findNode_spec hv hk h1 h2 true
  rw [here, if_pos he, if_neg fun hc => Option.some_ne_none _ hc.2, first_zero_cons hv.placed]
    at hnode
  simp only [getPair, hnode, hv.placed.holds e (mem_mid l1 e l2), Option.bind_eq_bind,
    Option.bind_some, Option.pure_def]
  rfl

/-- Without such a node it shows nothing. -/
theorem getPair_none (hv : Valid list (l1 ++ l2)) {key : Key} (hk : key ≠ [])
    (h1 : ∀ e ∈ l1, rank e < rankOf key) (h2 : ∀ e ∈ l2, rankOf key ≤ rank e)
    (hnone : here key l2 = none) : getPair list key = some none := by
  have hnode := findNode_spec hv hk h1 h2 true
  rw [if_pos ⟨rfl, hnone⟩] at hnode
  simp only [getPair, hnode, Option.bind_eq_bind, Option.bind_some, Option.pure_def]

end Search

end HM4.SkipListContents
