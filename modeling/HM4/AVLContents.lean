import HM4.AVLSearch
import HM4.AVLClear

/-!
# What the AVL list holds

An insert puts a node in a free place, changes the pair of a node or puts a node in
the place of another one. An erase takes a node out that has at most one child. The
links stay a balanced tree, and its pairs change as those of a plain map.
-/

namespace HM4.AVLContents

open Bytes Pairs PairFactory MemList DiskTable KeyedList Footprint LinkedTree LinkedTree.LTree
  LinkedTree.Ctx LinkedTree.Links AVLList AVLLinks AVLBalance AVLOrder AVLSearch

/-! ## Nodes that come and go -/

theorem mem_idsOf_tree {t : LTree Item} {p : Option ℕ} {m : ℕ} (hm : m ∉ t.ids) :
    m ∉ idsOf [LTree.piece p t] := by
  rw [idsOf_cons, idsOf_nil, List.append_nil]
  exact hm

/-- A new node below a node without a child on a side. -/
theorem attach_spec {s : Links Item} {c : Ctx Item} {d : Dir} {i m : ℕ} {v w : Item}
    {x : LTree Item} (h : s.Stands (plug c (join d i v nil x)))
    (hm : m ∉ (plug c (join d i v nil x)).ids) :
    ∃ s', Links.write ⟨Function.update s.heap m (some ⟨none, none, some i, w⟩), s.root⟩ (some i)
        (fun n => n.setChild d (some m)) = some s' ∧
      s'.Stands (plug c (join d i v (node m w nil nil) x)) := by
  have hroot := h.focus.1
  have h1 := h.holds.alloc (mem_idsOf_tree hm) ⟨none, none, some i, w⟩
  have h2 := Holds.same [_] [] h1 (same_plug none c (join d i v nil x))
  have h3 := Holds.same [_, _] [] h2 (same_join (parent none c) d i v nil x)
  rw [addr_join] at h3
  obtain ⟨s', e, r, h4⟩ := write_spec (s := ⟨_, s.root⟩) [_, _] h3
    (fun n => n.setChild d (some m))
  rw [Node.setChild_mk'] at h4
  have h5 := Holds.same [_, _, _] [_] h4 (same_nil (some i))
  have h6 := Holds.back [] [_, _] h5
  have h7 := Holds.same [_, _] [_] h6 (same_leaf (some i) m w).symm
  exact ⟨s', e, Stands.of_focus (r.trans hroot) h7⟩

/-- A new node in the place of another one, which goes. -/
theorem replace_spec {s : Links Item} {c : Ctx Item} {b m : ℕ} {v : Item} {x y : LTree Item}
    (h : s.Stands (plug c (join .left b v x y))) (hm : m ∉ (plug c (join .left b v x y)).ids)
    (n : Node Item) :
    ∃ s', copyLinks ⟨Function.update s.heap m (some n), s.root⟩ m b = some s' ∧
      s'.get (some b) = some ⟨none, none, none, withBalance v (-2)⟩ ∧
      Links.Stands ⟨Function.update s'.heap b none, s'.root⟩
        (plug c (join .left m (withBalance n.val v.balance) x y)) := by
  have h1 := h.holds.alloc (mem_idsOf_tree hm) n
  have hroot : (Links.mk (Function.update s.heap m (some n)) s.root).root = rootAddr c (some b) :=
    h.focus.1
  obtain ⟨s', e, r, h2⟩ := copyLinks_spec hroot h1
  refine ⟨s', e, Links.get_eq [] h2, ?_, ?_⟩
  · rw [addr_plug, addr_join]
    exact r
  · exact h2.free fun j hj => Function.update_of_ne hj none s'.heap

/-- The balance of a cell goes up. -/
theorem incBalance_cell {s : Links Item} {i : ℕ} {n : Node Item} {qs : List (Piece (Node Item))}
    (ps : List (Piece (Node Item))) (h : Holds s.heap (ps ++ (cell i n :: qs))) :
    ∃ s', incBalance s (some i) = some s' ∧ s'.root = s.root ∧ Holds s'.heap
      (ps ++ (cell i { n with val := withBalance n.val (n.val.balance + 1) } :: qs)) := by
  obtain ⟨s', e, r, h'⟩ := write_spec ps h fun x =>
    { x with val := { x.val with balance := n.val.balance + 1 } }
  refine ⟨s', ?_, r, h'⟩
  simp only [incBalance, getBalance, Links.get_eq ps h, Option.bind_eq_bind, Option.bind_some,
    Option.pure_def]
  exact e

/-- The balance of a cell goes down. -/
theorem decBalance_cell {s : Links Item} {i : ℕ} {n : Node Item} {qs : List (Piece (Node Item))}
    (ps : List (Piece (Node Item))) (h : Holds s.heap (ps ++ (cell i n :: qs))) :
    ∃ s', decBalance s (some i) = some s' ∧ s'.root = s.root ∧ Holds s'.heap
      (ps ++ (cell i { n with val := withBalance n.val (n.val.balance - 1) } :: qs)) := by
  obtain ⟨s', e, r, h'⟩ := write_spec ps h fun x =>
    { x with val := { x.val with balance := n.val.balance - 1 } }
  refine ⟨s', ?_, r, h'⟩
  simp only [decBalance, getBalance, Links.get_eq ps h, Option.bind_eq_bind, Option.bind_some,
    Option.pure_def]
  exact e

/-! ## The nodes in order -/

/-- Keys increase, every node was allocated and the counter is right. -/
structure Fits (next : ℕ) (lc : ListCounter) (l : List (ℕ × Pair)) : Prop where
  sorted : Increasing Pair.key (l.map Prod.snd)
  fresh : ∀ e ∈ l, e.1 < next
  counts : Counts lc (l.map Prod.snd)

section Fits

variable {next : ℕ} {lc : ListCounter} {l1 l2 : List (ℕ × Pair)} {i : ℕ} {p q : Pair}

/-- The keys around an entry. -/
theorem Fits.around (h : Fits next lc (l1 ++ (i, p) :: l2)) :
    (∀ r ∈ l1.map Prod.snd, r.key < p.key) ∧ ∀ r ∈ l2.map Prod.snd, p.key < r.key := by
  have hs := h.sorted
  rw [List.map_append, List.map_cons] at hs
  obtain ⟨_, hs2, hs12⟩ := Increasing.append_iff.mp hs
  exact ⟨fun r hr => hs12 r hr p List.mem_cons_self, (Increasing.cons_iff.mp hs2).1⟩

/-- A node more. -/
theorem Fits.insert (h : Fits next lc (l1 ++ l2)) {bytes : ℕ} (hp : p.bytes = bytes)
    (h1 : ∀ r ∈ l1.map Prod.snd, r.key < p.key) (h2 : ∀ r ∈ l2.map Prod.snd, p.key < r.key) :
    Fits (next + 1) (lc.inc bytes) (l1 ++ (next, p) :: l2) where
  sorted := by
    have hs := h.sorted
    rw [List.map_append] at hs
    obtain ⟨hs1, hs2, hs12⟩ := Increasing.append_iff.mp hs
    rw [List.map_append, List.map_cons]
    refine Increasing.append_iff.mpr ⟨hs1, Increasing.cons_iff.mpr ⟨h2, hs2⟩, fun x hx y hy => ?_⟩
    rcases List.mem_cons.mp hy with rfl | hy
    · exact h1 x hx
    · exact hs12 x hx y hy
  fresh e he := by
    rcases List.mem_append.mp he with he | he
    · exact (h.fresh e (List.mem_append_left _ he)).trans (Nat.lt_succ_self next)
    · rcases List.mem_cons.mp he with rfl | he
      · exact Nat.lt_succ_self next
      · exact (h.fresh e (List.mem_append_right _ he)).trans (Nat.lt_succ_self next)
  counts := by
    have hc := h.counts
    rw [List.map_append] at hc
    rw [List.map_append, List.map_cons]
    exact hc.inc hp

/-- A node less. -/
theorem Fits.remove (h : Fits next lc (l1 ++ (i, p) :: l2)) {bytes : ℕ} (hp : p.bytes = bytes) :
    Fits next (lc.dec bytes) (l1 ++ l2) where
  sorted := by
    have hsub : (l1 ++ l2).Sublist (l1 ++ (i, p) :: l2) :=
      (List.sublist_cons_self (i, p) l2).append_left l1
    exact h.sorted.sublist (hsub.map Prod.snd)
  fresh e he := by
    rcases List.mem_append.mp he with he | he
    · exact h.fresh e (List.mem_append_left _ he)
    · exact h.fresh e (List.mem_append_right _ (List.mem_cons_of_mem _ he))
  counts := by
    have hc := h.counts
    rw [List.map_append, List.map_cons] at hc
    rw [List.map_append]
    exact hc.dec hp

/-- A pair changed in its node. -/
theorem Fits.update (h : Fits next lc (l1 ++ (i, p) :: l2)) {so sn : ℕ} (hso : p.bytes = so)
    (hsn : q.bytes = sn) (hk : q.key = p.key) : Fits next (lc.upd so sn) (l1 ++ (i, q) :: l2) where
  sorted := by
    have hs := h.sorted
    obtain ⟨h1, h2⟩ := h.around
    rw [List.map_append, List.map_cons] at hs ⊢
    obtain ⟨hs1, hs2, hs12⟩ := Increasing.append_iff.mp hs
    refine Increasing.append_iff.mpr ⟨hs1, Increasing.cons_iff.mpr
      ⟨hk ▸ h2, (Increasing.cons_iff.mp hs2).2⟩, fun x hx y hy => ?_⟩
    rcases List.mem_cons.mp hy with rfl | hy
    · exact hk ▸ h1 x hx
    · exact hs12 x hx y (List.mem_cons_of_mem p hy)
  fresh e he := by
    rcases List.mem_append.mp he with he | he
    · exact h.fresh e (List.mem_append_left _ he)
    · rcases List.mem_cons.mp he with rfl | he
      · exact h.fresh (i, p) (List.mem_append_right _ List.mem_cons_self)
      · exact h.fresh e (List.mem_append_right _ (List.mem_cons_of_mem _ he))
  counts := by
    have hc := h.counts
    rw [List.map_append, List.map_cons] at hc ⊢
    exact hc.upd hso hsn

/-- A new node in the place of another one. -/
theorem Fits.replace (h : Fits next lc (l1 ++ (i, p) :: l2)) {so sn : ℕ} (hso : p.bytes = so)
    (hsn : q.bytes = sn) (hk : q.key = p.key) :
    Fits (next + 1) ((lc.inc sn).dec so) (l1 ++ (next, q) :: l2) where
  sorted := by
    have hs := (h.update rfl rfl hk).sorted
    rw [List.map_append, List.map_cons] at hs ⊢
    exact hs
  fresh e he := by
    rcases List.mem_append.mp he with he | he
    · exact (h.fresh e (List.mem_append_left _ he)).trans (Nat.lt_succ_self next)
    · rcases List.mem_cons.mp he with rfl | he
      · exact Nat.lt_succ_self next
      · exact (h.fresh e (List.mem_append_right _ (List.mem_cons_of_mem _ he))).trans
          (Nat.lt_succ_self next)
  counts := by
    have hc := h.counts
    rw [List.map_append, List.map_cons] at hc
    have hd : Counts ((lc.inc sn).dec so) ((l1.map Prod.snd ++ [q]) ++ l2.map Prod.snd) := by
      refine Counts.dec ?_ hso
      rw [List.append_assoc]
      exact hc.inc hsn
    rw [List.append_assoc] at hd
    rw [List.map_append, List.map_cons]
    exact hd

end Fits

/-! ## The list -/

variable {σ : Type}

/-- The representation invariant: the links of a balanced tree whose nodes fit. -/
structure Valid (list : AVL σ) (t : LTree Item) : Prop where
  stands : list.links.Stands t
  avl : Avl t
  fits : Fits list.next list.lc (cells t)

theorem ids_perm_cells (t : LTree Item) : t.ids.Perm ((cells t).map Prod.fst) := by
  have h := ids_perm_entries t
  rw [cells, List.map_map]
  exact h

/-- No node in the tree has the number of the next one. -/
theorem Valid.next_not_mem {list : AVL σ} {t : LTree Item} (h : Valid list t) :
    list.next ∉ t.ids := by
  intro hm
  obtain ⟨e, he, heq⟩ := List.mem_map.mp ((ids_perm_cells t).mem_iff.mp hm)
  exact absurd (h.fits.fresh e he) (by omega)

/-- There is fuel for every way in the tree. -/
theorem Valid.fuel {list : AVL σ} {t : LTree Item} (h : Valid list t) :
    t.ids.length + 1 < list.fuel := by
  have hsub : t.ids ⊆ List.range list.next := fun i hi => by
    obtain ⟨e, he, heq⟩ := List.mem_map.mp ((ids_perm_cells t).mem_iff.mp hi)
    exact List.mem_range.mpr (heq ▸ h.fits.fresh e he)
  have hle := List.Nodup.length_le_of_subset h.stands.nodup hsub
  rw [List.length_range] at hle
  unfold AVL.fuel
  omega

theorem stands_nil {s : Links Item} (h : s.root = none) : s.Stands nil :=
  ⟨h, fun _ hx => List.mem_singleton.mp hx ▸ trivial, List.nodup_nil⟩

theorem valid_empty (alloc : σ) : Valid (AVL.empty alloc) nil where
  stands := stands_nil rfl
  avl := trivial
  fits := ⟨List.Pairwise.nil, fun _ he => absurd he List.not_mem_nil, counts_zero⟩

/-- What the allocator of a list says to an operation. -/
def answers (allocator : Allocator σ) (list : AVL σ) (op : Op) (a : Answer) : Prop :=
  match op with
  | .insert factory _ =>
    a.memory = (allocator.xallocate (INTERNAL_NODE_SIZE + factory.bytes) list.alloc).1.isSome ∧
      (∃ addr, a.owned = allocator.owns addr list.alloc) ∧ a.refused = false
  | _ => True

/-- What an insert has to give: the result of a plain map with the pairs of the list, and a
list that holds the pairs of the map. -/
def Inserts (allocator : Allocator σ) (list : AVL σ) (factory : Factory) (now : UInt64)
    (t : LTree Item) (res : Option (InsertResult × AVL σ)) : Prop :=
  ∃ r list' t' a, res = some (r, list') ∧ answers allocator list (.insert factory now) a ∧
    plainInsert factory now a.owned a.memory (pairsOf t) = (r, pairsOf t') ∧ Valid list' t'

section Insert

variable (allocator : Allocator σ) {list : AVL σ} {factory : Factory}
  (h : factory.valid = true) (now : UInt64)

/-- Without memory there is no node. -/
theorem allocateNode_none (parent : Option ℕ)
    (hm : (allocator.xallocate (INTERNAL_NODE_SIZE + factory.bytes) list.alloc).1.isSome = false) :
    ∃ alloc, allocateNode allocator list factory h now parent =
      (none, { list with alloc := alloc }) := by
  unfold allocateNode
  split
  · next alloc _ => exact ⟨alloc, rfl⟩
  · next he => rw [he] at hm; exact absurd hm.symm Bool.false_ne_true

/-- With memory there is a node with the next number. -/
theorem allocateNode_some (parent : Option ℕ)
    (hm : (allocator.xallocate (INTERNAL_NODE_SIZE + factory.bytes) list.alloc).1.isSome = true) :
    ∃ addr alloc, allocateNode allocator list factory h now parent = (some list.next, {
      links := ⟨Function.update list.links.heap list.next
        (some ⟨none, none, parent, ⟨0, factory.create h now, addr⟩⟩), list.links.root⟩
      next := list.next + 1
      lc := list.lc.inc factory.bytes
      alloc := alloc }) := by
  unfold allocateNode
  split
  · next he => rw [he] at hm; exact absurd hm Bool.false_ne_true
  · next addr alloc _ => exact ⟨addr, alloc, rfl⟩

/-- The nodes around a free place. -/
theorem cells_hole (c : Ctx Item) :
    cells (plug c nil) = (before c).map shown ++ (after c).map shown := cells_plug c nil

/-- The nodes with a new one in a free place. -/
theorem cells_leaf (c : Ctx Item) (m : ℕ) (w : Item) :
    cells (plug c (node m w nil nil)) =
      (before c).map shown ++ (m, w.data) :: (after c).map shown := cells_plug c _

/-- The balance of a node below which a new one is leans to that side. -/
theorem lean_spec {s : Links Item} {c : Ctx Item} {d : Dir} {i : ℕ} {v : Item} {x y : LTree Item}
    (hs : s.Stands (plug c (join d i v x y))) :
    ∃ s', (if d = .left then decBalance s (some i) else incBalance s (some i)) = some s' ∧
      s'.Stands (plug c (join d i (withBalance v (v.balance + sign d)) x y)) := by
  cases d with
  | left => exact decBalance_spec hs
  | right => exact incBalance_spec hs

/-- A new leaf lets its parent grow. -/
theorem grown_leaf {d : Dir} {i m : ℕ} {v w : Item} {x : LTree Item} (hw : w.balance = 0)
    (ha : Avl (join d i v nil x)) : Grown (join d i v nil x).height d
      (withBalance v (v.balance + sign d)) (node m w nil nil) x := by
  obtain ⟨hv, hlo, hhi, _, hx⟩ := avl_join.mp ha
  have hleaf : (node m w nil nil : LTree Item).height = 1 := rfl
  have hnil : (nil : LTree Item).height = 0 := rfl
  rw [hnil] at hv
  refine ⟨⟨?_, ?_, ?_, trivial, trivial⟩, hx, ?_, ?_⟩
  · rw [hw]
    rfl
  · omega
  · omega
  · rw [withBalance_balance, hleaf]
    cases d <;> simp only [sign] at hv ⊢ <;> omega
  · rw [height_join, withBalance_balance, hleaf, hnil]
    cases d <;> simp only [sign] at hv ⊢ <;> omega

/-- An insert below a node with a free place where the key belongs. -/
theorem insertBelow_spec {t : LTree Item} (hl : Valid list t) {i : ℕ} {d : Dir}
    (hp : Located factory.getKey t (.below i d)) :
    Inserts allocator list factory now t (insertBelow allocator list factory h now i d) := by
  obtain ⟨c, v, x, cs, rfl, hb⟩ := hp
  have hparts := hb.parts
  have hplug : plug (⟨d, i, v, x⟩ :: c) nil = plug c (join d i v nil x) := rfl
  rw [hplug] at hparts
  obtain ⟨hpairs, h1, h2⟩ := hparts
  cases hm : (allocator.xallocate (INTERNAL_NODE_SIZE + factory.bytes) list.alloc).1.isSome with
  | false =>
    obtain ⟨alloc, e⟩ := allocateNode_none allocator h now (some i) hm
    refine ⟨⟨.ERROR_NO_MEMORY, none⟩, { list with alloc := alloc }, plug c (join d i v nil x),
      ⟨allocator.owns 0 list.alloc, false, false⟩, ?_, ⟨hm.symm, ⟨0, rfl⟩, rfl⟩, ?_,
      ⟨hl.stands, hl.avl, hl.fits⟩⟩
    · unfold insertBelow
      rw [e]
    · rw [hpairs, plainInsert_new h now _ _ h1 h2]
      rfl
  | true =>
    obtain ⟨addr, alloc, e⟩ := allocateNode_some allocator h now (some i) hm
    obtain ⟨s1, e1, hs1⟩ := attach_spec (w := ⟨0, factory.create h now, addr⟩) hl.stands
      hl.next_not_mem
    obtain ⟨s2, e2, hs2⟩ := lean_spec hs1
    obtain ⟨hjoin, hctx⟩ := avl_plug.mp hl.avl
    have hlen : c.length < list.next + 1 + 2 := by
      have hways : c.length ≤ _ ∧ (join d i v nil x).height ≤ _ := ways_le le_rfl
      have hfuel := hl.fuel
      unfold AVL.fuel at hfuel
      omega
    obtain ⟨s3, t', e3, hs3, ht3, hc3⟩ := rebalanceAfterInsert_spec hlen hs2
      (grown_leaf rfl hjoin) hctx
    have hcells : cells t' = (before (⟨d, i, v, x⟩ :: c)).map shown ++
        (list.next, factory.create h now) :: (after (⟨d, i, v, x⟩ :: c)).map shown := by
      rw [hc3, ← cells_leaf (⟨d, i, v, x⟩ :: c) list.next ⟨0, factory.create h now, addr⟩]
      exact cells_plug_congr (cells_join_congr rfl rfl)
    have hkey := factory.create_key h now
    have hfits := hl.fits
    rw [← hplug, cells_hole] at hfits
    refine ⟨⟨.INSERTED, some (factory.create h now)⟩, ⟨s3, list.next + 1, list.lc.inc factory.bytes,
      alloc⟩, t', ⟨allocator.owns 0 list.alloc, true, false⟩, ?_, ⟨hm.symm, ⟨0, rfl⟩, rfl⟩, ?_, hs3, ht3, ?_⟩
    · unfold insertBelow
      rw [e]
      dsimp only
      simp only [e1, Option.bind_eq_bind, Option.bind_some]
      unfold AVL.fuel
      dsimp only
      split_ifs at e2 ⊢
      · rw [e2, Option.bind_some, e3]
        rfl
      · rw [e2, Option.bind_some, e3]
        rfl
    · rw [hpairs, plainInsert_new h now _ _ h1 h2, if_pos rfl, pairsOf, hcells, List.map_append,
        List.map_cons, map_shown, map_shown]
      rfl
    · rw [hcells]
      refine hfits.insert (factory.create_bytes h now) ?_ ?_
      · rw [map_shown, hkey]
        exact h1
      · rw [map_shown, hkey]
        exact h2

/-- An insert at the node of the key. -/
theorem insertHere_spec {t : LTree Item} (hl : Valid list t) {i : ℕ}
    (hp : Located factory.getKey t (.here i)) :
    Inserts allocator list factory now t (insertHere allocator list factory h now i) := by
  obtain ⟨c, v, l, r, rfl, hk⟩ := hp
  have hstands : list.links.Stands (plug c (join .left i v l r)) := hl.stands
  have hget : list.links.get (some i) = some ⟨l.addr, r.addr, parent none c, v⟩ := hstands.get_eq
  have hpairs := pairsOf_focus c i v l r
  have hfits := hl.fits
  rw [cells_focus] at hfits
  have h1 : ∀ p ∈ pairsBefore c ++ pairsOf l, p.key < factory.getKey := by
    have hb := hfits.around.1
    rw [List.map_append, map_shown, hk] at hb
    exact hb
  let a : Answer := ⟨allocator.owns (v.addr + offsetofData) list.alloc,
    (allocator.xallocate (INTERNAL_NODE_SIZE + factory.bytes) list.alloc).1.isSome, false⟩
  have ha : answers allocator list (.insert factory now) a := ⟨rfl, ⟨_, rfl⟩, rfl⟩
  have hplain : plainInsert factory now a.owned a.memory
      (_ ++ v.data :: (pairsOf r ++ pairsAfter c)) = _ :=
    plainInsert_old h now a.owned a.memory h1 hk
  rw [← hpairs] at hplain
  unfold insertHere
  simp only [hget, Option.bind_eq_bind, Option.bind_some, Option.pure_def]
  by_cases hr : ¬isValidForReplace factory.getCreated v.data
  · rw [if_pos hr] at hplain ⊢
    exact ⟨_, _, _, a, rfl, ha, hplain, hl⟩
  · rw [if_neg hr] at hplain ⊢
    by_cases ho : a.owned = true ∧ factory.bytes ≤ v.data.bytes
    · obtain ⟨s', e, hs'⟩ := hstands.write_val fun w =>
        { w with data := factory.createHint h now v.data }
      have htree : plug c (join .left i { v with data := factory.createHint h now v.data } l r) =
          plug c (node i { v with data := factory.createHint h now v.data } l r) := rfl
      rw [if_pos ho] at hplain
      rw [tryUpdateInPlaceLC, if_pos ho]
      simp only [e, Option.bind_some]
      refine ⟨_, _, _, a, rfl, ha, ?_, hs', ?_, ?_⟩
      · rw [hplain, htree, pairsOf_focus]
      · have hv := hl.avl
        rw [avl_plug] at hv ⊢
        exact hv
      · rw [htree, cells_focus]
        exact hfits.update rfl rfl ((factory.createHint_key h now _ hk).trans hk.symm)
    · rw [if_neg ho] at hplain
      rw [tryUpdateInPlaceLC, if_neg ho]
      cases hm : (allocator.xallocate (INTERNAL_NODE_SIZE + factory.bytes) list.alloc).1.isSome with
      | false =>
        obtain ⟨alloc, e⟩ := allocateNode_none allocator h now (some i) hm
        have hmem : ¬a.memory = true := fun hc => Bool.false_ne_true (hm.symm.trans hc)
        rw [if_neg hmem] at hplain
        rw [e]
        exact ⟨_, _, _, a, rfl, ha, hplain, hl.stands, hl.avl, hl.fits⟩
      | true =>
        obtain ⟨addr, alloc, e⟩ := allocateNode_some allocator h now (some i) hm
        obtain ⟨s', e', hb, hs'⟩ := replace_spec hstands hl.next_not_mem
          ⟨none, none, some i, ⟨0, factory.create h now, addr⟩⟩
        have hmem : a.memory = true := hm
        rw [if_pos hmem] at hplain
        rw [e]
        simp only [e', Option.bind_some, deallocate, hb, Option.bind_eq_bind, Option.pure_def]
        refine ⟨_, _, _, a, rfl, ha, ?_, hs', ?_, ?_⟩
        · have hnew := pairsOf_focus c list.next
            (withBalance ⟨0, factory.create h now, addr⟩ v.balance) l r
          rw [hplain]
          exact congrArg _ hnew.symm
        · have hv := hl.avl
          rw [avl_plug] at hv ⊢
          exact hv
        · have hcells := cells_focus c list.next
            (withBalance ⟨0, factory.create h now, addr⟩ v.balance) l r
          have hf := hfits.replace rfl (factory.create_bytes h now)
            ((factory.create_key h now).trans hk.symm)
          exact hcells.symm ▸ hf

/-- `insertF` is the insert of a plain map. -/
theorem insertF_spec {t : LTree Item} (hl : Valid list t) :
    Inserts allocator list factory now t (insertF allocator list factory now) := by
  unfold insertF
  by_cases h : factory.valid = true
  · rw [dif_pos h]
    have hkey : factory.getKey ≠ [] := List.ne_nil_of_length_pos (factory.valid_key h).1
    cases hroot : list.links.root with
    | none =>
      obtain rfl : t = nil := addr_eq_none.mp (hl.stands.root_eq.symm.trans hroot)
      have hplain : ∀ memory, plainInsert factory now (allocator.owns 0 list.alloc) memory
          ([] ++ []) = _ := fun memory =>
        plainInsert_new h now _ memory (fun _ hp => absurd hp List.not_mem_nil)
          (fun _ hp => absurd hp List.not_mem_nil)
      have hempty : Fits list.next list.lc ([] ++ []) := hl.fits
      cases hm : (allocator.xallocate (INTERNAL_NODE_SIZE + factory.bytes) list.alloc).1.isSome with
      | false =>
        obtain ⟨alloc, e⟩ := allocateNode_none allocator h now none hm
        dsimp only
        rw [e]
        exact ⟨_, _, nil, ⟨allocator.owns 0 list.alloc, false, false⟩, rfl, ⟨hm.symm, ⟨0, rfl⟩, rfl⟩,
          hplain false, hl.stands, hl.avl, hl.fits⟩
      | true =>
        obtain ⟨addr, alloc, e⟩ := allocateNode_some allocator h now none hm
        dsimp only
        rw [e]
        refine ⟨_, _, node list.next ⟨0, factory.create h now, addr⟩ nil nil,
          ⟨allocator.owns 0 list.alloc, true, false⟩, rfl, ⟨hm.symm, ⟨0, rfl⟩, rfl⟩, hplain true, ⟨rfl, ?_⟩,
          ⟨rfl, ?_, ?_, trivial, trivial⟩, ?_⟩
        · have halloc := hl.stands.holds.alloc (mem_idsOf_tree hl.next_not_mem)
            ⟨none, none, none, ⟨0, factory.create h now, addr⟩⟩
          have h1 := Holds.same [_] [] halloc (same_nil none)
          exact Holds.same [] [] h1 (same_leaf none _ _).symm
        · exact (by decide : (-1 : ℤ) ≤ 0)
        · exact (by decide : (0 : ℤ) ≤ 1)
        · exact hempty.insert (factory.create_bytes h now)
            (fun _ hp => absurd hp List.not_mem_nil) (fun _ hp => absurd hp List.not_mem_nil)
    | some root =>
      have hsorted : Increasing Pair.key (pairsOf t) := hl.fits.sorted
      have hfuel := hl.fuel
      have hway := height_le_ids t
      obtain ⟨place, e, hplace⟩ := locate_spec (c := []) hl.stands (between_root hkey hsorted)
        (hl.stands.root_eq.symm.trans hroot) (by omega : t.height < list.fuel)
      simp only [e, Option.bind_eq_bind, Option.bind_some]
      cases place with
      | below i d => exact insertBelow_spec allocator h now hl hplace
      | here i => exact insertHere_spec allocator h now hl hplace
  · rw [dif_neg h]
    exact ⟨_, _, t, ⟨allocator.owns 0 list.alloc, (allocator.xallocate (INTERNAL_NODE_SIZE +
      factory.bytes) list.alloc).1.isSome, false⟩, rfl, ⟨rfl, ⟨0, rfl⟩, rfl⟩,
      plainInsert_invalid h _ _ _ _, hl⟩

end Insert

section Erase

variable (allocator : Allocator σ) {list : AVL σ}

/-- The heap of a tree that lost a node below a frame, and the frame's balance moved. -/
theorem erased_below {fuel : ℕ} {s : Links Item} {f : Frame Item} {c : Ctx Item} {x : LTree Item}
    (h : s.Stands (plug c (join f.dir f.id (withBalance f.val (f.val.balance - sign f.dir)) x
      f.sib))) (hx : Avl x) (hc : CtxAvl (f :: c) (x.height + 1)) (hf : c.length < fuel) :
    ∃ s' t', (if f.val.balance - sign f.dir = -sign f.dir then some s
        else rebalanceAfterErase fuel s f.id) = some s' ∧
      s'.Stands t' ∧ Avl t' ∧ cells t' = cells (plug (f :: c) x) := by
  have hcells : cells (plug c (join f.dir f.id (withBalance f.val (f.val.balance - sign f.dir)) x
      f.sib)) = cells (plug (f :: c) x) := cells_plug_congr (cells_join_congr rfl rfl)
  by_cases hb : f.val.balance - sign f.dir = -sign f.dir
  · rw [if_pos hb]
    exact ⟨s, _, rfl, h, shrunk_stays hx rfl hc hb, hcells⟩
  · obtain ⟨d, x', y', heq, hs⟩ := shrunk_parent hx rfl hc hb
    rw [← heq] at h hcells
    obtain ⟨s', t', e, h', ht', hc'⟩ := rebalanceAfterErase_spec hf h hs hc.2.2.2.2
    rw [if_neg hb]
    exact ⟨s', t', e, h', ht', hc'.trans hcells⟩

/-- Links that are followed by a rebalancing or not are put into a list. -/
theorem put_links {c : Prop} [Decidable c] {g : Links Item → AVL σ} {s s' : Links Item}
    {x : Option (Links Item)} (e : (if c then some s else x) = some s') :
    (if c then some (g s) else x.bind fun a => some (g a)) = some (g s') := by
  by_cases hc : c
  · rw [if_pos hc] at e ⊢
    rw [Option.some.inj e]
  · rw [if_neg hc] at e ⊢
    rw [e, Option.bind_some]

/-- A node with at most one child is taken out. -/
theorem eraseNode_spec (list : AVL σ) {c : Ctx Item} {d : Dir} {i : ℕ} {v : Item} {x : LTree Item}
    (h : list.links.Stands (plug c (join d i v x nil))) (hx : Avl x)
    (hc : CtxAvl c (x.height + 1)) (hf : c.length < list.fuel) :
    ∃ s' t', eraseNode allocator list i = some ⟨s', list.next, list.lc.dec v.data.bytes,
        allocator.xdeallocate v.addr list.alloc⟩ ∧
      s'.Stands t' ∧ Avl t' ∧ cells t' = cells (plug c x) := by
  have hget : list.links.get (some i) = some (Node.mk' d x.addr none (parent none c) v) := h.get_eq
  have hchild : (if (Node.mk' d x.addr none (parent none c) v).l ≠ none then
      (Node.mk' d x.addr none (parent none c) v).l else
      (Node.mk' d x.addr none (parent none c) v).r) = x.addr := by
    cases d with
    | left => cases hxa : x.addr <;> rfl
    | right => rfl
  obtain ⟨s1, e1, r1, h1⟩ := setParent_spec [_, _] h.focus.2 (parent none c)
  have h2 := Holds.same [_, _, _] [] h1 (same_nil (some i))
  have h3 := Holds.forth [] [_] h2
  have hroot := r1.trans h.focus.1
  cases c with
  | nil =>
    have gi : s1.get (some i) = some (Node.mk' d x.addr none none v) := Links.get_eq [] h3
    have h4 := h3.free fun j hj => Function.update_of_ne hj none s1.heap
    refine ⟨⟨Function.update s1.heap i none, x.addr⟩, x, ?_, ⟨rfl, h4.of_append [_]⟩, hx, rfl⟩
    rw [parent_nil] at hget hchild e1
    unfold eraseNode
    simp only [hget, Node.p_mk', Node.val_mk', hchild, e1, deallocate, gi, Option.bind_eq_bind,
      Option.bind_some, Option.pure_def]
  | cons f c =>
    rw [List.length_cons] at hf
    have hl := parent_l_iff h (addr_join d i v x nil)
    have h4 := Holds.same [_] [_] h3 (same_frame none f c (some i))
    have gp := Links.get_eq [_] h4
    obtain ⟨s2, e2, r2, h5⟩ := write_spec [_] h4 fun n => n.setChild f.dir x.addr
    rw [Node.setChild_mk'] at h5
    have hdone : ∀ s3 : Links Item, s3.root = s2.root → Holds s3.heap
        [cell i (Node.mk' d x.addr none (some f.id) v), cell f.id (Node.mk' f.dir x.addr f.sib.addr
          (parent none c) (withBalance f.val (f.val.balance - sign f.dir))),
          LTree.piece (some f.id) f.sib, Ctx.piece none c (some f.id), LTree.piece (some f.id) x] →
        s3.get (some i) = some (Node.mk' d x.addr none (some f.id) v) ∧
          Links.Stands ⟨Function.update s3.heap i none, s3.root⟩ (plug c (join f.dir f.id
            (withBalance f.val (f.val.balance - sign f.dir)) x f.sib)) := by
      intro s3 r3 h6
      have h7 := h6.free fun j hj => Function.update_of_ne hj none s3.heap
      have h8 := Holds.forth [] [_, _] h7
      have h9 := Holds.forth [_, _] [_] h8
      exact ⟨Links.get_eq [] h6, Stands.of_focus ((r3.trans r2).trans hroot) h9⟩
    cases hd : f.dir with
    | left =>
      rw [hd] at hl gp e2 h5 hdone
      obtain ⟨s3, e3, r3, h6⟩ := incBalance_cell [_] h5
      obtain ⟨gi, hs⟩ := hdone s3 r3 h6
      have hbal := getBalance_spec hs
      rw [← hd] at hs
      obtain ⟨s', t', e, h', ht', hcells⟩ := erased_below hs hx hc (by omega : c.length < list.fuel)
      refine ⟨s', t', ?_, h', ht', hcells⟩
      rw [hd] at e
      rw [parent_cons] at hget hchild e1
      unfold eraseNode
      simp only [hget, Node.p_mk', Node.val_mk', hchild, e1, gp, hl.mpr rfl, if_true, e2, e3,
        deallocate, gi, hbal, Option.bind_eq_bind, Option.bind_some, Option.pure_def]
      exact put_links (g := fun a => ⟨a, list.next, list.lc.dec v.data.bytes,
        allocator.xdeallocate v.addr list.alloc⟩) e
    | right =>
      rw [hd] at hl gp e2 h5 hdone
      have hside : ¬some i = (Node.mk' .right (some i) f.sib.addr (parent none c) f.val).l :=
        fun he => absurd (hl.mp he.symm) (by decide)
      obtain ⟨s3, e3, r3, h6⟩ := decBalance_cell [_] h5
      obtain ⟨gi, hs⟩ := hdone s3 r3 h6
      have hbal := getBalance_spec hs
      rw [← hd] at hs
      obtain ⟨s', t', e, h', ht', hcells⟩ := erased_below hs hx hc (by omega : c.length < list.fuel)
      refine ⟨s', t', ?_, h', ht', hcells⟩
      rw [hd] at e
      rw [parent_cons] at hget hchild e1
      unfold eraseNode
      simp only [hget, Node.p_mk', Node.val_mk', hchild, e1, gp, if_neg hside, e2, e3, deallocate,
        gi, hbal, Option.bind_eq_bind, Option.bind_some, Option.pure_def]
      exact put_links (g := fun a => ⟨a, list.next, list.lc.dec v.data.bytes,
        allocator.xdeallocate v.addr list.alloc⟩) e

/-- A search ends at the node of the key or tells that no pair has it. -/
theorem search_valid {t : LTree Item} (hl : Valid list t) (key : Key) :
    ∃ x, search list.links key list.fuel ⟨0, 0⟩ list.links.root = some x ∧ Searched key t x := by
  have hfuel := hl.fuel
  have hway := height_le_ids t
  rw [hl.stands.root_eq]
  by_cases hk : key = []
  · subst hk
    exact ⟨none, search_empty (c := []) hl.stands (by omega), fun p _ => p.key_ne_nil⟩
  · exact search_spec (c := []) hl.stands (between_root hk hl.fits.sorted) (by omega)

/-- Only the balance of a frame matters for the frames around it. -/
theorem ctxAvl_swap (f f' : Frame Item) (hd : f'.dir = f.dir) (hs : f'.sib = f.sib)
    (hb : f'.val.balance = f.val.balance) {c1 c : Ctx Item} {k : ℕ} (h : CtxAvl (c1 ++ f :: c) k) :
    CtxAvl (c1 ++ f' :: c) k := by
  induction c1 generalizing k with
  | nil =>
    rw [List.nil_append, CtxAvl] at h ⊢
    rw [hd, hs, hb]
    exact h
  | cons g c1 ih =>
    rw [List.cons_append, CtxAvl] at h ⊢
    exact ⟨h.1, h.2.1, h.2.2.1, h.2.2.2.1, ih h.2.2.2.2⟩

/-- The nodes of a tree whose first one goes. -/
theorem cells_first {c : Ctx Item} (hc : ∀ f ∈ c, f.dir = .left) (b : ℕ) (v : Item)
    (y : LTree Item) :
    cells (plug c (join .left b v nil y)) = (b, v.data) :: cells (plug c y) := by
  have h1 : cells (plug c (join .left b v nil y)) = _ := run_plug_of_flip (d := .right) hc _
  have h2 : cells (plug c y) = _ := run_plug_of_flip (d := .right) hc _
  rw [h1, h2]
  exact congrArg (· ++ _) (run_join .right b v y nil)

/-- The nodes in order when a node goes: by itself if it has at most one child, else in the
place of its successor. -/
theorem eraseFound_spec {c : Ctx Item} {i : ℕ} {v : Item} {l r : LTree Item}
    (hl : Valid list (plug c (node i v l r))) :
    ∃ s' t', eraseFound allocator list i = some ⟨s', list.next, list.lc.dec v.data.bytes,
        allocator.xdeallocate v.addr list.alloc⟩ ∧
      s'.Stands t' ∧ Avl t' ∧
      cells t' = ((before c).map shown ++ cells l) ++ (cells r ++ (after c).map shown) := by
  have hstands : list.links.Stands (plug c (join .left i v l r)) := hl.stands
  have hget : list.links.get (some i) = some ⟨l.addr, r.addr, parent none c, v⟩ := hstands.get_eq
  have hways : c.length ≤ _ ∧ (node i v l r).height ≤ _ := ways_le le_rfl
  have hfuel := hl.fuel
  unfold eraseFound
  simp only [hget, Option.bind_eq_bind, Option.bind_some]
  obtain ⟨⟨hbal, hlo, hhi, hal, har⟩, hctx⟩ := avl_plug.mp hl.avl
  cases hla : l.addr with
  | none =>
    obtain rfl : l = nil := addr_eq_none.mp hla
    have hctx' : CtxAvl c (r.height + 1) := by
      rw [height, height, Nat.zero_max] at hctx
      exact hctx
    obtain ⟨s', t', e, hs', ht', hcells⟩ :=
      eraseNode_spec allocator list (d := .right) hl.stands har hctx' (by omega)
    refine ⟨s', t', e, hs', ht', ?_⟩
    · rw [hcells, cells_plug]
      exact congrArg (· ++ _) (List.append_nil _).symm
  | some j =>
    cases hra : r.addr with
    | none =>
      obtain rfl : r = nil := addr_eq_none.mp hra
      have hctx' : CtxAvl c (l.height + 1) := by
        rw [height, height.eq_1, Nat.max_zero] at hctx
        exact hctx
      obtain ⟨s', t', e, hs', ht', hcells⟩ :=
        eraseNode_spec allocator list (d := .left) hl.stands hal hctx' (by omega)
      refine ⟨s', t', e, hs', ht', ?_⟩
      · rw [hcells, cells_plug, List.append_assoc]
        rfl
    | some k =>
      have hright : list.links.Stands (plug (⟨.right, i, v, l⟩ :: c) r) := hl.stands
      rw [height] at hways
      obtain ⟨c2, b, vb, y, eb, rfl, hdir⟩ := getEndNode_focus (d := .left) hright hra
        (by omega : r.height < list.fuel)
      rw [← plug_append] at hright
      obtain ⟨s1, e1, hs1⟩ := swapLinks_spec hright
      have hall := hl.avl
      have htree : plug c (node i v l (plug c2 (join .left b vb nil y))) =
          plug (c2 ++ ⟨.right, i, v, l⟩ :: c) (join .left b vb nil y) := by
        rw [plug_append]
        rfl
      have hlong : (c2 ++ (⟨.right, i, v, l⟩ : Frame Item) :: c).length ≤ _ ∧
          (join .left b vb nil y).height ≤ _ := ways_le le_rfl
      rw [← htree] at hlong
      rw [htree] at hall
      obtain ⟨hb, hctx2⟩ := avl_plug.mp hall
      have hctx3 : CtxAvl (c2 ++ ⟨.right, b, withBalance vb v.balance, l⟩ :: c) (y.height + 1) := by
        rw [height_join, height.eq_1, Nat.zero_max] at hctx2
        exact ctxAvl_swap ⟨.right, i, v, l⟩ ⟨.right, b, withBalance vb v.balance, l⟩ rfl rfl rfl
          hctx2
      obtain ⟨s', t', e, hs', ht', hcells⟩ := eraseNode_spec allocator { list with links := s1 }
        (d := .right) hs1 (avl_join.mp hb).2.2.2.2 hctx3 (by
          rw [List.length_append, List.length_cons] at hlong ⊢
          have hf : AVL.fuel { list with links := s1 } = list.fuel := rfl
          omega)
      refine ⟨s', t', ?_, hs', ht', ?_⟩
      · simp only [eb, e1, Option.bind_some]
        exact e
      · have hfocus : plug (c2 ++ ⟨.right, b, withBalance vb v.balance, l⟩ :: c) y =
            plug c (node b (withBalance vb v.balance) l (plug c2 y)) := by
          rw [plug_append]
          rfl
        rw [hcells, hfocus, cells_focus, cells_first hdir]
        rfl

/-- `erase___` is the erase of a plain map. -/
theorem erase_spec {t : LTree Item} (hl : Valid list t) (key : Key) :
    ∃ r list' t', erase allocator list key = some (r, list') ∧
      plainErase key (pairsOf t) = (r, pairsOf t') ∧ Valid list' t' := by
  obtain ⟨x, e, hx⟩ := search_valid hl key
  unfold erase
  simp only [e, Option.bind_eq_bind, Option.bind_some]
  cases x with
  | none => exact ⟨_, _, t, rfl, plainErase_absent hx, hl⟩
  | some i =>
    obtain ⟨c, v, l, r, rfl, hk⟩ := hx
    obtain ⟨s', t', e', hs', ht', hcells⟩ := eraseFound_spec allocator hl
    have hfits := hl.fits
    rw [cells_focus] at hfits
    have h1 : ∀ p ∈ pairsBefore c ++ pairsOf l, p.key < key := by
      have hb := hfits.around.1
      rw [List.map_append, map_shown, hk] at hb
      exact hb
    refine ⟨⟨.DELETED, none⟩, ⟨s', list.next, list.lc.dec v.data.bytes,
      allocator.xdeallocate v.addr list.alloc⟩, t', ?_, ?_, hs', ht', ?_⟩
    · simp only [e', Option.bind_some, Option.pure_def]
    · have ht : pairsOf t' = (pairsBefore c ++ pairsOf l) ++ (pairsOf r ++ pairsAfter c) := by
        rw [pairsOf, hcells]
        simp only [List.map_append, map_shown]
        rfl
      rw [pairsOf_focus, plainErase_old h1 hk, ht]
    · rw [hcells]
      exact hfits.remove rfl

end Erase

/-! ## Runs -/

/-- The list holds the pairs of a map. -/
def Represents (list : AVL σ) (m : List Pair) : Prop := ∃ t, Valid list t ∧ pairsOf t = m

section Runs

variable (allocator : Allocator σ) {list : AVL σ}

/-- Every operation on the list is the one on a plain map. -/
theorem step_spec (op : Op) {list : AVL σ} {t : LTree Item} (hl : Valid list t) :
    ∃ r list' t' a, answers allocator list op a ∧ step allocator list op = some (r, list') ∧
      plainStep op a (pairsOf t) = (r, pairsOf t') ∧ Valid list' t' := by
  cases op with
  | insert factory now =>
    obtain ⟨r, list', t', a, e, ha, hplain, hv⟩ : Inserts allocator list factory now t _ :=
      insertF_spec allocator now hl
    refine ⟨some r, list', t', a, ha, ?_, ?_, hv⟩
    · simp only [step, e, Option.bind_eq_bind, Option.bind_some, Option.pure_def]
    · have hr : ¬(factory.valid = true ∧ a.refused = true) := fun hc =>
        Bool.false_ne_true (ha.2.2.symm.trans hc.2)
      rw [plainStep, if_neg hr, hplain]
  | erase key =>
    obtain ⟨r, list', t', e, hplain, hv⟩ := erase_spec allocator hl key
    refine ⟨some r, list', t', ⟨false, false, false⟩, trivial, ?_, ?_, hv⟩
    · simp only [step, e, Option.bind_eq_bind, Option.bind_some, Option.pure_def]
    · rw [plainStep, hplain]
  | clear =>
    obtain ⟨heap, alloc, e⟩ := AVLClear.clear_spec allocator hl.stands
      ((Nat.lt_succ_self _).trans hl.fuel)
    refine ⟨none, ⟨⟨heap, none⟩, list.next, list.lc.clr, alloc⟩, nil, ⟨false, false, false⟩, trivial, ?_,
      rfl, stands_nil rfl, trivial, List.Pairwise.nil, fun e he => absurd he List.not_mem_nil,
      hl.fits.counts.clr⟩
    simp only [step, e, Option.bind_eq_bind, Option.bind_some, Option.pure_def]

variable {t : LTree Item} (hl : Valid list t)

include hl

/-- `find` shows the pairs from the first one that is not below the key. -/
theorem find_valid {key : Key} (hk : key ≠ []) :
    find list key = some (fromKey Pair.key key (pairsOf t)) := by
  have hfuel := hl.fuel
  have hway := height_le_ids t
  have hlen : (cells t).length = t.ids.length := by
    rw [(ids_perm_cells t).length_eq, List.length_map]
  unfold find
  cases hroot : list.links.root with
  | none =>
    obtain rfl : t = nil := addr_eq_none.mp (hl.stands.root_eq.symm.trans hroot)
    rfl
  | some root =>
    obtain ⟨x, e, l1, l2, hcells, rfl, h1, h2⟩ := findNode_spec (c := []) (k := list.fuel) hl.stands
      (between_root hk hl.fits.sorted) (hl.stands.root_eq.symm.trans hroot)
      ((Nat.lt_succ_self _).trans hfuel) (by omega)
    have hcut : cells t = l1 ++ l2 := hcells
    have hl2 : l2.length < list.fuel := by
      rw [hcut, List.length_append] at hlen
      omega
    have hrun : iterate .right list.links list.fuel list.fuel (l2.head?.map Prod.fst) =
        some (l2.map Prod.snd) :=
      iterate_spec hl.stands ((Nat.lt_succ_self _).trans hfuel) hcut hl2
    have hpairs : pairsOf t = l1.map Prod.snd ++ l2.map Prod.snd := by
      rw [pairsOf, hcut, List.map_append]
    simp only [e, hrun, Option.bind_eq_bind, Option.bind_some]
    rw [hpairs, fromKey_append h1 h2]

/-- Iterating in a direction from the end on the other side shows all pairs. -/
theorem iterate_all {d : Dir} {root : ℕ} (hroot : list.links.root = some root) :
    (do
      let x ← getEndNode d.flip list.links list.fuel root
      iterate d list.links list.fuel list.fuel (some x)) = some ((run d t).map Prod.snd) := by
  have hfuel := hl.fuel
  have hway := height_le_ids t
  have hlen : (run d t).length = t.ids.length := by
    rw [(ids_perm_cells t).length_eq, List.length_map]
    cases d with
    | left => exact List.length_reverse
    | right => rfl
  obtain ⟨j, p, rest, e, hrun⟩ := getEndNode_spec (d := d) (c := []) hl.stands
    (hl.stands.root_eq.symm.trans hroot) (by omega : t.height < list.fuel)
  have hit : iterate d list.links list.fuel list.fuel ((run d t).head?.map Prod.fst) =
      some ((run d t).map Prod.snd) :=
    iterate_spec hl.stands ((Nat.lt_succ_self _).trans hfuel) (List.nil_append _).symm
      (by rw [hlen]; omega)
  rw [hrun, List.head?_cons, Option.map_some] at hit
  rw [hrun]
  simp only [e, hit, Option.bind_eq_bind, Option.bind_some]

/-- Forward iteration shows every pair once. -/
theorem forward_valid : forward list = some (pairsOf t) := by
  unfold forward
  cases hroot : list.links.root with
  | none =>
    obtain rfl : t = nil := addr_eq_none.mp (hl.stands.root_eq.symm.trans hroot)
    rfl
  | some root => exact iterate_all (d := .right) hl hroot

/-- Backward iteration shows every pair once. -/
theorem backward_valid : backward list = some (pairsOf t).reverse := by
  unfold backward
  cases hroot : list.links.root with
  | none =>
    obtain rfl : t = nil := addr_eq_none.mp (hl.stands.root_eq.symm.trans hroot)
    rfl
  | some root =>
    rw [pairsOf, ← List.map_reverse]
    exact iterate_all (d := .left) hl hroot

/-- `getPair___` gives the pair of a key. -/
theorem getPair_valid (key : Key) : getPair list key = some (get key (pairsOf t)) := by
  obtain ⟨x, e, hx⟩ := search_valid hl key
  unfold getPair
  simp only [e, Option.bind_eq_bind, Option.bind_some, Option.pure_def]
  cases x with
  | none => exact congrArg some (lookup_eq_none hx).symm
  | some i =>
    obtain ⟨c, v, l, r, rfl, hk⟩ := hx
    have hstands : list.links.Stands (plug c (join .left i v l r)) := hl.stands
    have hget : list.links.get (some i) = some ⟨l.addr, r.addr, parent none c, v⟩ :=
      hstands.get_eq
    have h1 : ∀ p ∈ pairsBefore c ++ pairsOf l, p.key < key := by
      rw [← hk]
      have hs : Increasing Pair.key (pairsOf (plug c (node i v l r))) := hl.fits.sorted
      exact (around_node hs rfl).1
    dsimp only
    rw [hget, pairsOf_focus]
    exact congrArg some (lookup_at h1 hk).symm

end Runs

/-- In every run the list goes along with a plain map: its links are a tree whose nodes know
their parents, the stored balances are right, the keys increase, its pairs are those of the
map, a search ends at the first key that is not below, and both iterations show all pairs. -/
theorem run_refines {σ : Type} (allocator : Allocator σ) (alloc : σ) (ops : List Op) :
    ∃ list m t, Together (fun op list => step allocator list op) (answers allocator)
        (AVL.empty alloc) [] ops list m ∧
      list.links.Stands t ∧ Avl t ∧ pairsOf t = m ∧ Increasing Pair.key m ∧
      (∀ key ≠ [], find list key = some (fromKey Pair.key key m)) ∧
      (∀ key, getPair list key = some (get key m)) ∧
      forward list = some m ∧ backward list = some m.reverse := by
  have hstep : ∀ op (list : AVL σ) m, Represents list m → ∃ r list' m' a,
      answers allocator list op a ∧ step allocator list op = some (r, list') ∧
      plainStep op a m = (r, m') ∧ Represents list' m' := by
    rintro op list m ⟨t, hv, rfl⟩
    obtain ⟨r, list', t', a, ha, hlist, hplain, hv'⟩ := step_spec allocator op hv
    exact ⟨r, list', pairsOf t', a, ha, hlist, hplain, t', hv', rfl⟩
  obtain ⟨list, m, hrun, t, hv, rfl⟩ :=
    Together.exists_of_step hstep ops ⟨nil, valid_empty alloc, rfl⟩
  exact ⟨list, pairsOf t, t, hrun, hv.stands, hv.avl, rfl, hv.fits.sorted,
    fun key hk => find_valid hv hk, getPair_valid hv, forward_valid hv, backward_valid hv⟩

end HM4.AVLContents
