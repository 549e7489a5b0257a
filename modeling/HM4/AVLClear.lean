import HM4.AVLList
import Mathlib.Data.List.Perm.Subperm

/-!
# Clearing the AVL list

To free the nodes of a tree without a stack, the last node of a left subtree gets a
pointer to the node above, which loses its left child. Step by step the tree becomes
a list, and every node is freed when it has no left child. Parents are not looked at.
-/

namespace HM4.AVLClear

open Footprint LinkedTree LinkedTree.LTree LinkedTree.Links MemList AVLList

/-- The right pointer of a node whose last successor in its tree points to an address. -/
def tail (a : Option ℕ) : LTree Item → Option ℕ
  | nil => a
  | node i _ _ _ => some i

/-- A tree stands in the heap, with some parents, and its last node points to an address. -/
def Threaded (h : Heap (Node Item)) (parents : ℕ → Option ℕ) : Option ℕ → LTree Item → Prop
  | _, nil => True
  | a, node i v l r => h i = some ⟨l.addr, tail a r, parents i, v⟩ ∧ Threaded h parents none l ∧
      Threaded h parents a r

theorem Threaded.frame {h h' : Heap (Node Item)} {parents : ℕ → Option ℕ} {a : Option ℕ}
    {t : LTree Item} (hag : ∀ i ∈ t.ids, h' i = h i) (ht : Threaded h parents a t) :
    Threaded h' parents a t := by
  induction t generalizing a with
  | nil => trivial
  | node i v l r ihl ihr =>
    obtain ⟨hi, hl, hr⟩ := ht
    rw [LTree.ids] at hag
    refine ⟨(hag i List.mem_cons_self).trans hi, ihl (fun j hj => ?_) hl, ihr (fun j hj => ?_) hr⟩
    · exact hag j (List.mem_cons_of_mem i (List.mem_append_left _ hj))
    · exact hag j (List.mem_cons_of_mem i (List.mem_append_right _ hj))

/-- A tree with its last pointer, as a piece of the heap. -/
def thread (parents : ℕ → Option ℕ) (a : Option ℕ) (t : LTree Item) : Piece (Node Item) where
  ids := t.ids
  holds h := Threaded h parents a t
  frame hag ht := ht.frame hag

/-- A tree put behind the last node of another one. -/
def hang : LTree Item → LTree Item → LTree Item
  | nil, x => x
  | node i v l r, x => node i v l (hang r x)

variable {parents : ℕ → Option ℕ}

theorem same_thread_nil (a : Option ℕ) : Same [thread parents a nil] [] :=
  ⟨List.Perm.refl _, fun _ => ⟨fun _ _ hx => absurd hx List.not_mem_nil,
    fun _ => holds_one.mpr trivial⟩⟩

theorem same_thread_node (a : Option ℕ) (i : ℕ) (v : Item) (l r : LTree Item) :
    Same [thread parents a (node i v l r)]
      [cell i ⟨l.addr, tail a r, parents i, v⟩, thread parents none l, thread parents a r] where
  ids := by
    simp only [idsOf_cons, idsOf_nil, List.append_nil]
    exact List.Perm.refl _
  holds h := by
    rw [holds_one, holds_three]
    exact Iff.rfl

theorem tail_hang {a b : Option ℕ} {x : LTree Item} (ha : tail a x = b) (t : LTree Item) :
    tail a (hang t x) = tail b t := by
  cases t with
  | nil => exact ha
  | node i v l r => rfl

/-- A tree to which the last node of another one points is hung there. -/
theorem same_hang {a : Option ℕ} {i : ℕ} {v : Item} {l r : LTree Item} (t : LTree Item) :
    Same [thread parents (some i) t, thread parents a (node i v l r)]
      [thread parents a (hang t (node i v l r))] := by
  induction t with
  | nil =>
    refine ⟨List.Perm.refl _, fun h => ?_⟩
    rw [holds_two, holds_one]
    exact ⟨fun hx => hx.2, fun hx => ⟨trivial, hx⟩⟩
  | node j w x y ihx ihy =>
    have htail : tail a (hang y (node i v l r)) = tail (some i) y := tail_hang rfl y
    constructor
    · have hids := ihy.ids
      simp only [idsOf_cons, idsOf_nil, List.append_nil] at hids ⊢
      have hy : (hang y (node i v l r)).ids.Perm (y.ids ++ (node i v l r).ids) := hids
      have hgoal : (j :: (x.ids ++ (hang y (node i v l r)).ids)).Perm
          ((j :: (x.ids ++ y.ids)) ++ (node i v l r).ids) := by
        rw [List.cons_append, List.append_assoc]
        exact (hy.append_left x.ids).cons j
      exact hgoal
    · intro h
      have hh := ihy.holds h
      rw [holds_two, holds_one] at hh ⊢
      have hy : Threaded h parents (some i) y ∧ Threaded h parents a (node i v l r) ↔
        Threaded h parents a (hang y (node i v l r)) := hh
      have hgoal : (h j = some ⟨x.addr, tail (some i) y, parents j, w⟩ ∧ Threaded h parents none x ∧
          Threaded h parents (some i) y) ∧ Threaded h parents a (node i v l r) ↔
          h j = some ⟨x.addr, tail a (hang y (node i v l r)), parents j, w⟩ ∧
            Threaded h parents none x ∧ Threaded h parents a (hang y (node i v l r)) := by
        rw [htail, ← hy]
        tauto
      exact hgoal

/-- Every tree is threaded with the parents it has. -/
theorem threaded_of_linked {h : Heap (Node Item)} {p : Option ℕ} {t : LTree Item}
    (ht : Linked h p t) : Threaded h (fun i => (h i).bind Node.p) none t := by
  induction t generalizing p with
  | nil => trivial
  | node i v l r ihl ihr =>
    obtain ⟨hi, hl, hr⟩ := ht
    refine ⟨?_, ihl hl, ihr hr⟩
    have htail : tail none r = r.addr := by cases r <;> rfl
    have hp : (h i).bind Node.p = p := by rw [hi, Option.bind_some]
    dsimp only
    rw [hp, htail, hi]

/-- The inner loop ends at the last node of a tree, which can be pointed elsewhere. -/
theorem getThreadNode_spec {s : Links Item} {node a fuel : ℕ} {t : LTree Item}
    {qs : List (Piece (Node Item))} (ps : List (Piece (Node Item)))
    (h : Holds s.heap (ps ++ (thread parents none t :: qs))) (ha : t.addr = some a)
    (hn : node ∉ t.ids) (hf : t.height < fuel) :
    ∃ tmp m s', getThreadNode s node fuel a = some tmp ∧ s.get (some tmp) = some m ∧ m.r = none ∧
      s.write (some tmp) (fun x => x.setChild .right (some node)) = some s' ∧ s'.root = s.root ∧
      Holds s'.heap (ps ++ (thread parents (some node) t :: qs)) := by
  obtain ⟨fuel, rfl⟩ : ∃ m, fuel = m + 1 := ⟨fuel - 1, by omega⟩
  induction t generalizing a fuel ps qs with
  | nil => exact absurd ha.symm (Option.some_ne_none a)
  | node i v l r ihl ihr =>
    obtain rfl := Option.some_inj.mp ha
    have h1 := h.same ps qs (same_thread_node none i v l r)
    have hget := Links.get_eq ps h1
    rw [LTree.ids] at hn
    rw [height] at hf
    cases r with
    | nil =>
      obtain ⟨s', e, hr, h2⟩ := write_spec ps h1 fun x => x.setChild .right (some node)
      refine ⟨i, _, s', ?_, hget, rfl, e, hr, h2.same ps qs (same_thread_node _ i v l nil).symm⟩
      simp only [getThreadNode, hget, tail, Option.bind_eq_bind, Option.bind_some]
    | node j w x y =>
      have h2 : Holds s.heap ((ps ++ [cell i ⟨l.addr, some j, parents i, v⟩, thread parents none l])
          ++ (thread parents none (.node j w x y) :: qs)) := by
        rw [List.append_assoc]
        exact h1
      have hne : j ≠ node := by
        rintro rfl
        exact hn (List.mem_cons_of_mem _ (List.mem_append_right _ List.mem_cons_self))
      obtain ⟨fuel, rfl⟩ : ∃ m, fuel = m + 1 := ⟨fuel - 1, by omega⟩
      obtain ⟨tmp, m, s', e, hm, hr, hw, hroot, h3⟩ := ihr _ h2 rfl
        (fun hc => hn (List.mem_cons_of_mem _ (List.mem_append_right _ hc))) fuel (by omega)
      rw [List.append_assoc] at h3
      refine ⟨tmp, m, s', ?_, hm, hr, hw, hroot, h3.same ps qs (same_thread_node _ i v l _).symm⟩
      rw [getThreadNode]
      simp only [hget, tail, if_neg hne, e, Option.bind_eq_bind, Option.bind_some]

/-- How often the outer loop goes round. -/
def rounds : LTree Item → ℕ
  | nil => 0
  | node _ _ l r => rounds l + rounds r + if l.addr = none then 1 else 2

theorem rounds_le (t : LTree Item) : rounds t ≤ 2 * t.ids.length := by
  induction t with
  | nil => exact Nat.zero_le _
  | node i v l r ihl ihr =>
    rw [rounds, LTree.ids, List.length_cons, List.length_append]
    split <;> omega

theorem rounds_hang (t x : LTree Item) : rounds (hang t x) = rounds t + rounds x := by
  induction t with
  | nil => exact (Nat.zero_add _).symm
  | node i v l r ihl ihr =>
    rw [hang, rounds, rounds, ihr]
    omega

theorem length_hang (t x : LTree Item) : (hang t x).ids.length = t.ids.length + x.ids.length := by
  induction t with
  | nil => exact (Nat.zero_add _).symm
  | node i v l r ihl ihr =>
    rw [hang, LTree.ids, LTree.ids, List.length_cons, List.length_cons, List.length_append,
      List.length_append, ihr]
    omega

theorem addr_hang {t x : LTree Item} {a : ℕ} (ht : t.addr = some a) : (hang t x).addr = some a := by
  cases t with
  | nil => exact absurd ht.symm (Option.some_ne_none a)
  | node i v l r => exact ht

theorem entries_hang (t x : LTree Item) : (hang t x).entries = t.entries ++ x.entries := by
  induction t with
  | nil => rfl
  | node i v l r ihl ihr =>
    simp only [hang, LTree.entries, ihr, List.append_assoc, List.cons_append]

section Clear

variable {σ : Type} (allocator : Allocator σ)

/-- The allocator's state after some nodes were freed, one after the other. -/
def freeAll (nodes : List (ℕ × Item)) (alloc : σ) : σ :=
  nodes.foldl (fun alloc node => allocator.xdeallocate node.2.addr alloc) alloc

/-- The outer loop frees a whole tree, from its first node to its last; everything else in the
heap stays as it is. -/
theorem deallocateNodes_spec {k : ℕ} (list : AVL σ) {t : LTree Item} {qs : List (Piece (Node Item))}
    (h : Holds list.links.heap (thread parents none t :: qs)) (hf : t.ids.length < list.fuel)
    (hk : rounds t < k) :
    ∃ list', deallocateNodes allocator k list t.addr = some list' ∧ list'.next = list.next ∧
      list'.lc = list.lc ∧ list'.links.root = list.links.root ∧
      list'.alloc = freeAll allocator t.entries list.alloc ∧
      (∀ i ∈ t.ids, list'.links.heap i = none) ∧ Holds list'.links.heap qs := by
  obtain ⟨k, rfl⟩ : ∃ m, k = m + 1 := ⟨k - 1, by omega⟩
  induction k generalizing list t qs with
  | zero =>
    cases t with
    | nil => exact ⟨list, rfl, rfl, rfl, rfl, rfl, fun i hi => absurd hi List.not_mem_nil,
        h.of_append [_]⟩
    | node i v l r =>
      rw [rounds] at hk
      split at hk <;> omega
  | succ k ih =>
    cases t with
    | nil => exact ⟨list, rfl, rfl, rfl, rfl, rfl, fun i hi => absurd hi List.not_mem_nil,
        h.of_append [_]⟩
    | node i v l r =>
      have htail : tail none r = r.addr := by cases r <;> rfl
      have h1 := Holds.same [] qs h (same_thread_node none i v l r)
      rw [htail] at h1
      have hget : list.links.get (some i) = some ⟨l.addr, r.addr, parents i, v⟩ :=
        Links.get_eq [] h1
      rw [rounds] at hk
      rw [LTree.ids, List.length_cons, List.length_append] at hf
      cases hl : l.addr with
      | none =>
        have hlnil := LTree.addr_eq_none.mp hl
        rw [hl] at hget hk
        rw [if_pos rfl] at hk
        have h2 := Holds.freed h1
        -- the freed address is carried along, so that it stays without a cell
        have h3 : Holds (Function.update list.links.heap i none)
            (thread parents none r :: slot i none :: qs) := by
          have hperm : (thread parents none r :: slot i none :: qs).Perm
              (slot i none :: thread parents none r :: qs) := List.Perm.swap _ _ _
          refine Holds.perm ?_ hperm
          rw [hlnil] at h2
          exact Holds.same [_] (thread parents none r :: qs) h2 (same_thread_nil none)
        obtain ⟨list', e, hnext, hlc, hroot, halloc, hnone, hqs⟩ := ih { list with
          links := { list.links with heap := Function.update list.links.heap i none }
          alloc := allocator.xdeallocate v.addr list.alloc } h3
          (lt_of_le_of_lt (by omega) hf) (by omega)
        refine ⟨list', ?_, hnext, hlc, hroot, ?_, ?_, hqs.of_append [_]⟩
        · rw [addr, deallocateNodes]
          simp only [hget, deallocate, Option.bind_eq_bind, Option.bind_some, Option.pure_def]
          exact e
        · rw [halloc, hlnil]
          rfl
        · intro j hj
          rw [hlnil] at hj
          rcases List.mem_cons.mp hj with rfl | hj
          · exact hqs.all (slot j none) List.mem_cons_self
          · exact hnone j hj
      | some a =>
        rw [hl] at hget hk
        rw [if_neg (Option.some_ne_none a)] at hk
        have hnd := h.nodup
        rw [idsOf_cons] at hnd
        have hni : i ∉ l.ids := fun hm =>
          (List.nodup_cons.mp (List.nodup_append.mp hnd).1).1 (List.mem_append_left _ hm)
        have hway := height_le_ids l
        obtain ⟨tmp, m, s1, e1, hm, hr, hw, hroot, h2⟩ := getThreadNode_spec [_] h1 hl hni
          (by omega : l.height < list.fuel)
        obtain ⟨s2, e2, r2, h3⟩ := write_spec [] h2 fun x => x.setChild .left none
        -- the node and its right subtree now hang below the last node of the left subtree
        have h4 : Holds s2.heap (cell i ⟨none, tail none r, parents i, v⟩ ::
            thread parents (some i) l :: thread parents none r :: qs) := htail ▸ h3
        have h5 := Holds.forth [] [_] h4
        have hnil : Same [thread parents none nil] [] := same_thread_nil none
        have h6 := Holds.same [_, _] (thread parents none r :: qs) h5 hnil.symm
        have h7 := Holds.same [_] qs h6 (same_thread_node none i v nil r).symm
        have h8 := Holds.same [] qs h7 (same_hang l)
        have hids : (hang l (node i v nil r)).ids.length = l.ids.length + r.ids.length + 1 := by
          rw [length_hang]
          exact (Nat.add_assoc _ _ _).symm ▸ rfl
        have hrounds : rounds (hang l (node i v nil r)) = rounds l + rounds r + 1 := by
          rw [rounds_hang, rounds, rounds, addr, if_pos rfl, Nat.zero_add, Nat.add_assoc]
        obtain ⟨list', e, hnext, hlc, hroot', halloc, hnone, hqs⟩ :=
          ih { list with links := s2 } h8 (hids ▸ hf) (by omega)
        rw [addr_hang hl] at e
        have hentries : (hang l (node i v nil r)).entries = (node i v l r).entries :=
          entries_hang l _
        refine ⟨list', ?_, hnext, hlc, ?_, ?_, ?_, hqs⟩
        · rw [addr, deallocateNodes]
          simp only [hget, e1, hm, hr, hw, e2, if_true, Option.bind_eq_bind, Option.bind_some]
          exact e
        · rw [hroot', r2, hroot]
        · rw [halloc, hentries]
        · intro j hj
          refine hnone j ((ids_perm_entries _).mem_iff.mpr ?_)
          rw [hentries]
          exact (ids_perm_entries _).mem_iff.mp hj

/-- A clear leaves no node. -/
theorem clear_spec {list : AVL σ} {t : LTree Item} (h : list.links.Stands t)
    (hf : t.ids.length < list.fuel) :
    ∃ heap alloc, clear allocator list = some ⟨⟨heap, none⟩, list.next, list.lc.clr, alloc⟩ := by
  unfold clear deallocateTree
  split
  · exact ⟨_, _, rfl⟩
  · next alloc _ =>
    have hthread : Holds list.links.heap [thread (fun i => (list.links.heap i).bind Node.p) none t] :=
      ⟨fun x hx => List.mem_singleton.mp hx ▸
        threaded_of_linked (h.holds.all _ (List.mem_singleton.mpr rfl)), h.holds.nodup⟩
    have hr := rounds_le t
    obtain ⟨list', e, hn, hlc, -⟩ := deallocateNodes_spec allocator
      { list with alloc := alloc } hthread hf (by omega : rounds t < 2 * list.fuel)
    rw [h.root_eq, e]
    exact ⟨list'.links.heap, list'.alloc, by rw [← hn, ← hlc]; rfl⟩

/-- A tree by its child links alone; the parents may be anything. -/
def Children (h : Heap (Node Item)) : LTree Item → Prop
  | nil => True
  | node i v l r => (∃ p, h i = some ⟨l.addr, r.addr, p, v⟩) ∧ Children h l ∧ Children h r

theorem threaded_of_children {h : Heap (Node Item)} {t : LTree Item} (ht : Children h t) :
    Threaded h (fun i => (h i).bind Node.p) none t := by
  induction t with
  | nil => trivial
  | node i v l r ihl ihr =>
    obtain ⟨⟨p, hi⟩, hl, hr⟩ := ht
    refine ⟨?_, ihl hl, ihr hr⟩
    have htail : tail none r = r.addr := by cases r <;> rfl
    have hp : (h i).bind Node.p = p := by rw [hi, Option.bind_some]
    dsimp only
    rw [hp, htail, hi]

/-- The root points to a binary tree of nodes that were allocated, of any shape and order. -/
structure Grows (list : AVL σ) (t : LTree Item) : Prop where
  root : list.links.root = t.addr
  children : Children list.links.heap t
  nodup : t.ids.Nodup
  allocated : ∀ i ∈ t.ids, i < list.next

theorem Grows.length_lt {list : AVL σ} {t : LTree Item} (h : Grows list t) :
    t.ids.length < list.fuel := by
  have hsub : t.ids ⊆ List.range list.next := fun i hi => List.mem_range.mpr (h.allocated i hi)
  have hle := (List.subperm_of_subset h.nodup hsub).length_le
  rw [List.length_range] at hle
  exact Nat.lt_add_right 1 (Nat.lt_succ_of_le hle)

/-- With an allocator that does not reset, the traversal ends for every binary tree. It frees each
of its nodes once, in their order, and leaves every other address as it is; as an address without
a node cannot be read or written, no node is used after it was freed. -/
theorem deallocateTree_frees (list : AVL σ) (t : LTree Item) (h : Grows list t)
    (hreset : (allocator.reset list.alloc).1 = false) :
    ∃ list', deallocateTree allocator list = some list' ∧
      list'.alloc = freeAll allocator t.entries (allocator.reset list.alloc).2 ∧
      (t.entries.map Prod.fst).Nodup ∧ (t.entries.map Prod.fst).Perm t.ids ∧
      ∀ i, list'.links.heap i = if i ∈ t.ids then none else list.links.heap i := by
  have hdealloc : deallocateTree allocator list = deallocateNodes allocator (2 * list.fuel)
      { list with alloc := (allocator.reset list.alloc).2 } list.links.root := by
    have hpair : allocator.reset list.alloc = (false, (allocator.reset list.alloc).2) := by
      rw [← hreset]
    rw [deallocateTree, hpair]
  have hperm := ids_perm_entries t
  have hlen := h.length_lt
  have hrounds := rounds_le t
  have hspec (qs : List (Piece (Node Item)))
      (hqs : Holds list.links.heap
        (thread (fun i => (list.links.heap i).bind Node.p) none t :: qs)) :=
    deallocateNodes_spec allocator { list with alloc := (allocator.reset list.alloc).2 } hqs hlen
      (by omega : rounds t < 2 * list.fuel)
  have hthread := threaded_of_children h.children
  obtain ⟨list', e, -, -, -, halloc, hnone, -⟩ := hspec []
    ⟨fun x hx => List.mem_singleton.mp hx ▸ hthread, by simpa [idsOf, thread] using h.nodup⟩
  refine ⟨list', ?_, halloc, hperm.nodup_iff.mp h.nodup, hperm.symm, fun i => ?_⟩
  · rw [hdealloc, h.root]
    exact e
  · by_cases hi : i ∈ t.ids
    · rw [if_pos hi]
      exact hnone i hi
    · rw [if_neg hi]
      -- an address outside the tree, with whatever is there, is a piece of its own
      obtain ⟨list2, e2, -, -, -, -, -, hqs⟩ := hspec [slot i (list.links.heap i)]
        ⟨fun x hx => by
          rcases List.mem_cons.mp hx with rfl | hx
          · exact hthread
          · rw [List.mem_singleton.mp hx]
            exact rfl,
        by
          have hnd : (t.ids ++ [i]).Nodup :=
            List.nodup_append.mpr ⟨h.nodup, List.nodup_singleton i, fun a ha b hb => by
              rw [List.mem_singleton.mp hb]
              exact fun hab => hi (hab ▸ ha)⟩
          exact hnd⟩
      obtain rfl := Option.some_inj.mp (e.symm.trans e2)
      exact hqs.all _ (List.mem_singleton.mpr rfl)

end Clear

section Recorded

/-- An allocator that does not reset and writes down what it gets back. -/
def recorder : Allocator (List ℕ) where
  xallocate _ freed := (none, freed)
  xdeallocate address freed := freed ++ [address]
  owns _ _ := true
  reset freed := (false, freed)

/-- A pair of one letter in a node. -/
def item (b : Bytes.Byte) (address : ℕ) : Item := ⟨0, Pairs.letter b 1, address⟩

/-- Three nodes with children on both sides. -/
def forked : LTree Item :=
  node 1 (item 98 640) (node 0 (item 97 600) nil nil) (node 2 (item 99 680) nil nil)

/-- The three nodes in memory, with parents that mean nothing. -/
def planted : AVL (List ℕ) where
  links :=
    { heap := fun i =>
        if i = 0 then some ⟨none, none, some 2, item 97 600⟩
        else if i = 1 then some ⟨some 0, some 2, some 0, item 98 640⟩
        else if i = 2 then some ⟨none, none, none, item 99 680⟩
        else none
      root := some 1 }
  next := 3
  lc := ListCounter.zero
  alloc := []

theorem grows_planted : Grows planted forked where
  root := rfl
  children := ⟨⟨some 0, rfl⟩, ⟨⟨some 2, rfl⟩, trivial, trivial⟩, ⟨⟨none, rfl⟩, trivial, trivial⟩⟩
  nodup := by decide
  allocated := by decide

theorem deallocateTree_frees_planted : ∃ list', deallocateTree recorder planted = some list' ∧
    list'.alloc = freeAll recorder forked.entries [] ∧
    (forked.entries.map Prod.fst).Nodup ∧ (forked.entries.map Prod.fst).Perm forked.ids ∧
    ∀ i, list'.links.heap i = if i ∈ forked.ids then none else planted.links.heap i :=
  deallocateTree_frees recorder planted forked grows_planted rfl

end Recorded

end HM4.AVLClear
