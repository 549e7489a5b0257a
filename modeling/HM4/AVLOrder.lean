import HM4.AVLBalance

/-!
# Searching and iterating in the AVL list

A search goes down along frames below and above the key. The next node in either
direction is the nearest one below the node on that side, or the first one above it
that has the node on the other side; from node to node iteration visits the whole
order.
-/

namespace HM4.AVLOrder

open LexPrefix Bytes Pairs DiskTable BoundedSearch LinkedTree LinkedTree.LTree LinkedTree.Ctx
  LinkedTree.Links AVLList AVLBalance

/-! ## Orders in both directions -/

/-- The number of a node and its pair. -/
def shown (e : ℕ × Item) : ℕ × Pair := (e.1, e.2.data)

/-- The nodes of a tree in the order of a direction. -/
def run (d : Dir) (t : LTree Item) : List (ℕ × Pair) :=
  match d with
  | .left => (cells t).reverse
  | .right => cells t

/-- What comes behind a hole in the order of a direction. -/
def ahead (d : Dir) (c : Ctx Item) : List (ℕ × Pair) :=
  match d with
  | .left => ((before c).map shown).reverse
  | .right => (after c).map shown

theorem run_nil (d : Dir) : run d nil = [] := by cases d <;> rfl

theorem ahead_nil (d : Dir) : ahead d [] = [] := by cases d <;> rfl

theorem cells_node (i : ℕ) (v : Item) (l r : LTree Item) :
    cells (node i v l r) = cells l ++ (i, v.data) :: cells r := by
  simp only [cells, entries, List.map_append, List.map_cons]

theorem run_join (d : Dir) (i : ℕ) (v : Item) (x y : LTree Item) :
    run d (join d i v x y) = run d y ++ (i, v.data) :: run d x := by
  cases d with
  | left =>
    simp only [run, join, cells_node, List.reverse_append, List.reverse_cons, List.append_assoc,
      List.cons_append, List.nil_append]
  | right => exact cells_node i v y x

theorem ahead_same (d : Dir) (i : ℕ) (v : Item) (sib : LTree Item) (c : Ctx Item) :
    ahead d (⟨d, i, v, sib⟩ :: c) = ahead d c := by cases d <;> rfl

theorem ahead_other (d : Dir) (i : ℕ) (v : Item) (sib : LTree Item) (c : Ctx Item) :
    ahead d (⟨d.flip, i, v, sib⟩ :: c) = (i, v.data) :: (run d sib ++ ahead d c) := by
  cases d with
  | left =>
    simp only [ahead, Dir.flip, before, run, cells, List.map_append, List.map_cons, List.map_nil,
      List.reverse_append, List.reverse_cons, List.reverse_nil, List.nil_append, List.cons_append]
    rfl
  | right =>
    simp only [ahead, Dir.flip, after, run, cells, List.map_append, List.map_cons, List.cons_append]
    rfl

theorem ahead_append (d : Dir) (c1 c2 : Ctx Item) :
    ahead d (c1 ++ c2) = ahead d c1 ++ ahead d c2 := by
  induction c1 with
  | nil => rw [ahead_nil]; rfl
  | cons f c1 ih =>
    obtain ⟨e, i, v, sib⟩ := f
    by_cases he : e = d
    · subst he
      rw [List.cons_append, ahead_same, ahead_same, ih]
    · obtain rfl : e = d.flip := by cases e <;> cases d <;> first | rfl | exact absurd rfl he
      rw [List.cons_append, ahead_other, ahead_other, ih, List.cons_append, List.append_assoc]

/-- Induction over a tree whose nodes are seen from one side. -/
theorem join_induction (d : Dir) {P : LTree Item → Prop} (hnil : P nil)
    (hjoin : ∀ i v x y, P x → P y → P (join d i v x y)) (t : LTree Item) : P t := by
  induction t with
  | nil => exact hnil
  | node i v l r ihl ihr =>
    cases d with
    | left => exact hjoin i v l r ihl ihr
    | right => exact hjoin i v r l ihr ihl

/-- Every node of the order can be taken into focus. -/
theorem exists_focus {d : Dir} {t : LTree Item} {l1 l2 : List (ℕ × Pair)} {j : ℕ} {p : Pair}
    (h : run d t = l1 ++ (j, p) :: l2) :
    ∃ c v x y, t = plug c (join d j v x y) ∧ v.data = p ∧ l2 = run d x ++ ahead d c := by
  induction t using join_induction d generalizing l1 l2 with
  | hnil =>
    rw [run_nil] at h
    exact absurd h (List.append_ne_nil_of_right_ne_nil l1 (List.cons_ne_nil _ l2)).symm
  | hjoin i v x y ihx ihy =>
    rw [run_join] at h
    rcases List.append_eq_append_iff.mp h with ⟨as, h1, h2⟩ | ⟨bs, h1, h2⟩
    · cases as with
      | nil =>
        obtain ⟨he, hl⟩ := List.cons.inj h2
        obtain ⟨rfl, rfl⟩ := Prod.mk.inj he
        exact ⟨[], v, x, y, rfl, rfl, by rw [ahead_nil, List.append_nil, hl]⟩
      | cons a as =>
        rw [List.cons_append] at h2
        obtain ⟨_, hl⟩ := List.cons.inj h2
        obtain ⟨c, w, x', y', hx, hw, hl2⟩ := ihx hl
        refine ⟨c ++ [⟨d, i, v, y⟩], w, x', y', ?_, hw, ?_⟩
        · rw [plug_append, ← hx]
          rfl
        · rw [ahead_append, ahead_same, ahead_nil, List.append_nil, hl2]
    · cases bs with
      | nil =>
        obtain ⟨he, hl⟩ := List.cons.inj h2
        obtain ⟨rfl, rfl⟩ := Prod.mk.inj he
        exact ⟨[], v, x, y, rfl, rfl, by rw [ahead_nil, List.append_nil, hl]⟩
      | cons b bs =>
        rw [List.cons_append] at h2
        obtain ⟨rfl, hl⟩ := List.cons.inj h2
        obtain ⟨c, w, x', y', hy, hw, hl2⟩ := ihy h1
        refine ⟨c ++ [⟨d.flip, i, v, x⟩], w, x', y', ?_, hw, ?_⟩
        · rw [plug_append, ← hy, plug, plug, join_flip]
        · rw [ahead_append, ahead_other, ahead_nil, List.append_nil, hl, hl2, List.append_assoc]

/-! ## Iterating -/

/-- Going down on a side as far as possible ends at a node without a child there. -/
theorem getEndNode_focus {d : Dir} {s : Links Item} {c : Ctx Item} {t : LTree Item} {i fuel : ℕ}
    (h : s.Stands (plug c t)) (ha : t.addr = some i) (hf : t.height < fuel) :
    ∃ c2 j v y, getEndNode d s fuel i = some j ∧ t = plug c2 (join d j v nil y) ∧
      ∀ f ∈ c2, f.dir = d := by
  obtain ⟨fuel, rfl⟩ : ∃ m, fuel = m + 1 := ⟨fuel - 1, by omega⟩
  induction t using join_induction d generalizing c i fuel with
  | hnil => exact absurd ha.symm (Option.some_ne_none i)
  | hjoin k v x y ihx ihy =>
    rw [addr_join, Option.some_inj] at ha
    subst ha
    have hget := h.get_eq
    rw [height_join] at hf
    cases hx : x.addr with
    | none =>
      refine ⟨[], k, v, y, ?_, ?_, fun f hf => absurd hf List.not_mem_nil⟩
      · simp only [getEndNode, hget, Node.child_mk', hx, Option.bind_eq_bind, Option.bind_some]
      · rw [addr_eq_none.mp hx]
        rfl
    | some m =>
      have hchild : s.Stands (plug (⟨d, k, v, y⟩ :: c) x) := h
      obtain ⟨fuel, rfl⟩ : ∃ n, fuel = n + 1 := ⟨fuel - 1, by omega⟩
      obtain ⟨c2, j, w, y', he, hx', hdir⟩ := ihx hchild hx fuel (by omega)
      refine ⟨c2 ++ [⟨d, k, v, y⟩], j, w, y', ?_, ?_, ?_⟩
      · rw [getEndNode]
        simp only [hget, Node.child_mk', hx, he, Option.bind_eq_bind, Option.bind_some]
      · rw [plug_append, ← hx']
        rfl
      · intro f hf
        rcases List.mem_append.mp hf with hf | hf
        · exact hdir f hf
        · rw [List.mem_singleton.mp hf]

/-- What is in a hole comes first if all frames have it on the other side. -/
theorem run_plug_of_flip {d : Dir} {c : Ctx Item} (hc : ∀ f ∈ c, f.dir = d.flip) (t : LTree Item) :
    run d (plug c t) = run d t ++ ahead d c := by
  induction c generalizing t with
  | nil => rw [ahead_nil, List.append_nil, plug]
  | cons f c ih =>
    obtain ⟨e, i, v, sib⟩ := f
    obtain rfl : e = d.flip := hc _ List.mem_cons_self
    rw [plug, ih fun f hf => hc f (List.mem_cons_of_mem _ hf), join_flip, run_join, ahead_other,
      List.append_assoc, List.cons_append]

/-- Going down on the other side as far as possible ends at the first node. -/
theorem getEndNode_spec {d : Dir} {s : Links Item} {c : Ctx Item} {t : LTree Item} {i fuel : ℕ}
    (h : s.Stands (plug c t)) (ha : t.addr = some i) (hf : t.height < fuel) :
    ∃ j p rest, getEndNode d.flip s fuel i = some j ∧ run d t = (j, p) :: rest := by
  obtain ⟨c2, j, v, y, he, ht, hdir⟩ := getEndNode_focus (d := d.flip) h ha hf
  rw [join_flip] at ht
  have hrun : run d t = (j, v.data) :: (run d y ++ ahead d c2) := by
    rw [ht, run_plug_of_flip hdir, run_join, run_nil]
    rfl
  exact ⟨j, v.data, _, he, hrun⟩

/-- Going up ends at the first node that has the subtree on the other side. -/
theorem goUp_spec {d : Dir} {s : Links Item} {c : Ctx Item} {t : LTree Item} {n fuel : ℕ}
    (h : s.Stands (plug c t)) (ha : t.addr = some n) (hf : c.length < fuel) :
    goUp d s fuel n (parent none c) = some ((ahead d c).head?.map Prod.fst) := by
  obtain ⟨fuel, rfl⟩ : ∃ m, fuel = m + 1 := ⟨fuel - 1, by omega⟩
  induction c generalizing t n fuel with
  | nil =>
    rw [ahead_nil]
    rfl
  | cons f c ih =>
    obtain ⟨e, i, v, sib⟩ := f
    have hp : s.Stands (plug c (join e i v t sib)) := h
    have hget := hp.get_eq
    rw [List.length_cons] at hf
    obtain ⟨fuel, rfl⟩ : ∃ m, fuel = m + 1 := ⟨fuel - 1, by omega⟩
    by_cases he : e = d
    · subst he
      rw [parent_cons, goUp, ahead_same]
      simp only [hget, Node.child_mk', ha, if_true, Node.p_mk', Option.bind_eq_bind,
        Option.bind_some]
      exact ih hp (addr_join e i v t sib) fuel (by omega)
    · obtain rfl : e = d.flip := by cases e <;> cases d <;> first | rfl | exact absurd rfl he
      have hsib : sib.addr ≠ some n := fun hs =>
        h.disjoint (List.mem_cons_of_mem _ (List.mem_append_left _ (addr_mem hs))) (addr_mem ha) rfl
      rw [Node.mk'_flip] at hget
      rw [parent_cons, goUp, ahead_other]
      simp only [hget, Node.child_mk', if_neg hsib, Option.bind_eq_bind, Option.bind_some,
        List.head?_cons, Option.map_some]

/-- The next node in a direction. -/
theorem getNextNode_spec {d : Dir} {s : Links Item} {c : Ctx Item} {i fuel : ℕ} {v : Item}
    {x y : LTree Item} (h : s.Stands (plug c (join d i v x y))) (hx : x.height < fuel)
    (hc : c.length < fuel) :
    getNextNode d s fuel i = some ((run d x ++ ahead d c).head?.map Prod.fst) := by
  have hget := h.get_eq
  cases ha : x.addr with
  | none =>
    rw [addr_eq_none.mp ha, run_nil, List.nil_append]
    simp only [getNextNode, hget, Node.child_mk', Node.p_mk', ha, Option.bind_eq_bind,
      Option.bind_some]
    exact goUp_spec h (addr_join d i v x y) hc
  | some m =>
    have hchild : s.Stands (plug (⟨d, i, v, y⟩ :: c) x) := h
    obtain ⟨j, p, rest, he, hr⟩ := getEndNode_spec (d := d) hchild ha hx
    rw [hr]
    simp only [getNextNode, hget, Node.child_mk', ha, he, Option.bind_eq_bind, Option.bind_some,
      Option.pure_def, List.cons_append, List.head?_cons, Option.map_some]

/-- Iterating in a direction from any node shows that pair and all behind it. -/
theorem iterate_spec {d : Dir} {s : Links Item} {t : LTree Item} {fuel k : ℕ}
    (h : s.Stands t) (hf : t.ids.length < fuel) {l1 l2 : List (ℕ × Pair)}
    (hrun : run d t = l1 ++ l2) (hk : l2.length < k) :
    iterate d s fuel k (l2.head?.map Prod.fst) = some (l2.map Prod.snd) := by
  obtain ⟨k, rfl⟩ : ∃ m, k = m + 1 := ⟨k - 1, by omega⟩
  induction l2 generalizing l1 k with
  | nil => rfl
  | cons e l2 ih =>
    obtain ⟨j, p⟩ := e
    obtain ⟨c, v, x, y, rfl, rfl, hl2⟩ := exists_focus hrun
    rw [List.length_cons] at hk
    obtain ⟨k, rfl⟩ : ∃ m, k = m + 1 := ⟨k - 1, by omega⟩
    have hw : c.length ≤ _ ∧ (join d j v x y).height ≤ _ := ways_le le_rfl
    rw [height_join] at hw
    have hnext : getNextNode d s fuel j = some ((run d x ++ ahead d c).head?.map Prod.fst) :=
      getNextNode_spec h (by omega) (by omega)
    rw [← hl2] at hnext
    have hrun' : run d (plug c (join d j v x y)) = (l1 ++ [(j, v.data)]) ++ l2 := by
      rw [List.append_assoc]
      exact hrun
    have hrest := ih hrun' k (by omega)
    rw [List.head?_cons, Option.map_some, iterate]
    simp only [h.get_eq, hnext, hrest, Node.val_mk', Option.bind_eq_bind, Option.bind_some,
      Option.pure_def, List.map_cons]

end HM4.AVLOrder
